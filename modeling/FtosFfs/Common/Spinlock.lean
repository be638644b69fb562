import FtosFfs.Lib.Machine
import Mathlib.Logic.Function.Basic

/-! Spin locks, `common/spinlock.c`, one access to the lock at a time: any number of CPUs that call the
functions of a lock in any order. -/

namespace FtosFfs.Common.Spinlock

open Lib

/-- `SpinLock`. -/
structure SpinLock (κ : Type) where
  locked : Bool
  cpu : Option κ

/-- The functions that begin with `holding_spinlock`, and it alone. -/
inductive Caller
  | acquire | release | holding
deriving DecidableEq

inductive Call
  | acquire | release | holding | tryAcquire
deriving DecidableEq

/-- Where a CPU stands in the functions of the lock: `had` tells whether it had the lock when it called, and
`again` whether a try that fails is repeated. -/
inductive Point
  | out
  | held
  /-- `holding_spinlock` reads `lock->locked`. -/
  | readLocked (f : Caller) (had : Bool)
  /-- `holding_spinlock` reads `lock->cpu`. -/
  | readCpu (f : Caller) (had : Bool)
  /-- `holding_spinlock` returned `b`. -/
  | answer (had b : Bool)
  /-- `try_acquire_spinlock` reads `lock->locked`. -/
  | tryRead (again had : Bool)
  | testAndSet (again had : Bool)
  /-- `try_acquire_spinlock` writes `lock->cpu`. -/
  | setCpu
  /-- `release_spinlock` writes `lock->cpu`. -/
  | clearCpu
  | clear
  | panic (f : Caller) (had : Bool)
deriving DecidableEq

/-- The CPU has the lock: from the test that set it to the write that clears it. -/
def Point.Inside : Point → Prop
  | .held | .setCpu | .clearCpu | .clear => True
  | .readLocked _ had | .readCpu _ had | .answer had _ | .tryRead _ had | .testAndSet _ had | .panic _ had => had
  | .out => False

/-- The CPU has the lock and is the one in `lock->cpu`. -/
def Point.Named : Point → Prop
  | .setCpu | .clear => False
  | p => p.Inside

/-- `holding_spinlock` tells the truth, only misuse panics, and who has the lock does not wait for it. -/
def Point.Right : Point → Prop
  | .answer had b => b = had
  | .panic .acquire had => had = true
  | .panic .release had => had = false
  | .panic .holding _ => False
  | .tryRead again had | .testAndSet again had => again = true → had = false
  | _ => True

/-- After a call that does not change whether the CPU has the lock. -/
def Point.back (had : Bool) : Point := if had then .held else .out

/-- After `holding_spinlock` in `f`. -/
def Caller.after (had b : Bool) : Caller → Point
  | .acquire => if b then .panic .acquire had else .tryRead true had
  | .release => if b then .clearCpu else .panic .release had
  | .holding => .answer had b

/-- The first access of a call. -/
def Call.start (had : Bool) : Call → Point
  | .acquire => .readLocked .acquire had
  | .release => .readLocked .release had
  | .holding => .readLocked .holding had
  | .tryAcquire => .tryRead false had

structure State (κ : Type) where
  lock : SpinLock κ
  pc : κ → Point

inductive Label (κ : Type)
  | call (c : κ) (f : Call)
  | step (c : κ)

def Label.cpu {κ : Type} : Label κ → κ
  | .call c _ | .step c => c

section

variable {κ : Type} [DecidableEq κ]

def State.goto (s : State κ) (c : κ) (p : Point) : State κ := { s with pc := Function.update s.pc c p }

def State.setLock (s : State κ) (l : SpinLock κ) : State κ := { s with lock := l }

/-- The next access of CPU `c`. -/
def step (s : State κ) (c : κ) : Option (State κ) :=
  match s.pc c with
  | .out | .held | .panic _ _ => none
  | .readLocked f had => some (s.goto c (if s.lock.locked then .readCpu f had else f.after had false))
  | .readCpu f had => some (s.goto c (f.after had (s.lock.cpu = some c)))
  | .answer had _ => some (s.goto c (.back had))
  | .tryRead again had =>
    some (s.goto c (if !s.lock.locked then .testAndSet again had
      else if again then .tryRead again had else .back had))
  | .testAndSet again had =>
    if s.lock.locked then some (s.goto c (if again then .tryRead again had else .back had))
    else some ((s.setLock { s.lock with locked := true }).goto c .setCpu)
  | .setCpu => some ((s.setLock { s.lock with cpu := some c }).goto c .held)
  | .clearCpu => some ((s.setLock { s.lock with cpu := none }).goto c .clear)
  | .clear => some ((s.setLock { s.lock with locked := false }).goto c .out)

/-- A spin lock after `init_spinlock`, and the CPUs that use it. -/
def spinlock (κ : Type) [DecidableEq κ] : Machine (State κ) (Label κ) where
  init s := s.lock = ⟨false, none⟩ ∧ ∀ c, s.pc c = .out
  next s
    | .call c f =>
      if s.pc c = .out then some (s.goto c (f.start false))
      else if s.pc c = .held then some (s.goto c (f.start true))
      else none
    | .step c => step s c

/-- The lock is that of the CPU that has it. -/
structure Sound (s : State κ) : Prop where
  exclusive : ∀ c d, (s.pc c).Inside → (s.pc d).Inside → c = d
  locked : s.lock.locked = true ↔ ∃ c, (s.pc c).Inside
  cpu : ∀ c, s.lock.cpu = some c ↔ (s.pc c).Named
  right : ∀ c, (s.pc c).Right

variable {s s' : State κ} {c d : κ} {p : Point}

@[simp] theorem goto_pc_self : (s.goto c p).pc c = p := Function.update_self ..

theorem goto_pc_ne (h : d ≠ c) : (s.goto c p).pc d = s.pc d := Function.update_of_ne h _ _

theorem Point.Named.inside {p : Point} (h : p.Named) : p.Inside := by
  cases p <;> first | exact h | exact h.elim

/-- A step that neither takes the lock nor gives it up. -/
theorem Sound.stay (h : Sound s) (hin : p.Inside ↔ (s.pc c).Inside) (hnamed : p.Named ↔ (s.pc c).Named)
    (hright : p.Right) : Sound (s.goto c p) := by
  have hins (d : κ) : ((s.goto c p).pc d).Inside ↔ (s.pc d).Inside := by
    by_cases hd : d = c
    · rw [hd, goto_pc_self, hin]
    · rw [goto_pc_ne hd]
  constructor
  case exclusive => exact fun d e hd he => h.exclusive d e ((hins d).mp hd) ((hins e).mp he)
  case locked => exact h.locked.trans (exists_congr fun d => (hins d).symm)
  case cpu =>
    intro d
    by_cases hd : d = c
    · rw [hd, goto_pc_self, hnamed]
      exact h.cpu c
    · rw [goto_pc_ne hd]
      exact h.cpu d
  case right =>
    intro d
    by_cases hd : d = c
    · rwa [hd, goto_pc_self]
    · rw [goto_pc_ne hd]
      exact h.right d

/-- A step of the only CPU that may have the lock. -/
theorem Sound.change (h : Sound s) {l : SpinLock κ} (halone : ∀ d, d ≠ c → ¬(s.pc d).Inside)
    (hlocked : l.locked = true ↔ p.Inside) (hcpu : l.cpu = some c ↔ p.Named)
    (hother : ∀ d, d ≠ c → l.cpu ≠ some d)
    (hright : p.Right) : Sound ((s.setLock l).goto c p) := by
  have hins {d : κ} (hd : (((s.setLock l).goto c p).pc d).Inside) : d = c := by
    by_contra hne
    rw [goto_pc_ne hne] at hd
    exact halone d hne hd
  constructor
  case exclusive => exact fun d e hd he => (hins hd).trans (hins he).symm
  case locked =>
    refine hlocked.trans ⟨fun hp => ⟨c, by rwa [goto_pc_self]⟩, fun hex => ?_⟩
    obtain ⟨d, hd⟩ := hex
    obtain rfl := hins hd
    rwa [goto_pc_self] at hd
  case cpu =>
    intro d
    by_cases hd : d = c
    · rw [hd, goto_pc_self]
      exact hcpu
    · rw [goto_pc_ne hd]
      exact iff_of_false (hother d hd) fun hnamed => halone d hd hnamed.inside
  case right =>
    intro d
    by_cases hd : d = c
    · rwa [hd, goto_pc_self]
    · rw [goto_pc_ne hd]
      exact h.right d

omit [DecidableEq κ] in
theorem Sound.had_false (h : Sound s) (hl : ¬s.lock.locked = true) {had : Bool}
    (hin : (s.pc c).Inside ↔ had = true) :
    had = false := by
  cases had with
  | false => rfl
  | true => exact absurd (h.locked.mpr ⟨c, hin.mpr rfl⟩) hl

/-- The CPU in `lock->cpu` is right when `holding_spinlock` of `c` reads it. -/
theorem Sound.cpu_reads (h : Sound s) {f : Caller} {had : Bool} (hat : s.pc c = .readCpu f had) :
    decide (s.lock.cpu = some c) = had := by
  have hcpu := h.cpu c
  rw [hat] at hcpu
  have hcpu : s.lock.cpu = some c ↔ had = true := hcpu
  cases had with
  | false => exact decide_eq_false fun hc => Bool.false_ne_true (hcpu.mp hc)
  | true => exact decide_eq_true (hcpu.mpr rfl)

theorem after_inside (f : Caller) (had : Bool) : (f.after had had).Inside ↔ had = true := by
  cases f <;> cases had <;> simp [Caller.after, Point.Inside]

theorem after_named (f : Caller) (had : Bool) : (f.after had had).Named ↔ had = true := by
  cases f <;> cases had <;> simp [Caller.after, Point.Named, Point.Inside]

theorem after_right (f : Caller) (had : Bool) : (f.after had had).Right := by
  cases f <;> cases had <;> simp [Caller.after, Point.Right]

theorem back_inside (had : Bool) : (Point.back had).Inside ↔ had = true := by
  cases had <;> simp [Point.back, Point.Inside]

theorem back_named (had : Bool) : (Point.back had).Named ↔ had = true := by
  cases had <;> simp [Point.back, Point.Named, Point.Inside]

theorem back_right (had : Bool) : (Point.back had).Right := by
  cases had <;> trivial

omit [DecidableEq κ] in
theorem Sound.alone (h : Sound s) (hc : (s.pc c).Inside) (d : κ) (hd : d ≠ c) : ¬(s.pc d).Inside :=
  fun hin => hd (h.exclusive d c hin hc)

theorem Sound.step (h : Sound s) (hs : step s c = some s') : Sound s' := by
  unfold Spinlock.step at hs
  cases hat : s.pc c with
  | out | held | panic f had =>
    rw [hat] at hs
    cases hs
  | readLocked f had =>
    rw [hat] at hs
    cases hs
    by_cases hl : s.lock.locked = true
    · rw [if_pos hl]
      exact h.stay (by rw [hat]; rfl) (by rw [hat]; rfl) trivial
    · have hin : (s.pc c).Inside ↔ had = true := by
        rw [hat]
        rfl
      obtain rfl := h.had_false hl hin
      rw [if_neg hl]
      exact h.stay (by rw [hat]; exact after_inside f false) (by rw [hat]; exact after_named f false)
        (after_right f false)
  | readCpu f had =>
    rw [hat] at hs
    cases hs
    rw [h.cpu_reads hat]
    exact h.stay (by rw [hat]; exact after_inside f had) (by rw [hat]; exact after_named f had)
      (after_right f had)
  | answer had b =>
    rw [hat] at hs
    cases hs
    exact h.stay (by rw [hat]; exact back_inside had) (by rw [hat]; exact back_named had) (back_right had)
  | tryRead again had =>
    rw [hat] at hs
    cases hs
    have hright := h.right c
    rw [hat] at hright
    cases hl : s.lock.locked with
    | true =>
      rw [Bool.not_true, if_neg Bool.false_ne_true]
      split
      · exact h.stay (by rw [hat]) (by rw [hat]) hright
      · exact h.stay (by rw [hat]; exact back_inside had) (by rw [hat]; exact back_named had) (back_right had)
    | false =>
      rw [Bool.not_false, if_pos rfl]
      exact h.stay (by rw [hat]; rfl) (by rw [hat]; rfl) hright
  | testAndSet again had =>
    rw [hat] at hs
    have hright := h.right c
    rw [hat] at hright
    by_cases hl : s.lock.locked = true
    · simp only [if_pos hl] at hs
      cases hs
      split
      · exact h.stay (by rw [hat]; rfl) (by rw [hat]; rfl) hright
      · exact h.stay (by rw [hat]; exact back_inside had) (by rw [hat]; exact back_named had) (back_right had)
    · simp only [if_neg hl] at hs
      cases hs
      -- Nobody has the lock, so nobody is in `lock->cpu`.
      have hfree (d : κ) : ¬(s.pc d).Inside := fun hd => hl (h.locked.mpr ⟨d, hd⟩)
      have hno (d : κ) : s.lock.cpu ≠ some d := fun hd => hfree d ((h.cpu d).mp hd).inside
      exact h.change (fun d _ => hfree d) (iff_of_true rfl trivial) (iff_of_false (hno c) id)
        (fun d _ => hno d) trivial
  | setCpu =>
    rw [hat] at hs
    cases hs
    have hin : (s.pc c).Inside := by rw [hat]; trivial
    exact h.change (h.alone hin) (iff_of_true (h.locked.mpr ⟨c, hin⟩) trivial) (iff_of_true rfl trivial)
      (fun d hd heq => hd (Option.some.inj heq).symm) trivial
  | clearCpu =>
    rw [hat] at hs
    cases hs
    have hin : (s.pc c).Inside := by rw [hat]; trivial
    exact h.change (h.alone hin) (iff_of_true (h.locked.mpr ⟨c, hin⟩) trivial) (iff_of_false (by simp) id)
      (fun d _ heq => by cases heq) trivial
  | clear =>
    rw [hat] at hs
    cases hs
    have hin : (s.pc c).Inside := by rw [hat]; trivial
    have halone := h.alone hin
    have hno : s.lock.cpu ≠ some c := fun heq => by
      have hnamed := (h.cpu c).mp heq
      rw [hat] at hnamed
      exact hnamed
    exact h.change halone (iff_of_false Bool.false_ne_true id) (iff_of_false hno id)
      (fun d hd heq => halone d hd ((h.cpu d).mp heq).inside) trivial

theorem start_inside (f : Call) (had : Bool) : (f.start had).Inside ↔ had = true := by
  cases f <;> rfl

theorem start_named (f : Call) (had : Bool) : (f.start had).Named ↔ had = true := by
  cases f <;> rfl

theorem start_right (f : Call) (had : Bool) : (f.start had).Right := by
  cases f
  case tryAcquire => exact fun h => by cases h
  all_goals trivial

theorem Sound.next (h : Sound s) {a : Label κ} (hn : (spinlock κ).next s a = some s') : Sound s' := by
  cases a with
  | step c => exact h.step hn
  | call c f =>
    simp only [spinlock] at hn
    split at hn
    case isTrue hout =>
      cases hn
      refine h.stay ?_ ?_ (start_right f false)
      · rw [hout, start_inside]
        exact iff_of_false Bool.false_ne_true id
      · rw [hout, start_named]
        exact iff_of_false Bool.false_ne_true id
    case isFalse =>
      rw [Option.ite_none_right_eq_some] at hn
      obtain ⟨hheld, hn⟩ := hn
      cases hn
      refine h.stay ?_ ?_ (start_right f true)
      · rw [hheld, start_inside]
        exact iff_of_true rfl trivial
      · rw [hheld, start_named]
        exact iff_of_true rfl trivial

theorem sound_reachable (h : (spinlock κ).Reachable s) : Sound s := by
  apply h.invariant
  · rintro s ⟨hlock, hpc⟩
    constructor
    case exclusive =>
      intro c d hc
      rw [hpc c] at hc
      exact hc.elim
    case locked =>
      rw [hlock]
      refine iff_of_false Bool.false_ne_true ?_
      rintro ⟨c, hc⟩
      rw [hpc c] at hc
      exact hc
    case cpu =>
      intro c
      rw [hlock, hpc c]
      exact iff_of_false (by simp) id
    case right =>
      intro c
      rw [hpc c]
      trivial
  · exact fun s a s' hs hn => hs.next hn

/-! ### The lock as its callers see it -/

/-- `o` is the CPU that has the lock. -/
def Represents (s : State κ) (o : Option κ) : Prop := ∀ c, (s.pc c).Inside ↔ o = some c

omit [DecidableEq κ] in
theorem Sound.represents (h : Sound s) : ∃ o, Represents s o := by
  by_cases hex : ∃ c, (s.pc c).Inside
  · obtain ⟨c, hc⟩ := hex
    refine ⟨some c, fun d => ⟨fun hd => ?_, fun heq => ?_⟩⟩
    · rw [h.exclusive c d hc hd]
    · rwa [← Option.some.inj heq]
  · refine ⟨none, fun c => ⟨fun hc => absurd ⟨c, hc⟩ hex, fun heq => ?_⟩⟩
    cases heq

theorem next_pc_ne {a : Label κ} (hn : (spinlock κ).next s a = some s') (hd : d ≠ a.cpu) :
    s'.pc d = s.pc d := by
  cases a with
  | call c f =>
    simp only [spinlock] at hn
    split at hn
    case isTrue =>
      cases hn
      exact goto_pc_ne hd
    case isFalse =>
      rw [Option.ite_none_right_eq_some] at hn
      obtain ⟨-, hn⟩ := hn
      cases hn
      exact goto_pc_ne hd
  | step c =>
    have hn : step s c = some s' := hn
    unfold step at hn
    split at hn
    case h_1 | h_2 | h_3 => cases hn
    case h_8 =>
      split at hn <;> cases hn <;> exact goto_pc_ne hd
    all_goals
      cases hn
      exact goto_pc_ne hd

/-- What the functions make of a lock that `o` has: `holding_spinlock` tells who has it, and the checks at the
start of `acquire_spinlock` and `release_spinlock` panic on misuse, and only then. -/
structure Checked (s : State κ) (o : Option κ) : Prop where
  answer : ∀ c had b, s.pc c = .answer had b → (b = true ↔ o = some c)
  /-- In `acquire_spinlock` only a CPU without the lock gets past the check. -/
  tries : ∀ c had, s.pc c = .tryRead true had ∨ s.pc c = .testAndSet true had → o ≠ some c
  acquirePanic : ∀ c had, s.pc c = .panic .acquire had → o = some c
  releasePanic : ∀ c had, s.pc c = .panic .release had → o ≠ some c
  acquire : ∀ c had s', s.pc c = .readCpu .acquire had → step s c = some s' →
    s'.pc c = if o = some c then .panic .acquire had else .tryRead true had
  /-- `lock->locked` alone lets a CPU through to the loop only if it does not have the lock. -/
  acquireUnlocked : ∀ c had s', s.pc c = .readLocked .acquire had → step s c = some s' →
    s'.pc c = .readCpu .acquire had ∨ o ≠ some c ∧ s'.pc c = .tryRead true had
  release : ∀ c had s', s.pc c = .readCpu .release had → step s c = some s' →
    s'.pc c = if o = some c then .clearCpu else .panic .release had
  releaseUnlocked : ∀ c had s', s.pc c = .readLocked .release had → step s c = some s' →
    s'.pc c = .readCpu .release had ∨ o ≠ some c ∧ s'.pc c = .panic .release had

/-- The read of `lock->cpu` decides the check of `f`. -/
theorem Sound.readCpu_step (h : Sound s) {o : Option κ} (ho : Represents s o) {f : Caller} {had : Bool}
    (hat : s.pc c = .readCpu f had) (hs : Spinlock.step s c = some s') :
    s'.pc c = f.after had (o = some c) := by
  have hhad : had = decide (o = some c) := by
    have hc := ho c
    rw [hat] at hc
    exact Bool.eq_iff_iff.mpr (hc.trans (decide_eq_true_iff).symm)
  unfold Spinlock.step at hs
  rw [hat] at hs
  cases hs
  rw [goto_pc_self, h.cpu_reads hat, ← hhad]

/-- The read of `lock->locked` leaves the check of `f` to `lock->cpu`, or finds the lock free. -/
theorem Sound.readLocked_step (h : Sound s) {o : Option κ} (ho : Represents s o) {f : Caller} {had : Bool}
    (hat : s.pc c = .readLocked f had) (hs : Spinlock.step s c = some s') :
    s'.pc c = .readCpu f had ∨ o ≠ some c ∧ s'.pc c = f.after had false := by
  unfold Spinlock.step at hs
  rw [hat] at hs
  cases hs
  rw [goto_pc_self]
  by_cases hl : s.lock.locked = true
  · rw [if_pos hl]
    exact .inl rfl
  · rw [if_neg hl]
    refine .inr ⟨fun hc => hl (h.locked.mpr ⟨c, (ho c).mpr hc⟩), rfl⟩

theorem Sound.checked (h : Sound s) {o : Option κ} (ho : Represents s o) : Checked s o := by
  constructor
  case answer =>
    intro c had b hc
    have hright := h.right c
    rw [hc] at hright
    rw [← ho c, hc, show b = had from hright]
    rfl
  case tries =>
    intro c had hc
    have hright := h.right c
    obtain hc | hc := hc <;>
    · rw [hc] at hright
      rw [ne_eq, ← ho c, hc, show had = false from hright rfl]
      exact Bool.false_ne_true
  case acquirePanic =>
    intro c had hc
    have hright := h.right c
    rw [hc] at hright
    rw [← ho c, hc, show had = true from hright]
    rfl
  case releasePanic =>
    intro c had hc
    have hright := h.right c
    rw [hc] at hright
    rw [ne_eq, ← ho c, hc, show had = false from hright]
    exact Bool.false_ne_true
  case acquire =>
    intro c had s' hc hs
    rw [h.readCpu_step ho hc hs]
    by_cases hoc : o = some c <;> simp [Caller.after, hoc]
  case acquireUnlocked => exact fun c had s' hc hs => h.readLocked_step ho hc hs
  case release =>
    intro c had s' hc hs
    rw [h.readCpu_step ho hc hs]
    by_cases hoc : o = some c <;> simp [Caller.after, hoc]
  case releaseUnlocked => exact fun c had s' hc hs => h.readLocked_step ho hc hs

/-- The lock is an atomic one: at any time at most one CPU has it, the steps take it when it is free or give up
one's own, `holding_spinlock` tells who has it, and `acquire_spinlock` and `release_spinlock` panic exactly when
the caller has it and does not have it. -/
theorem spinlock_atomic (h : (spinlock κ).Reachable s) :
    ∃ o, Represents s o ∧ Checked s o ∧
      ∀ a s', (spinlock κ).next s a = some s' →
        ∃ o', Represents s' o' ∧ (o' = o ∨ o = none ∧ o' = some a.cpu ∨ o = some a.cpu ∧ o' = none) := by
  have hsound := sound_reachable h
  obtain ⟨o, ho⟩ := hsound.represents
  refine ⟨o, ho, hsound.checked ho, fun a s' hn => ?_⟩
  · have hsound' := hsound.next hn
    obtain ⟨o', ho'⟩ := hsound'.represents
    refine ⟨o', ho', ?_⟩
    have hkeep {d : κ} (hd : d ≠ a.cpu) : o = some d ↔ o' = some d := by
      rw [← ho d, ← ho' d, next_pc_ne hn hd]
    -- Who has the lock but is not the CPU of the step still has it.
    cases o with
    | none =>
      cases o' with
      | none => exact .inl rfl
      | some e =>
        by_cases he : e = a.cpu
        · exact .inr (.inl ⟨rfl, by rw [he]⟩)
        · cases (hkeep he).mpr rfl
    | some d =>
      by_cases hd : d = a.cpu
      · cases o' with
        | none => exact .inr (.inr ⟨by rw [hd], rfl⟩)
        | some e =>
          by_cases he : e = a.cpu
          · exact .inl (by rw [hd, he])
          · exact .inl ((hkeep he).mpr rfl).symm
      · exact .inl ((hkeep hd).mp rfl)

/-- CPU 1 waits for the lock of CPU 0, CPU 2 panics when it releases the lock, and CPU 0 when it takes the lock
again. -/
theorem spinlock_atomic_misuse : ∃ s : State (Fin 3), (spinlock (Fin 3)).Reachable s ∧
    (s.pc 0 = .panic .acquire true ∧ s.pc 1 = .tryRead true false ∧ s.pc 2 = .panic .release false) ∧
      ∃ o, Represents s o ∧ Checked s o ∧ o = some 0 := by
  have hrun : ((spinlock (Fin 3)).run ⟨⟨false, none⟩, fun _ => .out⟩
      [.call 0 .acquire, .call 1 .acquire, .step 0, .step 0, .step 1, .step 0, .step 1, .step 0, .step 1,
        .call 2 .release, .step 2, .step 2, .call 0 .acquire, .step 0, .step 0]).map
      (fun s => decide (s.pc 0 = .panic .acquire true ∧ s.pc 1 = .tryRead true false ∧
        s.pc 2 = .panic .release false)) = some true := by decide
  obtain ⟨s, hs, hp⟩ := Machine.Reachable.of_run (M := spinlock (Fin 3)) ⟨rfl, fun _ => rfl⟩ hrun
  have hp := of_decide_eq_true hp
  obtain ⟨o, ho, hc, -⟩ := spinlock_atomic hs
  exact ⟨s, hs, hp, o, ho, hc, hc.acquirePanic 0 true hp.1⟩

end

end FtosFfs.Common.Spinlock
