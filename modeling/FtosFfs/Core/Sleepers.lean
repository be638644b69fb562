import FtosFfs.Core.Sleeplock

/-! Who has the sleep locks: never two processes, and no process sleeps for a lock that is free unless a release
of it is under way that will wake it up. -/

namespace FtosFfs.Core.Sleeplock

open Lib

variable {κ ℓ : Type} {s s' : State κ ℓ} {c d : κ} {p q : Slot} {l : ℓ} {x y : Point ℓ}

/-- The process set `lock->locked` in the call it is in, or did not yet clear it. -/
def Point.Owns (l : ℓ) : Point ℓ → Prop
  | .taken k | .release k | .clear k => k = l
  | _ => False

/-- The process cleared `lock->locked` and is about to wake up the sleepers. -/
def Point.Wakes (l : ℓ) : Point ℓ → Prop
  | .cleared k | .wakeup k | .waking k => k = l
  | _ => False

/-- The process saw the lock taken and is about to sleep. -/
def Point.Dozes (l : ℓ) : Point ℓ → Prop
  | .unlock k | .doze k | .sched (.slept k) => k = l
  | _ => False

def State.Owns (s : State κ ℓ) (p : Slot) (l : ℓ) : Prop := s.held p l = true ∨ (s.pc p).Owns l

def State.Sleeper (s : State κ ℓ) (p : Slot) (l : ℓ) : Prop :=
  (s.pc p).Dozes l ∨ s.pc p = .resumed (.slept l) ∧ s.state p = .sleeping

structure Locks (s : State κ ℓ) : Prop where
  unique : ∀ l p q, s.Owns p l → s.Owns q l → p = q
  single : ∀ l p, (s.pc p).Owns l → s.held p l = false
  locked : ∀ l, s.locked l = true ↔ ∃ p, s.Owns p l
  take : ∀ l p, s.pc p = .take l → s.locked l = false
  sleep : ∀ l p, s.pc p = .sleep l → s.locked l = true
  wakes : ∀ l p, s.Sleeper p l → s.locked l = true ∨ ∃ q, (s.pc q).Wakes l

/-- A step that leaves the locks with their owners. -/
theorem Locks.keep (h : Locks s) (hlocked : s'.locked = s.locked) (howns : ∀ l q, s'.Owns q l ↔ s.Owns q l)
    (hsingle : ∀ l q, (s'.pc q).Owns l → s'.held q l = false)
    (htake : ∀ l q, s'.pc q = .take l → s.locked l = false)
    (hsleep : ∀ l q, s'.pc q = .sleep l → s.locked l = true)
    (hsleeper : ∀ l q, s'.Sleeper q l → s.Sleeper q l ∨ s.pc q = .sleep l)
    (hwakes : ∀ l q, (s.pc q).Wakes l → (s'.pc q).Wakes l ∨ ∀ r, ¬s'.Sleeper r l) : Locks s' where
  unique l p q hp hq := h.unique l p q ((howns l p).mp hp) ((howns l q).mp hq)
  single := hsingle
  locked l := by
    rw [hlocked, h.locked l]
    exact exists_congr fun q => (howns l q).symm
  take l q hq := by
    rw [hlocked]
    exact htake l q hq
  sleep l q hq := by
    rw [hlocked]
    exact hsleep l q hq
  wakes l q hq := by
    rw [hlocked]
    rcases hsleeper l q hq with hold | hold
    · rcases h.wakes l q hold with hlock | ⟨r, hr⟩
      · exact .inl hlock
      · rcases hwakes l r hr with hr | hno
        · exact .inr ⟨r, hr⟩
        · exact absurd hq (hno q)
    · exact .inl (h.sleep l q hold)

/-- A step of process `p` to `y` that leaves the locks with their owners. -/
theorem Locks.move (h : Locks s) (hlocked : s'.locked = s.locked) (hheld : ∀ q, q ≠ p → s'.held q = s.held q)
    (hpc : s'.pc = Function.update s.pc p y) (hstate : ∀ q, q ≠ p → s'.state q = .sleeping →
      s.state q = .sleeping)
    (howns : ∀ l, s'.held p l = true ∨ y.Owns l ↔ s.Owns p l) (hsingle : ∀ l, y.Owns l → s'.held p l = false)
    (htake : ∀ l, y = .take l → s.locked l = false) (hsleep : ∀ l, y = .sleep l → s.locked l = true)
    (hsleeper : ∀ l, s'.Sleeper p l → s.Sleeper p l ∨ s.pc p = .sleep l)
    (hwakes : ∀ l, (s.pc p).Wakes l → y.Wakes l ∨ ∀ r, ¬s'.Sleeper r l) : Locks s' := by
  have hself : s'.pc p = y := by rw [hpc, Function.update_self]
  have hne {q : Slot} (hq : q ≠ p) : s'.pc q = s.pc q := by rw [hpc, Function.update_of_ne hq]
  refine h.keep hlocked (fun l q => ?_) (fun l q hq => ?_) (fun l q hq => ?_) (fun l q hq => ?_)
    (fun l q hq => ?_)
    fun l q hq => ?_
  · by_cases hqp : q = p
    · rw [hqp, State.Owns, hself, howns]
    · rw [State.Owns, State.Owns, hne hqp, hheld q hqp]
  · by_cases hqp : q = p
    · rw [hqp] at hq ⊢
      rw [hself] at hq
      exact hsingle l hq
    · rw [hne hqp] at hq
      rw [hheld q hqp]
      exact h.single l q hq
  · by_cases hqp : q = p
    · rw [hqp, hself] at hq
      exact htake l hq
    · rw [hne hqp] at hq
      exact h.take l q hq
  · by_cases hqp : q = p
    · rw [hqp, hself] at hq
      exact hsleep l hq
    · rw [hne hqp] at hq
      exact h.sleep l q hq
  · by_cases hqp : q = p
    · rw [hqp] at hq ⊢
      exact hsleeper l hq
    · unfold State.Sleeper at hq
      rw [hne hqp] at hq
      exact .inl (hq.imp id fun hq => ⟨hq.1, hstate q hqp hq.2⟩)
  · by_cases hqp : q = p
    · rw [hqp] at hq ⊢
      rw [hself]
      exact hwakes l hq
    · rw [hne hqp]
      exact .inl hq

/-- A process at a point that is not about sleep does not sleep. -/
theorem not_sleeper (hpc : s.pc p = y) (hdozes : ¬y.Dozes l) (hresumed : y ≠ .resumed (.slept l)) :
    ¬s.Sleeper p l := by
  rintro (hs | ⟨hs, -⟩)
  · exact hdozes (hpc ▸ hs)
  · exact hresumed (hpc.symm.trans hs)

/-- A step from point `x` to point `y` that has nothing to do with sleepers and owners. -/
structure Quiet (x y : Point ℓ) : Prop where
  owns : ∀ l, y.Owns l ↔ x.Owns l
  take : ∀ l, y ≠ .take l
  sleep : ∀ l, y ≠ .sleep l
  dozes : ∀ l, y.Dozes l → x.Dozes l ∨ x = .sleep l
  resumed : ∀ l, y ≠ .resumed (.slept l)
  wakes : ∀ l, x.Wakes l → y.Wakes l

theorem Locks.quiet (h : Locks s) (hq : Quiet (s.pc p) y) (hlocked : s'.locked = s.locked)
    (hheld : s'.held = s.held)
    (hpc : s'.pc = Function.update s.pc p y) (hstate : ∀ q, q ≠ p → s'.state q = s.state q) : Locks s' := by
  have hself : s'.pc p = y := by rw [hpc, Function.update_self]
  refine h.move hlocked (fun q _ => by rw [hheld]) hpc (fun q hqp hs => hstate q hqp ▸ hs) (fun l => ?_)
    (fun l hy => ?_)
    (fun l hy => absurd hy (hq.take l)) (fun l hy => absurd hy (hq.sleep l)) (fun l hs => ?_)
    fun l hx => .inl (hq.wakes l hx)
  · rw [hheld, hq.owns, State.Owns]
  · rw [hheld]
    exact h.single l p ((hq.owns l).mp hy)
  · by_cases hdozes : y.Dozes l
    · exact (hq.dozes l hdozes).imp .inl id
    · exact absurd hs (not_sleeper hself hdozes (hq.resumed l))

/-- The locks do not depend on the CPUs and the spin locks. -/
theorem Locks.cpus (h : Locks s) (cpu : κ → Cpu) (ptableLock : Option κ) (spin : ℓ → Option κ)
    (runs : Slot → Nat) :
    Locks { s with cpu, ptableLock, spin, runs } :=
  ⟨h.unique, h.single, h.locked, h.take, h.sleep, h.wakes⟩

variable [DecidableEq κ] [DecidableEq ℓ]

omit [DecidableEq ℓ] in
theorem Locks.panic (h : Locks s) (c : κ) : Locks (s.panic c) := h.cpus _ _ _ _

omit [DecidableEq ℓ] in
theorem Locks.acquireSched (h : Locks s) (hq : Quiet (s.pc p) y)
    (hs : s.acquireSched c (·.goto p y) = some s') :
    Locks s' := by
  unfold State.acquireSched at hs
  split at hs
  · cases hs
    exact h.panic c
  · rw [Option.ite_none_right_eq_some] at hs
    obtain ⟨-, hs⟩ := hs
    cases hs
    exact h.quiet hq rfl rfl rfl fun _ _ => rfl

omit [DecidableEq ℓ] in
theorem Locks.releaseSched (h : Locks s) (hq : Quiet (s.pc p) y) : Locks (s.releaseSched c (·.goto p y)) := by
  unfold State.releaseSched
  split
  · exact h.quiet hq rfl rfl rfl fun _ _ => rfl
  · exact h.panic c

theorem Locks.acquireSpin (h : Locks s) (hq : Quiet (s.pc p) y)
    (hs : s.acquireSpin c l (·.goto p y) = some s') :
    Locks s' := by
  unfold State.acquireSpin at hs
  split at hs
  · cases hs
    exact h.panic c
  · rw [Option.ite_none_right_eq_some] at hs
    obtain ⟨-, hs⟩ := hs
    cases hs
    exact h.quiet hq rfl rfl rfl fun _ _ => rfl

theorem Locks.releaseSpin (h : Locks s) (hq : Quiet (s.pc p) y) : Locks (s.releaseSpin c l (·.goto p y)) := by
  unfold State.releaseSpin
  split
  · exact h.quiet hq rfl rfl rfl fun _ _ => rfl
  · exact h.panic c

omit [DecidableEq κ] in
theorem setHeld_self {b : Bool} {k : ℓ} : (s.setHeld p l b).held p k = if k = l then b else s.held p k := by
  show Function.update s.held p (Function.update (s.held p) l b) p k = _
  rw [Function.update_self, Function.update_apply]

omit [DecidableEq κ] in
/-- Process `p` comes back from `acquire_sleeplock`. -/
theorem Locks.acquired (h : Locks s) (hx : s.pc p = .taken l) : Locks ((s.setHeld p l true).goto p .user) := by
  refine h.move (y := .user) rfl (fun q hq => Function.update_of_ne hq _ _) rfl (fun _ _ => id) (fun k => ?_)
    (fun k hk => hk.elim) (by simp) (by simp)
    (fun k hs => absurd hs (not_sleeper (y := .user) (Function.update_self ..) id (by simp))) fun k hk => ?_
  · show (s.setHeld p l true).held p k = true ∨ False ↔ s.held p k = true ∨ (s.pc p).Owns k
    rw [setHeld_self, hx]
    show _ ↔ _ ∨ l = k
    by_cases hk : k = l
    · rw [if_pos hk]
      exact iff_of_true (.inl rfl) (.inr hk.symm)
    · rw [if_neg hk]
      exact or_congr Iff.rfl (iff_of_false id fun heq => hk heq.symm)
  · rw [hx] at hk
    exact hk.elim

omit [DecidableEq κ] in
/-- Process `p` calls `release_sleeplock`. -/
theorem Locks.releasing (h : Locks s) (hx : s.pc p = .user) (hheld : s.held p l = true) :
    Locks ((s.setHeld p l false).goto p (.release l)) := by
  refine h.move (y := .release l) rfl (fun q hq => Function.update_of_ne hq _ _) rfl (fun _ _ => id)
    (fun k => ?_)
    (fun k hk => ?_) (by simp) (by simp)
    (fun k hs => absurd hs (not_sleeper (y := .release l) (Function.update_self ..) id (by simp)))
    fun k hk => ?_
  · show (s.setHeld p l false).held p k = true ∨ l = k ↔ s.held p k = true ∨ (s.pc p).Owns k
    rw [setHeld_self, hx]
    show _ ↔ _ ∨ False
    by_cases hk : k = l
    · rw [hk]
      exact iff_of_true (.inr rfl) (.inl hheld)
    · rw [if_neg hk]
      exact or_congr Iff.rfl (iff_of_false (fun heq => hk heq.symm) id)
  · obtain rfl : l = k := hk
    show (s.setHeld p l false).held p l = false
    rw [setHeld_self, if_pos rfl]
  · rw [hx] at hk
    exact hk.elim

omit [DecidableEq κ] [DecidableEq ℓ] in
/-- Two processes are not both in a call that has the spin lock. -/
theorem Control.spin_once (h : Control s) (hc : s.cpu c = .process p) (hx : (s.pc p).HasSpin l)
    (hq : (s.pc q).HasSpin l) : q = p := by
  have hon : ∃ d, s.cpu d = .process q := by
    by_contra hoff
    have hoff := h.off q fun d hd => hoff ⟨d, hd⟩
    cases hpc : s.pc q with
    | resumed r =>
      rw [hpc] at hq
      exact hq
    | _ =>
      rw [hpc] at hoff
      exact hoff
  obtain ⟨d, hd⟩ := hon
  have hdc : d = c := Option.some.inj (((h.spin_at hd).mpr hq).symm.trans ((h.spin_at hc).mpr hx))
  rw [hdc, hc] at hd
  exact (Cpu.process.inj hd).symm

omit [DecidableEq κ] in
theorem setLocked_at {b : Bool} {k : ℓ} : (s.setLocked l b).locked k = if k = l then b else s.locked k :=
  Function.update_apply ..

omit [DecidableEq κ] in
/-- Process `p` takes the lock. -/
theorem Locks.taking (h : Locks s) (hctl : Control s) (hc : s.cpu c = .process p) (hx : s.pc p = .take l) :
    Locks ((s.setLocked l true).goto p (.taken l)) := by
  have hself : ((s.setLocked l true).goto p (.taken l)).pc p = .taken l := Function.update_self ..
  have hne {q : Slot} (hq : q ≠ p) : ((s.setLocked l true).goto p (.taken l)).pc q = s.pc q :=
    Function.update_of_ne hq _ _
  have hfree (q : Slot) : ¬s.Owns q l := by
    intro hq
    have hlocked := (h.locked l).mpr ⟨q, hq⟩
    rw [h.take l p hx] at hlocked
    cases hlocked
  have howns (k : ℓ) (q : Slot) : ((s.setLocked l true).goto p (.taken l)).Owns q k ↔ s.Owns q k ∨ q = p ∧
    l = k := by
    by_cases hq : q = p
    · rw [hq, State.Owns, hself, State.Owns, hx]
      show s.held p k = true ∨ l = k ↔ (s.held p k = true ∨ False) ∨ p = p ∧ l = k
      rw [or_false, and_iff_right rfl]
    · rw [State.Owns, hne hq]
      exact ⟨.inl, fun hor => hor.resolve_right fun hand => hq hand.1⟩
  constructor
  case unique =>
    intro k q r hq hr
    rcases (howns k q).mp hq with hq' | ⟨hqp, hk⟩
    · rcases (howns k r).mp hr with hr' | ⟨-, hk⟩
      · exact h.unique k q r hq' hr'
      · exact absurd (hk ▸ hq') (hfree q)
    · rcases (howns k r).mp hr with hr' | ⟨hrp, -⟩
      · exact absurd (hk ▸ hr') (hfree r)
      · rw [hqp, hrp]
  case single =>
    intro k q hq
    by_cases hqp : q = p
    · rw [hqp, hself] at hq
      obtain rfl : l = k := hq
      rw [hqp]
      exact Bool.eq_false_iff.mpr fun hheld => hfree p (.inl hheld)
    · rw [hne hqp] at hq
      exact h.single k q hq
  case locked =>
    intro k
    show (s.setLocked l true).locked k = true ↔ _
    rw [setLocked_at]
    by_cases hk : k = l
    · rw [if_pos hk]
      exact iff_of_true rfl ⟨p, (howns k p).mpr (.inr ⟨rfl, hk.symm⟩)⟩
    · rw [if_neg hk, h.locked k]
      refine exists_congr fun q => ?_
      rw [howns]
      exact ⟨.inl, fun hor => hor.resolve_right fun hand => hk hand.2.symm⟩
  case take =>
    intro k q hq
    by_cases hqp : q = p
    · rw [hqp, hself] at hq
      cases hq
    · rw [hne hqp] at hq
      show (s.setLocked l true).locked k = false
      have hk : k ≠ l := by
        rintro rfl
        -- Both would have the spin lock.
        exact hqp (hctl.spin_once hc (l := k) (by rw [hx]; rfl) (by rw [hq]; rfl))
      rw [setLocked_at, if_neg hk]
      exact h.take k q hq
  case sleep =>
    intro k q hq
    by_cases hqp : q = p
    · rw [hqp, hself] at hq
      cases hq
    · rw [hne hqp] at hq
      show (s.setLocked l true).locked k = true
      rw [setLocked_at, h.sleep k q hq, ite_self]
  case wakes =>
    intro k q hq
    have hqp : q ≠ p := by
      rintro rfl
      exact not_sleeper hself id (by simp) hq
    have hold : s.Sleeper q k := by
      unfold State.Sleeper at hq
      rwa [hne hqp] at hq
    show (s.setLocked l true).locked k = true ∨ _
    rw [setLocked_at]
    rcases h.wakes k q hold with hlocked | ⟨r, hr⟩
    · rw [hlocked, ite_self]
      exact .inl rfl
    · have hrp : r ≠ p := by
        rintro rfl
        rw [hx] at hr
        exact hr
      exact .inr ⟨r, by rwa [hne hrp]⟩

omit [DecidableEq κ] in
/-- Process `p` clears the lock. -/
theorem Locks.clearing (h : Locks s) (hctl : Control s) (hc : s.cpu c = .process p) (hx : s.pc p = .clear l) :
    Locks ((s.setLocked l false).goto p (.cleared l)) := by
  have hself : ((s.setLocked l false).goto p (.cleared l)).pc p = .cleared l := Function.update_self ..
  have hne {q : Slot} (hq : q ≠ p) : ((s.setLocked l false).goto p (.cleared l)).pc q = s.pc q :=
    Function.update_of_ne hq _ _
  have hown : s.Owns p l := .inr (by rw [hx]; rfl)
  have hheld : s.held p l = false := h.single l p (by rw [hx]; rfl)
  have howns (k : ℓ) (q : Slot) : ((s.setLocked l false).goto p (.cleared l)).Owns q k ↔ s.Owns q k ∧
    l ≠ k := by
    by_cases hq : q = p
    · rw [hq, State.Owns, hself, State.Owns, hx]
      show s.held p k = true ∨ False ↔ (s.held p k = true ∨ l = k) ∧ l ≠ k
      by_cases hk : l = k
      · rw [← hk, hheld]
        simp
      · simp [hk]
    · rw [State.Owns, hne hq]
      refine ⟨fun hor => ⟨hor, ?_⟩, And.left⟩
      rintro rfl
      exact hq (h.unique l q p hor hown)
  constructor
  case unique => exact fun k q r hq hr => h.unique k q r ((howns k q).mp hq).1 ((howns k r).mp hr).1
  case single =>
    intro k q hq
    by_cases hqp : q = p
    · rw [hqp, hself] at hq
      exact hq.elim
    · rw [hne hqp] at hq
      exact h.single k q hq
  case locked =>
    intro k
    show (s.setLocked l false).locked k = true ↔ _
    rw [setLocked_at]
    by_cases hk : k = l
    · rw [if_pos hk]
      refine iff_of_false Bool.false_ne_true ?_
      rintro ⟨q, hq⟩
      exact ((howns k q).mp hq).2 hk.symm
    · rw [if_neg hk, h.locked k]
      refine exists_congr fun q => ?_
      rw [howns]
      exact ⟨fun hq => ⟨hq, fun heq => hk heq.symm⟩, And.left⟩
  case take =>
    intro k q hq
    by_cases hqp : q = p
    · rw [hqp, hself] at hq
      cases hq
    · rw [hne hqp] at hq
      show (s.setLocked l false).locked k = false
      rw [setLocked_at, h.take k q hq, ite_self]
  case sleep =>
    intro k q hq
    by_cases hqp : q = p
    · rw [hqp, hself] at hq
      cases hq
    · rw [hne hqp] at hq
      show (s.setLocked l false).locked k = true
      have hk : k ≠ l := by
        rintro rfl
        exact hqp (hctl.spin_once hc (l := k) (by rw [hx]; rfl) (by rw [hq]; rfl))
      rw [setLocked_at, if_neg hk]
      exact h.sleep k q hq
  case wakes =>
    intro k q hq
    have hqp : q ≠ p := by
      rintro rfl
      exact not_sleeper hself id (by simp) hq
    have hold : s.Sleeper q k := by
      unfold State.Sleeper at hq
      rwa [hne hqp] at hq
    show (s.setLocked l false).locked k = true ∨ _
    rw [setLocked_at]
    by_cases hk : k = l
    · exact .inr ⟨p, by rw [hself]; exact hk.symm⟩
    · rw [if_neg hk]
      refine (h.wakes k q hold).imp id fun hex => ?_
      obtain ⟨r, hr⟩ := hex
      have hrp : r ≠ p := by
        rintro rfl
        rw [hx] at hr
        exact hr
      exact ⟨r, by rwa [hne hrp]⟩

omit [DecidableEq κ] in
/-- Process `p` wakes up the sleepers. -/
theorem Locks.waking (h : Locks s) (hctl : Control s) (hc : s.cpu c = .process p) (hx : s.pc p = .waking l) :
    Locks ((s.wakeAll l).goto p .woken) := by
  have hself : ((s.wakeAll l).goto p .woken).pc p = .woken := Function.update_self ..
  have hasleep {q : Slot} (hq : (s.wakeAll l).state q = .sleeping) : s.state q = .sleeping ∧
    s.chan q ≠ some l := by
    have hq : (if s.state q = .sleeping ∧
      s.chan q = some l then ProcState.runnable else s.state q) = .sleeping := hq
    split at hq
    case isTrue => cases hq
    case isFalse hnot => exact ⟨hq, fun hchan => hnot ⟨hq, hchan⟩⟩
  have hnone (r : Slot) : ¬((s.wakeAll l).goto p .woken).Sleeper r l := by
    by_cases hrp : r = p
    · rw [hrp]
      exact not_sleeper hself id (by simp)
    · intro hs
      unfold State.Sleeper at hs
      rw [show ((s.wakeAll l).goto p .woken).pc r = s.pc r from Function.update_of_ne hrp _ _] at hs
      rcases hs with hdozes | ⟨hpc, hstate⟩
      · -- It would be on a CPU with the lock of the process table.
        have hhas : (s.pc r).HasTable ∧ ∀ x, s.pc r ≠ .resumed x := by
          cases hpc : s.pc r with
          | unlock k | doze k | sched x => exact ⟨trivial, by simp⟩
          | _ =>
            rw [hpc] at hdozes
            exact hdozes.elim
        have hon : ∃ d, s.cpu d = .process r := by
          by_contra hoff
          have hoff := hctl.off r fun d hd => hoff ⟨d, hd⟩
          cases hpc : s.pc r with
          | resumed x => exact hhas.2 x hpc
          | _ =>
            rw [hpc] at hoff
            exact hoff
        obtain ⟨d, hd⟩ := hon
        have htable : s.ptableLock = some c := (hctl.table_at hc).mpr (by rw [hx]; trivial)
        have hdc : d = c := Option.some.inj (((hctl.table_at hd).mpr hhas.1).symm.trans htable)
        rw [hdc, hc] at hd
        exact hrp (Cpu.process.inj hd).symm
      · obtain ⟨hsleeping, hchan⟩ := hasleep hstate
        by_cases hon : ∃ d, s.cpu d = .process r
        · obtain ⟨d, hd⟩ := hon
          exact hctl.not_sleeping hd (by simp [hpc]) hsleeping
        · have hoff := hctl.off r fun d hd => hon ⟨d, hd⟩
          rw [hpc, hsleeping] at hoff
          rcases hoff with hoff | ⟨-, hoff⟩
          · cases hoff
          · exact hchan hoff
  refine h.move (y := .woken) rfl (fun _ _ => rfl) rfl (fun q _ hq => (hasleep hq).1) (fun k => ?_)
    (fun k hk => hk.elim)
    (by simp) (by simp) (fun k hs => absurd hs (not_sleeper (y := .woken) hself id (by simp))) fun k hk => ?_
  · show s.held p k = true ∨ False ↔ s.held p k = true ∨ (s.pc p).Owns k
    rw [hx]
    exact Iff.rfl
  · rw [hx] at hk
    obtain rfl : l = k := hk
    exact .inr hnone

/-- The steps of a process that have nothing to do with sleepers and owners. -/
inductive Point.Next : Point ℓ → Point ℓ → Prop
  | acquire (l : ℓ) : Next (.acquire l) (.test l)
  | sleep (l : ℓ) : Next (.sleep l) (.unlock l)
  | unlock (l : ℓ) : Next (.unlock l) (.doze l)
  | doze (l : ℓ) : Next (.doze l) (.sched (.slept l))
  | slept (l : ℓ) : Next (.resumed (.slept l)) (.awake l)
  | awake (l : ℓ) : Next (.awake l) (.acquire l)
  | release (l : ℓ) : Next (.release l) (.clear l)
  | cleared (l : ℓ) : Next (.cleared l) (.wakeup l)
  | wakeup (l : ℓ) : Next (.wakeup l) (.waking l)
  | woken : Next .woken .user
  | forkret : Next (.resumed .forkret) .user
  | yielded : Next (.resumed .yielded) .user
  | yield : Next .yield .yielding
  | yielding : Next .yielding (.sched .yielded)
  | exit : Next .exit .exiting
  | exiting : Next .exiting (.sched .exited)
  | callAcquire (l : ℓ) : Next .user (.acquire l)
  | callYield : Next .user .yield
  | callExit : Next .user .exit

omit [DecidableEq ℓ] in
theorem Point.Next.quiet (h : Point.Next x y) : Quiet x y := by
  cases h <;> constructor <;> simp [Point.Owns, Point.Dozes, Point.Wakes]

omit [DecidableEq κ] [DecidableEq ℓ] in
/-- Process `p` finds out whether the lock is taken. -/
theorem Locks.tested (h : Locks s) (hx : s.pc p = .test l) :
    Locks (s.goto p (if s.locked l then .sleep l else .take l)) := by
  split
  case isTrue hl =>
    refine h.move (y := .sleep l) rfl (fun _ _ => rfl) rfl (fun _ _ => id) (fun k => ?_)
      (fun k hk => hk.elim) (by simp)
      (fun k hk => ?_) (fun k hs => absurd hs
        (not_sleeper (y := .sleep l) (Function.update_self ..) id (by simp)))
      fun k hk => ?_
    · rw [State.Owns, hx]
      exact Iff.rfl
    · cases hk
      exact hl
    · rw [hx] at hk
      exact hk.elim
  case isFalse hl =>
    refine h.move (y := .take l) rfl (fun _ _ => rfl) rfl (fun _ _ => id) (fun k => ?_) (fun k hk => hk.elim)
      (fun k hk => ?_) (by simp)
      (fun k hs => absurd hs (not_sleeper (y := .take l) (Function.update_self ..) id (by simp))) fun k hk => ?_
    · rw [State.Owns, hx]
      exact Iff.rfl
    · cases hk
      exact Bool.eq_false_iff.mpr hl
    · rw [hx] at hk
      exact hk.elim

omit [DecidableEq κ] [DecidableEq ℓ] in
/-- Process `p` goes to the scheduler. -/
theorem Locks.left {r : Resume ℓ} (h : Locks s) (hx : s.pc p = .sched r) : Locks (s.goto p (.resumed r)) := by
  refine h.move (y := .resumed r) rfl (fun _ _ => rfl) rfl (fun _ _ => id) (fun k => ?_)
    (fun k hk => hk.elim) (by simp)
    (by simp) (fun k hs => ?_) fun k hk => ?_
  · rw [State.Owns, hx]
    exact Iff.rfl
  · rcases hs with hdozes | ⟨hpc, -⟩
    · rw [show (s.goto p (.resumed r)).pc p = .resumed r from Function.update_self ..] at hdozes
      exact hdozes.elim
    · rw [show (s.goto p (.resumed r)).pc p = .resumed r from Function.update_self ..] at hpc
      cases hpc
      exact .inl (.inl (by rw [hx]; rfl))
  · rw [hx] at hk
    exact hk.elim

omit [DecidableEq κ] [DecidableEq ℓ] in
/-- A change of states in which nobody falls asleep. -/
theorem Locks.states (h : Locks s) {state : Slot → ProcState}
    (hstate : ∀ q, state q = .sleeping → s.state q = .sleeping) :
    Locks { s with state } :=
  h.keep rfl (fun _ _ => Iff.rfl) h.single h.take h.sleep
    (fun _ q hs => .inl (hs.imp id fun hq => ⟨hq.1, hstate q hq.2⟩)) fun _ _ hq => .inl hq

theorem Locks.process (h : Locks s) (hctl : Control s) (hc : s.cpu c = .process p)
    (hs : stepProcess s c p = some s') : Locks s' := by
  have hquiet {y : Point ℓ} (hy : (s.pc p).Next y) : Quiet (s.pc p) y := hy.quiet
  have hset {x : ProcState} (q : Slot) (hq : q ≠ p) : Function.update s.state p x q = s.state q :=
    Function.update_of_ne hq _ _
  unfold stepProcess at hs
  cases hx : s.pc p with
  | user =>
    rw [hx] at hs
    cases hs
  | acquire l =>
    rw [hx] at hs hquiet
    exact h.acquireSpin (hx ▸ hquiet (.acquire l)) hs
  | release l =>
    rw [hx] at hs hquiet
    exact h.acquireSpin (hx ▸ hquiet (.release l)) hs
  | test l =>
    rw [hx] at hs
    cases hs
    exact h.tested hx
  | take l =>
    rw [hx] at hs
    cases hs
    exact h.taking hctl hc hx
  | taken l =>
    rw [hx] at hs
    cases hs
    unfold State.releaseSpin
    split
    · exact (h.cpus s.cpu s.ptableLock _ s.runs).acquired hx
    · exact h.panic c
  | sleep l =>
    rw [hx] at hs hquiet
    simp only at hs
    split at hs
    · exact h.acquireSched (hx ▸ hquiet (.sleep l)) hs
    · cases hs
      exact h.panic c
  | unlock l =>
    rw [hx] at hs hquiet
    cases hs
    exact h.releaseSpin (hx ▸ hquiet (.unlock l))
  | doze l =>
    rw [hx] at hs hquiet
    cases hs
    exact h.quiet (hx ▸ hquiet (.doze l)) rfl rfl rfl hset
  | sched r =>
    rw [hx] at hs
    simp only at hs
    split at hs
    · cases hs
      exact h.panic c
    · split at hs
      · cases hs
        exact h.panic c
      · cases hs
        exact (h.left hx).cpus _ s.ptableLock s.spin s.runs
  | resumed r =>
    rw [hx] at hs hquiet
    cases r with
    | exited =>
      cases hs
      exact h.panic c
    | slept l =>
      cases hs
      exact h.quiet (hx ▸ hquiet (.slept l)) rfl rfl rfl fun _ _ => rfl
    | forkret =>
      cases hs
      exact h.releaseSched (hx ▸ hquiet .forkret)
    | yielded =>
      cases hs
      exact h.releaseSched (hx ▸ hquiet .yielded)
  | awake l =>
    rw [hx] at hs hquiet
    cases hs
    exact h.releaseSched (hx ▸ hquiet (.awake l))
  | clear l =>
    rw [hx] at hs
    cases hs
    exact h.clearing hctl hc hx
  | cleared l =>
    rw [hx] at hs hquiet
    cases hs
    exact h.releaseSpin (hx ▸ hquiet (.cleared l))
  | wakeup l =>
    rw [hx] at hs hquiet
    exact h.acquireSched (hx ▸ hquiet (.wakeup l)) hs
  | waking l =>
    rw [hx] at hs
    cases hs
    exact h.waking hctl hc hx
  | woken =>
    rw [hx] at hs hquiet
    cases hs
    exact h.releaseSched (hx ▸ hquiet .woken)
  | yield =>
    rw [hx] at hs hquiet
    exact h.acquireSched (hx ▸ hquiet .yield) hs
  | yielding =>
    rw [hx] at hs hquiet
    cases hs
    exact h.quiet (hx ▸ hquiet .yielding) rfl rfl rfl hset
  | exit =>
    rw [hx] at hs hquiet
    exact h.acquireSched (hx ▸ hquiet .exit) hs
  | exiting =>
    rw [hx] at hs hquiet
    cases hs
    exact h.quiet (hx ▸ hquiet .exiting) rfl rfl rfl hset

theorem Locks.next {a : Label κ ℓ} (h : Locks s) (hctl : Control s) (ha : Proper s a)
    (hn : (sleeplocks κ ℓ).next s a = some s') : Locks s' := by
  have hset {x : ProcState} (hx : x ≠ .sleeping) (p q : Slot) (hq : Function.update s.state p x q = .sleeping) :
      s.state q = .sleeping := by
    rw [Function.update_apply] at hq
    split at hq
    · exact absurd hq hx
    · exact hq
  cases a with
  | call c f =>
    obtain ⟨p, hc, hx, hs⟩ := next_call.mp hn
    have hquiet {y : Point ℓ} (hy : (Point.user : Point ℓ).Next y) : Quiet (s.pc p) y := hx ▸ hy.quiet
    cases f with
    | acquire l =>
      cases hs
      exact h.quiet (hquiet (.callAcquire l)) rfl rfl rfl fun _ _ => rfl
    | release l =>
      cases hs
      exact h.releasing hx (ha p hc)
    | yield =>
      cases hs
      exact h.quiet (hquiet .callYield) rfl rfl rfl fun _ _ => rfl
    | exit =>
      cases hs
      exact h.quiet (hquiet .callExit) rfl rfl rfl fun _ _ => rfl
    | fork q =>
      obtain ⟨-, hs⟩ := Option.ite_none_right_eq_some.mp hs
      cases hs
      exact h.states (hset (by decide) q)
  | step c =>
    have hs : step s c = some s' := hn
    unfold step at hs
    cases hc : s.cpu c with
    | panic =>
      rw [hc] at hs
      cases hs
    | process p =>
      rw [hc] at hs
      exact h.process hctl hc hs
    | acquire =>
      rw [hc] at hs
      have hs : s.acquireSched c (·.setCpu c (.scan 0)) = some s' := hs
      unfold State.acquireSched at hs
      split at hs
      · cases hs
        exact h.panic c
      · obtain ⟨-, hs⟩ := Option.ite_none_right_eq_some.mp hs
        cases hs
        exact h.cpus _ _ s.spin s.runs
    | back p =>
      rw [hc] at hs
      cases hs
      split <;> exact h.cpus _ s.ptableLock s.spin s.runs
    | scan i =>
      rw [hc] at hs
      simp only at hs
      split at hs
      · cases hs
        split
        · exact (h.states (hset (by decide) _)).cpus _ s.ptableLock s.spin _
        · exact h.cpus _ s.ptableLock s.spin s.runs
      · cases hs
        unfold State.releaseSched
        split
        · exact h.cpus _ _ s.spin s.runs
        · exact h.panic c

theorem locks_init (h : (sleeplocks κ ℓ).init s) : Locks s := by
  obtain ⟨-, hlocks, -, hproc⟩ := h
  have hpc (p : Slot) : s.pc p = .resumed .forkret := (hproc p).1
  have hnone (p : Slot) (l : ℓ) : ¬s.Owns p l := by
    rw [State.Owns, hpc, (hproc p).2.2 l]
    simp [Point.Owns]
  constructor
  case unique => exact fun l p q hp => absurd hp (hnone p l)
  case single => exact fun l p _ => (hproc p).2.2 l
  case locked =>
    intro l
    rw [(hlocks l).2]
    refine iff_of_false Bool.false_ne_true ?_
    rintro ⟨p, hp⟩
    exact hnone p l hp
  case take => exact fun l p _ => (hlocks l).2
  case sleep =>
    intro l p hp
    rw [hpc] at hp
    cases hp
  case wakes =>
    intro l p hs
    exact absurd hs (not_sleeper (hpc p) id (by simp))

theorem locks_reachable (h : (sleeplocks κ ℓ).ReachableUnder Proper s) : Control s ∧ Locks s :=
  h.invariant (I := fun s => Control s ∧ Locks s) (fun _ hs => ⟨control_init hs, locks_init hs⟩)
    fun _ _ _ hI ha hn => ⟨hI.1.next hn, hI.2.next hI.1 ha hn⟩

/-- In every run in which only the process that has a sleep lock releases it, no two processes have the same lock,
a lock that a process has is marked as taken, no CPU panics and no process runs on two CPUs. -/
theorem sleeplock_exclusive (h : (sleeplocks κ ℓ).ReachableUnder Proper s) :
    (∀ l p q, s.held p l = true → s.held q l = true → p = q) ∧
      (∀ l p, s.held p l = true → s.locked l = true) ∧ (∀ c, s.cpu c ≠ .panic) ∧
      ∀ c d p, s.cpu c = .process p → s.cpu d = .process p → c = d := by
  obtain ⟨hctl, hlocks⟩ := locks_reachable h
  exact ⟨fun l p q hp hq => hlocks.unique l p q (.inl hp) (.inl hq), fun l p hp =>
    (hlocks.locked l).mpr ⟨p, .inl hp⟩,
    hctl.sane, hctl.once⟩

/-- Process 0 takes the lock and yields, and process 1 goes to sleep for it. -/
def contended : List (Label (Fin 2) Unit) :=
  List.replicate 3 (.step 0) ++ .call 0 (.acquire ()) :: List.replicate 4 (.step 0) ++
    .call 0 .yield :: List.replicate 6 (.step 0) ++ .call 0 (.acquire ()) :: List.replicate 5 (.step 0)

theorem reaches_contended : ∃ s, (sleeplocks (Fin 2) Unit).ReachableUnder Proper s ∧ s.held 0 () = true ∧
    s.state 1 = .sleeping := by
  have hproper (s : State (Fin 2) Unit) (a : Label (Fin 2) Unit) (ha : a ∈ contended) : Proper s a := by
    simp [contended] at ha
    rcases ha with rfl | rfl | rfl | rfl | rfl | rfl | rfl <;> trivial
  have hruns : ((sleeplocks (Fin 2) Unit).run boot contended).map (fun s => (s.held 0 (), s.state 1)) =
      some (true, .sleeping) := by decide +kernel
  obtain ⟨s, hs, hp⟩ := Option.map_eq_some_iff.mp hruns
  rw [Prod.mk.injEq] at hp
  exact ⟨s, Machine.ReachableUnder.run (.init boot_init) hproper hs, hp.1, hp.2⟩

theorem sleeplock_exclusive_two : ∃ s, (sleeplocks (Fin 2) Unit).ReachableUnder Proper s ∧ s.held 0 () = true ∧
    s.locked () = true ∧ ∀ q, s.held q () = true → 0 = q := by
  obtain ⟨s, hs, hheld, -⟩ := reaches_contended
  obtain ⟨hexcl, hlocked, -, -⟩ := sleeplock_exclusive hs
  exact ⟨s, hs, hheld, hlocked () 0 hheld, fun q hq => hexcl () 0 q hheld hq⟩

/-- No wakeup is lost: a process that sleeps does so for a lock that some process has taken and not yet cleared,
or that a process on a CPU cleared and is about to wake up its sleepers. -/
theorem sleeper_wakes (h : (sleeplocks κ ℓ).ReachableUnder Proper s) (hp : s.state p = .sleeping) :
    ∃ l, s.chan p = some l ∧
      ((s.locked l = true ∧ ∃ q, s.Owns q l) ∨ ∃ c q, s.cpu c = .process q ∧ (s.pc q).Wakes l) := by
  obtain ⟨hctl, hlocks⟩ := locks_reachable h
  obtain ⟨l, hchan, hsleeper⟩ : ∃ l, s.chan p = some l ∧ s.Sleeper p l := by
    by_cases hon : ∃ c, s.cpu c = .process p
    · obtain ⟨c, hc⟩ := hon
      have hcases := (hctl.on c p hc).cases
      rw [hp] at hcases
      rcases hcases with hst | ⟨-, hst⟩ | ⟨l, hpc, -, hchan⟩ | ⟨-, hst⟩
      · cases hst
      · cases hst
      · exact ⟨l, hchan, .inl (by rw [hpc]; rfl)⟩
      · cases hst
    · have hoff := hctl.off p fun c hc => hon ⟨c, hc⟩
      rw [hp] at hoff
      cases hpc : s.pc p with
      | resumed r =>
        rw [hpc] at hoff
        cases r with
        | slept l =>
          rcases hoff with hoff | ⟨-, hchan⟩
          · cases hoff
          · exact ⟨l, hchan, .inr ⟨hpc, hp⟩⟩
        | forkret => rcases hoff with hoff | hoff <;> cases hoff
        | yielded | exited => cases hoff
      | _ =>
        rw [hpc] at hoff
        exact hoff.elim
  refine ⟨l, hchan, ?_⟩
  rcases hlocks.wakes l p hsleeper with hlocked | ⟨q, hq⟩
  · exact .inl ⟨hlocked, (hlocks.locked l).mp hlocked⟩
  · right
    by_contra hnone
    have hoff := hctl.off q fun c hc => hnone ⟨c, q, hc, hq⟩
    cases hpc : s.pc q with
    | resumed r =>
      rw [hpc] at hq
      exact hq
    | _ =>
      rw [hpc] at hoff
      exact hoff

theorem sleeper_wakes_two : ∃ s, (sleeplocks (Fin 2) Unit).ReachableUnder Proper s ∧ s.state 1 = .sleeping ∧
    ∃ l, s.chan 1 = some l ∧
      ((s.locked l = true ∧ ∃ q, s.Owns q l) ∨ ∃ c q, s.cpu c = .process q ∧ (s.pc q).Wakes l) := by
  obtain ⟨s, hs, -, hsleeping⟩ := reaches_contended
  exact ⟨s, hs, hsleeping, sleeper_wakes hs hsleeping⟩

end FtosFfs.Core.Sleeplock
