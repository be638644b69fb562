import FtosFfs.Core.Table

/-! Sleep locks, `core/sleeplock.c`, over the scheduler: processes on several CPUs that take and release them in
any order, with `sleep`, `wakeup`, `yield` and `exit` of `core/proc.c` and `scheduler_simple` of `core/sched.c`.
The spin locks are atomic. -/

namespace FtosFfs.Core.Sleeplock

open Lib

/-! ### The code -/

/-- How a process goes on when it is switched to. -/
inductive Resume (ℓ : Type)
  | forkret
  | yielded
  | slept (l : ℓ)
  | exited

/-- Where a process stands, by what it does next. -/
inductive Point (ℓ : Type)
  | user
  /-- `acquire_sleeplock`, and the end of `sleep`: takes the spin lock of the lock. -/
  | acquire (l : ℓ)
  /-- Reads `lock->locked`. -/
  | test (l : ℓ)
  /-- Sets `lock->locked`. -/
  | take (l : ℓ)
  /-- Gives up the spin lock. -/
  | taken (l : ℓ)
  /-- `sleep`: takes the lock of the process table. -/
  | sleep (l : ℓ)
  /-- Gives up the spin lock. -/
  | unlock (l : ℓ)
  /-- Sets the channel and the state. -/
  | doze (l : ℓ)
  /-- `sched`. -/
  | sched (r : Resume ℓ)
  /-- Was switched to. -/
  | resumed (r : Resume ℓ)
  /-- `sleep`: gives up the lock of the process table. -/
  | awake (l : ℓ)
  /-- `release_sleeplock`: takes the spin lock of the lock. -/
  | release (l : ℓ)
  /-- Clears `lock->locked`. -/
  | clear (l : ℓ)
  /-- Gives up the spin lock. -/
  | cleared (l : ℓ)
  /-- `wakeup`: takes the lock of the process table. -/
  | wakeup (l : ℓ)
  /-- Goes through the process table. -/
  | waking (l : ℓ)
  /-- Gives up the lock of the process table. -/
  | woken
  | yield
  | yielding
  | exit
  | exiting

/-- What a CPU does: `scheduler_simple` at a slot of the table, or a process that it switched to. -/
inductive Cpu
  | acquire
  | scan (i : Nat)
  | process (p : Slot)
  /-- `swtch` came back from the process. -/
  | back (p : Slot)
  | panic
deriving DecidableEq

/-- The spin locks by the CPU that has them, the sleep locks, the process table and the CPUs.  `held` tells which
processes came back from `acquire_sleeplock` and did not call `release_sleeplock` since, and `runs` counts the
switches to a process. -/
structure State (κ ℓ : Type) where
  ptableLock : Option κ
  spin : ℓ → Option κ
  locked : ℓ → Bool
  state : Slot → ProcState
  chan : Slot → Option ℓ
  pc : Slot → Point ℓ
  cpu : κ → Cpu
  held : Slot → ℓ → Bool
  runs : Slot → Nat

/-- What a process calls. -/
inductive Call (ℓ : Type)
  | acquire (l : ℓ)
  | release (l : ℓ)
  | yield
  | exit
  | fork (child : Slot)
deriving DecidableEq

inductive Label (κ ℓ : Type)
  | call (c : κ) (f : Call ℓ)
  | step (c : κ)
deriving DecidableEq

variable {κ ℓ : Type} [DecidableEq κ] [DecidableEq ℓ]

namespace State

def goto (s : State κ ℓ) (p : Slot) (x : Point ℓ) : State κ ℓ := { s with pc := Function.update s.pc p x }

def setCpu (s : State κ ℓ) (c : κ) (x : Cpu) : State κ ℓ := { s with cpu := Function.update s.cpu c x }

def setState (s : State κ ℓ) (p : Slot) (x : ProcState) : State κ ℓ :=
  { s with state := Function.update s.state p x }

def setChan (s : State κ ℓ) (p : Slot) (x : Option ℓ) : State κ ℓ :=
  { s with chan := Function.update s.chan p x }

def setLocked (s : State κ ℓ) (l : ℓ) (b : Bool) : State κ ℓ :=
  { s with locked := Function.update s.locked l b }

def setHeld (s : State κ ℓ) (p : Slot) (l : ℓ) (b : Bool) : State κ ℓ :=
  { s with held := Function.update s.held p (Function.update (s.held p) l b) }

def setSpin (s : State κ ℓ) (l : ℓ) (o : Option κ) : State κ ℓ := { s with spin := Function.update s.spin l o }

def setPtableLock (s : State κ ℓ) (o : Option κ) : State κ ℓ := { s with ptableLock := o }

/-- `PANIC` on CPU `c`. -/
def panic (s : State κ ℓ) (c : κ) : State κ ℓ := s.setCpu c .panic

/-- `acquire_sched_lock`, then `f`, or no step while another CPU has the lock. -/
def acquireSched (s : State κ ℓ) (c : κ) (f : State κ ℓ → State κ ℓ) : Option (State κ ℓ) :=
  if s.ptableLock = some c then some (s.panic c)
  else if s.ptableLock = none then some (f (s.setPtableLock (some c)))
  else none

/-- `release_sched_lock`, then `f`. -/
def releaseSched (s : State κ ℓ) (c : κ) (f : State κ ℓ → State κ ℓ) : State κ ℓ :=
  if s.ptableLock = some c then f (s.setPtableLock none) else s.panic c

/-- `acquire_spinlock(&lock->lock)`, then `f`. -/
def acquireSpin (s : State κ ℓ) (c : κ) (l : ℓ) (f : State κ ℓ → State κ ℓ) : Option (State κ ℓ) :=
  if s.spin l = some c then some (s.panic c)
  else if s.spin l = none then some (f (s.setSpin l (some c)))
  else none

/-- `release_spinlock(&lock->lock)`, then `f`. -/
def releaseSpin (s : State κ ℓ) (c : κ) (l : ℓ) (f : State κ ℓ → State κ ℓ) : State κ ℓ :=
  if s.spin l = some c then f (s.setSpin l none) else s.panic c

/-- The loop of `wakeup`. -/
def wakeAll (s : State κ ℓ) (l : ℓ) : State κ ℓ :=
  { s with state := fun q => if s.state q = .sleeping ∧ s.chan q = some l then .runnable else s.state q }

end State

/-- The next step of process `p`, which runs on CPU `c`. -/
def stepProcess (s : State κ ℓ) (c : κ) (p : Slot) : Option (State κ ℓ) :=
  match s.pc p with
  | .user => none
  | .acquire l => s.acquireSpin c l (·.goto p (.test l))
  | .test l => some (s.goto p (if s.locked l then .sleep l else .take l))
  | .take l => some ((s.setLocked l true).goto p (.taken l))
  | .taken l => some (s.releaseSpin c l fun s => (s.setHeld p l true).goto p .user)
  | .sleep l => if s.spin l = some c then s.acquireSched c (·.goto p (.unlock l)) else some (s.panic c)
  | .unlock l => some (s.releaseSpin c l (·.goto p (.doze l)))
  | .doze l => some (((s.setChan p (some l)).setState p .sleeping).goto p (.sched (.slept l)))
  | .sched r =>
    if s.ptableLock ≠ some c then some (s.panic c)
    else if s.state p = .running then some (s.panic c)
    else some ((s.goto p (.resumed r)).setCpu c (.back p))
  | .resumed (.slept l) => some ((s.setChan p none).goto p (.awake l))
  | .resumed .exited => some (s.panic c)
  | .awake l => some (s.releaseSched c (·.goto p (.acquire l)))
  | .release l => s.acquireSpin c l (·.goto p (.clear l))
  | .clear l => some ((s.setLocked l false).goto p (.cleared l))
  | .cleared l => some (s.releaseSpin c l (·.goto p (.wakeup l)))
  | .wakeup l => s.acquireSched c (·.goto p (.waking l))
  | .waking l => some ((s.wakeAll l).goto p .woken)
  | .resumed .forkret | .resumed .yielded | .woken => some (s.releaseSched c (·.goto p .user))
  | .yield => s.acquireSched c (·.goto p .yielding)
  | .yielding => some ((s.setState p .runnable).goto p (.sched .yielded))
  | .exit => s.acquireSched c (·.goto p .exiting)
  | .exiting => some ((s.setState p .zombie).goto p (.sched .exited))

/-- `scheduler_simple` switches to process `p`. -/
def State.switchTo (s : State κ ℓ) (c : κ) (p : Slot) : State κ ℓ :=
  { (s.setState p .running).setCpu c (.process p) with runs := Function.update s.runs p (s.runs p + 1) }

/-- The next step of CPU `c`. -/
def step (s : State κ ℓ) (c : κ) : Option (State κ ℓ) :=
  match s.cpu c with
  | .acquire => s.acquireSched c (·.setCpu c (.scan 0))
  | .scan i =>
    if h : i < nproc then
      some (if s.state ⟨i, h⟩ = .runnable then s.switchTo c ⟨i, h⟩ else s.setCpu c (.scan (i + 1)))
    else some (s.releaseSched c (·.setCpu c .acquire))
  | .process p => stepProcess s c p
  | .back p => some (if s.ptableLock = some c then s.setCpu c (.scan (p + 1)) else s.panic c)
  | .panic => none

/-- A call of process `p`. -/
def call (s : State κ ℓ) (p : Slot) : Call ℓ → Option (State κ ℓ)
  | .acquire l => some (s.goto p (.acquire l))
  | .release l => some ((s.setHeld p l false).goto p (.release l))
  | .yield => some (s.goto p .yield)
  | .exit => some (s.goto p .exit)
  | .fork q => if s.state q = .unused then some (s.setState q .runnable) else none

/-- Processes on the CPUs. -/
def sleeplocks (κ ℓ : Type) [DecidableEq κ] [DecidableEq ℓ] : Machine (State κ ℓ) (Label κ ℓ) where
  init s := s.ptableLock = none ∧ (∀ l, s.spin l = none ∧ s.locked l = false) ∧ (∀ c, s.cpu c = .acquire) ∧
    ∀ p, s.pc p = .resumed .forkret ∧ (s.state p = .runnable ∨ s.state p = .unused) ∧ ∀ l, s.held p l = false
  next s
    | .call c f =>
      match s.cpu c with
      | .process p =>
        match s.pc p with
        | .user => call s p f
        | _ => none
      | _ => none
    | .step c => step s c

/-- Only the process that has a lock releases it. -/
def Proper (s : State κ ℓ) : Label κ ℓ → Prop
  | .call c (.release l) => ∀ p, s.cpu c = .process p → s.held p l = true
  | _ => True

/-! ### Who has the spin locks -/

/-- The process has the lock of the process table. -/
def Point.HasTable : Point ℓ → Prop
  | .unlock _ | .doze _ | .sched _ | .resumed _ | .awake _ | .waking _ | .woken | .yielding | .exiting => True
  | _ => False

/-- The process has the spin lock of sleep lock `l`. -/
def Point.HasSpin (l : ℓ) : Point ℓ → Prop
  | .test k | .take k | .taken k | .sleep k | .unlock k | .clear k | .cleared k => k = l
  | _ => False

/-- The CPU has the lock of the process table. -/
def State.HasTable (s : State κ ℓ) (c : κ) : Prop :=
  match s.cpu c with
  | .scan _ | .back _ => True
  | .process p => (s.pc p).HasTable
  | _ => False

/-- The state and the channel of a process on a CPU. -/
def OnCpu : Point ℓ → ProcState → Option ℓ → Prop
  | .sched .yielded, st, _ => st = .runnable
  | .sched (.slept l), st, ch => st = .sleeping ∧ ch = some l
  | .sched .exited, st, _ => st = .zombie
  | .sched .forkret, _, _ | .resumed .exited, _, _ => False
  | _, st, _ => st = .running

/-- The state and the channel of a process that is on no CPU. -/
def OffCpu : Point ℓ → ProcState → Option ℓ → Prop
  | .resumed .forkret, st, _ => st = .runnable ∨ st = .unused
  | .resumed .yielded, st, _ => st = .runnable
  | .resumed (.slept l), st, ch => st = .runnable ∨ st = .sleeping ∧ ch = some l
  | .resumed .exited, st, _ => st = .zombie
  | _, _, _ => False

/-- No CPU panics, the spin locks are those of the CPUs that have them, and a process runs on one CPU at most. -/
structure Control (s : State κ ℓ) : Prop where
  sane : ∀ c, s.cpu c ≠ .panic
  table : ∀ c, s.ptableLock = some c ↔ s.HasTable c
  spin : ∀ l c, s.spin l = some c ↔ ∃ p, s.cpu c = .process p ∧ (s.pc p).HasSpin l
  once : ∀ c d p, s.cpu c = .process p → s.cpu d = .process p → c = d
  on : ∀ c p, s.cpu c = .process p → OnCpu (s.pc p) (s.state p) (s.chan p)
  off : ∀ p, (∀ c, s.cpu c ≠ .process p) → OffCpu (s.pc p) (s.state p) (s.chan p)

variable {s s' : State κ ℓ} {c d : κ} {p q : Slot} {l : ℓ} {x y : Point ℓ}

/-- What a step of CPU `c` does to a lock: after it `c` has the lock just when `b`. -/
structure Moves (o o' : Option κ) (c : κ) (b : Prop) : Prop where
  self : o' = some c ↔ b
  other : ∀ d, d ≠ c → (o' = some d ↔ o = some d)

omit [DecidableEq κ] in
theorem Moves.same {o : Option κ} {b : Prop} (h : o = some c ↔ b) : Moves o o c b := ⟨h, fun _ _ => Iff.rfl⟩

omit [DecidableEq κ] in
theorem Moves.take {b : Prop} (h : b) : Moves none (some c) c b :=
  ⟨iff_of_true rfl h, fun _ hd => iff_of_false (fun heq => hd (Option.some.inj heq).symm) (by simp)⟩

omit [DecidableEq κ] in
theorem Moves.drop {b : Prop} (h : ¬b) : Moves (some c) none c b :=
  ⟨iff_of_false (by simp) h, fun _ hd => iff_of_false (by simp) fun heq => hd (Option.some.inj heq).symm⟩

omit [DecidableEq κ] [DecidableEq ℓ] in
theorem Control.table_at (h : Control s) (hc : s.cpu c = .process p) :
    s.ptableLock = some c ↔ (s.pc p).HasTable := by
  rw [h.table c, State.HasTable, hc]

omit [DecidableEq κ] [DecidableEq ℓ] in
theorem Control.spin_at (h : Control s) (hc : s.cpu c = .process p) : s.spin l = some c ↔
    (s.pc p).HasSpin l := by
  rw [h.spin l c]
  refine ⟨fun hex => ?_, fun hp => ⟨p, hc, hp⟩⟩
  obtain ⟨q, hq, hspin⟩ := hex
  obtain rfl : p = q := Cpu.process.inj (hc.symm.trans hq)
  exact hspin

omit [DecidableEq κ] [DecidableEq ℓ] in
/-- A process on a CPU runs, or is on its way to the scheduler. -/
theorem OnCpu.cases {st : ProcState} {ch : Option ℓ} (h : OnCpu x st ch) :
    st = .running ∨ x = .sched .yielded ∧ st = .runnable ∨
      (∃ l, x = .sched (.slept l) ∧ st = .sleeping ∧ ch = some l) ∨
      x = .sched .exited ∧ st = .zombie := by
  cases x with
  | sched r =>
    cases r with
    | forkret => exact h.elim
    | yielded => exact .inr (.inl ⟨rfl, h⟩)
    | slept l => exact .inr (.inr (.inl ⟨l, rfl, h⟩))
    | exited => exact .inr (.inr (.inr ⟨rfl, h⟩))
  | resumed r =>
    cases r with
    | exited => exact h.elim
    | forkret | yielded | slept l => exact .inl h
  | _ => exact .inl h

omit [DecidableEq κ] [DecidableEq ℓ] in
/-- A process on a CPU without the lock of the process table runs. -/
theorem Control.running (h : Control s) (hc : s.cpu c = .process p) (hx : ¬(s.pc p).HasTable) :
    s.state p = .running := by
  rcases (h.on c p hc).cases with hst | ⟨hpc, -⟩ | ⟨l, hpc, -⟩ | ⟨hpc, -⟩
  · exact hst
  all_goals
    rw [hpc] at hx
    exact (hx trivial).elim

omit [DecidableEq ℓ] in
/-- A step of CPU `c`, which does `k` after it. -/
theorem Control.turn {k : Cpu} (h : Control s) (hcpu : s'.cpu = Function.update s.cpu c k) (hk : k ≠ .panic)
    (hkeep : ∀ d q, d ≠ c → s.cpu d = .process q →
      s'.pc q = s.pc q ∧ s'.state q = s.state q ∧ s'.chan q = s.chan q)
    (htable : Moves s.ptableLock s'.ptableLock c (s'.HasTable c))
    (hspin : ∀ l, Moves (s.spin l) (s'.spin l) c (∃ q, k = .process q ∧ (s'.pc q).HasSpin l))
    (honce : ∀ q, k = .process q → ∀ d, d ≠ c → s.cpu d ≠ .process q)
    (hon : ∀ q, k = .process q → OnCpu (s'.pc q) (s'.state q) (s'.chan q))
    (hoff : ∀ q, k ≠ .process q → (∀ d, d ≠ c → s.cpu d ≠ .process q) →
      OffCpu (s'.pc q) (s'.state q) (s'.chan q)) :
    Control s' := by
  have hself : s'.cpu c = k := by rw [hcpu, Function.update_self]
  have hother {d : κ} (hd : d ≠ c) : s'.cpu d = s.cpu d := by rw [hcpu, Function.update_of_ne hd]
  constructor
  case sane =>
    intro d
    by_cases hd : d = c
    · rwa [hd, hself]
    · rw [hother hd]
      exact h.sane d
  case table =>
    intro d
    by_cases hd : d = c
    · rw [hd]
      exact htable.self
    · rw [htable.other d hd, h.table d]
      unfold State.HasTable
      rw [hother hd]
      cases hs : s.cpu d with
      | process q =>
        show (s.pc q).HasTable ↔ (s'.pc q).HasTable
        rw [(hkeep d q hd hs).1]
      | acquire | scan i | back q | panic => exact Iff.rfl
  case spin =>
    intro l d
    by_cases hd : d = c
    · rw [hd, hself]
      exact (hspin l).self
    · rw [(hspin l).other d hd, h.spin l d, hother hd]
      refine exists_congr fun q => and_congr_right fun hq => ?_
      rw [(hkeep d q hd hq).1]
  case once =>
    intro d e q hd he
    by_cases hdc : d = c
    · by_cases hec : e = c
      · rw [hdc, hec]
      · rw [hdc, hself] at hd
        rw [hother hec] at he
        exact absurd he (honce q hd e hec)
    · rw [hother hdc] at hd
      by_cases hec : e = c
      · rw [hec, hself] at he
        exact absurd hd (honce q he d hdc)
      · rw [hother hec] at he
        exact h.once d e q hd he
  case on =>
    intro d q hq
    by_cases hd : d = c
    · rw [hd, hself] at hq
      exact hon q hq
    · rw [hother hd] at hq
      obtain ⟨hpc, hstate, hchan⟩ := hkeep d q hd hq
      rw [hpc, hstate, hchan]
      exact h.on d q hq
  case off =>
    intro q hq
    refine hoff q (fun heq => hq c (hself.trans heq)) fun d hd heq => hq d ((hother hd).trans heq)

omit [DecidableEq ℓ] in
/-- A step of process `p` on CPU `c`. -/
theorem Control.go (h : Control s) (hc : s.cpu c = .process p) (hcpu : s'.cpu = s.cpu)
    (hpc : s'.pc = Function.update s.pc p y) (hstate : ∀ q, q ≠ p → s'.state q = s.state q)
    (hchan : ∀ q, q ≠ p → s'.chan q = s.chan q) (htable : Moves s.ptableLock s'.ptableLock c y.HasTable)
    (hspin : ∀ l, Moves (s.spin l) (s'.spin l) c (y.HasSpin l)) (hon : OnCpu y (s'.state p) (s'.chan p)) :
    Control s' := by
  have hself : s'.pc p = y := by rw [hpc, Function.update_self]
  have hkeep {q : Slot} (hq : q ≠ p) : s'.pc q = s.pc q ∧ s'.state q = s.state q ∧ s'.chan q = s.chan q :=
    ⟨by rw [hpc, Function.update_of_ne hq], hstate q hq, hchan q hq⟩
  have hsame : s'.cpu = Function.update s.cpu c (.process p) := by rw [hcpu, ← hc, Function.update_eq_self]
  have hp {q : Slot} (hq : Cpu.process p = .process q) : q = p := (Cpu.process.inj hq).symm
  refine h.turn hsame (by simp) (fun d q hd hq => hkeep ?_) ?_ (fun l => ?_) (fun q hq d hd hdq => ?_)
    (fun q hq => ?_)
    fun q hq hall => ?_
  · rintro rfl
    exact hd (h.once d c _ hq hc)
  · have hhas : s'.HasTable c ↔ y.HasTable := by
      unfold State.HasTable
      rw [hcpu, hc, ← hself]
    exact ⟨htable.self.trans hhas.symm, htable.other⟩
  · refine ⟨(hspin l).self.trans ⟨fun hy => ⟨p, rfl, by rwa [hself]⟩, fun hex => ?_⟩, (hspin l).other⟩
    obtain ⟨q, hq, hy⟩ := hex
    rwa [hp hq, hself] at hy
  · rw [hp hq] at hdq
    exact hd (h.once d c p hdq hc)
  · rw [hp hq, hself]
    exact hon
  · have hqp : q ≠ p := by
      rintro rfl
      exact hq rfl
    obtain ⟨hpc, hstate, hchan⟩ := hkeep hqp
    rw [hpc, hstate, hchan]
    refine h.off q fun d hdq => ?_
    by_cases hd : d = c
    · rw [hd, hc] at hdq
      exact hq hdq
    · exact hall d hd hdq

omit [DecidableEq ℓ] in
/-- A step of process `p` that leaves the spin locks alone. -/
theorem Control.stay (h : Control s) (hc : s.cpu c = .process p) (hcpu : s'.cpu = s.cpu)
    (hpc : s'.pc = Function.update s.pc p y) (hstate : ∀ q, q ≠ p → s'.state q = s.state q)
    (hchan : ∀ q, q ≠ p → s'.chan q = s.chan q) (htable : s'.ptableLock = s.ptableLock)
    (hspin : s'.spin = s.spin)
    (hkeep : (s.pc p).HasTable ↔ y.HasTable) (hkeep' : ∀ l, (s.pc p).HasSpin l ↔ y.HasSpin l)
    (hon : OnCpu y (s'.state p) (s'.chan p)) : Control s' := by
  apply h.go hc hcpu hpc hstate hchan ?_ ?_ hon
  · rw [htable]
    exact .same ((h.table_at hc).trans hkeep)
  · intro l
    rw [hspin]
    exact .same ((h.spin_at hc).trans (hkeep' l))

omit [DecidableEq ℓ] in
/-- `acquire_sched_lock` in process `p`. -/
theorem Control.acquireSched (h : Control s) (hc : s.cpu c = .process p) (hx : ¬(s.pc p).HasTable)
    (hy : y.HasTable) (hkeep : ∀ l, (s.pc p).HasSpin l ↔ y.HasSpin l) (hon : OnCpu y (s.state p) (s.chan p))
    (hs : s.acquireSched c (·.goto p y) = some s') : Control s' := by
  have hne : s.ptableLock ≠ some c := fun heq => hx ((h.table_at hc).mp heq)
  rw [State.acquireSched, if_neg hne, Option.ite_none_right_eq_some] at hs
  obtain ⟨hfree, hs⟩ := hs
  cases hs
  refine h.go hc rfl rfl (fun _ _ => rfl) (fun _ _ => rfl) ?_
    (fun l => .same ((h.spin_at hc).trans (hkeep l))) hon
  rw [hfree]
  exact .take hy

omit [DecidableEq ℓ] in
/-- `release_sched_lock` in process `p`. -/
theorem Control.releaseSched (h : Control s) (hc : s.cpu c = .process p) (hx : (s.pc p).HasTable)
    (hy : ¬y.HasTable) (hkeep : ∀ l, (s.pc p).HasSpin l ↔ y.HasSpin l) (hon : OnCpu y (s.state p) (s.chan p)) :
    Control (s.releaseSched c (·.goto p y)) := by
  have hlock := (h.table_at hc).mpr hx
  rw [State.releaseSched, if_pos hlock]
  refine h.go hc rfl rfl (fun _ _ => rfl) (fun _ _ => rfl) ?_
    (fun l => .same ((h.spin_at hc).trans (hkeep l))) hon
  rw [hlock]
  exact .drop hy

/-- `acquire_spinlock` in process `p`. -/
theorem Control.acquireSpin (h : Control s) (hc : s.cpu c = .process p) (hx : ∀ k, ¬(s.pc p).HasSpin k)
    (hy : ∀ k, y.HasSpin k ↔ l = k) (hkeep : (s.pc p).HasTable ↔ y.HasTable)
    (hon : OnCpu y (s.state p) (s.chan p)) (hs : s.acquireSpin c l (·.goto p y) = some s') : Control s' := by
  have hne : s.spin l ≠ some c := fun heq => hx l ((h.spin_at hc).mp heq)
  rw [State.acquireSpin, if_neg hne, Option.ite_none_right_eq_some] at hs
  obtain ⟨hfree, hs⟩ := hs
  cases hs
  refine h.go hc rfl rfl (fun _ _ => rfl) (fun _ _ => rfl) (.same ((h.table_at hc).trans hkeep))
    (fun k => ?_) hon
  show Moves (s.spin k) (Function.update s.spin l (some c) k) c (y.HasSpin k)
  by_cases hk : k = l
  · rw [hk, Function.update_self, hfree]
    exact .take ((hy l).mpr rfl)
  · rw [Function.update_of_ne hk]
    exact .same (iff_of_false (fun heq => hx k ((h.spin_at hc).mp heq)) fun hspin => hk ((hy k).mp hspin).symm)

/-- `release_spinlock` in process `p`, with `f` a change of no more than `held`. -/
theorem Control.releaseSpin (h : Control s) (hc : s.cpu c = .process p) (hx : ∀ k, (s.pc p).HasSpin k ↔ l = k)
    (hy : ∀ k, ¬y.HasSpin k) (hkeep : (s.pc p).HasTable ↔ y.HasTable) (hon : OnCpu y (s.state p) (s.chan p))
    {f : State κ ℓ → State κ ℓ} (hf : ∀ t, ∃ held, f t = { t.goto p y with held }) :
    Control (s.releaseSpin c l f) := by
  have hlock := (h.spin_at hc).mpr ((hx l).mpr rfl)
  obtain ⟨held, hf⟩ := hf (s.setSpin l none)
  rw [State.releaseSpin, if_pos hlock, hf]
  refine h.go hc rfl rfl (fun _ _ => rfl) (fun _ _ => rfl) (.same ((h.table_at hc).trans hkeep))
    (fun k => ?_) hon
  show Moves (s.spin k) (Function.update s.spin l none k) c (y.HasSpin k)
  by_cases hk : k = l
  · rw [hk, Function.update_self, hlock]
    exact .drop (hy l)
  · rw [Function.update_of_ne hk]
    exact .same (iff_of_false (fun heq => hk ((hx k).mp ((h.spin_at hc).mp heq)).symm) (hy k))

omit [DecidableEq ℓ] in
/-- `swtch` from process `p` to the scheduler. -/
theorem Control.leave {r : Resume ℓ} (h : Control s) (hc : s.cpu c = .process p) (hx : s.pc p = .sched r) :
    Control ((s.goto p (.resumed r)).setCpu c (.back p)) := by
  have hpc {q : Slot} (hq : q ≠ p) : ((s.goto p (.resumed r)).setCpu c (.back p)).pc q = s.pc q :=
    Function.update_of_ne hq _ _
  have hspin (l : ℓ) : ¬(s.spin l = some c) := by
    rw [h.spin_at hc, hx]
    exact id
  refine h.turn rfl (by simp) (fun d q hd hq => ⟨hpc ?_, rfl, rfl⟩) ?_
    (fun l => .same (iff_of_false (hspin l) ?_))
    (fun q hq => ?_) (fun q hq => ?_) fun q _ hall => ?_
  · rintro rfl
    exact hd (h.once d c _ hq hc)
  · refine .same (iff_of_true ((h.table_at hc).mpr ?_) ?_)
    · rw [hx]
      trivial
    · show match Function.update s.cpu c (.back p) c with
        | .scan _ | .back _ => True
        | .process q => (Function.update s.pc p (.resumed r) q).HasTable
        | _ => False
      rw [Function.update_self]
      trivial
  · rintro ⟨q, hq, -⟩
    cases hq
  · cases hq
  · cases hq
  · by_cases hqp : q = p
    · rw [hqp, show ((s.goto p (.resumed r)).setCpu c (.back p)).pc p = .resumed r from Function.update_self ..]
      have hon := h.on c p hc
      rw [hx] at hon
      cases r with
      | forkret => exact hon.elim
      | yielded => exact hon
      | slept l => exact .inr hon
      | exited => exact hon
    · rw [hpc hqp]
      refine h.off q fun d hd => ?_
      by_cases hdc : d = c
      · rw [hdc, hc] at hd
        exact hqp (Cpu.process.inj hd).symm
      · exact hall d hdc hd

omit [DecidableEq ℓ] in
/-- A step of the scheduler of CPU `c` to `k`, which is no process. -/
theorem Control.schedule {k : Cpu} (h : Control s) (hc : ∀ p, s.cpu c ≠ .process p) (hk : ∀ p, k ≠ .process p)
    (hne : k ≠ .panic) {o : Option κ} (ho : Moves s.ptableLock o c (k ≠ .acquire)) :
    Control ((s.setPtableLock o).setCpu c k) := by
  have hspin (l : ℓ) : ¬(s.spin l = some c) := by
    rw [h.spin l c]
    rintro ⟨p, hp, -⟩
    exact hc p hp
  refine h.turn rfl hne (fun _ _ _ _ => ⟨rfl, rfl, rfl⟩) ?_ (fun l => .same (iff_of_false (hspin l) ?_))
    (fun q hq => absurd hq (hk q)) (fun q hq => absurd hq (hk q)) fun q _ hall => h.off q fun d hd => ?_
  · have hhas : ((s.setPtableLock o).setCpu c k).HasTable c ↔ k ≠ .acquire := by
      unfold State.HasTable
      rw [show ((s.setPtableLock o).setCpu c k).cpu c = k from Function.update_self ..]
      cases k with
      | acquire => exact iff_of_false id fun h => h rfl
      | scan i | back q => exact iff_of_true trivial (by simp)
      | process q => exact absurd rfl (hk q)
      | panic => exact absurd rfl hne
    exact ⟨ho.self.trans hhas.symm, ho.other⟩
  · rintro ⟨q, hq, -⟩
    exact hk q hq
  · by_cases hdc : d = c
    · rw [hdc] at hd
      exact hc q hd
    · exact hall d hdc hd

omit [DecidableEq ℓ] in
/-- `swtch` from the scheduler to process `p`. -/
theorem Control.enter {i : Nat} (h : Control s) (hc : s.cpu c = .scan i) (hp : s.state p = .runnable) :
    Control (s.switchTo c p) := by
  have hlock : s.ptableLock = some c := by
    rw [h.table c, State.HasTable, hc]
    trivial
  -- A process that runs is not runnable, but on its way to the scheduler, with the lock.
  have hfree (d : κ) : s.cpu d ≠ .process p := by
    intro hd
    have hne : d ≠ c := by
      rintro rfl
      cases hc.symm.trans hd
    have hno : ¬(s.pc p).HasTable := by
      rw [← h.table_at hd, hlock]
      exact fun heq => hne (Option.some.inj heq).symm
    cases hp.symm.trans (h.running hd hno)
  have hoff := h.off p hfree
  have hspin (l : ℓ) : ¬(s.spin l = some c) := by
    rw [h.spin l c]
    rintro ⟨q, hq, -⟩
    cases hc.symm.trans hq
  have hstate {q : Slot} (hq : q ≠ p) : (s.switchTo c p).state q = s.state q := Function.update_of_ne hq _ _
  have hresumed : ∃ r, s.pc p = .resumed r ∧ r ≠ .exited := by
    cases hpc : s.pc p with
    | resumed r =>
      refine ⟨r, rfl, ?_⟩
      rintro rfl
      rw [hpc, hp] at hoff
      cases hoff
    | _ =>
      rw [hpc] at hoff
      exact hoff.elim
  obtain ⟨r, hpc, hr⟩ := hresumed
  refine h.turn rfl (by simp) (fun d q _ hd => ⟨rfl, hstate ?_, rfl⟩) (.same (iff_of_true hlock ?_))
    (fun l => .same (iff_of_false (hspin l) ?_)) (fun q hq d _ => ?_) (fun q hq => ?_) fun q hq hall => ?_
  · rintro rfl
    exact hfree d hd
  · unfold State.HasTable
    rw [show (s.switchTo c p).cpu c = .process p from Function.update_self ..]
    show (s.pc p).HasTable
    rw [hpc]
    trivial
  · rintro ⟨q, hq, hspin⟩
    obtain rfl := Cpu.process.inj hq
    have hspin : (s.pc p).HasSpin l := hspin
    rw [hpc] at hspin
    exact hspin
  · obtain rfl := Cpu.process.inj hq
    exact hfree d
  · obtain rfl := Cpu.process.inj hq
    show OnCpu (s.pc p) (Function.update s.state p .running p) (s.chan p)
    rw [hpc, Function.update_self]
    cases r with
    | exited => exact hr rfl
    | _ => rfl
  · have hqp : q ≠ p := by
      rintro rfl
      exact hq rfl
    rw [hstate hqp]
    refine h.off q fun d hd => ?_
    by_cases hdc : d = c
    · rw [hdc, hc] at hd
      cases hd
    · exact hall d hdc hd

omit [DecidableEq κ] in
theorem wakeAll_state : (s.wakeAll l).state q = s.state q ∨
    (s.wakeAll l).state q = .runnable ∧ s.state q = .sleeping ∧ s.chan q = some l := by
  show (if s.state q = .sleeping ∧ s.chan q = some l then _ else _) = _ ∨ _
  split
  case isTrue h => exact .inr ⟨if_pos h, h⟩
  case isFalse => exact .inl rfl

omit [DecidableEq κ] [DecidableEq ℓ] in
theorem Control.not_sleeping (h : Control s) (hc : s.cpu c = .process p)
    (hx : ∀ l, s.pc p ≠ .sched (.slept l)) :
    s.state p ≠ .sleeping := by
  rcases (h.on c p hc).cases with hst | ⟨-, hst⟩ | ⟨l, hpc, -⟩ | ⟨-, hst⟩
  · rw [hst]
    decide
  · rw [hst]
    decide
  · exact absurd hpc (hx l)
  · rw [hst]
    decide

theorem Control.wake (h : Control s) (hc : s.cpu c = .process p) (hx : s.pc p = .waking l) :
    Control ((s.wakeAll l).goto p .woken) := by
  have hlock : s.ptableLock = some c := by
    rw [h.table_at hc, hx]
    trivial
  have hpc {q : Slot} (hq : q ≠ p) : ((s.wakeAll l).goto p .woken).pc q = s.pc q := Function.update_of_ne hq _ _
  have hpc' : ((s.wakeAll l).goto p .woken).pc p = .woken := Function.update_self ..
  have hawake {d : κ} {q : Slot} (hd : s.cpu d = .process q) :
    ((s.wakeAll l).goto p .woken).state q = s.state q := by
    refine wakeAll_state.resolve_right fun hwoken => h.not_sleeping hd (fun k hk => ?_) hwoken.2.1
    -- It would have the lock of the process table.
    have hdc : d = c := by
      have hlock' := h.table_at hd
      rw [hk, hlock] at hlock'
      exact (Option.some.inj (hlock'.mpr trivial)).symm
    rw [hdc, hc] at hd
    rw [← Cpu.process.inj hd, hx] at hk
    cases hk
  have hsame : s.cpu = Function.update s.cpu c (.process p) := by rw [← hc, Function.update_eq_self]
  refine h.turn hsame (by simp) (fun d q hd hq => ⟨hpc ?_, hawake hq, rfl⟩) (.same (iff_of_true hlock ?_))
    (fun l => .same ?_) (fun q hq d hd hdq => ?_) (fun q hq => ?_) fun q hq hall => ?_
  · rintro rfl
    exact hd (h.once d c _ hq hc)
  · unfold State.HasTable
    rw [show ((s.wakeAll l).goto p .woken).cpu c = .process p from hc]
    show (((s.wakeAll l).goto p .woken).pc p).HasTable
    rw [hpc']
    trivial
  · rw [h.spin_at hc, hx]
    refine iff_of_false id ?_
    rintro ⟨q, hq, hspin⟩
    rw [← Cpu.process.inj hq, hpc'] at hspin
    exact hspin
  · rw [← Cpu.process.inj hq] at hdq
    exact hd (h.once d c p hdq hc)
  · rw [← Cpu.process.inj hq, hpc', hawake hc]
    have hon := h.on c p hc
    rw [hx] at hon
    exact hon
  · have hqp : q ≠ p := by
      rintro rfl
      exact hq rfl
    have hoff := h.off q fun d hd => by
      by_cases hdc : d = c
      · rw [hdc, hc] at hd
        exact hq hd
      · exact hall d hdc hd
    rw [hpc hqp]
    show OffCpu (s.pc q) ((s.wakeAll l).state q) (s.chan q)
    rcases wakeAll_state (s := s) (l := l) (q := q) with hstate | ⟨hstate, hsleeping, -⟩
    · rw [hstate]
      exact hoff
    · rw [hstate]
      rw [hsleeping] at hoff
      cases hpc : s.pc q with
      | resumed r =>
        rw [hpc] at hoff
        cases r with
        | slept k => exact .inl rfl
        | forkret => rcases hoff with hoff | hoff <;> cases hoff
        | yielded | exited => cases hoff
      | _ =>
        rw [hpc] at hoff
        exact hoff.elim

theorem Control.process (h : Control s) (hc : s.cpu c = .process p) (hs : stepProcess s c p = some s') :
    Control s' := by
  have hon := h.on c p hc
  have htable := h.table_at hc
  unfold stepProcess at hs
  cases hx : s.pc p with
  | user =>
    rw [hx] at hs
    cases hs
  | acquire l =>
    rw [hx] at hs hon
    exact h.acquireSpin (y := .test l) hc (by rw [hx]; exact fun _ => id) (fun _ => Iff.rfl)
      (by rw [hx]; rfl) hon hs
  | release l =>
    rw [hx] at hs hon
    exact h.acquireSpin (y := .clear l) hc (by rw [hx]; exact fun _ => id) (fun _ => Iff.rfl)
      (by rw [hx]; rfl) hon hs
  | test l =>
    rw [hx] at hs hon
    cases hs
    by_cases hl : s.locked l = true
    · rw [if_pos hl]
      exact h.stay (y := .sleep l) hc rfl rfl (fun _ _ => rfl) (fun _ _ => rfl) rfl rfl (by rw [hx]; rfl)
        (by rw [hx]; exact fun _ => Iff.rfl) hon
    · rw [if_neg hl]
      exact h.stay (y := .take l) hc rfl rfl (fun _ _ => rfl) (fun _ _ => rfl) rfl rfl (by rw [hx]; rfl)
        (by rw [hx]; exact fun _ => Iff.rfl) hon
  | take l =>
    rw [hx] at hs hon
    cases hs
    exact h.stay (y := .taken l) hc rfl rfl (fun _ _ => rfl) (fun _ _ => rfl) rfl rfl (by rw [hx]; rfl)
      (by rw [hx]; exact fun _ => Iff.rfl) hon
  | clear l =>
    rw [hx] at hs hon
    cases hs
    exact h.stay (y := .cleared l) hc rfl rfl (fun _ _ => rfl) (fun _ _ => rfl) rfl rfl (by rw [hx]; rfl)
      (by rw [hx]; exact fun _ => Iff.rfl) hon
  | taken l =>
    rw [hx] at hs hon
    cases hs
    exact h.releaseSpin (y := .user) hc (by rw [hx]; exact fun _ => Iff.rfl) (fun _ => id) (by rw [hx]; rfl) hon
      fun t => ⟨Function.update t.held p (Function.update (t.held p) l true), rfl⟩
  | unlock l =>
    rw [hx] at hs hon
    cases hs
    exact h.releaseSpin (y := .doze l) hc (by rw [hx]; exact fun _ => Iff.rfl) (fun _ => id)
      (by rw [hx]; rfl) hon
      fun t => ⟨t.held, rfl⟩
  | cleared l =>
    rw [hx] at hs hon
    cases hs
    exact h.releaseSpin (y := .wakeup l) hc (by rw [hx]; exact fun _ => Iff.rfl) (fun _ => id)
      (by rw [hx]; rfl) hon
      fun t => ⟨t.held, rfl⟩
  | sleep l =>
    rw [hx] at hs hon
    have hspin : s.spin l = some c := by
      rw [h.spin_at hc, hx]
      rfl
    simp only [if_pos hspin] at hs
    exact h.acquireSched (y := .unlock l) hc (by rw [hx]; exact id) trivial
      (by rw [hx]; exact fun _ => Iff.rfl) hon hs
  | wakeup l =>
    rw [hx] at hs hon
    exact h.acquireSched (y := .waking l) hc (by rw [hx]; exact id) trivial
      (by rw [hx]; exact fun _ => Iff.rfl) hon hs
  | yield =>
    rw [hx] at hs hon
    exact h.acquireSched (y := .yielding) hc (by rw [hx]; exact id) trivial
      (by rw [hx]; exact fun _ => Iff.rfl) hon hs
  | exit =>
    rw [hx] at hs hon
    exact h.acquireSched (y := .exiting) hc (by rw [hx]; exact id) trivial
      (by rw [hx]; exact fun _ => Iff.rfl) hon hs
  | awake l =>
    rw [hx] at hs hon
    cases hs
    exact h.releaseSched (y := .acquire l) hc (by rw [hx]; trivial) id (by rw [hx]; exact fun _ => Iff.rfl) hon
  | woken =>
    rw [hx] at hs hon
    cases hs
    exact h.releaseSched (y := .user) hc (by rw [hx]; trivial) id (by rw [hx]; exact fun _ => Iff.rfl) hon
  | resumed r =>
    rw [hx] at hs hon
    cases r with
    | exited => exact hon.elim
    | slept l =>
      cases hs
      exact h.stay (y := .awake l) hc rfl rfl (fun _ _ => rfl)
        (fun q hq => Function.update_of_ne hq _ _) rfl rfl (by rw [hx]; rfl)
        (by rw [hx]; exact fun _ => Iff.rfl) hon
    | forkret | yielded =>
      cases hs
      exact h.releaseSched (y := .user) hc (by rw [hx]; trivial) id (by rw [hx]; exact fun _ => Iff.rfl) hon
  | waking l =>
    rw [hx] at hs
    cases hs
    exact h.wake hc hx
  | doze l =>
    rw [hx] at hs
    cases hs
    exact h.stay (y := .sched (.slept l)) hc rfl rfl (fun q hq => Function.update_of_ne hq _ _)
      (fun q hq => Function.update_of_ne hq _ _) rfl rfl
      (by rw [hx]; rfl) (by rw [hx]; exact fun _ => Iff.rfl) ⟨Function.update_self .., Function.update_self ..⟩
  | yielding =>
    rw [hx] at hs
    cases hs
    exact h.stay (y := .sched .yielded) hc rfl rfl (fun q hq => Function.update_of_ne hq _ _)
      (fun _ _ => rfl) rfl rfl
      (by rw [hx]; rfl) (by rw [hx]; exact fun _ => Iff.rfl) (Function.update_self ..)
  | exiting =>
    rw [hx] at hs
    cases hs
    exact h.stay (y := .sched .exited) hc rfl rfl (fun q hq => Function.update_of_ne hq _ _)
      (fun _ _ => rfl) rfl rfl
      (by rw [hx]; rfl) (by rw [hx]; exact fun _ => Iff.rfl) (Function.update_self ..)
  | sched r =>
    rw [hx] at hs hon
    have hlock : s.ptableLock = some c := by
      rw [htable, hx]
      trivial
    have hne : s.state p ≠ .running := by
      intro hrunning
      rw [hrunning] at hon
      cases r with
      | forkret => exact hon
      | slept l => cases hon.1
      | yielded | exited => cases hon
    simp only [ne_eq, hlock, not_true, if_false, if_neg hne] at hs
    cases hs
    exact h.leave hc hx

theorem step_process (hc : s.cpu c = .process p) : step s c = stepProcess s c p := by
  rw [step, hc]

theorem Control.step (h : Control s) (hs : step s c = some s') : Control s' := by
  unfold Sleeplock.step at hs
  cases hc : s.cpu c with
  | panic =>
    rw [hc] at hs
    cases hs
  | process p =>
    rw [hc] at hs
    exact h.process hc hs
  | acquire =>
    rw [hc] at hs
    have hno : ¬s.ptableLock = some c := by
      rw [h.table c, State.HasTable, hc]
      exact id
    simp only [State.acquireSched, if_neg hno, Option.ite_none_right_eq_some] at hs
    obtain ⟨hfree, hs⟩ := hs
    cases hs
    refine h.schedule (k := .scan 0) (by simp [hc]) (by simp) (by simp) ?_
    rw [hfree]
    exact .take (by simp)
  | back p =>
    rw [hc] at hs
    have hlock : s.ptableLock = some c := by
      rw [h.table c, State.HasTable, hc]
      trivial
    simp only [if_pos hlock] at hs
    cases hs
    exact h.schedule (k := .scan (p + 1)) (o := s.ptableLock) (by simp [hc]) (by simp) (by simp)
      (.same (iff_of_true hlock (by simp)))
  | scan i =>
    rw [hc] at hs
    have hlock : s.ptableLock = some c := by
      rw [h.table c, State.HasTable, hc]
      trivial
    by_cases hi : i < nproc
    · simp only [dif_pos hi] at hs
      cases hs
      split
      case isTrue hrunnable => exact h.enter hc hrunnable
      case isFalse =>
        exact h.schedule (k := .scan (i + 1)) (o := s.ptableLock) (by simp [hc]) (by simp) (by simp)
          (.same (iff_of_true hlock (by simp)))
    · simp only [dif_neg hi, State.releaseSched, if_pos hlock] at hs
      cases hs
      refine h.schedule (k := .acquire) (by simp [hc]) (by simp) (by simp) ?_
      rw [hlock]
      exact .drop (by simp)

omit [DecidableEq κ] [DecidableEq ℓ] in
/-- A new process becomes runnable. -/
theorem Control.fork (h : Control s) (hq : s.state q = .unused) : Control (s.setState q .runnable) := by
  have hfree (d : κ) : s.cpu d ≠ .process q := by
    intro hd
    have hon := (h.on d q hd).cases
    rw [hq] at hon
    simp at hon
  have hstate {p : Slot} (hp : p ≠ q) : (s.setState q .runnable).state p = s.state p :=
    Function.update_of_ne hp _ _
  constructor
  case sane => exact h.sane
  case table => exact h.table
  case spin => exact h.spin
  case once => exact h.once
  case on =>
    intro d p hd
    rw [hstate (by rintro rfl; exact hfree d hd)]
    exact h.on d p hd
  case off =>
    intro p hp
    have hoff := h.off p hp
    by_cases hpq : p = q
    · subst hpq
      rw [hq] at hoff
      show OffCpu (s.pc p) (Function.update s.state p .runnable p) (s.chan p)
      rw [Function.update_self]
      cases hpc : s.pc p with
      | resumed r =>
        rw [hpc] at hoff
        cases r with
        | forkret => exact .inl rfl
        | slept l => exact .inl rfl
        | yielded => rfl
        | exited => cases hoff
      | _ =>
        rw [hpc] at hoff
        exact hoff.elim
    · rw [hstate hpq]
      exact hoff

theorem Control.call {f : Call ℓ} (h : Control s) (hc : s.cpu c = .process p) (hx : s.pc p = .user)
    (hs : call s p f = some s') : Control s' := by
  have hon := h.on c p hc
  rw [hx] at hon
  cases f with
  | acquire l =>
    cases hs
    exact h.stay (y := .acquire l) hc rfl rfl (fun _ _ => rfl) (fun _ _ => rfl) rfl rfl (by rw [hx]; rfl)
      (by rw [hx]; exact fun _ => Iff.rfl) hon
  | release l =>
    cases hs
    exact h.stay (y := .release l) hc rfl rfl (fun _ _ => rfl) (fun _ _ => rfl) rfl rfl (by rw [hx]; rfl)
      (by rw [hx]; exact fun _ => Iff.rfl) hon
  | yield =>
    cases hs
    exact h.stay (y := .yield) hc rfl rfl (fun _ _ => rfl) (fun _ _ => rfl) rfl rfl (by rw [hx]; rfl)
      (by rw [hx]; exact fun _ => Iff.rfl) hon
  | exit =>
    cases hs
    exact h.stay (y := .exit) hc rfl rfl (fun _ _ => rfl) (fun _ _ => rfl) rfl rfl (by rw [hx]; rfl)
      (by rw [hx]; exact fun _ => Iff.rfl) hon
  | fork q =>
    obtain ⟨hq, hs⟩ := Option.ite_none_right_eq_some.mp hs
    cases hs
    exact h.fork hq

theorem next_call {f : Call ℓ} : (sleeplocks κ ℓ).next s (.call c f) = some s' ↔
    ∃ p, s.cpu c = .process p ∧ s.pc p = .user ∧ call s p f = some s' := by
  constructor
  · intro hn
    simp only [sleeplocks] at hn
    split at hn
    case h_1 p hc =>
      split at hn
      case h_1 hx => exact ⟨p, hc, hx, hn⟩
      case h_2 => cases hn
    case h_2 => cases hn
  · rintro ⟨p, hc, hx, hs⟩
    simp only [sleeplocks, hc, hx]
    exact hs

theorem Control.next {a : Label κ ℓ} (h : Control s) (hn : (sleeplocks κ ℓ).next s a = some s') :
    Control s' := by
  cases a with
  | step c => exact h.step hn
  | call c f =>
    obtain ⟨p, hc, hx, hs⟩ := next_call.mp hn
    exact h.call hc hx hs

theorem control_init (h : (sleeplocks κ ℓ).init s) : Control s := by
  obtain ⟨htable, hlocks, hcpu, hproc⟩ := h
  constructor
  case sane => simp [hcpu]
  case table => simp [State.HasTable, hcpu, htable]
  case spin => simp [hcpu, hlocks]
  case once => simp [hcpu]
  case on => simp [hcpu]
  case off =>
    intro p _
    rw [(hproc p).1]
    exact (hproc p).2.1

theorem control_reachable {C : State κ ℓ → Label κ ℓ → Prop} (h : (sleeplocks κ ℓ).ReachableUnder C s) :
    Control s :=
  h.invariant (I := Control) (fun _ hs => control_init hs) fun _ _ _ hs _ hn => hs.next hn

/-- Two processes that start in `forkret`. -/
def boot {κ : Type} : State κ Unit where
  ptableLock := none
  spin _ := none
  locked _ := false
  state p := if p.val < 2 then .runnable else .unused
  chan _ := none
  pc _ := .resumed .forkret
  cpu _ := .acquire
  held _ _ := false
  runs _ := 0

theorem boot_init : (sleeplocks κ Unit).init boot := by
  refine ⟨rfl, fun _ => ⟨rfl, rfl⟩, fun _ => rfl, fun p => ⟨rfl, ?_, fun _ => rfl⟩⟩
  by_cases hp : p.val < 2
  · exact .inl (if_pos hp)
  · exact .inr (if_neg hp)

end FtosFfs.Core.Sleeplock
