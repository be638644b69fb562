import FtosFfs.Core.Sleeplock

/-! What goes on whatever the processes do: the spin locks do not deadlock, and the schedulers give every runnable
process its turn. -/

namespace FtosFfs.Core.Sleeplock

open Lib

variable {κ ℓ : Type} [DecidableEq κ] [DecidableEq ℓ] {s s' : State κ ℓ} {c d : κ} {p q : Slot}
  {l : ℓ} {x y : Point ℓ}

/-! ### The spin locks do not deadlock -/

omit [DecidableEq ℓ] in
theorem acquireSched_isSome {f : State κ ℓ → State κ ℓ} :
    (s.acquireSched c f).isSome ∨ ∃ e, e ≠ c ∧ s.ptableLock = some e := by
  unfold State.acquireSched
  cases h : s.ptableLock with
  | none => exact .inl rfl
  | some e =>
    by_cases he : e = c
    · rw [if_pos (by rw [he])]
      exact .inl rfl
    · exact .inr ⟨e, he, rfl⟩

theorem acquireSpin_isSome {f : State κ ℓ → State κ ℓ} :
    (s.acquireSpin c l f).isSome ∨ ∃ e, e ≠ c ∧ s.spin l = some e := by
  unfold State.acquireSpin
  cases h : s.spin l with
  | none => exact .inl rfl
  | some e =>
    by_cases he : e = c
    · rw [if_pos (by rw [he])]
      exact .inl rfl
    · exact .inr ⟨e, he, rfl⟩

/-- The CPU that has the lock of the process table goes on. -/
theorem Control.table_runs (h : Control s) (hd : s.ptableLock = some d) : (Sleeplock.step s d).isSome := by
  have hhas := (h.table d).mp hd
  unfold State.HasTable at hhas
  unfold Sleeplock.step
  cases hc : s.cpu d with
  | acquire | panic =>
    rw [hc] at hhas
    exact hhas.elim
  | scan i =>
    simp only
    split <;> rfl
  | back p => rfl
  | process p =>
    rw [hc] at hhas
    have hhas : (s.pc p).HasTable := hhas
    show (stepProcess s d p).isSome
    unfold stepProcess
    cases hx : s.pc p with
    | sched r =>
      simp only
      split
      · rfl
      · split <;> rfl
    | resumed r => cases r <;> rfl
    | unlock l | doze l | awake l | waking l | woken | yielding | exiting => rfl
    | _ =>
      rw [hx] at hhas
      exact hhas.elim

/-- The next step of the process is `acquire_sched_lock`. -/
def Point.TakesTable : Point ℓ → Prop
  | .sleep _ | .wakeup _ | .yield | .exit => True
  | _ => False

/-- The next step of the process is `acquire_spinlock` of sleep lock `l`. -/
def Point.TakesSpin (l : ℓ) : Point ℓ → Prop
  | .acquire k | .release k => k = l
  | _ => False

/-- CPU `c` waits for the lock of the process table, which CPU `d` has. -/
def State.WaitsTable (s : State κ ℓ) (c d : κ) : Prop :=
  d ≠ c ∧ s.ptableLock = some d ∧ (s.cpu c = .acquire ∨ ∃ p, s.cpu c = .process p ∧ (s.pc p).TakesTable)

/-- CPU `c` waits for the spin lock of sleep lock `l`, which CPU `d` has. -/
def State.WaitsSpin (s : State κ ℓ) (c : κ) (l : ℓ) (d : κ) : Prop :=
  d ≠ c ∧ s.spin l = some d ∧ ∃ p, s.cpu c = .process p ∧ (s.pc p).TakesSpin l

/-- The CPU that has the spin lock of a sleep lock goes on, or waits for one that does. -/
theorem Control.spin_runs (h : Control s) (hd : s.spin l = some d) :
    (Sleeplock.step s d).isSome ∨ ∃ e, s.WaitsTable d e ∧ (Sleeplock.step s e).isSome := by
  obtain ⟨p, hc, hspin⟩ := (h.spin l d).mp hd
  rw [step_process hc]
  cases hx : s.pc p with
  | sleep k =>
    rw [hx] at hspin
    obtain rfl : k = l := hspin
    rcases acquireSched_isSome (s := s) (c := d) (f := (·.goto p (.unlock k))) with hs | ⟨e, hne, he⟩
    · left
      unfold stepProcess
      simp only [hx, if_pos hd]
      exact hs
    · refine .inr ⟨e, ⟨hne, he, .inr ⟨p, hc, ?_⟩⟩, h.table_runs he⟩
      rw [hx]
      trivial
  | test k | take k | taken k | unlock k | clear k | cleared k =>
    left
    unfold stepProcess
    rw [hx]
    rfl
  | _ =>
    rw [hx] at hspin
    exact hspin.elim

/-- The spin locks do not deadlock: a CPU that cannot go on, outside the code of its process, waits for the lock
of the process table, and the CPU that has it goes on, or for the spin lock of a sleep lock, and the CPU that has
it goes on or waits itself for the lock of the process table, and the CPU that has that one goes on. -/
theorem spin_locks_progress (h : (sleeplocks κ ℓ).Reachable s) (hc : step s c = none)
    (huser : ∀ p, s.cpu c = .process p → s.pc p ≠ .user) :
    (∃ d, s.WaitsTable c d ∧ (step s d).isSome) ∨
      ∃ l d, s.WaitsSpin c l d ∧ ((step s d).isSome ∨ ∃ e, s.WaitsTable d e ∧ (step s e).isSome) := by
  have hctl := control_reachable h
  have hsched {f : State κ ℓ → State κ ℓ} (hf : s.acquireSched c f = none)
      (hat : s.cpu c = .acquire ∨ ∃ p, s.cpu c = .process p ∧ (s.pc p).TakesTable) :
      ∃ d, s.WaitsTable c d ∧ (step s d).isSome := by
    obtain ⟨e, hne, he⟩ := (acquireSched_isSome (s := s) (c := c) (f := f)).resolve_left (by simp [hf])
    exact ⟨e, ⟨hne, he, hat⟩, hctl.table_runs he⟩
  have hspin {l : ℓ} {f : State κ ℓ → State κ ℓ} (hf : s.acquireSpin c l f = none)
      (hat : ∃ p, s.cpu c = .process p ∧ (s.pc p).TakesSpin l) :
      ∃ l d, s.WaitsSpin c l d ∧ ((step s d).isSome ∨ ∃ e, s.WaitsTable d e ∧ (step s e).isSome) := by
    obtain ⟨d, hne, hd⟩ := (acquireSpin_isSome (s := s) (c := c) (l := l) (f := f)).resolve_left (by simp [hf])
    exact ⟨l, d, ⟨hne, hd, hat⟩, hctl.spin_runs hd⟩
  unfold Sleeplock.step at hc
  cases hcpu : s.cpu c with
  | panic => exact absurd hcpu (hctl.sane c)
  | acquire =>
    rw [hcpu] at hc
    exact .inl (hsched hc (.inl hcpu))
  | scan i =>
    rw [hcpu] at hc
    simp only at hc
    split at hc <;> cases hc
  | back p =>
    rw [hcpu] at hc
    cases hc
  | process p =>
    rw [hcpu] at hc
    have hc : stepProcess s c p = none := hc
    have hnot := huser p hcpu
    unfold stepProcess at hc
    cases hx : s.pc p with
    | user => exact absurd hx hnot
    | acquire l | release l =>
      rw [hx] at hc
      exact .inr (hspin hc ⟨p, hcpu, by rw [hx]; rfl⟩)
    | sleep l =>
      rw [hx] at hc
      simp only at hc
      split at hc
      · exact .inl (hsched hc (.inr ⟨p, hcpu, by rw [hx]; trivial⟩))
      · cases hc
    | wakeup l | yield | exit =>
      rw [hx] at hc
      exact .inl (hsched hc (.inr ⟨p, hcpu, by rw [hx]; trivial⟩))
    | sched r =>
      rw [hx] at hc
      simp only at hc
      split at hc
      · cases hc
      · split at hc <;> cases hc
    | resumed r =>
      rw [hx] at hc
      cases r <;> cases hc
    | _ =>
      rw [hx] at hc
      cases hc

/-- Process 0 takes the lock on CPU 0, and calls `release_sleeplock` while CPU 1, on which process 1 found the lock
taken, waits for CPU 2 to go through the table. -/
def crossing : List (Label (Fin 3) Unit) :=
  List.replicate 3 (.step 0) ++ .call 0 (.acquire ()) :: List.replicate 4 (.step 0) ++
    List.replicate 4 (.step 1) ++ .call 1 (.acquire ()) :: List.replicate 2 (.step 1) ++
      [.step 2, .call 0 (.release ())]

theorem spin_locks_progress_three : ∃ s : State (Fin 3) Unit, (sleeplocks (Fin 3) Unit).Reachable s ∧
    step s 0 = none ∧ step s 1 = none ∧
    ((∃ d, s.WaitsTable 0 d ∧ (step s d).isSome) ∨
      ∃ l d, s.WaitsSpin 0 l d ∧ ((step s d).isSome ∨ ∃ e, s.WaitsTable d e ∧ (step s e).isSome)) := by
  have hruns : ((sleeplocks (Fin 3) Unit).run boot crossing).map (fun s =>
      decide (s.cpu 0 = .process 0) && (step s 0).isNone && (step s 1).isNone &&
        ((sleeplocks (Fin 3) Unit).next s (.call 0 .yield)).isNone) = some true := by decide +kernel
  obtain ⟨s, hs, hp⟩ := Machine.Reachable.of_run (boot_init (κ := Fin 3)) hruns
  simp only [Bool.and_eq_true, decide_eq_true_eq, Option.isNone_iff_eq_none] at hp
  obtain ⟨⟨⟨hcpu, h0⟩, h1⟩, hcall⟩ := hp
  refine ⟨s, hs, h0, h1, spin_locks_progress hs h0 fun p hc huser => ?_⟩
  obtain rfl : 0 = p := Cpu.process.inj (hcpu.symm.trans hc)
  -- A process in its own code could call.
  rw [next_call.mpr ⟨0, hcpu, huser, rfl⟩] at hcall
  cases hcall

/-! ### Every runnable process gets its turn -/

/-- The slot at which the scheduler of a CPU goes on. -/
def Cpu.next : Cpu → Nat
  | .scan i => i
  | .process p | .back p => p + 1
  | .acquire | .panic => 0

/-- The CPU is in a pass of its scheduler over the process table. -/
def Cpu.InPass : Cpu → Prop
  | .acquire | .panic => False
  | _ => True

/-- The pass came to its end. -/
def Cpu.passDone : Cpu → Bool
  | .scan i => nproc ≤ i
  | _ => false

/-- Since the pass of CPU `c` began some CPU switched to process `p`, which was switched to `n` times before, or
the pass did not come to it. -/
def Turn (n : Nat) (c : κ) (p : Slot) (s : State κ ℓ) : Prop :=
  n < s.runs p ∨ s.runs p = n ∧ s.state p = .runnable ∧ (∀ d, s.cpu d ≠ .process p) ∧ (s.cpu c).next ≤ p

/-- What a step of process `q` on CPU `e` leaves as it was. -/
structure Effect (s s' : State κ ℓ) (e : κ) (q : Slot) : Prop where
  runs : s'.runs = s.runs
  state : ∀ r, r ≠ q → s.state r = .runnable → s'.state r = .runnable
  cpu : ∀ d, s'.cpu d = s.cpu d ∨ d = e ∧ (s'.cpu d = .back q ∨ s'.cpu d = .panic)

omit [DecidableEq ℓ] in
theorem Effect.panic (s : State κ ℓ) (e : κ) (q : Slot) : Effect s (s.panic e) e q where
  runs := rfl
  state _ _ hr := hr
  cpu d := by
    by_cases hd : d = e
    · exact .inr ⟨hd, .inr (by rw [hd]; exact Function.update_self ..)⟩
    · exact .inl (Function.update_of_ne hd _ _)

omit [DecidableEq κ] [DecidableEq ℓ] in
theorem Effect.keep {e : κ} (hruns : s'.runs = s.runs)
    (hstate : ∀ r, r ≠ q → s.state r = .runnable → s'.state r = .runnable)
    (hcpu : s'.cpu = s.cpu) : Effect s s' e q where
  runs := hruns
  state := hstate
  cpu d := .inl (congrFun hcpu d)

omit [DecidableEq ℓ] in
theorem Effect.acquireSched (hs : s.acquireSched c (·.goto p y) = some s') : Effect s s' c p := by
  unfold State.acquireSched at hs
  split at hs
  · cases hs
    exact .panic s c p
  · split at hs
    · cases hs
      exact .keep rfl (fun _ _ hr => hr) rfl
    · cases hs

omit [DecidableEq ℓ] in
theorem Effect.releaseSched : Effect s (s.releaseSched c (·.goto p y)) c p := by
  unfold State.releaseSched
  split
  · exact .keep rfl (fun _ _ hr => hr) rfl
  · exact .panic s c p

theorem Effect.acquireSpin (hs : s.acquireSpin c l (·.goto p y) = some s') : Effect s s' c p := by
  unfold State.acquireSpin at hs
  split at hs
  · cases hs
    exact .panic s c p
  · split at hs
    · cases hs
      exact .keep rfl (fun _ _ hr => hr) rfl
    · cases hs

theorem Effect.releaseSpin {f : State κ ℓ → State κ ℓ} (hf : ∀ t, ∃ held, f t = { t.goto p y with held }) :
    Effect s (s.releaseSpin c l f) c p := by
  unfold State.releaseSpin
  split
  · obtain ⟨held, hf⟩ := hf (s.setSpin l none)
    rw [hf]
    exact .keep rfl (fun _ _ hr => hr) rfl
  · exact .panic s c p

theorem stepProcess_effect (hs : stepProcess s c p = some s') : Effect s s' c p := by
  unfold stepProcess at hs
  have hset {x : ProcState} (r : Slot) (hr : r ≠ p) (hrun : s.state r = .runnable) :
      Function.update s.state p x r = .runnable := by rwa [Function.update_of_ne hr]
  cases hx : s.pc p with
  | user =>
    rw [hx] at hs
    cases hs
  | acquire l | release l =>
    rw [hx] at hs
    exact .acquireSpin hs
  | sleep l =>
    rw [hx] at hs
    simp only at hs
    split at hs
    · exact .acquireSched hs
    · cases hs
      exact .panic s c p
  | wakeup l | yield | exit =>
    rw [hx] at hs
    exact .acquireSched hs
  | taken l =>
    rw [hx] at hs
    cases hs
    exact .releaseSpin fun t => ⟨Function.update t.held p (Function.update (t.held p) l true), rfl⟩
  | unlock l | cleared l =>
    rw [hx] at hs
    cases hs
    exact .releaseSpin fun t => ⟨t.held, rfl⟩
  | awake l | woken =>
    rw [hx] at hs
    cases hs
    exact .releaseSched
  | resumed r =>
    rw [hx] at hs
    cases r with
    | exited =>
      cases hs
      exact .panic s c p
    | slept l =>
      cases hs
      exact .keep rfl (fun _ _ hr => hr) rfl
    | forkret | yielded =>
      cases hs
      exact .releaseSched
  | waking l =>
    rw [hx] at hs
    cases hs
    refine .keep rfl (fun r _ hr => ?_) rfl
    show (s.wakeAll l).state r = .runnable
    rcases wakeAll_state (s := s) (l := l) (q := r) with hstate | ⟨hstate, -, -⟩
    · rwa [hstate]
    · exact hstate
  | test l | take l | clear l =>
    rw [hx] at hs
    cases hs
    exact .keep rfl (fun _ _ hr => hr) rfl
  | doze l | yielding | exiting =>
    rw [hx] at hs
    cases hs
    exact .keep rfl hset rfl
  | sched r =>
    rw [hx] at hs
    simp only at hs
    split at hs
    · cases hs
      exact .panic s c p
    · split at hs
      · cases hs
        exact .panic s c p
      · cases hs
        refine ⟨rfl, fun _ _ hr => hr, fun d => ?_⟩
        by_cases hd : d = c
        · exact .inr ⟨hd, .inl (by rw [hd]; exact Function.update_self ..)⟩
        · exact .inl (Function.update_of_ne hd _ _)

omit [DecidableEq κ] [DecidableEq ℓ] in
theorem Turn.keep {n : Nat} (h : Turn n c p s) (hruns : s'.runs p = s.runs p)
    (hrest : s.state p = .runnable → (∀ d, s.cpu d ≠ .process p) → (s.cpu c).next ≤ p →
      s'.state p = .runnable ∧ (∀ d, s'.cpu d ≠ .process p) ∧ (s'.cpu c).next ≤ p) : Turn n c p s' := by
  rcases h with hlt | ⟨heq, hrunnable, hfree, hnext⟩
  · left
    rwa [hruns]
  · obtain ⟨hrunnable', hfree', hnext'⟩ := hrest hrunnable hfree hnext
    exact .inr ⟨hruns.trans heq, hrunnable', hfree', hnext'⟩

omit [DecidableEq ℓ] in
/-- A step of the scheduler of CPU `e` to `k`, which is no process. -/
theorem Turn.schedule {n : Nat} {e : κ} {k : Cpu} {o : Option κ} (h : Turn n c p s) (hin : (s.cpu c).InPass)
    (hk : ∀ q, k ≠ .process q) (hself : e = c → k.InPass ∧
      (s.state p = .runnable → (s.cpu c).next ≤ p → k.next ≤ p)) :
    (((s.setPtableLock o).setCpu e k).cpu c).InPass ∧ Turn n c p ((s.setPtableLock o).setCpu e k) := by
  have hcpu (d : κ) : ((s.setPtableLock o).setCpu e k).cpu d = if d = e then k else s.cpu d :=
    Function.update_apply s.cpu e k d
  constructor
  · rw [hcpu]
    split
    case isTrue hc => exact (hself hc.symm).1
    case isFalse => exact hin
  · refine h.keep rfl fun hrunnable hfree hnext => ⟨hrunnable, fun d => ?_, ?_⟩
    · rw [hcpu]
      split
      · exact hk p
      · exact hfree d
    · rw [hcpu]
      split
      case isTrue hc => exact (hself hc.symm).2 hrunnable hnext
      case isFalse => exact hnext

/-- A step of a CPU that does not end the pass of `c` keeps the turn of a process. -/
theorem Turn.step {n : Nat} {e : κ} (h : Turn n c p s) (hctl : Control s) (hin : (s.cpu c).InPass)
    (hs : step s e = some s') (hend : e = c → ∀ i, s.cpu c = .scan i → i < nproc) :
    (s'.cpu c).InPass ∧ Turn n c p s' := by
  have hsane := (hctl.step hs).sane
  unfold Sleeplock.step at hs
  cases he : s.cpu e with
  | panic => exact absurd he (hctl.sane e)
  | acquire =>
    rw [he] at hs
    have hs : s.acquireSched e (·.setCpu e (.scan 0)) = some s' := hs
    have hno : ¬s.ptableLock = some e := by
      rw [hctl.table e, State.HasTable, he]
      exact id
    rw [State.acquireSched, if_neg hno, Option.ite_none_right_eq_some] at hs
    obtain ⟨-, hs⟩ := hs
    cases hs
    refine h.schedule (k := .scan 0) hin (by simp) fun hec => ?_
    rw [← hec, he] at hin
    exact hin.elim
  | back q =>
    rw [he] at hs
    have hlock : s.ptableLock = some e := by
      rw [hctl.table e, State.HasTable, he]
      trivial
    simp only [if_pos hlock] at hs
    cases hs
    refine h.schedule (k := .scan (q + 1)) (o := s.ptableLock) hin (by simp) fun hec =>
      ⟨trivial, fun _ hnext => ?_⟩
    rwa [← hec, he] at hnext
  | scan i =>
    rw [he] at hs
    have hlock : s.ptableLock = some e := by
      rw [hctl.table e, State.HasTable, he]
      trivial
    by_cases hi : i < nproc
    · simp only [dif_pos hi] at hs
      cases hs
      split
      case isTrue hrunnable =>
        have hcpu (d : κ) : (s.switchTo e ⟨i, hi⟩).cpu d = if d = e then .process ⟨i, hi⟩ else s.cpu d :=
          Function.update_apply s.cpu e _ d
        constructor
        · rw [hcpu]
          split
          · trivial
          · exact hin
        · by_cases hp : p = ⟨i, hi⟩
          · left
            have hruns : (s.switchTo e ⟨i, hi⟩).runs p = s.runs p + 1 := by
              rw [hp]
              exact Function.update_self ..
            rw [hruns]
            rcases h with hlt | ⟨heq, -⟩
            · omega
            · omega
          · refine h.keep (Function.update_of_ne hp _ _) fun hrun hfree hnext =>
              ⟨(Function.update_of_ne hp _ _).trans hrun, fun d => ?_, ?_⟩
            · rw [hcpu]
              split
              · exact fun heq => hp (Cpu.process.inj heq).symm
              · exact hfree d
            · rw [hcpu]
              split
              case isTrue hec =>
                rw [hec, he] at hnext
                have hnext : i ≤ p := hnext
                have hne : i ≠ p := fun heq => hp (Fin.ext heq.symm)
                show i + 1 ≤ p
                omega
              case isFalse => exact hnext
      case isFalse hrunnable =>
        refine h.schedule (k := .scan (i + 1)) (o := s.ptableLock) hin (by simp) fun hec =>
          ⟨trivial, fun hrun hnext => ?_⟩
        rw [← hec, he] at hnext
        have hnext : i ≤ p := hnext
        have hne : i ≠ p := by
          rintro rfl
          exact hrunnable hrun
        show i + 1 ≤ p
        omega
    · simp only [dif_neg hi, State.releaseSched, if_pos hlock] at hs
      cases hs
      refine h.schedule (k := .acquire) hin (by simp) fun hec => ?_
      exact absurd (hend hec i (hec ▸ he)) hi
  | process q =>
    rw [he] at hs
    have heffect := stepProcess_effect (show stepProcess s e q = some s' from hs)
    have hnext : (s'.cpu c).InPass ∧ (s'.cpu c).next = (s.cpu c).next := by
      rcases heffect.cpu c with heq | ⟨hce, heq | heq⟩
      · rw [heq]
        exact ⟨hin, rfl⟩
      · rw [heq, hce, he]
        exact ⟨trivial, rfl⟩
      · exact absurd heq (hsane c)
    refine ⟨hnext.1, h.keep (congrFun heffect.runs p) fun hrun hfree hle =>
      ⟨?_, fun d heq => ?_, hnext.2.trans_le hle⟩⟩
    · refine heffect.state p ?_ hrun
      rintro rfl
      exact hfree e he
    · rcases heffect.cpu d with hsame | ⟨-, hback | hpanic⟩
      · exact hfree d (hsame.symm.trans heq)
      · cases hback.symm.trans heq
      · exact hsane d hpanic

omit [DecidableEq κ] in
theorem call_keeps {f : Call ℓ} (hs : call s p f = some s') : s'.runs = s.runs ∧ s'.cpu = s.cpu ∧
    ∀ q, s.state q = .runnable → s'.state q = .runnable := by
  cases f with
  | fork q =>
    obtain ⟨hq, hs⟩ := Option.ite_none_right_eq_some.mp hs
    cases hs
    refine ⟨rfl, rfl, fun r hr => ?_⟩
    by_cases hrq : r = q
    · rw [hrq]
      exact Function.update_self ..
    · exact (Function.update_of_ne hrq _ _).trans hr
  | _ =>
    cases hs
    exact ⟨rfl, rfl, fun _ hq => hq⟩

/-- In every pass of the scheduler of a CPU over the process table each process that is runnable when the pass
begins gets a turn, on this CPU or on another one, before the pass ends. -/
theorem pass_runs (h : (sleeplocks κ ℓ).Reachable s) (hc : s.cpu c = .scan 0) (hp : s.state p = .runnable)
    (hrun : ((sleeplocks κ ℓ).startingAt s).ReachableUnder
      (fun t a => a = .step c → (t.cpu c).passDone = false) s')
    (hend : (s'.cpu c).passDone = true) : s.runs p < s'.runs p := by
  have hctl := control_reachable h
  have hlock : s.ptableLock = some c := by
    rw [hctl.table c, State.HasTable, hc]
    trivial
  have hfree (d : κ) : s.cpu d ≠ .process p := by
    intro hd
    have hne : d ≠ c := by
      rintro rfl
      cases hc.symm.trans hd
    have hno : ¬(s.pc p).HasTable := by
      rw [← hctl.table_at hd, hlock]
      exact fun heq => hne (Option.some.inj heq).symm
    cases hp.symm.trans (hctl.running hd hno)
  obtain ⟨-, -, hturn⟩ := hrun.invariant (I := fun t => Control t ∧ (t.cpu c).InPass ∧ Turn (s.runs p) c p t)
    (fun t ht => by
      cases ht
      refine ⟨hctl, ?_, .inr ⟨rfl, hp, hfree, ?_⟩⟩
      · rw [hc]
        trivial
      · rw [hc]
        exact Nat.zero_le _)
    (fun t a t' hI hC hn => by
      obtain ⟨hctl, hin, hturn⟩ := hI
      refine ⟨hctl.next hn, ?_⟩
      cases a with
      | step e =>
        refine hturn.step hctl hin hn fun hec i hi => ?_
        have hdone := hC (by rw [hec])
        rw [hi] at hdone
        exact Nat.lt_of_not_le (of_decide_eq_false hdone)
      | call e f =>
        obtain ⟨q, -, -, hs⟩ := next_call.mp hn
        obtain ⟨hruns, hcpu, hstate⟩ := call_keeps hs
        rw [hcpu]
        exact ⟨hin, hturn.keep (congrFun hruns p) fun hrun hfree hnext =>
          ⟨hstate p hrun, by rwa [hcpu], by rwa [hcpu]⟩⟩)
  rcases hturn with hlt | ⟨-, -, -, hnext⟩
  · exact hlt
  · cases hcpu : s'.cpu c with
    | scan i =>
      rw [hcpu] at hend hnext
      have hend : nproc ≤ i := of_decide_eq_true hend
      have hnext : i ≤ p := hnext
      have hlt := p.isLt
      omega
    | _ =>
      rw [hcpu] at hend
      cases hend

/-- A pass in which the two processes run and yield. -/
def pass (c : κ) : List (Label κ Unit) :=
  List.replicate 2 (.step c) ++ .call c .yield :: List.replicate 6 (.step c) ++ .call c .yield ::
    List.replicate 16 (.step c)

theorem pass_runs_two : ∃ s : State (Fin 2) Unit, ((boot : State (Fin 2) Unit).runs 1 < s.runs 1) ∧
    (s.cpu 0).passDone = true := by
  let t : State (Fin 2) Unit := (boot.setPtableLock (some 0)).setCpu 0 (.scan 0)
  have ht : (sleeplocks (Fin 2) Unit).Reachable t := .step (a := .step 0) (.init boot_init) trivial rfl
  have hruns : (((sleeplocks (Fin 2) Unit).startingAt t).runUnder
      (fun t a => a = .step 0 → (t.cpu 0).passDone = false) t (pass 0)).map (fun s => (s.cpu 0).passDone) =
      some true := by decide +kernel
  obtain ⟨s, hs, hdone⟩ := Option.map_eq_some_iff.mp hruns
  exact ⟨s, pass_runs (s := t) (c := 0) (p := 1) ht rfl rfl
    (Machine.ReachableUnder.runUnder (.init rfl) hs) hdone, hdone⟩

end FtosFfs.Core.Sleeplock
