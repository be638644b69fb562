import FtosFfs.Core.Pid

/-! Which sleepers `wakeup` reaches: it goes through the process table of the scheduler that its CPU runs,
while channels are addresses of the whole kernel. -/

namespace FtosFfs.Core

open Lib

/-- `NCPU`. -/
def ncpu : Nat := 4

instance : NeZero ncpu := ⟨by decide⟩

/-- The containers of the schedulers that the CPUs run, `cpus[i].scheduler`. -/
abbrev Cpus : Type := Fin ncpu → Nat

/-- `wakeup` on `cpu`, for the channel at address `chan`. -/
def wakeup (cpus : Cpus) (cpu : Fin ncpu) (chan : Nat) (k : Kernel) : Kernel :=
  k.onCont (cpus cpu) (·.wakeup (some (.other chan)))

/-- The process in slot `i` of container `c` sleeps on the channel at address `chan`. -/
def SleepsOn (k : Kernel) (chan c : Nat) (i : Slot) : Prop :=
  ((k c).ptable i).state = .sleeping ∧ ((k c).ptable i).chan = some (.other chan)

variable {T : Tree} {k k' : Kernel} {cpus : Cpus} {cpu : Fin ncpu} {chan c d : Nat} {i : Slot}

/-! ### One call -/

theorem Container.wakeup_reaches (e : Container) (ch : Option Chan) (i : Slot) :
    ¬(((e.wakeup ch).ptable i).state = .sleeping ∧ ((e.wakeup ch).ptable i).chan = ch) := by
  simp only [Container.wakeup]
  split
  case isTrue =>
    intro h
    cases h.1
  case isFalse h => exact h

/-- The sleepers that are left are those of the other containers. -/
theorem sleepsOn_wakeup :
    SleepsOn (wakeup cpus cpu chan k) chan c i ↔ SleepsOn k chan c i ∧ c ≠ cpus cpu := by
  unfold SleepsOn wakeup Kernel.onCont
  by_cases hc : c = cpus cpu
  · subst hc
    rw [Function.update_self]
    exact ⟨fun h => absurd h (Container.wakeup_reaches _ _ i), fun h => absurd rfl h.2⟩
  · rw [Function.update_of_ne hc]
    exact ⟨fun h => ⟨h, hc⟩, And.left⟩

/-! ### Runs of one container -/

/-- The container whose table a step changes. -/
def Label.cont : Label → Nat
  | .create c | .fork c _ | .forked c _ _ | .exit c _ | .wait c _ | .run c _ | .yield c _
  | .sleep c _ _ | .wakeup c _ => c

theorem setProc_ptable {p : Proc} (h : d ≠ c) : ((k.setProc c i p) d).ptable = (k d).ptable := by
  rw [Kernel.setProc, Function.update_of_ne h]

theorem onCont_ptable {f : Container → Container} (h : d ≠ c) :
    ((k.onCont c f) d).ptable = (k d).ptable := by
  rw [Kernel.onCont, Function.update_of_ne h]

theorem allocProc_ptable (hr : allocProc T k c = some (i, k')) (h : d ≠ c) :
    (k' d).ptable = (k d).ptable := by
  unfold allocProc at hr
  split at hr
  case h_2 => cases hr
  case h_1 j k₁ ws ha =>
    cases hr
    rw [setProc_ptable h]
    unfold allocPcb at ha
    split at ha
    case h_1 => cases ha
    case h_2 =>
      obtain ⟨⟨k₀, ws⟩, hres, he⟩ := Option.map_eq_some_iff.mp ha
      cases he
      rw [setProc_ptable h]
      exact (allocResource_tables hres).ptable d

theorem next_ptable {a : Label} (hn : (kernel T).next k a = some k') (h : d ≠ a.cont) :
    (k' d).ptable = (k d).ptable := by
  cases a with
  | create c =>
    obtain ⟨⟨i, k₁⟩, hr, rfl⟩ := Option.map_eq_some_iff.mp hn
    exact (setProc_ptable h).trans (allocProc_ptable hr h)
  | fork c i =>
    simp only [kernel, Option.ite_none_right_eq_some] at hn
    obtain ⟨⟨j, k₁⟩, hr, rfl⟩ := Option.map_eq_some_iff.mp hn.2
    exact (setProc_ptable h).trans (allocProc_ptable hr h)
  | forked c i mem =>
    simp only [kernel] at hn
    split at hn
    case h_1 =>
      simp only [Option.ite_none_right_eq_some, Option.some.injEq] at hn
      obtain ⟨-, rfl⟩ := hn
      exact onCont_ptable h
    case h_2 => cases hn
  | exit c i | wait c i =>
    simp only [kernel, Option.ite_none_right_eq_some, Option.some.injEq] at hn
    obtain ⟨-, rfl⟩ := hn
    exact onCont_ptable h
  | run c i | yield c i | sleep c i a =>
    simp only [kernel, Option.ite_none_right_eq_some, Option.some.injEq] at hn
    obtain ⟨-, rfl⟩ := hn
    exact setProc_ptable h
  | wakeup c a =>
    cases hn
    exact onCont_ptable h

/-- Where only one container has processes, they are the only sleepers. -/
theorem sleepsOn_cont (h : (kernel T).ReachableUnder (fun _ a => a.cont = d) k)
    (hs : SleepsOn k chan c i) : c = d := by
  have hawake : ∀ c, c ≠ d → ∀ i, ((k c).ptable i).state = .unused := by
    refine h.invariant (I := fun k => ∀ c, c ≠ d → ∀ i, ((k c).ptable i).state = .unused) ?_ ?_
    · intro k hk c _ i
      rw [(hk c).2.2 i]
    · intro k a k' hk ha hn c hc i
      rw [next_ptable hn (ha ▸ hc)]
      exact hk c hc i
  by_contra hc
  cases hs.1.symm.trans (hawake c hc i)

/-! ### Sleepers of several containers -/

/-- `wakeup` reaches every sleeper just when they are all in the process table of the scheduler that
its CPU runs. -/
theorem wakeup_reaches_iff (cpus : Cpus) (cpu : Fin ncpu) (chan : Nat) (k : Kernel) :
    (∀ c i, ¬SleepsOn (wakeup cpus cpu chan k) chan c i) ↔
      ∀ c i, SleepsOn k chan c i → c = cpus cpu := by
  constructor
  · intro h c i hs
    by_contra hc
    exact h c i (sleepsOn_wakeup.mpr ⟨hs, hc⟩)
  · intro h c i hs
    obtain ⟨hold, hc⟩ := sleepsOn_wakeup.mp hs
    exact hc (h c i hold)

/-- With the processes of one container, a `wakeup` in any reachable state reaches every sleeper. -/
theorem wakeup_reaches_alone (h : (kernel T).ReachableUnder (fun _ a => a.cont = cpus cpu) k) :
    ¬SleepsOn (wakeup cpus cpu chan k) chan c i := by
  intro hs
  obtain ⟨hold, hc⟩ := sleepsOn_wakeup.mp hs
  exact hc (sleepsOn_cont h hold)

/-- A process of container 1 sleeps, and a process of the root container runs. -/
def sleeperElsewhere (chan : Nat) : List Label :=
  [.create 0, .create 1, .run 1 0, .sleep 1 0 chan, .run 0 0]

/-- The process of the root container wakes up the channel, and the sleeper goes on sleeping. -/
theorem wakeup_misses : ∃ k, (kernel flatTree).Reachable k ∧ ((k 0).ptable 0).state = .running ∧
    ∃ c i, SleepsOn (wakeup (fun _ => 0) 0 100 k) 100 c i := by
  have hruns : ((kernel flatTree).run boot (sleeperElsewhere 100)).isSome := by decide +kernel
  obtain ⟨k, hk⟩ := Option.isSome_iff_exists.mp hruns
  have hstates : ((kernel flatTree).run boot (sleeperElsewhere 100)).map (fun k =>
      (((k 0).ptable 0).state, ((k 1).ptable 0).state, ((k 1).ptable 0).chan)) =
      some (.running, .sleeping, some (.other 100)) := by decide +kernel
  rw [hk, Option.map_some, Option.some.injEq, Prod.mk.injEq, Prod.mk.injEq] at hstates
  obtain ⟨hrunning, hsleeping, hchan⟩ := hstates
  refine ⟨k, Machine.ReachableUnder.run (.init init_boot) (fun _ _ _ => trivial) hk, hrunning, 1, 0, ?_⟩
  exact sleepsOn_wakeup.mpr ⟨⟨hsleeping, hchan⟩, by decide⟩

end FtosFfs.Core
