import FtosFfs.Core.Table

/-! Process ids: the counters of the containers, and what `alloc_pcb` gives while they last. -/

namespace FtosFfs.Core

open Lib

variable {T : Tree} {k k' : Kernel} {c d : Nat} {i j : Slot}

/-- Container `c` and its ancestors, at most `fuel` of them. -/
def Tree.chain (T : Tree) : Nat → Nat → List Nat
  | 0, _ => []
  | fuel + 1, c => c :: if c = 0 then [] else T.chain fuel (T.parent c)

theorem Tree.le_of_mem_chain {fuel : Nat} (h : d ∈ T.chain fuel c) : d ≤ c := by
  induction fuel generalizing c with
  | zero => simp [Tree.chain] at h
  | succ fuel ih =>
    simp only [Tree.chain, List.mem_cons] at h
    obtain rfl | h := h
    · exact le_rfl
    · split at h
      · simp at h
      · rename_i hc
        exact (ih h).trans (T.parent_lt c hc).le

/-- The container `c` and its ancestors each have a process id left that fits in the `pmap`. -/
def PidsLeft (T : Tree) (k : Kernel) (c : Nat) : Prop :=
  ∀ d ∈ T.chain (c + 1) c, (k d).pid + 1 < npid

instance (T : Tree) (k : Kernel) (c : Nat) : Decidable (PidsLeft T k c) :=
  inferInstanceAs (Decidable (∀ d ∈ T.chain (c + 1) c, (k d).pid + 1 < npid))

/-- The call `alloc_pcb` in container `c` succeeds, with a process id that no live process of the
container has, with writes inside the `pmap`s only, and with all locks free at its return. -/
def AllocGood (T : Tree) (k : Kernel) (c : Nat) : Prop :=
  ∃ i k' ws, allocPcb T k c = some ⟨some i, k', ws⟩ ∧
    (∀ j, ((k c).ptable j).state ≠ .unused → ((k' c).ptable i).pid ≠ ((k c).ptable j).pid) ∧
    (∀ w ∈ ws, w.2 < npid) ∧ ∀ d, (k' d).locked = false

/-- The container whose slots the step allocates. -/
def Label.allocs : Label → Option Nat
  | .create c => some c
  | .fork c _ => some c
  | _ => none

/-- A step that allocates a slot does it while process ids are left. -/
def AllocsWithPids (T : Tree) (k : Kernel) (a : Label) : Prop :=
  ∀ c, a.allocs = some c → PidsLeft T k c

/-- All locks are free, the counters are inside the `pmap`s, and no process has a process id above
its container's counter. -/
structure PidsOk (k : Kernel) : Prop where
  free : ∀ c, (k c).locked = false
  below : ∀ c, (k c).pid < npid
  given : ∀ c i, ((k c).ptable i).pid ≤ (k c).pid

/-- The process tables of `k'` are those of `k`, and its counters are not behind. -/
structure TablesKept (k k' : Kernel) : Prop where
  ptable : ∀ d, (k' d).ptable = (k d).ptable
  pid : ∀ d, (k d).pid ≤ (k' d).pid

theorem allocResource_tables {p : Nat × Slot} {fuel : Nat} {ws : List (Nat × Nat)}
    (h : allocResource T p fuel c k = some (k', ws)) : TablesKept k k' := by
  induction fuel generalizing c k k' ws with
  | zero => simp [allocResource] at h
  | succ fuel ih =>
    have hset (e : Container) (ht : e.ptable = (k c).ptable) (hp : (k c).pid ≤ e.pid) :
        TablesKept k (Function.update k c e) := by
      constructor <;> intro d <;> by_cases hd : d = c
      · subst hd; simpa using ht
      · simp [hd]
      · subst hd; simpa using hp
      · simp [hd]
    simp only [allocResource] at h
    split at h
    · cases h
    split at h
    · cases h
      exact hset _ rfl le_rfl
    split at h
    · cases h
      exact hset _ rfl (Nat.le_succ _)
    · obtain ⟨r, hr, he⟩ := Option.map_eq_some_iff.mp h
      cases he
      have h1 := hset { k c with
        pid := (k c).pid + 1
        pmap := Function.update (k c).pmap ((k c).pid + 1) ⟨true, (k c).pid + 1, some p⟩ }
        rfl (Nat.le_succ _)
      have h2 := ih hr
      exact ⟨fun d => (h2.ptable d).trans (h1.ptable d), fun d => (h1.pid d).trans (h2.pid d)⟩

/-- What `alloc_resource` does while process ids are left: it gives the next id and keeps the
locks. -/
structure Given (k k' : Kernel) (c : Nat) (ws : List (Nat × Nat)) : Prop where
  pid : (k' c).pid = (k c).pid + 1
  locked : ∀ d, (k' d).locked = (k d).locked
  below : ∀ d, (k d).pid < npid → (k' d).pid < npid
  bounds : ∀ w ∈ ws, w.2 < npid

theorem allocResource_given {p : Nat × Slot} {fuel : Nat} (hc : c < fuel)
    (h : ∀ d ∈ T.chain fuel c, (k d).locked = false ∧ (k d).pid + 1 < npid) :
    ∃ k' ws, allocResource T p fuel c k = some (k', ws) ∧ Given k k' c ws ∧
      ∀ d, c < d → k' d = k d := by
  induction fuel generalizing c k with
  | zero => omega
  | succ fuel ih =>
    obtain ⟨hfree, hleft⟩ := h c (by simp [Tree.chain])
    let e : Container := { k c with
      pid := (k c).pid + 1
      pmap := Function.update (k c).pmap ((k c).pid + 1) ⟨true, (k c).pid + 1, some p⟩ }
    have hother (d : Nat) (hd : d ≠ c) : Function.update k c e d = k d := by simp [hd]
    unfold allocResource
    rw [if_neg (by simp [hfree]), if_neg (by omega)]
    by_cases hzero : c = 0
    · refine ⟨_, _, if_pos hzero, ⟨by simp, ?_, ?_, by simpa using hleft⟩,
        fun d hd => hother d (by omega)⟩
      · intro d
        by_cases hd : d = c
        · subst hd; simp
        · rw [hother d hd]
      · intro d hb
        by_cases hd : d = c
        · subst hd; simpa using hleft
        · rwa [hother d hd]
    · have hlt := T.parent_lt c hzero
      have hup : ∀ d ∈ T.chain fuel (T.parent c), (Function.update k c e d).locked = false ∧
          (Function.update k c e d).pid + 1 < npid := by
        intro d hd
        rw [hother d (by have := Tree.le_of_mem_chain hd; omega)]
        exact h d (by simp [Tree.chain, hzero, hd])
      obtain ⟨k', ws, hr, hg, hsame⟩ := ih (by omega) hup
      have hown : k' c = e := by rw [hsame c hlt]; simp
      refine ⟨k', (c, (k c).pid + 1) :: ws, ?_, ⟨by rw [hown], ?_, ?_, ?_⟩, ?_⟩
      · rw [if_neg hzero]
        simp only [hr, e, Option.map_some]
      · intro d
        by_cases hd : d = c
        · subst hd; rw [hown]
        · rw [hg.locked d, hother d hd]
      · intro d hb
        by_cases hd : d = c
        · subst hd; rw [hown]; exact hleft
        · exact hg.below d (by rwa [hother d hd])
      · intro w hw
        obtain rfl | hw := List.mem_cons.mp hw
        · exact hleft
        · exact hg.bounds w hw
      · intro d hd
        rw [hsame d (by omega), hother d (by omega)]

/-- A counter at its last entry makes `alloc_resource` write behind its `pmap`. -/
theorem allocResource_beyond {p : Nat × Slot} {fuel : Nat} {ws : List (Nat × Nat)}
    (hb : ∀ d ∈ T.chain fuel c, (k d).pid < npid)
    (hlast : ∃ d ∈ T.chain fuel c, ¬(k d).pid + 1 < npid)
    (h : allocResource T p fuel c k = some (k', ws)) : ∃ w ∈ ws, ¬w.2 < npid := by
  induction fuel generalizing c k k' ws with
  | zero => simp [allocResource] at h
  | succ fuel ih =>
    have hbc := hb c (by simp [Tree.chain])
    simp only [allocResource] at h
    split at h
    · cases h
    rw [if_neg (by omega)] at h
    by_cases hc : (k c).pid + 1 < npid
    · obtain ⟨d, hd, hl⟩ := hlast
      simp only [Tree.chain, List.mem_cons] at hd
      obtain rfl | hd := hd
      · exact absurd hc hl
      split at hd
      · simp at hd
      rename_i hzero
      have hlt := T.parent_lt c hzero
      have hother (e : Container) (d : Nat) (hd : d ∈ T.chain fuel (T.parent c)) :
          Function.update k c e d = k d := by
        have := Tree.le_of_mem_chain hd
        simp [show d ≠ c by omega]
      rw [if_neg hzero] at h
      obtain ⟨r, hr, he⟩ := Option.map_eq_some_iff.mp h
      cases he
      obtain ⟨w, hw, hn⟩ := ih (fun d hd => by
          rw [hother _ d hd]
          exact hb d (by simp [Tree.chain, hzero, hd]))
        ⟨d, hd, by rwa [hother _ d hd]⟩ hr
      exact ⟨w, List.mem_cons_of_mem _ hw, hn⟩
    · refine ⟨(c, (k c).pid + 1), ?_, hc⟩
      split at h
      · cases h
        exact List.mem_singleton_self _
      · obtain ⟨r, hr, he⟩ := Option.map_eq_some_iff.mp h
        cases he
        exact List.mem_cons_self

theorem setProc_same {p : Proc} : ((k.setProc c i p) c).ptable i = p := by
  simp [Kernel.setProc, Container.setProc]

theorem setProc_other {p : Proc} (h : ¬(d = c ∧ j = i)) :
    ((k.setProc c i p) d).ptable j = (k d).ptable j := by
  by_cases hd : d = c
  · subst hd
    have hj : j ≠ i := fun hj => h ⟨rfl, hj⟩
    simp [Kernel.setProc, Container.setProc, hj]
  · simp [Kernel.setProc, hd]

@[simp] theorem setProc_locked {p : Proc} : ((k.setProc c i p) d).locked = (k d).locked := by
  by_cases hd : d = c
  · subst hd; simp [Kernel.setProc, Container.setProc]
  · simp [Kernel.setProc, hd]

@[simp] theorem setProc_pid {p : Proc} : ((k.setProc c i p) d).pid = (k d).pid := by
  by_cases hd : d = c
  · subst hd; simp [Kernel.setProc, Container.setProc]
  · simp [Kernel.setProc, hd]

/-- `alloc_pcb` while process ids are left. -/
theorem PidsOk.allocPcb (h : PidsOk k) (hl : PidsLeft T k c) (hi : (k c).freeSlot = some i) :
    ∃ k' ws, allocPcb T k c = some ⟨some i, k', ws⟩ ∧ PidsOk k' ∧
      ((k' c).ptable i).pid = (k c).pid + 1 ∧ ∀ w ∈ ws, w.2 < npid := by
  obtain ⟨k1, ws, hr, hg, -⟩ :=
    allocResource_given (p := (c, i)) (Nat.lt_succ_self c) fun d hd => ⟨h.free d, hl d hd⟩
  have ht := allocResource_tables hr
  refine ⟨k1.setProc c i { (k1 c).ptable i with pid := (k1 c).pid, state := .embryo }, ws,
    by simp only [Core.allocPcb, hi, hr, Option.map_some], ⟨?_, ?_, ?_⟩, ?_, hg.bounds⟩
  · intro d
    rw [setProc_locked, hg.locked d]
    exact h.free d
  · intro d
    rw [setProc_pid]
    exact hg.below d (h.below d)
  · intro d j
    rw [setProc_pid]
    by_cases hj : d = c ∧ j = i
    · obtain ⟨rfl, rfl⟩ := hj
      rw [setProc_same]
    · rw [setProc_other hj, ht.ptable d]
      exact (h.given d j).trans (ht.pid d)
  · rw [setProc_same]
    exact hg.pid

/-- A change of a container that keeps its lock and its counter and raises no process id. -/
structure Quiet (c c' : Container) : Prop where
  locked : c'.locked = c.locked
  pid : c'.pid = c.pid
  ids : ∀ i, (c'.ptable i).pid ≤ (c.ptable i).pid

theorem Quiet.refl (c : Container) : Quiet c c := ⟨rfl, rfl, fun _ => le_rfl⟩

theorem Quiet.trans {c1 c2 c3 : Container} (h : Quiet c1 c2) (h' : Quiet c2 c3) : Quiet c1 c3 :=
  ⟨h'.locked.trans h.locked, h'.pid.trans h.pid, fun i => (h'.ids i).trans (h.ids i)⟩

theorem Quiet.setProc {c : Container} {p : Proc} (h : p.pid ≤ (c.ptable i).pid) :
    Quiet c (c.setProc i p) := by
  refine ⟨rfl, rfl, fun j => ?_⟩
  by_cases hj : j = i
  · subst hj; simpa [Container.setProc] using h
  · simp [Container.setProc, hj]

theorem Quiet.wakeup (c : Container) (chan : Option Chan) : Quiet c (c.wakeup chan) := by
  refine ⟨rfl, rfl, fun j => ?_⟩
  simp only [Container.wakeup]
  split <;> exact le_rfl

theorem Quiet.foldl {c : Container} {f : Container → Slot → Container}
    (hf : ∀ c i, Quiet c (f c i)) (l : List Slot) : Quiet c (l.foldl f c) := by
  induction l generalizing c with
  | nil => exact .refl c
  | cons i l ih => exact (hf c i).trans ih

theorem Quiet.exit (c : Container) (i : Slot) : Quiet c (c.exit i) := by
  refine ((Quiet.wakeup c _).trans (Quiet.foldl (fun c k => ?_) _)).trans (.setProc le_rfl)
  split
  · exact .wakeup c _
  · exact .refl c

theorem Quiet.wait (c : Container) (i : Slot) : Quiet c (c.wait i) := by
  unfold Container.wait
  split
  · exact (Quiet.setProc (Nat.zero_le _)).trans (.setProc le_rfl)
  · exact .setProc le_rfl
  · exact .setProc le_rfl

theorem Quiet.forked (c : Container) (i j : Slot) (mem : Bool) : Quiet c (c.forked i j mem) := by
  refine (Quiet.setProc ?_).trans (.setProc le_rfl)
  split <;> exact le_rfl

theorem PidsOk.onCont (h : PidsOk k) {f : Container → Container} (hf : Quiet (k c) (f (k c))) :
    PidsOk (k.onCont c f) := by
  have hown : k.onCont c f c = f (k c) := by simp [Kernel.onCont]
  have hother (d : Nat) (hd : d ≠ c) : k.onCont c f d = k d := by simp [Kernel.onCont, hd]
  refine ⟨fun d => ?_, fun d => ?_, fun d i => ?_⟩ <;> by_cases hd : d = c
  · subst hd; rw [hown, hf.locked]; exact h.free d
  · rw [hother d hd]; exact h.free d
  · subst hd; rw [hown, hf.pid]; exact h.below d
  · rw [hother d hd]; exact h.below d
  · subst hd; rw [hown, hf.pid]; exact (hf.ids i).trans (h.given d i)
  · rw [hother d hd]; exact h.given d i

theorem PidsOk.setProc (h : PidsOk k) {p : Proc} (hp : p.pid ≤ ((k c).ptable i).pid) :
    PidsOk (k.setProc c i p) :=
  h.onCont (f := fun e => e.setProc i p) (.setProc hp)

theorem PidsOk.allocProc (h : PidsOk k) (hl : PidsLeft T k c)
    (hr : allocProc T k c = some (i, k')) : PidsOk k' := by
  unfold Core.allocProc at hr
  split at hr
  · rename_i i' k1 ws ha
    cases hr
    have hfree : (k c).freeSlot = some i := by
      unfold Core.allocPcb at ha
      split at ha
      · cases ha
      · rename_i hfree
        obtain ⟨r, -, hr⟩ := Option.map_eq_some_iff.mp ha
        cases hr
        exact hfree
    obtain ⟨k2, ws2, ha2, hok, -⟩ := h.allocPcb hl hfree
    rw [ha] at ha2
    cases ha2
    exact hok.setProc le_rfl
  · cases hr

theorem PidsOk.step {a : Label} (h : PidsOk k) (hC : AllocsWithPids T k a)
    (hn : (kernel T).next k a = some k') : PidsOk k' := by
  cases a with
  | create c =>
    obtain ⟨⟨i, k1⟩, hr, rfl⟩ := Option.map_eq_some_iff.mp hn
    exact (h.allocProc (hC c rfl) hr).setProc le_rfl
  | fork c i =>
    simp only [kernel, Option.ite_none_right_eq_some] at hn
    obtain ⟨⟨j, k1⟩, hr, rfl⟩ := Option.map_eq_some_iff.mp hn.2
    exact (h.allocProc (hC c rfl) hr).setProc le_rfl
  | forked c i mem =>
    simp only [kernel] at hn
    split at hn
    · simp only [Option.ite_none_right_eq_some, Option.some.injEq] at hn
      obtain ⟨-, rfl⟩ := hn
      exact h.onCont (.forked _ i _ mem)
    · cases hn
  | exit c i =>
    simp only [kernel, Option.ite_none_right_eq_some, Option.some.injEq] at hn
    obtain ⟨-, rfl⟩ := hn
    exact h.onCont (.exit _ i)
  | wait c i =>
    simp only [kernel, Option.ite_none_right_eq_some, Option.some.injEq] at hn
    obtain ⟨-, rfl⟩ := hn
    exact h.onCont (.wait _ i)
  | run c i =>
    simp only [kernel, Option.ite_none_right_eq_some, Option.some.injEq] at hn
    obtain ⟨-, rfl⟩ := hn
    exact h.setProc le_rfl
  | yield c i =>
    simp only [kernel, Option.ite_none_right_eq_some, Option.some.injEq] at hn
    obtain ⟨-, rfl⟩ := hn
    exact h.setProc le_rfl
  | sleep c i a =>
    simp only [kernel, Option.ite_none_right_eq_some, Option.some.injEq] at hn
    obtain ⟨-, rfl⟩ := hn
    exact h.setProc le_rfl
  | wakeup c a =>
    cases hn
    exact h.onCont (.wakeup _ _)

theorem PidsOk.reachable (h : (kernel T).ReachableUnder (AllocsWithPids T) k) : PidsOk k := by
  refine h.invariant (fun k hk => ?_) fun k a k' hk hC hn => hk.step hC hn
  refine ⟨fun c => (hk c).1, fun c => ?_, fun c i => ?_⟩
  · rw [(hk c).2.1]
    decide
  · rw [(hk c).2.2 i]
    exact Nat.zero_le _

/-- In every run whose allocations all had process ids left, the next `alloc_pcb` with a free slot
meets its specification exactly when process ids are left. -/
theorem allocPcb_good_iff (h : (kernel T).ReachableUnder (AllocsWithPids T) k)
    (hfree : ∃ i, ((k c).ptable i).state = .unused) : AllocGood T k c ↔ PidsLeft T k c := by
  have hok := PidsOk.reachable h
  constructor
  · rintro ⟨i, k', ws, ha, -, hw, -⟩
    by_contra hlast
    simp only [PidsLeft, not_forall] at hlast
    obtain ⟨d, hd, hl⟩ := hlast
    unfold allocPcb at ha
    split at ha
    · cases ha
    · obtain ⟨r, hr, he⟩ := Option.map_eq_some_iff.mp ha
      cases he
      obtain ⟨w, hw', hn⟩ := allocResource_beyond (fun d _ => hok.below d) ⟨d, hd, hl⟩ hr
      exact hn (hw w hw')
  · intro hl
    obtain ⟨i, hi⟩ : ∃ i, (k c).freeSlot = some i := by
      obtain ⟨j, hj⟩ := hfree
      unfold Container.freeSlot
      exact Option.isSome_iff_exists.mp
        (List.find?_isSome.mpr ⟨j, List.mem_finRange j, by simpa using hj⟩)
    obtain ⟨k', ws, ha, hok', hpid, hw⟩ := hok.allocPcb hl hi
    refine ⟨i, k', ws, ha, fun j _ => ?_, hw, hok'.free⟩
    have := hok.given c j
    omega

/-- The tree in which every container is a child of the root. -/
def flatTree : Tree := ⟨fun _ => 0, fun _ => Nat.pos_of_ne_zero⟩

def boot : Kernel := fun _ =>
  ⟨false, 0, fun _ => ⟨false, 0, none⟩, fun _ => ⟨.unused, 0, none, none, .user⟩⟩

theorem init_boot : (kernel flatTree).init boot := fun _ => ⟨rfl, rfl, fun _ => rfl⟩

/-- A process forks, the child forks too, exits and is waited for. -/
def forkForkWait : List Label :=
  [.create 0, .run 0 0, .fork 0 0, .forked 0 0 true, .run 0 1, .fork 0 1, .forked 0 1 true, .exit 0 1,
    .wait 0 0]

instance (T : Tree) (k : Kernel) (a : Label) : Decidable (AllocsWithPids T k a) :=
  decidable_of_iff (∀ c ∈ a.allocs, PidsLeft T k c) Iff.rfl

/-- With two processes left and the slot of the third free again, the next one gets a new process id. -/
theorem allocPcb_good_forks : ∃ k, (kernel flatTree).ReachableUnder (AllocsWithPids flatTree) k ∧
    (((k 0).ptable 0).state = .running ∧ ((k 0).ptable 1).state = .unused ∧
      ((k 0).ptable 2).state = .runnable ∧ ((k 0).ptable 2).pid = 3 ∧ (k 0).pid = 3) ∧
    AllocGood flatTree k 0 := by
  have hruns : ((kernel flatTree).runUnder (AllocsWithPids flatTree) boot forkForkWait).map (fun k =>
      decide ((((k 0).ptable 0).state = .running ∧ ((k 0).ptable 1).state = .unused ∧
        ((k 0).ptable 2).state = .runnable ∧ ((k 0).ptable 2).pid = 3 ∧ (k 0).pid = 3) ∧
          PidsLeft flatTree k 0)) = some true := by decide +kernel
  obtain ⟨k, hk, hp⟩ := Option.map_eq_some_iff.mp hruns
  obtain ⟨hstate, hleft⟩ := of_decide_eq_true hp
  have hreach := Machine.ReachableUnder.runUnder (.init init_boot) hk
  exact ⟨k, hreach, hstate, (allocPcb_good_iff hreach ⟨1, hstate.2.1⟩).mpr hleft⟩

section Pair

variable {e : Container} {n : Nat} {pmap : Nat → PidMapping} {p p' q q' : Proc}

/-- The kernel after boot, but with the root container `e`. -/
def rooted (e : Container) : Kernel := Function.update boot 0 e

@[simp] theorem rooted_zero : rooted e 0 = e := by simp [rooted]

@[simp] theorem rooted_onCont (f : Container → Container) :
    (rooted e).onCont 0 f = rooted (f e) := by
  simp [Kernel.onCont, rooted]

@[simp] theorem rooted_setProc : (rooted e).setProc 0 i p = rooted (e.setProc i p) := by
  simp [Kernel.setProc, rooted]

/-- A container with the counter at `n` and the processes `p` and `q` in its first two slots. -/
def pair (n : Nat) (pmap : Nat → PidMapping) (p q : Proc) : Container :=
  ⟨false, n, pmap, Function.update (Function.update (boot 0).ptable 0 p) 1 q⟩

@[simp] theorem pair_pid : (pair n pmap p q).pid = n := rfl

@[simp] theorem pair_fst : (pair n pmap p q).ptable 0 = p := by
  simp [pair, Function.update_of_ne (show (0 : Slot) ≠ 1 by decide)]

@[simp] theorem pair_snd : (pair n pmap p q).ptable 1 = q := by
  simp [pair]

@[simp] theorem pair_setProc_fst : (pair n pmap p q).setProc 0 p' = pair n pmap p' q := by
  simp [pair, Container.setProc, Function.update_comm (show (0 : Slot) ≠ 1 by decide)]

@[simp] theorem pair_setProc_snd : (pair n pmap p q).setProc 1 q' = pair n pmap p q' := by
  simp [pair, Container.setProc]

theorem pair_forall {P : Proc → Prop} (hp : P p) (hq : P q)
    (hrest : P ⟨.unused, 0, none, none, .user⟩) (i : Slot) : P ((pair n pmap p q).ptable i) := by
  by_cases h1 : i = 1
  · subst h1; simpa using hq
  by_cases h0 : i = 0
  · subst h0; simpa using hp
  · simpa [pair, boot, h1, h0] using hrest

theorem allocProc_rooted (hfree : e.freeSlot = some i) (hl : e.locked = false) (hp : e.pid ≠ npid) :
    allocProc flatTree (rooted e) 0 = some (i, rooted (Container.setProc
      { e with
        pid := e.pid + 1
        pmap := Function.update e.pmap (e.pid + 1) ⟨true, e.pid + 1, some (0, i)⟩ } i
      { e.ptable i with pid := e.pid + 1, state := .embryo, pc := .user })) := by
  have hr : allocResource flatTree (0, i) 1 0 (rooted e) = some (rooted { e with
      pid := e.pid + 1
      pmap := Function.update e.pmap (e.pid + 1) ⟨true, e.pid + 1, some (0, i)⟩ },
      [(0, e.pid + 1)]) := by
    simp [allocResource, rooted, hl, hp]
  simp [allocProc, allocPcb, hfree, hr, Container.setProc]

theorem Container.wakeup_awake (h : ∀ i, (e.ptable i).state ≠ .sleeping) (chan : Option Chan) :
    e.wakeup chan = e := by
  unfold Container.wakeup
  congr 1
  funext i
  rw [if_neg fun hi => h i hi.1]

theorem Container.exit_awake (h : ∀ i, (e.ptable i).state ≠ .sleeping) :
    e.exit i = e.setProc i { e.ptable i with state := .zombie } := by
  have hloop : (List.finRange nproc).foldl (fun (e : Container) k =>
      if (e.ptable k).parent = some i ∧ (e.ptable k).state = .zombie then e.wakeup (some (.proc i))
      else e) e = e := by
    induction List.finRange nproc with
    | nil => rfl
    | cons k l ih =>
      rw [List.foldl_cons, Container.wakeup_awake h, ite_self]
      exact ih
  simp only [Container.exit, Container.wakeup_awake h, hloop]

/-- The kernel with one process, which is running, and the counter at `n`. -/
def alone (n : Nat) (pmap : Nat → PidMapping) : Kernel :=
  rooted (pair n pmap ⟨.running, 1, none, none, .user⟩ ⟨.unused, 0, none, none, .user⟩)

theorem reachable_alone : ∃ pmap, (kernel flatTree).Reachable (alone 1 pmap) := by
  have hboot : boot = rooted (pair 0 (boot 0).pmap ⟨.unused, 0, none, none, .user⟩
      ⟨.unused, 0, none, none, .user⟩) := by
    have hunused (i : Slot) : Function.update (boot 0).ptable i ⟨.unused, 0, none, none, .user⟩ =
        (boot 0).ptable :=
      Function.update_eq_self i (boot 0).ptable
    simp only [rooted, pair, hunused]
    exact (Function.update_eq_self 0 boot).symm
  have hcreate : (kernel flatTree).next boot (.create 0) =
      some (rooted (pair 1 (Function.update (boot 0).pmap 1 ⟨true, 1, some (0, 0)⟩)
        ⟨.runnable, 1, none, none, .user⟩ ⟨.unused, 0, none, none, .user⟩)) := by
    rw [hboot]
    simp only [kernel]
    rw [allocProc_rooted (i := 0) rfl rfl (by decide)]
    simp only [Option.map_some, rooted_zero, rooted_setProc, pair_pid, pair_fst]
    show some (rooted (((pair 1 _ _ _).setProc 0 _).setProc 0 _)) = _
    rw [pair_setProc_fst, pair_setProc_fst]
    rfl
  have hrun : (kernel flatTree).next (rooted (pair 1 (Function.update (boot 0).pmap 1
        ⟨true, 1, some (0, 0)⟩) ⟨.runnable, 1, none, none, .user⟩
        ⟨.unused, 0, none, none, .user⟩)) (.run 0 0) =
      some (alone 1 (Function.update (boot 0).pmap 1 ⟨true, 1, some (0, 0)⟩)) := by
    simp only [kernel, rooted_zero, pair_fst, if_true, rooted_setProc, pair_setProc_fst, alone]
  exact ⟨_, ((Machine.ReachableUnder.init init_boot).step trivial hcreate).step trivial hrun⟩

/-- The process forks; the child exits and is waited for. -/
def forkExitWait : List Label :=
  [.fork 0 0, .forked 0 0 true, .run 0 1, .exit 0 1, .wait 0 0]

/-- A child that comes and goes leaves only its process id behind. -/
theorem alone_forkExitWait (hn : n ≠ npid) : ∃ pmap',
    (kernel flatTree).run (alone n pmap) forkExitWait = some (alone (n + 1) pmap') := by
  have hfork : (kernel flatTree).next (alone n pmap) (.fork 0 0) =
      some (rooted (pair (n + 1) (Function.update pmap (n + 1) ⟨true, n + 1, some (0, 1)⟩)
        ⟨.running, 1, none, none, .forking 1⟩ ⟨.embryo, n + 1, none, none, .user⟩)) := by
    simp only [kernel, alone, rooted_zero, pair_fst, and_self, if_true]
    rw [allocProc_rooted (i := 1) rfl rfl hn]
    simp only [Option.map_some, rooted_zero, rooted_setProc, pair_pid, pair_snd]
    show some (rooted (((pair (n + 1) _ _ _).setProc 1 _).setProc 0 _)) = _
    rw [pair_setProc_snd, pair_setProc_fst]
    rfl
  generalize Function.update pmap (n + 1) ⟨true, n + 1, some (0, 1)⟩ = pm at hfork
  have hforked : (kernel flatTree).next (rooted (pair (n + 1) pm
      ⟨.running, 1, none, none, .forking 1⟩ ⟨.embryo, n + 1, none, none, .user⟩))
      (.forked 0 0 true) = some (rooted (pair (n + 1) pm ⟨.running, 1, none, none, .user⟩
        ⟨.runnable, n + 1, some 0, none, .user⟩)) := by
    simp only [kernel, rooted_zero, pair_fst, if_true, rooted_onCont, Container.forked, pair_snd,
      pair_setProc_snd, pair_setProc_fst]
  have hrun : (kernel flatTree).next (rooted (pair (n + 1) pm ⟨.running, 1, none, none, .user⟩
        ⟨.runnable, n + 1, some 0, none, .user⟩)) (.run 0 1) =
      some (rooted (pair (n + 1) pm ⟨.running, 1, none, none, .user⟩
        ⟨.running, n + 1, some 0, none, .user⟩)) := by
    simp only [kernel, rooted_zero, pair_snd, if_true, rooted_setProc, pair_setProc_snd]
  have hexit : (kernel flatTree).next (rooted (pair (n + 1) pm ⟨.running, 1, none, none, .user⟩
        ⟨.running, n + 1, some 0, none, .user⟩)) (.exit 0 1) =
      some (rooted (pair (n + 1) pm ⟨.running, 1, none, none, .user⟩
        ⟨.zombie, n + 1, some 0, none, .user⟩)) := by
    have hawake : ∀ i, ((pair (n + 1) pm ⟨.running, 1, none, none, .user⟩
        ⟨.running, n + 1, some 0, none, .user⟩).ptable i).state ≠ .sleeping :=
      pair_forall (P := fun p => p.state ≠ .sleeping) (by decide) (by simp) (by decide)
    simp only [kernel, rooted_zero, pair_snd, and_self, if_true, rooted_onCont,
      Container.exit_awake hawake, pair_setProc_snd]
  have hwait : (kernel flatTree).next (rooted (pair (n + 1) pm ⟨.running, 1, none, none, .user⟩
        ⟨.zombie, n + 1, some 0, none, .user⟩)) (.wait 0 0) =
      some (alone (n + 1) pm) := by
    have hscan : (pair (n + 1) pm ⟨.running, 1, none, none, .user⟩
        ⟨.zombie, n + 1, some 0, none, .user⟩).scan 0 = .zombie 1 := rfl
    simp only [kernel, rooted_zero, pair_fst, true_or, and_self, if_true, rooted_onCont,
      Container.wait, hscan, pair_snd, pair_setProc_snd, pair_setProc_fst, alone]
  exact ⟨pm, by simp only [forkExitWait, Machine.run, hfork, hforked, hrun, hexit, hwait,
    Option.bind_some]⟩

/-- The counter of the root reaches every value up to the bound, with one process alive. -/
theorem alone_reached (m : Nat) (hm : m < npid) :
    ∃ pmap, (kernel flatTree).Reachable (alone (m + 1) pmap) := by
  induction m with
  | zero => exact reachable_alone
  | succ m ih =>
    obtain ⟨pmap, h⟩ := ih (by omega)
    obtain ⟨pmap', hr⟩ : ∃ pmap', (kernel flatTree).run (alone (m + 1) pmap) forkExitWait =
        some (alone (m + 1 + 1) pmap') := alone_forkExitWait (by omega)
    exact ⟨pmap', h.run hr⟩

/-- Sixty-two children that come and go one after the other: the next fork writes behind the
`pmap`. -/
theorem allocPcb_bad : ∃ k, (kernel flatTree).Reachable k ∧
    (∃ i, ((k 0).ptable i).state = .unused) ∧ ¬AllocGood flatTree k 0 := by
  obtain ⟨pmap, h⟩ := alone_reached 62 (by decide)
  refine ⟨_, h, ⟨1, by simp [alone]⟩, ?_⟩
  rintro ⟨i, k', ws, ha, -, hw, -⟩
  unfold allocPcb at ha
  split at ha
  · cases ha
  · obtain ⟨r, hr, he⟩ := Option.map_eq_some_iff.mp ha
    cases he
    have hlast : ∀ d ∈ flatTree.chain (0 + 1) 0, (alone 63 pmap d).pid = 63 := by
      simp [Tree.chain, alone]
    obtain ⟨w, hw', hn⟩ := allocResource_beyond
      (fun d hd => by rw [hlast d hd]; decide)
      ⟨0, by decide, by rw [hlast 0 (by decide)]; decide⟩ hr
    exact hn (hw w hw')

end Pair

end FtosFfs.Core
