import FtosFfs.Core.Pid

/-! Parents and children: the processes that have lived in the slots of the tables, which of them
made which by fork, and whose exits the calls of `wait` return. -/

namespace FtosFfs.Core

open Lib

variable {T : Tree} {k k' : Kernel} {c d : Nat} {i j : Slot}

/-- A return of `wait` in the process `caller` with the exit of the process `child`. -/
structure Return where
  caller : Nat
  child : Nat
  pid : Nat
deriving DecidableEq, Repr

/-- The history of the tables, which the kernel does not keep: each process that gets a slot is
numbered, so that two processes that lived in one slot are told apart. -/
structure History where
  /-- The number of the next process. -/
  fresh : Nat
  /-- The last process in each slot. -/
  life : Nat → Slot → Nat
  pid : Nat → Nat
  /-- The process that made a process by `fork`. -/
  maker : Nat → Option Nat
  exited : Nat → Bool
  /-- The returns of `wait` with the exit of a process, newest first. -/
  returns : List Return

/-- A new process in slot `i` of container `c`. -/
def History.born (h : History) (c : Nat) (i : Slot) (pid : Nat) : History :=
  { h with
    fresh := h.fresh + 1
    life := fun d j => if d = c ∧ j = i then h.fresh else h.life d j
    pid := Function.update h.pid h.fresh pid }

/-- The history after the step `a` from `k` to `k'`. -/
def History.observe (h : History) (k k' : Kernel) : Label → History
  | .create c | .fork c _ =>
    match (k c).freeSlot with
    | some j => h.born c j ((k' c).ptable j).pid
    | none => h
  | .forked c i true =>
    match ((k c).ptable i).pc with
    | .forking j => { h with maker := Function.update h.maker (h.life c j) (some (h.life c i)) }
    | _ => h
  | .exit c i => { h with exited := Function.update h.exited (h.life c i) true }
  | .wait c i =>
    match (k c).scan i with
    | .zombie j => { h with returns := ⟨h.life c i, h.life c j, ((k c).ptable j).pid⟩ :: h.returns }
    | _ => h
  | _ => h

/-- The kernel with its history. -/
structure Observed where
  kernel : Kernel
  history : History

/-- The runs of the kernel with their history. -/
def observed (T : Tree) : Machine Observed Label where
  init r := (kernel T).init r.kernel ∧ r.history.fresh = 0 ∧ (∀ n, r.history.maker n = none) ∧
    r.history.returns = []
  next r a := ((kernel T).next r.kernel a).map fun k' => ⟨k', r.history.observe r.kernel k' a⟩

/-- Process `n` has made no process by `fork` whose exit was not returned. -/
def History.Childless (h : History) (n : Nat) : Prop :=
  ∀ m, h.maker m = some n → m ∈ h.returns.map (·.child)

/-- Each return of `wait` is the process id of a process that the caller itself made by `fork` and
that has exited, none is returned twice, and a process that is about to scan the table for its
children returns at once when none of them is left. -/
structure WaitGood (r : Observed) : Prop where
  own : ∀ e ∈ r.history.returns, r.history.maker e.child = some e.caller ∧
    r.history.exited e.child = true ∧ e.pid = r.history.pid e.child
  once : (r.history.returns.map (·.child)).Nodup
  childless : ∀ c i, ((r.kernel c).ptable i).state = .running →
    r.history.Childless (r.history.life c i) → (r.kernel c).scan i = .noKids

/-- A new process takes a slot only when no process of the table has the slot as its parent. -/
def NoHeirs (r : Observed) (a : Label) : Prop :=
  ∀ c j, a.allocs = some c → (r.kernel c).freeSlot = some j →
    ∀ i, ((r.kernel c).ptable i).parent ≠ some j

instance (r : Observed) (a : Label) : Decidable (NoHeirs r a) :=
  decidable_of_iff (∀ c ∈ a.allocs, ∀ j ∈ (r.kernel c).freeSlot,
    ∀ i, ((r.kernel c).ptable i).parent ≠ some j)
    ⟨fun h c j hc hj => h c hc j hj, fun h c hc j hj => h c j hc hj⟩

/-- The processes in the slots of all tables. -/
def Kernel.procs (k : Kernel) (c : Nat) (i : Slot) : Proc := (k c).ptable i

/-- The processes `P` with `p` in slot `i` of container `c`. -/
def upd (P : Nat → Slot → Proc) (c : Nat) (i : Slot) (p : Proc) (d : Nat) (j : Slot) : Proc :=
  if d = c ∧ j = i then p else P d j

theorem procs_setProc (p : Proc) : (k.setProc c i p).procs = upd k.procs c i p := by
  funext d j
  unfold upd Kernel.procs
  split
  · rename_i h
    obtain ⟨rfl, rfl⟩ := h
    exact setProc_same
  · rename_i h
    exact setProc_other h

/-- What ties the tables to their history. -/
structure HistoryOk (P : Nat → Slot → Proc) (h : History) : Prop where
  fresh : ∀ c i, (P c i).state ≠ .unused → h.life c i < h.fresh
  inj : ∀ c i d j, (P c i).state ≠ .unused → (P d j).state ≠ .unused →
    h.life c i = h.life d j → c = d ∧ i = j
  pid : ∀ c i, (P c i).state ≠ .unused → (P c i).pid = h.pid (h.life c i)
  bare : ∀ c i, (P c i).state = .unused ∨ (P c i).state = .embryo → (P c i).parent = none
  link : ∀ c i j, (P c i).parent = some j → h.maker (h.life c i) = some (h.life c j)
  dead : ∀ c i, (P c i).state = .zombie → h.exited (h.life c i) = true
  held : ∀ c i, (P c i).state ≠ .unused → h.life c i ∉ h.returns.map (·.child)
  forking : ∀ c i j, (P c i).pc = .forking j → (P c j).state = .embryo
  sole : ∀ c i i' j, (P c i).pc = .forking j → (P c i').pc = .forking j → i = i'
  past : ∀ e ∈ h.returns, e.child < h.fresh
  own : ∀ e ∈ h.returns, h.maker e.child = some e.caller ∧ h.exited e.child = true ∧
    e.pid = h.pid e.child
  once : (h.returns.map (·.child)).Nodup

section Step

variable {P : Nat → Slot → Proc} {h : History} {p : Proc}

/-- A change of a process that the history does not see. -/
structure Tame (p p' : Proc) : Prop where
  pid : p'.pid = p.pid
  parent : p'.parent = p.parent
  unused : p'.state = .unused ↔ p.state = .unused
  embryo : p'.state = .embryo ↔ p.state = .embryo
  zombie : p'.state = .zombie → p.state = .zombie
  pc : ∀ j, p'.pc = .forking j → p.pc = .forking j

theorem HistoryOk.tame (ok : HistoryOk P h) {P' : Nat → Slot → Proc}
    (ht : ∀ c i, Tame (P c i) (P' c i)) : HistoryOk P' h where
  fresh c i hi := ok.fresh c i (mt (ht c i).unused.mpr hi)
  inj c i d j hi hj := ok.inj c i d j (mt (ht c i).unused.mpr hi) (mt (ht d j).unused.mpr hj)
  pid c i hi := (ht c i).pid.trans (ok.pid c i (mt (ht c i).unused.mpr hi))
  bare c i hi := (ht c i).parent.trans
    (ok.bare c i (hi.imp (ht c i).unused.mp (ht c i).embryo.mp))
  link c i j hj := ok.link c i j ((ht c i).parent ▸ hj)
  dead c i hi := ok.dead c i ((ht c i).zombie hi)
  held c i hi := ok.held c i (mt (ht c i).unused.mpr hi)
  forking c i j hj := (ht c j).embryo.mpr (ok.forking c i j ((ht c i).pc j hj))
  sole c i i' j hj hj' := ok.sole c i i' j ((ht c i).pc j hj) ((ht c i').pc j hj')
  past := ok.past
  own := ok.own
  once := ok.once

@[simp] theorem upd_same : upd P c i p c i = p := if_pos ⟨rfl, rfl⟩

theorem upd_other (hne : ¬(d = c ∧ j = i)) : upd P c i p d j = P d j := if_neg hne

/-- A process takes a free slot that no process has as its parent. -/
theorem HistoryOk.born (ok : HistoryOk P h) (hfree : (P c i).state = .unused)
    (hheirs : ∀ j, (P c j).parent ≠ some i) (hz : p.state ≠ .zombie)
    (hparent : p.parent = (P c i).parent) (hpc : p.pc = .user) :
    HistoryOk (upd P c i p) (h.born c i p.pid) := by
  have hnone : p.parent = none := hparent.trans (ok.bare c i (.inl hfree))
  have hsole (j : Slot) : (P c j).pc ≠ .forking i := by
    intro hj
    have := ok.forking c j i hj
    rw [hfree] at this
    cases this
  have hlt := ok.fresh
  obtain ⟨-, inj, pid, bare, link, dead, held, forking, sole, past, own, once⟩ := ok
  constructor
  case link =>
    intro d j j' hj
    by_cases hnew : d = c ∧ j = i
    · obtain ⟨rfl, rfl⟩ := hnew
      rw [upd_same, hnone] at hj
      cases hj
    · rw [upd_other hnew] at hj
      -- the parent's slot has not changed hands
      have hold : ¬(d = c ∧ j' = i) := by
        rintro ⟨rfl, rfl⟩
        exact hheirs j hj
      simp only [History.born, if_neg hnew, if_neg hold]
      exact link d j j' hj
  all_goals
    simp only [upd, History.born, Function.update_apply]
    grind

/-- `fork` keeps the new slot in mind. -/
theorem HistoryOk.setForking (ok : HistoryOk P h) (hj : (P c j).state = .embryo)
    (hsole : ∀ i, (P c i).pc ≠ .forking j) :
    HistoryOk (upd P c i { P c i with pc := .forking j }) h := by
  obtain ⟨fresh, inj, pid, bare, link, dead, held, forking, sole, past, own, once⟩ := ok
  constructor
  case past => exact past
  case own => exact own
  case once => exact once
  all_goals
    simp only [upd]
    grind

/-- The child of a `fork` becomes runnable. -/
theorem HistoryOk.forked (ok : HistoryOk P h) (hj : (P c j).state = .embryo)
    (hsole : ∀ i, (P c i).pc ≠ .forking j) :
    HistoryOk (upd P c j { P c j with parent := some i, state := .runnable })
      { h with maker := Function.update h.maker (h.life c j) (some (h.life c i)) } := by
  have hlive : (P c j).state ≠ .unused := by rw [hj]; decide
  have hkept := ok.held c j hlive
  obtain ⟨fresh, inj, pid, bare, link, dead, held, forking, sole, past, own, once⟩ := ok
  constructor
  case link =>
    intro d a b hb
    by_cases hnew : d = c ∧ a = j
    · obtain ⟨rfl, rfl⟩ := hnew
      rw [upd_same] at hb
      cases hb
      exact Function.update_self _ _ _
    · rw [upd_other hnew] at hb
      -- another process in use has another number
      have ha : (P d a).state ≠ .unused := by
        intro hu
        rw [bare d a (.inl hu)] at hb
        cases hb
      have hne : h.life d a ≠ h.life c j := fun he => hnew (inj d a c j ha hlive he)
      show Function.update h.maker _ _ (h.life d a) = _
      rw [Function.update_of_ne hne]
      exact link d a b hb
  case own =>
    intro e he
    have hne : e.child ≠ h.life c j := by
      intro hec
      exact hkept (hec ▸ List.mem_map_of_mem he)
    show Function.update h.maker _ _ e.child = _ ∧ _
    rw [Function.update_of_ne hne]
    exact own e he
  case past => exact past
  case once => exact once
  all_goals
    simp only [upd]
    grind

/-- A `fork` without memory gives the slot back. -/
theorem HistoryOk.discard (ok : HistoryOk P h) (hj : (P c j).state = .embryo)
    (hsole : ∀ i, (P c i).pc ≠ .forking j) :
    HistoryOk (upd P c j { P c j with state := .unused }) h := by
  obtain ⟨fresh, inj, pid, bare, link, dead, held, forking, sole, past, own, once⟩ := ok
  constructor
  case past => exact past
  case own => exact own
  case once => exact once
  all_goals
    simp only [upd]
    grind

theorem HistoryOk.exit (ok : HistoryOk P h) (hi : (P c i).state = .running) :
    HistoryOk (upd P c i { P c i with state := .zombie })
      { h with exited := Function.update h.exited (h.life c i) true } := by
  obtain ⟨fresh, inj, pid, bare, link, dead, held, forking, sole, past, own, once⟩ := ok
  constructor
  case past => exact past
  case once => exact once
  all_goals
    simp only [upd, Function.update_apply]
    grind

/-- `wait` returns with the exit of a process that is still in the table, so for the first time. -/
theorem HistoryOk.reap (ok : HistoryOk P h) (hj : (P c j).state = .zombie)
    (hparent : (P c j).parent = some i) :
    HistoryOk (upd P c j { P c j with state := .unused, pid := 0, parent := none })
      { h with returns := ⟨h.life c i, h.life c j, (P c j).pid⟩ :: h.returns } := by
  have hlive : (P c j).state ≠ .unused := by rw [hj]; decide
  have hkept := ok.held c j hlive
  have hmaker := ok.link c j i hparent
  have hdead := ok.dead c j hj
  have hpid := ok.pid c j hlive
  obtain ⟨fresh, inj, pid, bare, link, dead, held, forking, sole, past, own, once⟩ := ok
  constructor
  case own =>
    intro e he
    obtain rfl | he := List.mem_cons.mp he
    · exact ⟨hmaker, hdead, hpid⟩
    · exact own e he
  case once => exact List.nodup_cons.mpr ⟨hkept, once⟩
  all_goals
    simp only [upd]
    grind

theorem upd_upd {p' : Proc} : upd (upd P c i p) c i p' = upd P c i p' := by
  funext d j
  unfold upd
  split <;> rfl

theorem upd_comm {p' : Proc} (hne : i ≠ j) :
    upd (upd P c i p) c j p' = upd (upd P c j p') c i p := by
  funext d a
  unfold upd
  grind

theorem Tame.refl (p : Proc) : Tame p p :=
  ⟨rfl, rfl, Iff.rfl, Iff.rfl, id, fun _ => id⟩

theorem HistoryOk.tameAt (ok : HistoryOk P h) (ht : Tame (P c i) p) : HistoryOk (upd P c i p) h := by
  refine ok.tame fun d j => ?_
  unfold upd
  split
  · rename_i hj
    obtain ⟨rfl, rfl⟩ := hj
    exact ht
  · exact .refl _

theorem HistoryOk.onCont (ok : HistoryOk k.procs h) {f : Container → Container}
    (hf : ∀ i, Tame ((k c).ptable i) ((f (k c)).ptable i)) : HistoryOk (k.onCont c f).procs h := by
  refine ok.tame fun d i => ?_
  by_cases hd : d = c
  · subst hd
    simpa [Kernel.procs, Kernel.onCont] using hf i
  · simp only [Kernel.procs, Kernel.onCont, Function.update_of_ne hd]
    exact .refl _

/-- A process that a wakeup leaves alone or makes runnable. -/
def Woken (p p' : Proc) : Prop :=
  p' = p ∨ p.state = .sleeping ∧ p' = { p with state := .runnable }

theorem Woken.tame {p' : Proc} (hw : Woken p p') : Tame p p' := by
  obtain rfl | ⟨hs, rfl⟩ := hw
  · exact .refl _
  · constructor <;> simp [hs]

theorem Woken.trans {p1 p2 p3 : Proc} (h1 : Woken p1 p2) (h2 : Woken p2 p3) : Woken p1 p3 := by
  obtain rfl | ⟨hs, rfl⟩ := h1
  · exact h2
  · obtain rfl | ⟨hs', -⟩ := h2
    · exact .inr ⟨hs, rfl⟩
    · cases hs'

theorem Woken.running {p' : Proc} (hw : Woken p p') (hp : p.state = .running) : p' = p := by
  obtain rfl | ⟨hs, -⟩ := hw
  · rfl
  · rw [hp] at hs
    cases hs

theorem woken_wakeup (e : Container) (chan : Option Chan) (j : Slot) :
    Woken (e.ptable j) ((e.wakeup chan).ptable j) := by
  unfold Container.wakeup
  dsimp only
  split
  · rename_i hs
    exact .inr ⟨hs.1, rfl⟩
  · exact .inl rfl

theorem woken_foldl {f : Container → Slot → Container}
    (hf : ∀ e i j, Woken (e.ptable j) ((f e i).ptable j)) (l : List Slot) (e : Container)
    (j : Slot) : Woken (e.ptable j) ((l.foldl f e).ptable j) := by
  induction l generalizing e with
  | nil => exact .inl rfl
  | cons i l ih => exact (hf e i j).trans (ih (f e i))

/-- `exit` wakes processes up before it makes the process a zombie. -/
theorem exit_eq (e : Container) (i : Slot) : ∃ e' : Container,
    (∀ j, Woken (e.ptable j) (e'.ptable j)) ∧
    e.exit i = e'.setProc i { e'.ptable i with state := .zombie } := by
  refine ⟨_, fun j => ?_, rfl⟩
  refine (woken_wakeup e _ j).trans (woken_foldl (fun e k j => ?_) _ _ j)
  split
  · exact woken_wakeup e _ j
  · exact .inl rfl

/-- `alloc_proc` changes the slot it gives and no other. -/
theorem allocProc_procs (hr : allocProc T k c = some (i, k')) :
    (k c).freeSlot = some i ∧ ∃ n, k'.procs = upd k.procs c i
      { k.procs c i with pid := n, state := .embryo, pc := .user } := by
  unfold Core.allocProc at hr
  split at hr
  · rename_i i' k1 ws ha
    cases hr
    unfold Core.allocPcb at ha
    split at ha
    · cases ha
    · rename_i hfree
      obtain ⟨r, hr, he⟩ := Option.map_eq_some_iff.mp ha
      cases he
      have htable : r.1.procs = k.procs := by
        funext d j
        exact congrFun ((allocResource_tables hr).ptable d) j
      refine ⟨hfree, (r.1 c).pid, ?_⟩
      rw [procs_setProc, procs_setProc, upd_upd, setProc_same, htable]
      show upd k.procs c i { r.1.procs c i with pid := (r.1 c).pid, state := .embryo, pc := .user } = _
      rw [htable]
  · cases hr

theorem unused_of_freeSlot (hfree : (k c).freeSlot = some i) :
    (k.procs c i).state = .unused := by
  have h := List.find?_some hfree
  exact of_decide_eq_true h

/-- A change of slot `j`, after which the process of slot `i` leaves `fork` or `wait`. -/
def Kernel.setAndLeave (k : Kernel) (c : Nat) (i j : Slot) (p : Proc) : Kernel :=
  (k.setProc c j p).setProc c i { ((k.setProc c j p) c).ptable i with pc := .user }

theorem procs_setAndLeave (hne : i ≠ j) : (k.setAndLeave c i j p).procs =
    upd (upd k.procs c i { k.procs c i with pc := .user }) c j p := by
  unfold Kernel.setAndLeave
  rw [procs_setProc, procs_setProc, upd_comm hne, setProc_other (by simp [hne])]
  rfl

/-- The end of `fork`. -/
theorem HistoryOk.forkEnd (ok : HistoryOk k.procs h) (hrun : ((k c).ptable i).state = .running)
    (hpc : ((k c).ptable i).pc = .forking j) (mem : Bool) :
    HistoryOk (k.onCont c (·.forked i j mem)).procs (h.observe k (k.onCont c (·.forked i j mem))
      (.forked c i mem)) := by
  have hj := ok.forking c i j hpc
  have hne : i ≠ j := by
    rintro rfl
    rw [Kernel.procs, hrun] at hj
    cases hj
  -- the parent leaves `fork` before the child's slot changes
  have hleft : HistoryOk (upd k.procs c i { k.procs c i with pc := .user }) h :=
    ok.tameAt (by constructor <;> simp)
  have hj' : (upd k.procs c i { k.procs c i with pc := .user } c j) = k.procs c j :=
    upd_other (by simp [hne.symm])
  have hsole (a : Slot) : (upd k.procs c i { k.procs c i with pc := .user } c a).pc ≠ .forking j := by
    intro ha
    by_cases hai : a = i
    · subst hai
      rw [upd_same] at ha
      cases ha
    · rw [upd_other (by simp [hai])] at ha
      exact hai (ok.sole c a i j ha hpc)
  cases mem with
  | true =>
    have hk' : k.onCont c (·.forked i j true) = k.setAndLeave c i j
        { (k c).ptable j with parent := some i, state := .runnable } := by
      simp [Kernel.onCont, Kernel.setAndLeave, Kernel.setProc, Container.forked]
    have hready := hleft.forked (i := i) (by rw [hj']; exact hj) hsole
    rw [hj'] at hready
    simp only [hk', procs_setAndLeave hne, History.observe, hpc]
    exact hready
  | false =>
    have hk' : k.onCont c (·.forked i j false) = k.setAndLeave c i j
        { (k c).ptable j with state := .unused } := by
      simp [Kernel.onCont, Kernel.setAndLeave, Kernel.setProc, Container.forked]
    have hback := hleft.discard (by rw [hj']; exact hj) hsole
    rw [hj'] at hback
    simp only [hk', procs_setAndLeave hne, History.observe]
    exact hback

theorem scan_zombie {e : Container} (hs : e.scan i = .zombie j) :
    (e.ptable j).parent = some i ∧ (e.ptable j).state = .zombie := by
  unfold Container.scan at hs
  split at hs
  · rename_i j' hfind
    cases hs
    simpa using List.find?_some hfind
  · split at hs <;> cases hs

theorem scan_noKids {e : Container} (hp : ∀ j, (e.ptable j).parent ≠ some i) :
    e.scan i = .noKids := by
  have hfind : ((List.finRange nproc).find? fun j =>
      (e.ptable j).parent = some i ∧ (e.ptable j).state = .zombie) = none := by
    simp [hp]
  unfold Container.scan
  rw [hfind]
  simp [hp]

/-- A pass of `wait` over the table. -/
theorem HistoryOk.waitPass (ok : HistoryOk k.procs h) (hrun : ((k c).ptable i).state = .running) :
    HistoryOk (k.onCont c (·.wait i)).procs (h.observe k (k.onCont c (·.wait i)) (.wait c i)) := by
  cases hscan : (k c).scan i with
  | zombie j =>
    obtain ⟨hparent, hj⟩ := scan_zombie hscan
    have hne : i ≠ j := by
      rintro rfl
      rw [hrun] at hj
      cases hj
    have hk' : k.onCont c (·.wait i) = k.setAndLeave c i j
        { (k c).ptable j with state := .unused, pid := 0, parent := none } := by
      simp [Kernel.onCont, Container.wait, hscan, Kernel.setAndLeave, Kernel.setProc]
    have hleft : HistoryOk (upd k.procs c i { k.procs c i with pc := .user }) h :=
      ok.tameAt (by constructor <;> simp)
    have hj' : (upd k.procs c i { k.procs c i with pc := .user } c j) = k.procs c j :=
      upd_other (by simp [hne.symm])
    have hreap := hleft.reap (by rw [hj']; exact hj) (by rw [hj']; exact hparent)
    rw [hj'] at hreap
    simp only [hk', procs_setAndLeave hne, History.observe, hscan]
    exact hreap
  | noKids =>
    have hk' : k.onCont c (·.wait i) = k.setProc c i { (k c).ptable i with pc := .user } := by
      simp only [Kernel.onCont, Container.wait, hscan, Kernel.setProc]
    simp only [hk', procs_setProc, History.observe, hscan]
    exact ok.tameAt (by constructor <;> simp [Kernel.procs])
  | kids =>
    have hk' : k.onCont c (·.wait i) = k.setProc c i
        { (k c).ptable i with pc := .waiting, state := .sleeping, chan := some (.proc i) } := by
      simp only [Kernel.onCont, Container.wait, hscan, Kernel.setProc]
    simp only [hk', procs_setProc, History.observe, hscan]
    exact ok.tameAt (by constructor <;> simp [Kernel.procs, hrun])

/-- What the history knows of the processes after one more step of the kernel. -/
theorem HistoryOk.step {r : Observed} {a : Label} (ok : HistoryOk r.kernel.procs r.history)
    (hC : NoHeirs r a) (hn : (kernel T).next r.kernel a = some k') :
    HistoryOk k'.procs (r.history.observe r.kernel k' a) := by
  obtain ⟨k, h⟩ := r
  cases a with
  | create c =>
    obtain ⟨⟨i, k1⟩, hr, rfl⟩ := Option.map_eq_some_iff.mp hn
    obtain ⟨hfree, n, hk1⟩ := allocProc_procs hr
    have hk' : (k1.setProc c i { (k1 c).ptable i with state := .runnable }).procs =
        upd k.procs c i { k.procs c i with pid := n, state := .runnable, pc := .user } := by
      rw [procs_setProc]
      show upd k1.procs c i { k1.procs c i with state := .runnable } = _
      rw [hk1, upd_same, upd_upd]
    simp only [History.observe, hfree]
    show HistoryOk _ (h.born c i (Kernel.procs _ c i).pid)
    rw [hk', upd_same]
    exact ok.born (unused_of_freeSlot hfree) (hC c i rfl hfree) (by simp) rfl rfl
  | fork c i =>
    simp only [kernel, Option.ite_none_right_eq_some] at hn
    obtain ⟨⟨hrun, -⟩, hn⟩ := hn
    obtain ⟨⟨j, k1⟩, hr, rfl⟩ := Option.map_eq_some_iff.mp hn
    obtain ⟨hfree, n, hk1⟩ := allocProc_procs hr
    have hu := unused_of_freeSlot hfree
    have hne : j ≠ i := by
      rintro rfl
      rw [Kernel.procs, hrun] at hu
      cases hu
    have hk' : (k1.setProc c i { (k1 c).ptable i with pc := .forking j }).procs =
        upd k1.procs c i { k1.procs c i with pc := .forking j } := procs_setProc _
    simp only [History.observe, hfree]
    show HistoryOk _ (h.born c j (Kernel.procs _ c j).pid)
    have hborn := ok.born (p := { k.procs c j with pid := n, state := .embryo, pc := .user })
      hu (hC c j rfl hfree) (by simp) rfl rfl
    rw [hk', upd_other (by simp [hne]), hk1, upd_same]
    refine hborn.setForking (by rw [upd_same]) fun a ha => ?_
    by_cases haj : a = j
    · subst haj
      rw [upd_same] at ha
      cases ha
    · rw [upd_other (by simp [haj])] at ha
      have hemb := ok.forking c a j ha
      rw [hu] at hemb
      cases hemb
  | forked c i mem =>
    simp only [kernel] at hn
    split at hn
    · rename_i j hpc
      simp only [Option.ite_none_right_eq_some, Option.some.injEq] at hn
      obtain ⟨hrun, rfl⟩ := hn
      exact ok.forkEnd hrun hpc mem
    · cases hn
  | exit c i =>
    simp only [kernel, Option.ite_none_right_eq_some, Option.some.injEq] at hn
    obtain ⟨⟨hrun, -⟩, rfl⟩ := hn
    obtain ⟨e', hw, he⟩ := exit_eq (k c) i
    have hk' : (k.onCont c (·.exit i)).procs = upd (k.onCont c fun _ => e').procs c i
        { (k.onCont c fun _ => e').procs c i with state := .zombie } := by
      rw [← procs_setProc]
      simp [Kernel.onCont, Kernel.setProc, Kernel.procs, he]
    rw [hk']
    have hok : HistoryOk (k.onCont c fun _ => e').procs h := ok.onCont fun j => (hw j).tame
    refine hok.exit ?_
    simp only [Kernel.procs, Kernel.onCont, Function.update_self]
    rw [(hw i).running hrun, hrun]
  | wait c i =>
    simp only [kernel, Option.ite_none_right_eq_some, Option.some.injEq] at hn
    obtain ⟨⟨hrun, -⟩, rfl⟩ := hn
    exact ok.waitPass hrun
  | run c i =>
    simp only [kernel, Option.ite_none_right_eq_some, Option.some.injEq] at hn
    obtain ⟨hs, rfl⟩ := hn
    rw [procs_setProc]
    exact ok.tameAt (by constructor <;> simp [Kernel.procs, hs])
  | yield c i =>
    simp only [kernel, Option.ite_none_right_eq_some, Option.some.injEq] at hn
    obtain ⟨hs, rfl⟩ := hn
    rw [procs_setProc]
    exact ok.tameAt (by constructor <;> simp [Kernel.procs, hs])
  | sleep c i a =>
    simp only [kernel, Option.ite_none_right_eq_some, Option.some.injEq] at hn
    obtain ⟨⟨hs, -⟩, rfl⟩ := hn
    rw [procs_setProc]
    exact ok.tameAt (by constructor <;> simp [Kernel.procs, hs])
  | wakeup c a =>
    cases hn
    exact ok.onCont fun j => (woken_wakeup (k c) _ j).tame

theorem HistoryOk.reachable {r : Observed} (hr : (observed T).ReachableUnder NoHeirs r) :
    HistoryOk r.kernel.procs r.history := by
  refine hr.invariant (I := fun r => HistoryOk r.kernel.procs r.history) (fun r hinit => ?_)
    fun r a r' ok hC hn => ?_
  · obtain ⟨hk, -, -, hreturns⟩ := hinit
    have hP (c : Nat) (i : Slot) : r.kernel.procs c i = ⟨.unused, 0, none, none, .user⟩ :=
      (hk c).2.2 i
    constructor <;> simp [hP, hreturns]
  · obtain ⟨k', hk', rfl⟩ := Option.map_eq_some_iff.mp hn
    exact ok.step hC hk'

end Step

/-- In every run whose new processes all take slots that no process has as its parent, `wait`
returns the exits of the caller's own children, each once, and returns at once without any. -/
theorem wait_good {r : Observed} (hr : (observed T).ReachableUnder NoHeirs r) : WaitGood r := by
  have ok := HistoryOk.reachable hr
  refine ⟨ok.own, ok.once, fun c i hrun hnone => scan_noKids fun j hj => ?_⟩
  have hlive : (r.kernel.procs c j).state ≠ .unused := by
    intro hu
    have hbare := ok.bare c j (.inl hu)
    rw [Kernel.procs, hj] at hbare
    cases hbare
  exact ok.held c j hlive (hnone _ (ok.link c j i hj))

/-- The boot of the kernel, before any process. -/
def observedBoot : Observed := ⟨boot, ⟨0, fun _ _ => 0, fun _ => 0, fun _ => none, fun _ => false, []⟩⟩

theorem init_observedBoot : (observed flatTree).init observedBoot :=
  ⟨init_boot, rfl, fun _ => rfl, rfl⟩

/-- A child that exits is waited for, and its slot is used again. -/
theorem wait_good_twice : ∃ r, WaitGood r ∧ r.history.returns = [⟨0, 2, 3⟩, ⟨0, 1, 2⟩] := by
  let l : List Label := [.create 0, .run 0 0, .fork 0 0, .forked 0 0 true, .run 0 1, .exit 0 1,
    .wait 0 0, .fork 0 0, .forked 0 0 true, .run 0 1, .exit 0 1, .wait 0 0]
  have hr : ((observed flatTree).runUnder NoHeirs observedBoot l).map
      (fun r => decide (r.history.returns = [⟨0, 2, 3⟩, ⟨0, 1, 2⟩])) = some true := by
    decide +kernel
  obtain ⟨r, hr, hp⟩ := Option.map_eq_some_iff.mp hr
  exact ⟨r, wait_good ((Machine.ReachableUnder.init init_observedBoot).runUnder hr),
    of_decide_eq_true hp⟩

/-- The first process forks a child, which forks a grandchild and exits. The first process waits
for the child and forks once more, into the child's slot. The grandchild exits, and the second child
waits. -/
def adoption : List Label :=
  [.create 0, .run 0 0, .fork 0 0, .forked 0 0 true, .run 0 1, .fork 0 1, .forked 0 1 true,
    .exit 0 1, .wait 0 0, .fork 0 0, .forked 0 0 true, .run 0 1, .run 0 2, .exit 0 2, .wait 0 1]

/-- The second child of the first process gets the exit of a process it did not make. -/
theorem wait_adopted : ∃ r, (observed flatTree).Reachable r ∧ ¬WaitGood r := by
  obtain ⟨r, hr, hp⟩ := Machine.Reachable.of_run (l := adoption)
    (p := fun r => r.history.returns.any fun e => r.history.maker e.child ≠ some e.caller)
    init_observedBoot (by decide +kernel)
  obtain ⟨e, he, hne⟩ := List.any_eq_true.mp hp
  exact ⟨r, hr, fun hgood => of_decide_eq_true hne (hgood.own e he).1⟩

end FtosFfs.Core
