import FtosFfs.Fs.Balance
import FtosFfs.Lib.Counting

/-! Reference counts between system calls: the count of an open file is the number of descriptors
that refer to it, and the count of an in-memory inode is the number of open files and of current
directories that it is, and one for the root directory. -/

namespace FtosFfs.Fs

open Lib Lib.Exec Cache

variable {s s' t σ : State} {p q : Ptr} {n : Ptr → Nat} {L : Set Ptr} {F F' : Nat → File}
  {P : Nat → Proc} {f i fd : Nat} {u : Unit}

/-- The inode that a file is open on. -/
def File.inode (file : File) : Option Ptr := if file.type = .inode then some file.ip else none

/-- The inodes of the open files. -/
def openOn (F : Nat → File) (f : Nat) : Option Ptr := (F f).inode

/-- The current directories. -/
def cwdOf (P : Nat → Proc) (i : Nat) : Option Ptr := (P i).cwd

/-- The descriptors, by process and number. -/
def slotOf (P : Nat → Proc) (slot : Nat × Nat) : Option Nat := (P slot.1).ofile slot.2

/-- The first in-memory inode, which `init_inodes` gets for the root directory and never puts. -/
def rootPtr : Ptr := 0

/-- The number of references that there are to an in-memory inode between system calls. -/
noncomputable def holders (F : Nat → File) (P : Nat → Proc) (p : Ptr) : Nat :=
  uses (openOn F) p + uses (cwdOf P) p + holdsOne (some rootPtr) p

/-! ### Changes of the tables -/

theorem openOn_update (x : File) :
    openOn (Function.update F f x) = Function.update (openOn F) f x.inode := by
  funext g
  unfold openOn
  rw [Function.update_apply, Function.update_apply]
  split <;> rfl

theorem cwdOf_update (x : Proc) :
    cwdOf (Function.update P i x) = Function.update (cwdOf P) i x.cwd := by
  funext j
  unfold cwdOf
  rw [Function.update_apply, Function.update_apply]
  split <;> rfl

/-- The processes with descriptor `fd` of process `i` set to `v`. -/
def setSlot (P : Nat → Proc) (i fd : Nat) (v : Option Nat) : Nat → Proc :=
  Function.update P i { P i with ofile := Function.update (P i).ofile fd v }

theorem slotOf_setSlot (v : Option Nat) :
    slotOf (setSlot P i fd v) = Function.update (slotOf P) (i, fd) v := by
  funext ⟨j, k⟩
  unfold slotOf setSlot
  rw [Function.update_apply, Function.update_apply]
  by_cases hj : j = i
  · subst hj
    by_cases hk : k = fd
    · subst hk
      simp
    · simp [hk]
  · simp [hj]

@[simp] theorem cwd_setSlot (v : Option Nat) (j : Nat) : (setSlot P i fd v j).cwd = (P j).cwd := by
  unfold setSlot
  rw [Function.update_apply]
  split
  case isTrue h => rw [h]
  case isFalse => rfl

theorem ofile_setSlot (v : Option Nat) (j k : Nat) :
    (setSlot P i fd v j).ofile k = if j = i ∧ k = fd then v else (P j).ofile k := by
  have h : slotOf (setSlot P i fd v) (j, k) = _ := congrFun (slotOf_setSlot v) (j, k)
  unfold slotOf at h
  rw [h, Function.update_apply]
  simp

@[simp] theorem cwdOf_setSlot (v : Option Nat) : cwdOf (setSlot P i fd v) = cwdOf P :=
  funext fun j => cwd_setSlot v j

/-- The processes with the current directory of process `i` set to `c`. -/
def setCwd (P : Nat → Proc) (i : Nat) (c : Option Ptr) : Nat → Proc :=
  Function.update P i { P i with cwd := c }

theorem cwdOf_setCwd (c : Option Ptr) : cwdOf (setCwd P i c) = Function.update (cwdOf P) i c :=
  cwdOf_update _

@[simp] theorem ofile_setCwd (c : Option Ptr) (j : Nat) : (setCwd P i c j).ofile = (P j).ofile := by
  unfold setCwd
  rw [Function.update_apply]
  split
  case isTrue h => rw [h]
  case isFalse => rfl

@[simp] theorem slotOf_setCwd (c : Option Ptr) : slotOf (setCwd P i c) = slotOf P := by
  funext slot
  unfold slotOf
  rw [ofile_setCwd]

/-- The references after one file is changed. -/
theorem holders_update (hF : FiniteUse (openOn F)) (x : File) (p : Ptr) :
    holders (Function.update F f x) P p + holdsOne (F f).inode p =
      holders F P p + holdsOne x.inode p := by
  have h := uses_update (b := p) hF f x.inode
  unfold holders
  rw [openOn_update]
  have he : openOn F f = (F f).inode := rfl
  rw [he] at h
  omega

/-- The references after a process changes its directory. -/
theorem holders_setCwd (hP : FiniteUse (cwdOf P)) (c : Option Ptr) (p : Ptr) :
    holders F (setCwd P i c) p + holdsOne (P i).cwd p = holders F P p + holdsOne c p := by
  have h := uses_update (b := p) hP i c
  unfold holders
  rw [cwdOf_setCwd]
  have he : cwdOf P i = (P i).cwd := rfl
  rw [he] at h
  omega

@[simp] theorem holders_setSlot (v : Option Nat) : holders F (setSlot P i fd v) = holders F P := by
  funext p
  unfold holders
  rw [cwdOf_setSlot]

theorem holdsOne_some (p q : Ptr) : holdsOne (some q) p = if p = q then 1 else 0 := by
  unfold holdsOne
  simp [eq_comm]

theorem bump_apply (n : Ptr → Nat) (p q : Ptr) : bump n q p = n p + holdsOne (some q) p := by
  rw [holdsOne_some]
  by_cases hp : p = q
  · subst hp
    simp
  · rw [if_neg hp, bump_of_ne hp, Nat.add_zero]

/-- Counts that differ by one reference to `q`. -/
theorem eq_bump {m : Ptr → Nat} (h : ∀ p, m p = n p + holdsOne (some q) p) : m = bump n q := by
  funext p
  rw [h, bump_apply]

theorem exists_bump (h : 0 < n p) : ∃ m, n = bump m p := by
  refine ⟨Function.update n p (n p - 1), eq_bump fun q => ?_⟩
  rw [holdsOne_some]
  by_cases hq : q = p
  · subst hq
    simp
    omega
  · simp [hq]

/-! ### The state between system calls -/

/-- The counts of the open files are the numbers of descriptors. -/
structure FilesOk (F : Nat → File) (P : Nat → Proc) : Prop where
  ref : ∀ f, (F f).ref = uses (slotOf P) f
  closed : ∀ f, (F f).ref = 0 → (F f).type = .none
  finite : FiniteUse (slotOf P)

/-- Processes without a directory have no files, and no process has more than `NOFILE`. -/
structure ProcsOk (P : Nat → Proc) : Prop where
  idle : ∀ i, (P i).cwd = none → ∀ fd, (P i).ofile fd = none
  high : ∀ i fd, nofile ≤ fd → (P i).ofile fd = none

/-- The counts of the in-memory inodes are the numbers of references, and no lock is held. -/
structure InodesOk (s : State) : Prop where
  refs : Refs s (holders s.file s.proc) ∅ s
  root : (s.mem rootPtr).inodeNo = 1
  fresh : rootPtr < s.fresh
  files : FiniteUse (openOn s.file)
  procs : FiniteUse (cwdOf s.proc)

structure Accounted (s : State) : Prop where
  inodes : InodesOk s
  files : FilesOk s.file s.proc
  procs : ProcsOk s.proc

/-- A change of files and processes. -/
theorem Refs.rebase (h : Refs σ n L s) (s' : State) (hlist : s'.list = s.list)
    (hmem : s'.mem = s.mem) (hfresh : s'.fresh = s.fresh) : Refs s' n L s' := by
  constructor
  case list =>
    obtain ⟨h1, h2, h3, h4, h5⟩ := h.list
    rw [← hlist, ← hmem] at *
    rw [← hfresh] at h2
    exact ⟨h1, h2, h3, h4, h5⟩
  case file => rfl
  case proc => rfl
  case fresh => exact Nat.le_refl _
  case inodeNo => exact fun _ _ => rfl
  case mem => rw [hlist]; exact h.mem
  case rc => rw [hlist, hmem]; exact h.rc
  case locks => rw [hlist, hmem]; exact h.locks
  case sub => rw [hlist]; exact h.sub

namespace InodesOk

/-- After calls that took and gave back references, and a change of files and processes. -/
theorem of_refs (hr : Refs σ n ∅ s) (hroot : (σ.mem rootPtr).inodeNo = 1)
    (hlt : rootPtr < σ.fresh) (hlist : s'.list = s.list) (hmem : s'.mem = s.mem)
    (hfresh : s'.fresh = s.fresh) (hn : holders s'.file s'.proc = n)
    (hF : FiniteUse (openOn s'.file)) (hP : FiniteUse (cwdOf s'.proc)) : InodesOk s' := by
  refine ⟨hn ▸ hr.rebase s' hlist hmem hfresh, ?_, ?_, hF, hP⟩
  · rw [hmem, hr.inodeNo _ hlt]
    exact hroot
  · rw [hfresh]
    exact Nat.lt_of_lt_of_le hlt hr.fresh

/-- After calls that gave back the references that they took. -/
theorem kept (h : InodesOk σ) (hr : Refs σ (holders σ.file σ.proc) ∅ s) : InodesOk s := by
  refine of_refs hr h.root h.fresh rfl rfl rfl ?_ ?_ ?_
  · rw [hr.file, hr.proc]
  · rw [hr.file]
    exact h.files
  · rw [hr.proc]
    exact h.procs

/-- A change of files and processes that leaves the references alone. -/
theorem tables (h : InodesOk s) (hlist : s'.list = s.list) (hmem : s'.mem = s.mem)
    (hfresh : s'.fresh = s.fresh) (hF : openOn s'.file = openOn s.file)
    (hP : cwdOf s'.proc = cwdOf s.proc) : InodesOk s' := by
  refine of_refs h.refs h.root h.fresh hlist hmem hfresh ?_ ?_ ?_
  · funext p
    unfold holders
    rw [hF, hP]
  · rw [hF]
    exact h.files
  · rw [hP]
    exact h.procs

theorem cwd_pos (h : InodesOk s) (hc : (s.proc i).cwd = some p) :
    0 < holders s.file s.proc p := by
  have := uses_pos (a := i) h.procs hc
  unfold holders
  omega

theorem file_pos (h : InodesOk s) (hf : (s.file f).type = .inode) :
    0 < holders s.file s.proc (s.file f).ip := by
  have := uses_pos (a := f) h.files (if_pos hf)
  unfold holders
  omega

end InodesOk

/-! ### Files and descriptors -/

/-- A descriptor is set to file `f`, which counts it. -/
theorem FilesOk.link (h : FilesOk F P) (hfd : (P i).ofile fd = none) {x : File}
    (hx : x.ref = (F f).ref + 1) :
    FilesOk (Function.update F f x) (setSlot P i fd (some f)) := by
  have hslot : slotOf P (i, fd) = none := hfd
  constructor
  case ref =>
    intro g
    have hu := uses_update (b := g) h.finite (i, fd) (some f)
    rw [hslot, holdsOne_none, Nat.add_zero, holdsOne_some] at hu
    rw [slotOf_setSlot, hu, Function.update_apply]
    split
    case isTrue hg => rw [hx, hg, h.ref]
    case isFalse => rw [h.ref, Nat.add_zero]
  case closed =>
    intro g hg
    rw [Function.update_apply] at hg ⊢
    split at hg
    case isTrue hgf => omega
    case isFalse hgf =>
      rw [if_neg hgf]
      exact h.closed g hg
  case finite =>
    rw [slotOf_setSlot]
    exact h.finite.update _ _

/-- The files after `fileclose`. -/
def closeFile (F : Nat → File) (f : Nat) : Nat → File :=
  Function.update F f (if (F f).ref - 1 > 0 then { F f with ref := (F f).ref - 1 }
    else { F f with ref := 0, type := .none })

/-- A descriptor of file `f` is cleared and the file closed. -/
theorem FilesOk.unlink (h : FilesOk F P) (hfd : (P i).ofile fd = some f) :
    FilesOk (closeFile F f) (setSlot P i fd none) := by
  have hslot : slotOf P (i, fd) = some f := hfd
  have hpos : 0 < uses (slotOf P) f := uses_pos h.finite hslot
  constructor
  case ref =>
    intro g
    have hu := uses_update (b := g) h.finite (i, fd) none
    rw [hslot, holdsOne_none, Nat.add_zero, holdsOne_some] at hu
    rw [slotOf_setSlot]
    unfold closeFile
    rw [Function.update_apply]
    by_cases hg : g = f
    · rw [if_pos hg] at hu ⊢
      subst hg
      have href := h.ref g
      split
      case isTrue => simp only; omega
      case isFalse => simp only; omega
    · rw [if_neg hg] at hu ⊢
      rw [h.ref, ← hu, Nat.add_zero]
  case closed =>
    intro g hg
    unfold closeFile at hg ⊢
    rw [Function.update_apply] at hg ⊢
    split at hg
    case isTrue hgf =>
      rw [if_pos hgf]
      split at hg
      case isTrue hlt =>
        simp only at hg
        omega
      case isFalse hlt => rw [if_neg hlt]
    case isFalse hgf =>
      rw [if_neg hgf]
      exact h.closed g hg
  case finite =>
    rw [slotOf_setSlot]
    exact h.finite.update _ _

/-- A change of files that leaves their counts and types alone. -/
theorem FilesOk.congr (h : FilesOk F P) (href : ∀ f, (F' f).ref = (F f).ref)
    (htype : ∀ f, (F' f).type = (F f).type) : FilesOk F' P := by
  refine ⟨fun f => (href f).trans (h.ref f), fun f hf => ?_, h.finite⟩
  rw [htype]
  exact h.closed f (href f ▸ hf)

theorem ProcsOk.link (h : ProcsOk P) (hfd : fd < nofile) (hcwd : (P i).cwd ≠ none) :
    ProcsOk (setSlot P i fd (some f)) := by
  constructor
  case idle =>
    intro j hj k
    rw [cwd_setSlot] at hj
    have hji : j ≠ i := by
      rintro rfl
      exact hcwd hj
    rw [ofile_setSlot, if_neg fun hc => hji hc.1]
    exact h.idle j hj k
  case high =>
    intro j k hk
    rw [ofile_setSlot, if_neg fun hc => by omega]
    exact h.high j k hk

theorem ProcsOk.unlink (h : ProcsOk P) : ProcsOk (setSlot P i fd none) := by
  constructor
  case idle =>
    intro j hj k
    rw [cwd_setSlot] at hj
    rw [ofile_setSlot]
    split
    case isTrue => rfl
    case isFalse => exact h.idle j hj k
  case high =>
    intro j k hk
    rw [ofile_setSlot]
    split
    case isTrue => rfl
    case isFalse => exact h.high j k hk

theorem runs_modifyFile {g : File → File} {v : PUnit} :
    Runs (modifyFile f g) s v s' ↔ s' = { s with file := Function.update s.file f (g (s.file f)) } :=
  runs_modify

theorem runs_modifyProc {g : Proc → Proc} {v : PUnit} :
    Runs (modifyProc i g) s v s' ↔ s' = { s with proc := Function.update s.proc i (g (s.proc i)) } :=
  runs_modify

theorem runs_getCwd : Runs (getCwd i) s p s' ↔ (s.proc i).cwd = some p ∧ s = s' := by
  unfold getCwd
  simp only [runs_bind, runs_get]
  constructor
  · rintro ⟨_, _, ⟨rfl, rfl⟩, hr⟩
    split at hr
    case h_1 c hc =>
      obtain ⟨rfl, rfl⟩ := runs_pure.mp hr
      exact ⟨hc, rfl⟩
    case h_2 => exact absurd hr runs_throw
  · rintro ⟨hc, rfl⟩
    refine ⟨_, _, ⟨rfl, rfl⟩, ?_⟩
    rw [hc]
    exact runs_pure.mpr ⟨rfl, rfl⟩

theorem argfd_spec {r : Option Nat} (hr : Runs (argfd i fd) s r s') :
    s = s' ∧ ∀ f ∈ r, (s.proc i).ofile fd = some f := by
  obtain ⟨_, _, hget, hr⟩ := runs_bind.mp hr
  obtain ⟨rfl, rfl⟩ := runs_get.mp hget
  obtain ⟨rfl, rfl⟩ := runs_pure.mp hr
  refine ⟨rfl, fun f hf => ?_⟩
  split at hf
  case isTrue => exact hf
  case isFalse => cases hf

theorem fdalloc_spec {r : Option Nat} (hr : Runs (fdalloc i f) s r s') :
    (r = none ∧ s = s') ∨ ∃ fd, r = some fd ∧ fd < nofile ∧ (s.proc i).ofile fd = none ∧
      s' = { s with proc := setSlot s.proc i fd (some f) } := by
  obtain ⟨_, _, hget, hr⟩ := runs_bind.mp hr
  obtain ⟨rfl, rfl⟩ := runs_get.mp hget
  split at hr
  case h_1 fd hfind =>
    obtain ⟨_, t, hproc, hr⟩ := runs_bind.mp hr
    obtain ⟨rfl, rfl⟩ := runs_pure.mp hr
    have hfree := List.find?_some hfind
    have hmem := List.mem_of_find?_eq_some hfind
    exact .inr ⟨fd, rfl, List.mem_range.mp hmem, by simpa using hfree, runs_modifyProc.mp hproc⟩
  case h_2 =>
    obtain ⟨rfl, rfl⟩ := runs_pure.mp hr
    exact .inl ⟨rfl, rfl⟩

theorem filealloc_spec {r : Option Nat} (hr : Runs filealloc s r s') :
    (r = none ∧ s = s') ∨ ∃ f, r = some f ∧ (s.file f).ref = 0 ∧
      s' = { s with file := Function.update s.file f { s.file f with ref := 1 } } := by
  obtain ⟨_, _, hget, hr⟩ := runs_bind.mp hr
  obtain ⟨rfl, rfl⟩ := runs_get.mp hget
  split at hr
  case h_1 f hfind =>
    obtain ⟨_, t, hfile, hr⟩ := runs_bind.mp hr
    obtain ⟨rfl, rfl⟩ := runs_pure.mp hr
    have hfree := List.find?_some hfind
    exact .inr ⟨f, rfl, by simpa using hfree, runs_modifyFile.mp hfile⟩
  case h_2 =>
    obtain ⟨rfl, rfl⟩ := runs_pure.mp hr
    exact .inl ⟨rfl, rfl⟩

theorem filedup_spec {r : Nat} (hr : Runs (filedup f) s r s') :
    s' = { s with
      file := Function.update s.file f { s.file f with ref := (s.file f).ref + 1 } } := by
  obtain ⟨_, _, hget, hr⟩ := runs_bind.mp hr
  obtain ⟨rfl, rfl⟩ := runs_get.mp hget
  obtain ⟨_, _, hpos, hr⟩ := runs_bind.mp hr
  obtain ⟨-, rfl⟩ := runs_require.mp hpos
  obtain ⟨_, t, hfile, hr⟩ := runs_bind.mp hr
  obtain ⟨-, rfl⟩ := runs_pure.mp hr
  exact runs_modifyFile.mp hfile

/-- A change of a file that leaves its inode alone. -/
theorem openOn_same {x : File} (hx : x.inode = (F f).inode) :
    openOn (Function.update F f x) = openOn F := by
  rw [openOn_update, hx]
  exact Function.update_eq_self f (openOn F)

theorem InodesOk.fileclose (h : InodesOk s) (hr : Runs (fileclose sblock f) s u s') :
    InodesOk s' ∧ s'.proc = s.proc ∧ s'.file = closeFile s.file f := by
  obtain ⟨_, _, hget, hr⟩ := runs_bind.mp hr
  obtain ⟨rfl, rfl⟩ := runs_get.mp hget
  obtain ⟨_, _, hpos, hr⟩ := runs_bind.mp hr
  obtain ⟨-, rfl⟩ := runs_require.mp hpos
  unfold closeFile
  obtain ⟨hlt, hr⟩ | ⟨hlt, hr⟩ := runs_ite.mp hr
  · obtain rfl := runs_modifyFile.mp hr
    rw [if_pos hlt]
    exact ⟨h.tables rfl rfl rfl (openOn_same rfl) rfl, rfl, rfl⟩
  · obtain ⟨_, t, hfile, hr⟩ := runs_bind.mp hr
    obtain rfl := runs_modifyFile.mp hfile
    rw [if_neg hlt]
    set x : File := { s.file f with ref := 0, type := .none } with hx
    have hxi : x.inode = none := rfl
    rcases runs_when.mp hr with ⟨htype, hr⟩ | ⟨htype, rfl⟩
    · have hi : (s.file f).inode = some (s.file f).ip := if_pos htype
      have hcount : holders s.file s.proc =
          bump (holders (Function.update s.file f x) s.proc) (s.file f).ip := by
        refine eq_bump fun p => ?_
        have hu := holders_update (P := s.proc) h.files (f := f) x p
        rw [hi, hxi, holdsOne_none] at hu
        omega
      obtain ⟨t, t', hs, hput, hs'⟩ := runs_inOp hr
      have hrefs := h.refs.rebase { s with file := Function.update s.file f x } rfl rfl rfl
      rw [hcount] at hrefs
      have hdone := ((hrefs.same hs).inodePut (by simp) hput).same hs'
      refine ⟨InodesOk.of_refs hdone h.root h.fresh rfl rfl rfl ?_ ?_ ?_, hdone.proc, hdone.file⟩
      · rw [hdone.file, hdone.proc]
      · rw [hdone.file]
        exact openOn_update x ▸ h.files.update f none
      · rw [hdone.proc]
        exact h.procs
    · have hi : (s.file f).inode = none := if_neg htype
      exact ⟨h.tables rfl rfl rfl (openOn_same (hxi.trans hi.symm)) rfl, rfl, rfl⟩

theorem Accounted.kept (h : Accounted σ) (hr : Refs σ (holders σ.file σ.proc) ∅ s) :
    Accounted s := by
  refine ⟨h.inodes.kept hr, ?_, ?_⟩
  · rw [hr.file, hr.proc]
    exact h.files
  · rw [hr.proc]
    exact h.procs

/-- An operation whose body gives back the references that it takes. -/
theorem Accounted.inOp {α : Type} {x : M α} {a : α} (h : Accounted s)
    (hr : Runs (inOp x) s a s')
    (hx : ∀ t t', Refs s (holders s.file s.proc) ∅ t → Runs x t a t' →
      Refs s (holders s.file s.proc) ∅ t') : Accounted s' := by
  obtain ⟨t, t', hs, hrun, hs'⟩ := runs_inOp hr
  exact h.kept ((hx t t' (h.inodes.refs.same hs) hrun).same hs')

end FtosFfs.Fs
