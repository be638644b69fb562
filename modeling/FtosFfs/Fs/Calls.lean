import FtosFfs.Fs.Counts
import FtosFfs.Fs.Listing

/-! The system calls keep the reference counts of files and in-memory inodes exact, in every run of
any number of processes. -/

namespace FtosFfs.Fs

open Lib Lib.Exec Cache

variable {s s' t σ : State} {p q cwd : Ptr} {n : Ptr → Nat} {F : Nat → File} {P : Nat → Proc}
  {f i child fd : Nat} {u : Unit} {path : List UInt8}

/-! ### Open files -/

/-- `fileclose` of a file that `sys_openat` has not opened yet. -/
theorem fileclose_none (htype : (s.file f).type = .none) (hr : Runs (fileclose sblock f) s u s') :
    s' = { s with file := closeFile s.file f } := by
  obtain ⟨_, _, hget, hr⟩ := runs_bind.mp hr
  obtain ⟨rfl, rfl⟩ := runs_get.mp hget
  obtain ⟨_, _, hpos, hr⟩ := runs_bind.mp hr
  obtain ⟨-, rfl⟩ := runs_require.mp hpos
  unfold closeFile
  obtain ⟨hlt, hr⟩ | ⟨hlt, hr⟩ := runs_ite.mp hr
  · rw [if_pos hlt]
    exact runs_modifyFile.mp hr
  · obtain ⟨_, t, hfile, hr⟩ := runs_bind.mp hr
    obtain rfl := runs_modifyFile.mp hfile
    rw [if_neg hlt]
    rcases runs_when.mp hr with ⟨hinode, -⟩ | ⟨-, rfl⟩
    · rw [htype] at hinode
      cases hinode
    · rfl

theorem openFile_spec {r : Option (Nat × Nat)} (h : FilesOk s.file P)
    (hr : Runs (openFile sblock i) s r s') :
    (r = none ∧ s = s') ∨ ∃ f fd, r = some (f, fd) ∧ (s.file f).ref = 0 ∧ fd < nofile ∧
      (s.proc i).ofile fd = none ∧ s' = { s with
        file := Function.update s.file f { s.file f with ref := 1 }
        proc := setSlot s.proc i fd (some f) } := by
  obtain ⟨o, t, halloc, hr⟩ := runs_bind.mp hr
  rcases filealloc_spec halloc with ⟨rfl, rfl⟩ | ⟨f, rfl, href, rfl⟩
  · obtain ⟨rfl, rfl⟩ := runs_pure.mp hr
    exact .inl ⟨rfl, rfl⟩
  · obtain ⟨o, t, hfd, hr⟩ := runs_bind.mp hr
    rcases fdalloc_spec hfd with ⟨rfl, rfl⟩ | ⟨fd, rfl, hlt, hfree, rfl⟩
    · -- No descriptor: the file is given back as it was.
      obtain ⟨_, t, hclose, hr⟩ := runs_bind.mp hr
      obtain ⟨rfl, rfl⟩ := runs_pure.mp hr
      have htype := h.closed f href
      have ht := fileclose_none (by simpa using htype) hclose
      have hsame : closeFile (Function.update s.file f { s.file f with ref := 1 }) f = s.file := by
        unfold closeFile
        simp only [Function.update_self, Function.update_idem]
        rw [if_neg (by decide), ← htype, ← href]
        exact Function.update_eq_self f s.file
      simp only [hsame] at ht
      exact .inl ⟨rfl, ht.symm⟩
    · obtain ⟨rfl, rfl⟩ := runs_pure.mp hr
      exact .inr ⟨f, fd, rfl, href, hlt, hfree, rfl⟩

/-- A change of the offset of a file. -/
theorem Accounted.offset (h : Accounted s) {o : Nat}
    (hr : Refs σ (holders s.file s.proc) ∅ s')
    (hfile : σ.file = Function.update s.file f { s.file f with off := o }) (hproc : σ.proc = s.proc)
    (hroot : (σ.mem rootPtr).inodeNo = 1) (hfresh : rootPtr < σ.fresh) : Accounted s' := by
  have hopen : openOn s'.file = openOn s.file := by
    rw [hr.file, hfile]
    exact openOn_same rfl
  have hproc' := hr.proc.trans hproc
  refine ⟨InodesOk.of_refs hr hroot hfresh rfl rfl rfl ?_ ?_ ?_, ?_, ?_⟩
  · funext p
    unfold holders
    rw [hopen, hproc']
  · rw [hopen]
    exact h.inodes.files
  · rw [hproc']
    exact h.inodes.procs
  · rw [hr.file, hfile, hproc']
    refine h.files.congr (fun g => ?_) fun g => ?_ <;>
    · rw [Function.update_apply]
      split
      case isTrue hg => rw [hg]
      case isFalse => rfl
  · rw [hproc']
    exact h.procs

/-- A file is read or written with the lock of its inode, and its offset moves. -/
theorem Accounted.moveOffset (h : Accounted s) {g : File → Nat} {t1 t2 t3 s1 : State}
    {u1 u2 u3 : Unit} (hs : SameRefs s t) (htype : (s.file f).type = .inode)
    (hlock : Runs (inodeLock sblock (s.file f).ip) t u1 t1) (hs1 : SameRefs t1 t2)
    (hmove : Runs (modifyFile f fun file => { file with off := g file }) t2 u2 t3)
    (hunlock : Runs (inodeUnlock (s.file f).ip) t3 u3 s1) (hs2 : SameRefs s1 s') :
    Accounted s' ∧ (s'.file f).type = .inode := by
  have hpos := h.inodes.file_pos htype
  obtain ⟨-, h1⟩ := (h.inodes.refs.same hs).inodeLock hpos hlock
  have h2 := h1.same hs1
  obtain rfl := runs_modifyFile.mp hmove
  have h3 := h2.rebase { t2 with
    file := Function.update t2.file f { t2.file f with off := g (t2.file f) } } rfl rfl rfl
  have h4 := (h3.inodeUnlock hpos (by simp) hunlock).same hs2
  have hfile : Function.update t2.file f { t2.file f with off := g (t2.file f) } =
      Function.update s.file f { s.file f with off := g (s.file f) } := by
    rw [h2.file]
  refine ⟨h.offset h4 hfile h2.proc ?_ ?_, ?_⟩
  · rw [h2.inodeNo _ h.inodes.fresh]
    exact h.inodes.root
  · exact Nat.lt_of_lt_of_le h.inodes.fresh h2.fresh
  · rw [h4.file]
    show (Function.update t2.file f _ f).type = _
    rw [hfile, Function.update_self]
    exact htype

theorem Accounted.filewriteLoop {addr : Nat → UInt8} {count fuel k : Nat} (h : Accounted s)
    (htype : (s.file f).type = .inode)
    (hr : Runs (filewriteLoop sblock f addr count fuel k) s u s') : Accounted s' := by
  induction fuel generalizing s k with
  | zero =>
    obtain ⟨-, rfl⟩ := runs_pure.mp hr
    exact h
  | succ fuel ih =>
    obtain ⟨-, hr⟩ | ⟨-, hr⟩ := runs_ite.mp hr
    · obtain ⟨r, t, hop, hr⟩ := runs_bind.mp hr
      obtain ⟨_, _, hcount, hr⟩ := runs_bind.mp hr
      obtain ⟨-, rfl⟩ := runs_require.mp hcount
      obtain ⟨t0, t1, hs, hx, hs'⟩ := runs_inOp hop
      obtain ⟨_, _, hget, hx⟩ := runs_bind.mp hx
      obtain ⟨rfl, rfl⟩ := runs_get.mp hget
      rw [hs.file] at hx
      obtain ⟨_, t2, hlock, hx⟩ := runs_bind.mp hx
      obtain ⟨_, t3, hwrite, hx⟩ := runs_bind.mp hx
      obtain ⟨_, t4, hmove, hx⟩ := runs_bind.mp hx
      obtain ⟨_, t5, hunlock, hx⟩ := runs_bind.mp hx
      obtain ⟨-, rfl⟩ := runs_pure.mp hx
      obtain ⟨h', htype'⟩ := h.moveOffset hs htype hlock (same_inodeWrite hwrite) hmove hunlock hs'
      exact ih h' htype' hr
    · obtain ⟨-, rfl⟩ := runs_pure.mp hr
      exact h

/-! ### The calls -/

namespace Accounted

theorem sysWrite {addr : Nat → UInt8} {count : Nat} {r : Int} (h : Accounted s)
    (hr : Runs (sysWrite sblock i fd addr count) s r s') : Accounted s' := by
  obtain ⟨o, t, harg, hr⟩ := runs_bind.mp hr
  obtain ⟨rfl, -⟩ := argfd_spec harg
  cases o with
  | none =>
    obtain ⟨-, rfl⟩ := runs_pure.mp hr
    exact h
  | some f =>
    obtain ⟨_, _, hget, hr⟩ := runs_bind.mp hr
    obtain ⟨rfl, rfl⟩ := runs_get.mp hget
    obtain ⟨-, hr⟩ | ⟨-, hr⟩ := runs_ite.mp hr
    · obtain ⟨_, _, hassert, hr⟩ := runs_bind.mp hr
      obtain ⟨htype, rfl⟩ := runs_require.mp hassert
      obtain ⟨_, t, hloop, hr⟩ := runs_bind.mp hr
      obtain ⟨-, rfl⟩ := runs_pure.mp hr
      exact h.filewriteLoop htype hloop
    · obtain ⟨-, rfl⟩ := runs_pure.mp hr
      exact h

theorem sysRead {input : List UInt8} {memory : Nat → UInt8} {count : Nat} {r : Int}
    (h : Accounted s) (hr : Runs (sysRead sblock i fd input memory count) s r s') :
    Accounted s' := by
  obtain ⟨o, t, harg, hr⟩ := runs_bind.mp hr
  obtain ⟨rfl, -⟩ := argfd_spec harg
  cases o with
  | none =>
    obtain ⟨-, rfl⟩ := runs_pure.mp hr
    exact h
  | some f =>
    obtain ⟨_, t, hread, hr⟩ := runs_bind.mp hr
    obtain ⟨-, rfl⟩ := runs_pure.mp hr
    obtain ⟨_, _, hget, hread⟩ := runs_bind.mp hread
    obtain ⟨rfl, rfl⟩ := runs_get.mp hget
    obtain ⟨-, hread⟩ | ⟨-, hread⟩ := runs_ite.mp hread
    · obtain ⟨_, _, hassert, hread⟩ := runs_bind.mp hread
      obtain ⟨htype, rfl⟩ := runs_require.mp hassert
      obtain ⟨_, t1, hlock, hread⟩ := runs_bind.mp hread
      obtain ⟨_, t2, hbytes, hread⟩ := runs_bind.mp hread
      obtain ⟨_, t3, hmove, hread⟩ := runs_bind.mp hread
      obtain ⟨_, t4, hunlock, hread⟩ := runs_bind.mp hread
      obtain ⟨-, rfl⟩ := runs_pure.mp hread
      exact (h.moveOffset (.refl _) htype hlock (same_inodeReadFrom hbytes) hmove hunlock
        (.refl _)).1
    · obtain ⟨-, rfl⟩ := runs_pure.mp hread
      exact h

theorem sysUnlink {r : Int} (h : Accounted s) (hr : Runs (sysUnlink sblock i path) s r s') :
    Accounted s' := by
  obtain ⟨cwd, _, hget, hr⟩ := runs_bind.mp hr
  obtain ⟨hcwd, rfl⟩ := runs_getCwd.mp hget
  exact h.inOp hr fun _ _ h0 hx => h0.unlink (h.inodes.cwd_pos hcwd) hx

theorem sysMkdirat {mode r : Int} (h : Accounted s)
    (hr : Runs (sysMkdirat sblock i path mode) s r s') : Accounted s' := by
  obtain ⟨-, hr⟩ | ⟨-, hr⟩ := runs_ite.mp hr
  · obtain ⟨-, rfl⟩ := runs_pure.mp hr
    exact h
  · obtain ⟨cwd, _, hget, hr⟩ := runs_bind.mp hr
    obtain ⟨hcwd, rfl⟩ := runs_getCwd.mp hget
    exact h.inOp hr fun _ _ h0 hx => h0.makeAt (h.inodes.cwd_pos hcwd) hx

theorem sysMknodat {major minor : UInt16} {r : Int} (h : Accounted s)
    (hr : Runs (sysMknodat sblock i path major minor) s r s') : Accounted s' := by
  obtain ⟨cwd, _, hget, hr⟩ := runs_bind.mp hr
  obtain ⟨hcwd, rfl⟩ := runs_getCwd.mp hget
  exact h.inOp hr fun _ _ h0 hx => h0.makeAt (h.inodes.cwd_pos hcwd) hx

theorem sysFstatat {flags r : Int} (h : Accounted s)
    (hr : Runs (sysFstatat sblock i path flags) s r s') : Accounted s' := by
  obtain ⟨-, hr⟩ | ⟨-, hr⟩ := runs_ite.mp hr
  · obtain ⟨-, rfl⟩ := runs_pure.mp hr
    exact h
  · obtain ⟨cwd, _, hget, hr⟩ := runs_bind.mp hr
    obtain ⟨hcwd, rfl⟩ := runs_getCwd.mp hget
    obtain ⟨o, t, hop, hr⟩ := runs_bind.mp hr
    have h' := h.inOp hop fun _ _ h0 hx => h0.fstatat (h.inodes.cwd_pos hcwd) hx
    cases o with
    | none =>
      obtain ⟨-, rfl⟩ := runs_pure.mp hr
      exact h'
    | some stat =>
      obtain ⟨-, rfl⟩ := runs_pure.mp hr
      exact h'

theorem sysExecve {env : ExecEnv} {r : Int} (h : Accounted s)
    (hr : Runs (sysExecve sblock i path env) s r s') : Accounted s' := by
  obtain ⟨-, hr⟩ | ⟨-, hr⟩ := runs_ite.mp hr
  · obtain ⟨cwd, _, hget, hr⟩ := runs_bind.mp hr
    obtain ⟨hcwd, rfl⟩ := runs_getCwd.mp hget
    obtain ⟨loaded, t, hop, hr⟩ := runs_bind.mp hr
    obtain ⟨-, rfl⟩ := runs_pure.mp hr
    exact h.inOp hop fun _ _ h0 hx => h0.execProgram (h.inodes.cwd_pos hcwd) hx
  · obtain ⟨-, rfl⟩ := runs_pure.mp hr
    exact h

theorem sysChdir {r : Int} (h : Accounted s) (hr : Runs (sysChdir sblock i path) s r s') :
    Accounted s' := by
  obtain ⟨cwd, _, hget, hr⟩ := runs_bind.mp hr
  obtain ⟨hcwd, rfl⟩ := runs_getCwd.mp hget
  obtain ⟨o, t, hop, hr⟩ := runs_bind.mp hr
  obtain ⟨t0, t1, hs, hx, hs'⟩ := runs_inOp hop
  obtain ⟨m, hm⟩ := exists_bump (h.inodes.cwd_pos hcwd)
  have h0 := h.inodes.refs.same hs
  rw [hm] at h0
  have h1 := (h0.chdir hx).same hs'
  cases o with
  | none =>
    obtain ⟨-, rfl⟩ := runs_pure.mp hr
    refine h.kept ?_
    rw [hm]
    exact h1
  | some ip =>
    obtain ⟨_, t2, hproc, hr⟩ := runs_bind.mp hr
    obtain ⟨-, rfl⟩ := runs_pure.mp hr
    have hset : t2 = { t with proc := setCwd s.proc i (some ip) } := by
      rw [runs_modifyProc.mp hproc, h1.proc]
      rfl
    subst hset
    refine ⟨InodesOk.of_refs h1 h.inodes.root h.inodes.fresh rfl rfl rfl ?_ ?_ ?_, ?_, ?_⟩
    · refine eq_bump fun p => ?_
      have hu := holders_setCwd (F := s.file) h.inodes.procs (i := i) (some ip) p
      have hp := congrFun hm p
      rw [bump_apply] at hp
      rw [hcwd] at hu
      simp only [h1.file, Option.getD_some]
      omega
    · simp only [h1.file]
      exact h.inodes.files
    · simp only [cwdOf_setCwd]
      exact h.inodes.procs.update i (some ip)
    · simp only [h1.file]
      refine ⟨?_, h.files.closed, ?_⟩
      · rw [slotOf_setCwd]
        exact h.files.ref
      · rw [slotOf_setCwd]
        exact h.files.finite
    · refine ⟨fun j hj k => ?_, fun j k hk => ?_⟩
      · rw [ofile_setCwd]
        refine h.procs.idle j ?_ k
        by_cases hji : j = i
        · subst hji
          simp [setCwd] at hj
        · simpa [setCwd, hji] using hj
      · rw [ofile_setCwd]
        exact h.procs.high j k hk

theorem sysOpenat {omode : Nat} {r : Int} (h : Accounted s)
    (hr : Runs (sysOpenat sblock i path omode) s r s') : Accounted s' := by
  obtain ⟨cwd, _, hget, hr⟩ := runs_bind.mp hr
  obtain ⟨hcwd, rfl⟩ := runs_getCwd.mp hget
  obtain ⟨o, t, hop, hr⟩ := runs_bind.mp hr
  obtain ⟨t0, t1, hs, hx, hs'⟩ := runs_inOp hop
  obtain ⟨ro, t2, hinode, hx⟩ := runs_bind.mp hx
  have h0 := (h.inodes.refs.same hs).openInode (h.inodes.cwd_pos hcwd) hinode
  cases ro with
  | none =>
    obtain ⟨rfl, rfl⟩ := runs_pure.mp hx
    obtain ⟨-, rfl⟩ := runs_pure.mp hr
    exact h.kept (h0.same hs')
  | some ip =>
    obtain ⟨rf, t3, hfile, hx⟩ := runs_bind.mp hx
    have hfiles : FilesOk t2.file s.proc := by
      rw [h0.file]
      exact h.files
    rcases openFile_spec hfiles hfile with ⟨rfl, rfl⟩ | ⟨f, fd, rfl, href, hlt, hfree, rfl⟩
    · obtain ⟨_, t3, hput, hx⟩ := runs_bind.mp hx
      obtain ⟨rfl, rfl⟩ := runs_pure.mp hx
      obtain ⟨-, rfl⟩ := runs_pure.mp hr
      exact h.kept ((h0.unlockPut (by simp) hput).same hs')
    · obtain ⟨_, t3, hunlock, hx⟩ := runs_bind.mp hx
      obtain ⟨rfl, rfl⟩ := runs_pure.mp hx
      obtain ⟨_, t4, hopen, hr⟩ := runs_bind.mp hr
      obtain ⟨-, rfl⟩ := runs_pure.mp hr
      obtain rfl := runs_modifyFile.mp hopen
      rw [h0.file] at href
      rw [h0.proc] at hfree
      have h1 := h0.rebase { t2 with
        file := Function.update t2.file f { t2.file f with ref := 1 }
        proc := setSlot t2.proc i fd (some f) } rfl rfl rfl
      have h2 := (h1.inodeUnlock bump_pos (by simp) hunlock).same hs'
      have hproc : t.proc = setSlot s.proc i fd (some f) := by
        rw [h2.proc]
        simp only [h0.proc]
      have hclosed : (s.file f).inode = none := by
        unfold File.inode
        rw [h.files.closed f href]
        rfl
      have htable (x : File) :
          Function.update t.file f x = Function.update s.file f x := by
        rw [h2.file]
        simp only [h0.file, Function.update_idem]
      have hone : (t.file f).ref = (s.file f).ref + 1 := by
        rw [h2.file, href]
        simp
      refine ⟨InodesOk.of_refs h2 ?_ ?_ rfl rfl rfl ?_ ?_ ?_, ?_, ?_⟩
      · exact (h0.inodeNo _ h.inodes.fresh).trans h.inodes.root
      · exact Nat.lt_of_lt_of_le h.inodes.fresh h0.fresh
      · simp only [htable, hproc, holders_setSlot]
        refine eq_bump fun p => ?_
        have hu := holders_update (P := s.proc) h.inodes.files (f := f) { t.file f with
          type := .inode, ip, off := 0, readable := omode &&& oWronly = 0,
          writable := omode &&& oWronly ≠ 0 ∨ omode &&& oRdwr ≠ 0 } p
        rw [hclosed, holdsOne_none, Nat.add_zero] at hu
        exact hu
      · simp only [htable, openOn_update]
        exact h.inodes.files.update f _
      · simp only [hproc, cwdOf_setSlot]
        exact h.inodes.procs
      · simp only [htable, hproc]
        exact h.files.link hfree hone
      · simp only [hproc]
        exact h.procs.link hlt (by simp [hcwd])

theorem sysClose {r : Int} (h : Accounted s) (hr : Runs (sysClose sblock i fd) s r s') :
    Accounted s' := by
  obtain ⟨o, t, harg, hr⟩ := runs_bind.mp hr
  obtain ⟨rfl, hslot⟩ := argfd_spec harg
  cases o with
  | none =>
    obtain ⟨-, rfl⟩ := runs_pure.mp hr
    exact h
  | some f =>
    obtain ⟨_, t, hproc, hr⟩ := runs_bind.mp hr
    obtain ⟨_, t1, hclose, hr⟩ := runs_bind.mp hr
    obtain ⟨-, rfl⟩ := runs_pure.mp hr
    obtain rfl := runs_modifyProc.mp hproc
    have hi : InodesOk { s with proc := setSlot s.proc i fd none } :=
      h.inodes.tables rfl rfl rfl rfl (cwdOf_setSlot none)
    obtain ⟨hi', hp, hf⟩ := hi.fileclose hclose
    refine ⟨hi', ?_, ?_⟩
    · rw [hp, hf]
      exact h.files.unlink (hslot f rfl)
    · rw [hp]
      exact h.procs.unlink

theorem sysDup {r : Int} (h : Accounted s) (hr : Runs (sysDup i fd) s r s') : Accounted s' := by
  obtain ⟨o, t, harg, hr⟩ := runs_bind.mp hr
  obtain ⟨rfl, hslot⟩ := argfd_spec harg
  cases o with
  | none =>
    obtain ⟨-, rfl⟩ := runs_pure.mp hr
    exact h
  | some f =>
    obtain ⟨o, t, hfd, hr⟩ := runs_bind.mp hr
    rcases fdalloc_spec hfd with ⟨rfl, rfl⟩ | ⟨fd', rfl, hlt, hfree, rfl⟩
    · obtain ⟨-, rfl⟩ := runs_pure.mp hr
      exact h
    · obtain ⟨_, t, hdup, hr⟩ := runs_bind.mp hr
      obtain ⟨-, rfl⟩ := runs_pure.mp hr
      obtain rfl := filedup_spec hdup
      have hcwd : (s.proc i).cwd ≠ none := by
        intro hnone
        have := h.procs.idle i hnone fd
        rw [hslot f rfl] at this
        cases this
      exact ⟨h.inodes.tables rfl rfl rfl (openOn_same rfl) (cwdOf_setSlot _),
        h.files.link hfree rfl, h.procs.link hlt hcwd⟩

/-- A process that closes its files keeps its current directory. -/
theorem exitFile (h : Accounted s) (hr : Runs (exitFile sblock i fd) s u s') :
    Accounted s' ∧ (s'.proc i).cwd = (s.proc i).cwd ∧ (s'.proc i).ofile fd = none ∧
      ∀ k, (s.proc i).ofile k = none → (s'.proc i).ofile k = none := by
  obtain ⟨_, _, hget, hr⟩ := runs_bind.mp hr
  obtain ⟨rfl, rfl⟩ := runs_get.mp hget
  split at hr
  case h_1 hnone =>
    obtain ⟨-, rfl⟩ := runs_pure.mp hr
    exact ⟨h, rfl, hnone, fun _ hk => hk⟩
  case h_2 f hslot =>
    obtain ⟨_, t, hclose, hr⟩ := runs_bind.mp hr
    obtain ⟨hi, hp, hf⟩ := h.inodes.fileclose hclose
    have hset : s' = { t with proc := setSlot s.proc i fd none } := by
      rw [runs_modifyProc.mp hr, hp]
      rfl
    subst hset
    refine ⟨⟨hi.tables rfl rfl rfl rfl ?_, ?_, h.procs.unlink⟩, ?_, ?_, fun k hk => ?_⟩
    · rw [cwdOf_setSlot, hp]
    · simp only [hf]
      exact h.files.unlink hslot
    · exact cwd_setSlot none i
    · exact (ofile_setSlot none i fd).trans (if_pos ⟨rfl, rfl⟩)
    · refine (ofile_setSlot none i k).trans ?_
      split
      case isTrue => rfl
      case isFalse => exact hk

theorem sysExit {r : Int} (h : Accounted s) (hr : Runs (sysExit sblock i) s r s') :
    Accounted s' := by
  obtain ⟨_, t, hloop, hr⟩ := runs_bind.mp hr
  -- The descriptors that are still to be closed are the rounds to come.
  have hclosed := hloop.forM (I := fun l t => Accounted t ∧ (t.proc i).cwd = (s.proc i).cwd ∧
    ∀ k < nofile, k ∉ l → (t.proc i).ofile k = none)
    ⟨h, rfl, fun k hk hl => absurd (List.mem_range.mpr hk) hl⟩ ?_
  · obtain ⟨ht, -, hnone⟩ := hclosed
    obtain ⟨cwd, _, hget, hr⟩ := runs_bind.mp hr
    obtain ⟨hcwd, rfl⟩ := runs_getCwd.mp hget
    obtain ⟨_, t1, hop, hr⟩ := runs_bind.mp hr
    obtain ⟨_, t2, hproc, hr⟩ := runs_bind.mp hr
    obtain ⟨-, rfl⟩ := runs_pure.mp hr
    obtain ⟨t3, t4, hs, hput, hs'⟩ := runs_inOp hop
    have hcount : holders t.file t.proc = bump (holders t.file (setCwd t.proc i none)) cwd := by
      refine eq_bump fun p => ?_
      have hu := holders_setCwd (F := t.file) ht.inodes.procs (i := i) none p
      rw [hcwd, holdsOne_none] at hu
      omega
    have h0 := ht.inodes.refs.same hs
    rw [hcount] at h0
    have h1 := (h0.inodePut (by simp) hput).same hs'
    have hset : t2 = { t1 with proc := setCwd t.proc i none } := by
      rw [runs_modifyProc.mp hproc, h1.proc]
      rfl
    subst hset
    have hall (k : Nat) : (t.proc i).ofile k = none := by
      by_cases hk : k < nofile
      · exact hnone k hk (by simp)
      · exact ht.procs.high i k (Nat.not_lt.mp hk)
    refine ⟨InodesOk.of_refs h1 ht.inodes.root ht.inodes.fresh rfl rfl rfl ?_ ?_ ?_, ?_, ?_⟩
    · simp only [h1.file]
    · simp only [h1.file]
      exact ht.inodes.files
    · simp only [cwdOf_setCwd]
      exact ht.inodes.procs.update i none
    · simp only [h1.file]
      refine ⟨?_, ht.files.closed, ?_⟩
      · rw [slotOf_setCwd]
        exact ht.files.ref
      · rw [slotOf_setCwd]
        exact ht.files.finite
    · refine ⟨fun j hj k => ?_, fun j k hk => ?_⟩
      · rw [ofile_setCwd]
        by_cases hji : j = i
        · rw [hji]
          exact hall k
        · exact ht.procs.idle j (by simpa [setCwd, hji] using hj) k
      · rw [ofile_setCwd]
        exact ht.procs.high j k hk
  · rintro fd l t t' ⟨ht, hcwd, hnone⟩ hround
    obtain ⟨ht', hcwd', hfd, hkept⟩ := ht.exitFile hround
    refine ⟨ht', hcwd'.trans hcwd, fun k hk hl => ?_⟩
    by_cases hkfd : k = fd
    · rw [hkfd]
      exact hfd
    · exact hkept k (hnone k hk (by simp [hkfd, hl]))

end Accounted

/-- The state of a fork that has copied the descriptors before those in `l`. -/
structure Forking (s : State) (child : Nat) (l : List Nat) (t : State) : Prop where
  inodes : InodesOk t
  files : FilesOk t.file t.proc
  free : ∀ fd ∈ l, (t.proc child).ofile fd = none
  cwd : ∀ j, (t.proc j).cwd = (s.proc j).cwd
  others : ∀ j, j ≠ child → t.proc j = s.proc j
  high : ∀ fd, nofile ≤ fd → (t.proc child).ofile fd = none

theorem Forking.forkFile {l : List Nat} (h : Forking s child (fd :: l) t) (hl : (fd :: l).Nodup)
    (hfd : fd < nofile) (hr : Runs (forkFile i child fd) t u s') : Forking s child l s' := by
  obtain ⟨_, _, hget, hr⟩ := runs_bind.mp hr
  obtain ⟨rfl, rfl⟩ := runs_get.mp hget
  split at hr
  case h_1 =>
    obtain ⟨-, rfl⟩ := runs_pure.mp hr
    exact ⟨h.inodes, h.files, fun k hk => h.free k (by simp [hk]), h.cwd, h.others, h.high⟩
  case h_2 f hslot =>
    obtain ⟨_, t1, hdup, hr⟩ := runs_bind.mp hr
    obtain rfl := filedup_spec hdup
    have hset := runs_modifyProc.mp hr
    change s' = { t with
      file := Function.update t.file f { t.file f with ref := (t.file f).ref + 1 }
      proc := setSlot t.proc child fd (some f) } at hset
    subst hset
    constructor
    case inodes => exact h.inodes.tables rfl rfl rfl (openOn_same rfl) (cwdOf_setSlot _)
    case files => exact h.files.link (h.free fd (by simp)) rfl
    case free =>
      intro k hk
      have hne : k ≠ fd := by
        rintro rfl
        exact (List.nodup_cons.mp hl).1 hk
      simp only [ofile_setSlot, hne, and_false, if_false]
      exact h.free k (by simp [hk])
    case cwd =>
      intro j
      simp only [cwd_setSlot]
      exact h.cwd j
    case others =>
      intro j hj
      simp only [setSlot, Function.update_of_ne hj]
      exact h.others j hj
    case high =>
      intro k hk
      have hne : k ≠ fd := by omega
      simp only [ofile_setSlot, hne, and_false, if_false]
      exact h.high k hk

theorem Accounted.sysFork {r : Int} (h : Accounted s) (hr : Runs (sysFork i child) s r s') :
    Accounted s' := by
  obtain ⟨_, _, hget, hr⟩ := runs_bind.mp hr
  obtain ⟨rfl, rfl⟩ := runs_get.mp hget
  obtain ⟨_, _, hassert, hr⟩ := runs_bind.mp hr
  obtain ⟨hfree, rfl⟩ := runs_require.mp hassert
  obtain ⟨_, t, hloop, hr⟩ := runs_bind.mp hr
  have hstart : Forking s child (List.range nofile) s :=
    ⟨h.inodes, h.files, fun k _ => h.procs.idle child hfree k, fun _ => rfl, fun _ _ => rfl,
      h.procs.high child⟩
  have hforked := hloop.forM (I := fun l t => l.Nodup ∧ (∀ k ∈ l, k < nofile) ∧
    Forking s child l t) ⟨List.nodup_range, fun k => List.mem_range.mp, hstart⟩ ?_
  · obtain ⟨-, -, ht⟩ := hforked
    obtain ⟨cwd, _, hget', hr⟩ := runs_bind.mp hr
    obtain ⟨hcwd, rfl⟩ := runs_getCwd.mp hget'
    obtain ⟨p, t1, hshare, hr⟩ := runs_bind.mp hr
    obtain ⟨_, t2, hproc, hr⟩ := runs_bind.mp hr
    obtain ⟨-, rfl⟩ := runs_pure.mp hr
    obtain ⟨rfl, h1⟩ := ht.inodes.refs.inodeShare (ht.inodes.cwd_pos hcwd) hshare
    have hset : t2 = { t1 with proc := setCwd t.proc child (some p) } := by
      rw [runs_modifyProc.mp hproc, h1.proc]
      rfl
    subst hset
    refine ⟨InodesOk.of_refs h1 ht.inodes.root ht.inodes.fresh rfl rfl rfl ?_ ?_ ?_, ?_, ?_⟩
    · refine eq_bump fun q => ?_
      have hu := holders_setCwd (F := t.file) ht.inodes.procs (i := child) (some p) q
      rw [ht.cwd child, hfree, holdsOne_none, Nat.add_zero] at hu
      simp only [h1.file]
      exact hu
    · simp only [h1.file]
      exact ht.inodes.files
    · simp only [cwdOf_setCwd]
      exact ht.inodes.procs.update child _
    · simp only [h1.file]
      refine ⟨?_, ht.files.closed, ?_⟩
      · rw [slotOf_setCwd]
        exact ht.files.ref
      · rw [slotOf_setCwd]
        exact ht.files.finite
    · refine ⟨fun j hj k => ?_, fun j k hk => ?_⟩
      · have hne : j ≠ child := by
          rintro rfl
          simp [setCwd] at hj
        rw [ofile_setCwd, ht.others j hne]
        refine h.procs.idle j ?_ k
        rw [← ht.cwd j]
        simpa [setCwd, hne] using hj
      · rw [ofile_setCwd]
        by_cases hne : j = child
        · rw [hne]
          exact ht.high k hk
        · rw [ht.others j hne]
          exact h.procs.high j k hk
  · rintro fd l t t' ⟨hnodup, hlt, ht⟩ hround
    exact ⟨(List.nodup_cons.mp hnodup).2, fun k hk => hlt k (by simp [hk]),
      ht.forkFile hnodup (hlt fd (by simp)) hround⟩

/-! ### Runs -/

theorem Accounted.exec {call : Syscall} {r : Int} (h : Accounted s)
    (hr : Runs (call.exec sblock) s r s') : Accounted s' := by
  cases call with
  | openat => exact h.sysOpenat hr
  | mkdirat => exact h.sysMkdirat hr
  | mknodat => exact h.sysMknodat hr
  | unlink => exact h.sysUnlink hr
  | chdir => exact h.sysChdir hr
  | write => exact h.sysWrite hr
  | read => exact h.sysRead hr
  | fstatat => exact h.sysFstatat hr
  | execve => exact h.sysExecve hr
  | close => exact h.sysClose hr
  | dup => exact h.sysDup hr
  | fork => exact h.sysFork hr
  | exit => exact h.sysExit hr

/-- No inode is in memory before `init_inodes`. -/
theorem refs_mount (disk : Nat → BlockData) (mem : Ptr → Inode) :
    Refs (mount sblock disk mem) (fun _ => 0) ∅ (mount sblock disk mem) := by
  have hlist : (mount sblock disk mem).list = [] := rfl
  refine ⟨⟨?_, ?_, ?_, ?_, ?_⟩, rfl, rfl, Nat.le_refl _, fun _ _ => rfl, ?_, ?_, ?_, ?_⟩ <;> simp [hlist]

theorem accounted_boot {disk : Nat → BlockData} {mem : Ptr → Inode}
    (hr : Runs (boot sblock) (mount sblock disk mem) u s) : Accounted s := by
  obtain ⟨root, t, hroot, hrest⟩ := runs_bind.mp hr
  have hm := refs_mount disk mem
  have h0 := hm.inodeGet hroot
  obtain ⟨-, ⟨hmem, -⟩ | ⟨-, rfl, hs0⟩⟩ := (runs_inodeGet hm.list).mp hroot
  · cases hmem
  obtain ⟨c, t1, hop, hcwd⟩ := runs_bind.mp hrest
  obtain ⟨t2, t3, hs, hx, hs'⟩ := runs_inOp hop
  have h1 := h0.rebase t rfl rfl rfl
  have h2 := ((h1.same hs).namei bump_pos hx).same hs'
  have hfile : t.file = fun _ => ⟨.none, 0, false, false, 0, 0⟩ := h0.file
  have hproc : t.proc = fun _ => ⟨fun _ => none, none⟩ := h0.proc
  have hset : s = { t1 with proc := setCwd t.proc 0 c } := by
    rw [runs_modifyProc.mp hcwd, h2.proc]
    rfl
  have hopen : openOn t.file = fun _ => none := by
    rw [hfile]
    rfl
  have hcwds : cwdOf t.proc = fun _ => none := by
    rw [hproc]
    rfl
  have hslots : slotOf t.proc = fun _ => none := by
    rw [hproc]
    rfl
  subst hset
  refine ⟨InodesOk.of_refs h2 ?_ ?_ rfl rfl rfl ?_ ?_ ?_, ?_, ?_⟩
  · rw [hs0]
    rfl
  · rw [hs0]
    exact Nat.zero_lt_one
  · funext p
    have hu := holders_setCwd (F := t.file) (P := t.proc) (i := 0) (by
      rw [hcwds]
      exact finiteUse_none) c p
    have hnone : (t.proc 0).cwd = none := congrFun hcwds 0
    have hzero : holders t.file t.proc p = holdsOne (some rootPtr) p := by
      unfold holders
      rw [hopen, hcwds, uses_none, Nat.zero_add]
    rw [hnone, holdsOne_none, Nat.add_zero, hzero] at hu
    simp only [h2.file]
    rw [hu]
    have hfirst : bump (fun _ => 0) (mount sblock disk mem).fresh p = holdsOne (some rootPtr) p :=
      (bump_apply ..).trans (Nat.zero_add _)
    cases c with
    | none => exact hfirst.symm
    | some c =>
      rw [Refs.taken, Option.elim_some, bump_apply, hfirst]
  · simp only [h2.file, hopen]
    exact finiteUse_none
  · simp only [cwdOf_setCwd, hcwds]
    exact finiteUse_none.update 0 c
  · simp only [h2.file]
    refine ⟨fun f => ?_, fun f _ => ?_, ?_⟩
    · rw [slotOf_setCwd, hslots, uses_none, hfile]
    · rw [hfile]
    · rw [slotOf_setCwd, hslots]
      exact finiteUse_none
  · have hnone (j k : Nat) : (setCwd t.proc 0 c j).ofile k = none := by
      rw [ofile_setCwd]
      exact congrFun hslots (j, k)
    exact ⟨fun j _ k => hnone j k, fun j k _ => hnone j k⟩

theorem kernel_accounted {image : (Nat → BlockData) → Prop}
    (hs : (kernel sblock image).Reachable s) : Accounted s := by
  refine hs.invariant ?_ ?_
  · rintro s ⟨disk, mem, -, hr⟩
    exact accounted_boot hr
  · intro s call s' h hn
    obtain ⟨r, hr⟩ := after_eq_some.mp hn
    exact h.exec hr

/-- Every count of references is the number of references, no lock is held, and no inode is in memory
twice. -/
structure CountsExact (s : State) : Prop where
  file : ∀ f, (s.file f).ref = uses (slotOf s.proc) f
  inode : ∀ p ∈ s.list, (s.mem p).rc = uses (openOn s.file) p + uses (cwdOf s.proc) p +
    (if (s.mem p).inodeNo = 1 then 1 else 0 : Nat)
  held : ∀ p, 0 < uses (openOn s.file) p + uses (cwdOf s.proc) p → p ∈ s.list
  unlocked : ∀ p ∈ s.list, (s.mem p).locked = false
  single : ∀ p ∈ s.list, ∀ q ∈ s.list, (s.mem p).inodeNo = (s.mem q).inodeNo → p = q

/-- After every run of system calls by any number of processes, all references are counted. -/
theorem kernel_countsExact {image : (Nat → BlockData) → Prop}
    (hs : (kernel sblock image).Reachable s) : CountsExact s := by
  have h := kernel_accounted hs
  have hrefs := h.inodes.refs
  have hroot : rootPtr ∈ s.list := by
    refine hrefs.mem rootPtr ?_
    unfold holders
    rw [holdsOne_self]
    omega
  constructor
  case file => exact h.files.ref
  case inode =>
    intro p hp
    rw [hrefs.rc p hp]
    unfold holders
    have hiff : p = rootPtr ↔ (s.mem p).inodeNo = 1 := by
      constructor
      · rintro rfl
        exact h.inodes.root
      · intro hno
        exact hrefs.list.inj p hp rootPtr hroot (hno.trans h.inodes.root.symm)
    rw [holdsOne_some]
    simp only [hiff]
    push_cast
    rfl
  case held =>
    intro p hp
    refine hrefs.mem p ?_
    unfold holders
    omega
  case unlocked =>
    intro p hp
    have := hrefs.locks p hp
    simpa using this
  case single => exact hrefs.list.inj

/-- Memory of zeros for the in-memory inodes. -/
def zeroMem : Ptr → Inode := fun _ => ⟨false, 0, 0, false, InodeEntry.zero⟩

/-- The first process opens the root directory, duplicates the descriptor, forks, and exits. -/
def openForkExit : List Syscall := [.openat 0 [slash] 0, .dup 0 0, .fork 0 1, .exit 0]

/-- The references of the child after the run of `openForkExit` on the empty image. -/
theorem kernel_countsExact_child :
    ∃ s₀ s, (kernel sblock (· = Mkfs.emptyImage)).init s₀ ∧
      (kernel sblock (· = Mkfs.emptyImage)).run s₀ openForkExit = some s ∧ CountsExact s := by
  have hruns : ((after (boot sblock) (mount sblock Mkfs.emptyImage zeroMem)).bind fun s =>
      (kernel sblock (· = Mkfs.emptyImage)).run s openForkExit).isSome = true := by
    decide +kernel
  obtain ⟨s, hs⟩ := Option.isSome_iff_exists.mp hruns
  obtain ⟨s₀, hboot, hrun⟩ := Option.bind_eq_some_iff.mp hs
  obtain ⟨u, hboot⟩ := after_eq_some.mp hboot
  have hinit : (kernel sblock (· = Mkfs.emptyImage)).init s₀ := ⟨_, zeroMem, rfl, hboot⟩
  have hreach : (kernel sblock (· = Mkfs.emptyImage)).Reachable s :=
    Machine.ReachableUnder.run (.init hinit) (fun _ _ _ => trivial) hrun
  exact ⟨s₀, s, hinit, hrun, kernel_countsExact hreach⟩

end FtosFfs.Fs
