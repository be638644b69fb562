import FtosFfs.Fs.Agreeing
import FtosFfs.Fs.Calls
import FtosFfs.Fs.EmptyFiles

/-! Inodes in memory and on disk between system calls: which calls keep them in agreement, in every run of
any number of processes. -/

namespace FtosFfs.Fs

open Lib Lib.Exec Cache

variable {s s' t : State} {p cwd : Ptr} {n : Ptr → Nat} {L : Set Ptr} {f i child fd : Nat} {u : Unit}
  {path : List UInt8}

/-- All loaded inodes in memory have the entries that are on disk. -/
def Coherent (s : State) : Prop :=
  ∀ p ∈ s.list, (s.mem p).valid = true → (s.mem p).entry = diskEntry s.disk (s.mem p).inodeNo

instance (s : State) : Decidable (Coherent s) :=
  inferInstanceAs (Decidable (∀ p ∈ s.list, _ → _))

theorem Cached.coherent (h : Cached ∅ s) : Coherent s :=
  fun p hp hv => (h.inode p hp).clean hv (by simp)

/-- The call makes no directory in a parent that has room for the entry without growing. -/
def Syscall.GrowsParent (s : State) : Syscall → Prop
  | mkdirat i path mode => mode = 0 → ∀ cwd, (s.proc i).cwd = some cwd → MakesGrow s cwd (argstr path)
  | _ => True

/-- A change of files and processes. -/
theorem Cached.tables (h : Cached ∅ s) (F : Nat → File) (P : Nat → Proc) :
    Cached ∅ { s with file := F, proc := P } :=
  h.congr rfl rfl rfl rfl rfl

theorem Agreeing.tables {σ : State} (h : Agreeing σ n L s) (F : Nat → File) (P : Nat → Proc) :
    Agreeing { s with file := F, proc := P } n L { s with file := F, proc := P } :=
  ⟨h.refs.rebase _ rfl rfl rfl, h.cached.tables F P⟩

theorem Agreeing.modifyFile {σ : State} {g : File → File} (h : Agreeing σ n L s)
    (hr : Runs (modifyFile f g) s u s') : Agreeing s' n L s' := by
  obtain rfl := runs_modifyFile.mp hr
  exact h.tables _ s.proc

namespace Accounted

theorem agreeing (h : Accounted s) (hc : Cached ∅ s) : Agreeing s (holders s.file s.proc) ∅ s :=
  ⟨h.inodes.refs, hc⟩

/-! ### Open files -/

theorem cached_filewriteLoop {addr : Nat → UInt8} {count fuel k : Nat} (h : Accounted s) (hc : Cached ∅ s)
    (htype : (s.file f).type = .inode) (hr : Runs (Fs.filewriteLoop sblock f addr count fuel k) s u s') :
    Cached ∅ s' := by
  induction fuel generalizing s k with
  | zero =>
    obtain ⟨-, rfl⟩ := runs_pure.mp hr
    exact hc
  | succ fuel ih =>
    obtain ⟨-, hr⟩ | ⟨-, hr⟩ := runs_ite.mp hr
    · obtain ⟨r, t, hop, hr⟩ := runs_bind.mp hr
      obtain ⟨_, _, hcount, hr⟩ := runs_bind.mp hr
      obtain ⟨-, rfl⟩ := runs_require.mp hcount
      obtain ⟨_, t0, hbegin, hop⟩ := runs_bind.mp hop
      obtain ⟨_, t5, hx, hop⟩ := runs_bind.mp hop
      obtain ⟨_, t6, hend, hop⟩ := runs_bind.mp hop
      obtain ⟨rfl, rfl⟩ := runs_pure.mp hop
      obtain ⟨_, _, hget, hx⟩ := runs_bind.mp hx
      obtain ⟨rfl, rfl⟩ := runs_get.mp hget
      have hs := quiet_cacheBeginOp.same hbegin
      rw [hs.file] at hx
      obtain ⟨_, t2, hlock, hx⟩ := runs_bind.mp hx
      obtain ⟨_, t3, hwrite, hx⟩ := runs_bind.mp hx
      obtain ⟨_, t4, hmove, hx⟩ := runs_bind.mp hx
      obtain ⟨_, t5, hunlock, hx⟩ := runs_bind.mp hx
      obtain ⟨-, rfl⟩ := runs_pure.mp hx
      have hpos := h.inodes.file_pos htype
      obtain ⟨-, h1, -⟩ := ((h.agreeing hc).beginOp hbegin).1.lock hpos hlock
      have h2 := ((h1.write (by simp) hwrite).modifyFile hmove).unlock hpos (by simp) hunlock
      obtain ⟨h', htype'⟩ := h.moveOffset hs htype hlock (same_inodeWrite hwrite) hmove hunlock
        (quiet_cacheEndOp.same hend)
      exact ih h' (h2.1.endOp hend).1.cached htype' hr
    · obtain ⟨-, rfl⟩ := runs_pure.mp hr
      exact hc

end Accounted

theorem InodesOk.cached_fileclose (h : InodesOk s) (hc : Cached ∅ s)
    (hr : Runs (Fs.fileclose sblock f) s u s') :
    Cached ∅ s' := by
  obtain ⟨_, _, hget, hr⟩ := runs_bind.mp hr
  obtain ⟨rfl, rfl⟩ := runs_get.mp hget
  obtain ⟨_, _, hpos, hr⟩ := runs_bind.mp hr
  obtain ⟨-, rfl⟩ := runs_require.mp hpos
  obtain ⟨-, hr⟩ | ⟨-, hr⟩ := runs_ite.mp hr
  · obtain rfl := runs_modifyFile.mp hr
    exact hc.tables _ s.proc
  · obtain ⟨_, t, hfile, hr⟩ := runs_bind.mp hr
    obtain rfl := runs_modifyFile.mp hfile
    have hc1 := hc.tables (Function.update s.file f { s.file f with ref := 0, type := .none }) s.proc
    rcases runs_when.mp hr with ⟨htype, hr⟩ | ⟨-, rfl⟩
    · have hlist : (s.file f).ip ∈ s.list := h.refs.mem _ (h.file_pos htype)
      obtain ⟨_, t1, hbegin, hr⟩ := runs_bind.mp hr
      obtain ⟨_, t2, hput, hr⟩ := runs_bind.mp hr
      obtain ⟨_, t3, hend, hr⟩ := runs_bind.mp hr
      obtain ⟨-, rfl⟩ := runs_pure.mp hr
      obtain ⟨h1, h2, h3, h4, h5, -⟩ := runs_cacheBeginOp hbegin
      obtain ⟨k1, k2, k3, k4, k5, -⟩ := runs_cacheEndOp hend
      have hlist1 : (s.file f).ip ∈ t1.list := by
        rw [h3]
        exact hlist
      exact ((hc1.congr h1 h2 h3 h4 h5).inodePut hlist1 hput).1.congr k1 k2 k3 k4 k5
    · exact hc1

/-! ### The calls -/

namespace Accounted

theorem cached_sysWrite {addr : Nat → UInt8} {count : Nat} {r : Int} (h : Accounted s) (hc : Cached ∅ s)
    (hr : Runs (Fs.sysWrite sblock i fd addr count) s r s') : Cached ∅ s' := by
  obtain ⟨o, t, harg, hr⟩ := runs_bind.mp hr
  obtain ⟨rfl, -⟩ := argfd_spec harg
  cases o with
  | none =>
    obtain ⟨-, rfl⟩ := runs_pure.mp hr
    exact hc
  | some f =>
    obtain ⟨_, _, hget, hr⟩ := runs_bind.mp hr
    obtain ⟨rfl, rfl⟩ := runs_get.mp hget
    obtain ⟨-, hr⟩ | ⟨-, hr⟩ := runs_ite.mp hr
    · obtain ⟨_, _, hassert, hr⟩ := runs_bind.mp hr
      obtain ⟨htype, rfl⟩ := runs_require.mp hassert
      obtain ⟨_, t, hloop, hr⟩ := runs_bind.mp hr
      obtain ⟨-, rfl⟩ := runs_pure.mp hr
      exact h.cached_filewriteLoop hc htype hloop
    · obtain ⟨-, rfl⟩ := runs_pure.mp hr
      exact hc

theorem cached_sysRead {input : List UInt8} {memory : Nat → UInt8} {count : Nat} {r : Int}
    (h : Accounted s) (hc : Cached ∅ s) (hr : Runs (Fs.sysRead sblock i fd input memory count) s r s') :
    Cached ∅ s' := by
  obtain ⟨o, t, harg, hr⟩ := runs_bind.mp hr
  obtain ⟨rfl, -⟩ := argfd_spec harg
  cases o with
  | none =>
    obtain ⟨-, rfl⟩ := runs_pure.mp hr
    exact hc
  | some f =>
    obtain ⟨_, t, hread, hr⟩ := runs_bind.mp hr
    obtain ⟨-, rfl⟩ := runs_pure.mp hr
    obtain ⟨_, _, hget, hread⟩ := runs_bind.mp hread
    obtain ⟨rfl, rfl⟩ := runs_get.mp hget
    obtain ⟨-, hread⟩ | ⟨-, hread⟩ := runs_ite.mp hread
    · obtain ⟨_, _, hassert, hread⟩ := runs_bind.mp hread
      obtain ⟨htype, rfl⟩ := runs_require.mp hassert
      obtain ⟨_, t1, hlock, hread⟩ := runs_bind.mp hread
      obtain ⟨_, t2, hbytes, hread⟩ := runs_bind.mp hread
      obtain ⟨_, t3, hmove, hread⟩ := runs_bind.mp hread
      obtain ⟨_, t4, hunlock, hread⟩ := runs_bind.mp hread
      obtain ⟨-, rfl⟩ := runs_pure.mp hread
      have hpos := h.inodes.file_pos htype
      obtain ⟨-, h1, -⟩ := (h.agreeing hc).lock hpos hlock
      exact (((h1.readFrom (by simp) hbytes).modifyFile hmove).unlock hpos (by simp) hunlock).1.cached
    · obtain ⟨-, rfl⟩ := runs_pure.mp hread
      exact hc

theorem cached_sysUnlink {r : Int} (h : Accounted s) (hc : Cached ∅ s)
    (hr : Runs (Fs.sysUnlink sblock i path) s r s') : Cached ∅ s' := by
  obtain ⟨cwd, _, hget, hr⟩ := runs_bind.mp hr
  obtain ⟨hcwd, rfl⟩ := runs_getCwd.mp hget
  exact ((h.agreeing hc).inOp hr fun _ _ h0 _ _ hx => h0.unlink (h.inodes.cwd_pos hcwd) hx).cached

theorem cached_sysMkdirat {mode r : Int} (h : Accounted s) (hc : Cached ∅ s)
    (hgrows : mode = 0 → ∀ cwd, (s.proc i).cwd = some cwd → MakesGrow s cwd (argstr path))
    (hr : Runs (Fs.sysMkdirat sblock i path mode) s r s') : Cached ∅ s' := by
  obtain ⟨-, hr⟩ | ⟨hmode, hr⟩ := runs_ite.mp hr
  · obtain ⟨-, rfl⟩ := runs_pure.mp hr
    exact hc
  · obtain ⟨cwd, _, hget, hr⟩ := runs_bind.mp hr
    obtain ⟨hcwd, rfl⟩ := runs_getCwd.mp hget
    refine ((h.agreeing hc).inOp hr fun t _ h0 hdisk hmem hx =>
      h0.makeAt (h.inodes.cwd_pos hcwd) (fun _ => ?_) hx).cached
    have hmakes := hgrows (not_not.mp hmode) cwd hcwd
    unfold MakesGrow startNo at hmakes ⊢
    rw [hdisk, hmem]
    exact hmakes

theorem cached_sysMknodat {major minor : UInt16} {r : Int} (h : Accounted s) (hc : Cached ∅ s)
    (hr : Runs (Fs.sysMknodat sblock i path major minor) s r s') : Cached ∅ s' := by
  obtain ⟨cwd, _, hget, hr⟩ := runs_bind.mp hr
  obtain ⟨hcwd, rfl⟩ := runs_getCwd.mp hget
  exact ((h.agreeing hc).inOp hr fun _ _ h0 _ _ hx =>
    h0.makeAt (h.inodes.cwd_pos hcwd) (fun htype => absurd htype (by decide)) hx).cached

theorem cached_sysFstatat {flags r : Int} (h : Accounted s) (hc : Cached ∅ s)
    (hr : Runs (Fs.sysFstatat sblock i path flags) s r s') : Cached ∅ s' := by
  obtain ⟨-, hr⟩ | ⟨-, hr⟩ := runs_ite.mp hr
  · obtain ⟨-, rfl⟩ := runs_pure.mp hr
    exact hc
  · obtain ⟨cwd, _, hget, hr⟩ := runs_bind.mp hr
    obtain ⟨hcwd, rfl⟩ := runs_getCwd.mp hget
    obtain ⟨o, t, hop, hr⟩ := runs_bind.mp hr
    have h' := (h.agreeing hc).inOp hop fun _ _ h0 _ _ hx => h0.fstatat (h.inodes.cwd_pos hcwd) hx
    cases o with
    | none =>
      obtain ⟨-, rfl⟩ := runs_pure.mp hr
      exact h'.cached
    | some stat =>
      obtain ⟨-, rfl⟩ := runs_pure.mp hr
      exact h'.cached

theorem cached_sysExecve {env : ExecEnv} {r : Int} (h : Accounted s) (hc : Cached ∅ s)
    (hr : Runs (Fs.sysExecve sblock i path env) s r s') : Cached ∅ s' := by
  obtain ⟨-, hr⟩ | ⟨-, hr⟩ := runs_ite.mp hr
  · obtain ⟨cwd, _, hget, hr⟩ := runs_bind.mp hr
    obtain ⟨hcwd, rfl⟩ := runs_getCwd.mp hget
    obtain ⟨loaded, t, hop, hr⟩ := runs_bind.mp hr
    obtain ⟨-, rfl⟩ := runs_pure.mp hr
    exact ((h.agreeing hc).inOp hop fun _ _ h0 _ _ hx => h0.execProgram (h.inodes.cwd_pos hcwd) hx).cached
  · obtain ⟨-, rfl⟩ := runs_pure.mp hr
    exact hc

theorem cached_sysChdir {r : Int} (h : Accounted s) (hc : Cached ∅ s)
    (hr : Runs (Fs.sysChdir sblock i path) s r s') : Cached ∅ s' := by
  obtain ⟨cwd, _, hget, hr⟩ := runs_bind.mp hr
  obtain ⟨hcwd, rfl⟩ := runs_getCwd.mp hget
  obtain ⟨o, t, hop, hr⟩ := runs_bind.mp hr
  obtain ⟨m, hm⟩ := exists_bump (h.inodes.cwd_pos hcwd)
  have h0 := h.agreeing hc
  rw [hm] at h0
  have h1 := (h0.inOp hop fun _ _ h0 _ _ hx => h0.chdir hx).cached
  cases o with
  | none =>
    obtain ⟨-, rfl⟩ := runs_pure.mp hr
    exact h1
  | some ip =>
    obtain ⟨_, t2, hproc, hr⟩ := runs_bind.mp hr
    obtain ⟨-, rfl⟩ := runs_pure.mp hr
    obtain rfl := runs_modifyProc.mp hproc
    exact h1.tables t.file _

/-- `sys_openat` inside its operation. -/
theorem cached_openAt {omode : Nat} {r : Option (Ptr × Nat × Nat)} {σ : State} (h : Agreeing σ n ∅ s)
    (hfiles : FilesOk σ.file σ.proc) (hcwd : 0 < n cwd) (hr : Runs (Fs.openAt sblock i cwd path omode) s r s') :
    Cached ∅ s' := by
  obtain ⟨ro, t2, hinode, hr⟩ := runs_bind.mp hr
  have h0 := h.openInode hcwd hinode
  cases ro with
  | none =>
    obtain ⟨-, rfl⟩ := runs_pure.mp hr
    exact h0.cached
  | some ip =>
    obtain ⟨rf, t3, hfile, hr⟩ := runs_bind.mp hr
    rw [← h0.refs.file] at hfiles
    rcases openFile_spec hfiles hfile with ⟨rfl, rfl⟩ | ⟨f, fd, rfl, -, -, -, rfl⟩
    · obtain ⟨_, t3, hput, hr⟩ := runs_bind.mp hr
      obtain ⟨-, rfl⟩ := runs_pure.mp hr
      exact (h0.unlockPut (by simp) hput).cached
    · obtain ⟨_, t3, hunlock, hr⟩ := runs_bind.mp hr
      obtain ⟨-, rfl⟩ := runs_pure.mp hr
      exact ((h0.tables _ _).unlock bump_pos (by simp) hunlock).1.cached

theorem cached_sysOpenat {omode : Nat} {r : Int} (h : Accounted s) (hc : Cached ∅ s)
    (hr : Runs (Fs.sysOpenat sblock i path omode) s r s') : Cached ∅ s' := by
  obtain ⟨cwd, _, hget, hr⟩ := runs_bind.mp hr
  obtain ⟨hcwd, rfl⟩ := runs_getCwd.mp hget
  obtain ⟨o, t, hop, hr⟩ := runs_bind.mp hr
  have h1 : Cached ∅ t := by
    obtain ⟨_, t0, hbegin, hop⟩ := runs_bind.mp hop
    obtain ⟨_, t1, hx, hop⟩ := runs_bind.mp hop
    obtain ⟨_, t2, hend, hop⟩ := runs_bind.mp hop
    obtain ⟨-, rfl⟩ := runs_pure.mp hop
    obtain ⟨k1, k2, k3, k4, k5, -⟩ := runs_cacheEndOp hend
    have hopen := cached_openAt ((h.agreeing hc).beginOp hbegin).1 h.files (h.inodes.cwd_pos hcwd) hx
    exact hopen.congr k1 k2 k3 k4 k5
  cases o with
  | none =>
    obtain ⟨-, rfl⟩ := runs_pure.mp hr
    exact h1
  | some r =>
    obtain ⟨ip, f, fd⟩ := r
    obtain ⟨_, t4, hopen, hr⟩ := runs_bind.mp hr
    obtain ⟨-, rfl⟩ := runs_pure.mp hr
    obtain rfl := runs_modifyFile.mp hopen
    exact h1.tables _ t.proc

theorem cached_sysClose {r : Int} (h : Accounted s) (hc : Cached ∅ s)
    (hr : Runs (Fs.sysClose sblock i fd) s r s') : Cached ∅ s' := by
  obtain ⟨o, t, harg, hr⟩ := runs_bind.mp hr
  obtain ⟨rfl, -⟩ := argfd_spec harg
  cases o with
  | none =>
    obtain ⟨-, rfl⟩ := runs_pure.mp hr
    exact hc
  | some f =>
    obtain ⟨_, t, hproc, hr⟩ := runs_bind.mp hr
    obtain ⟨_, t1, hclose, hr⟩ := runs_bind.mp hr
    obtain ⟨-, rfl⟩ := runs_pure.mp hr
    obtain rfl := runs_modifyProc.mp hproc
    have hi : InodesOk { s with proc := setSlot s.proc i fd none } :=
      h.inodes.tables rfl rfl rfl rfl (cwdOf_setSlot none)
    exact hi.cached_fileclose (hc.tables s.file (setSlot s.proc i fd none)) hclose

theorem cached_sysDup {r : Int} (hc : Cached ∅ s) (hr : Runs (Fs.sysDup i fd) s r s') : Cached ∅ s' := by
  obtain ⟨o, t, harg, hr⟩ := runs_bind.mp hr
  obtain ⟨rfl, -⟩ := argfd_spec harg
  cases o with
  | none =>
    obtain ⟨-, rfl⟩ := runs_pure.mp hr
    exact hc
  | some f =>
    obtain ⟨o, t, hfd, hr⟩ := runs_bind.mp hr
    rcases fdalloc_spec hfd with ⟨rfl, rfl⟩ | ⟨fd', rfl, -, -, rfl⟩
    · obtain ⟨-, rfl⟩ := runs_pure.mp hr
      exact hc
    · obtain ⟨_, t, hdup, hr⟩ := runs_bind.mp hr
      obtain ⟨-, rfl⟩ := runs_pure.mp hr
      obtain rfl := filedup_spec hdup
      exact hc.tables _ _

theorem cached_exitFile (h : Accounted s) (hc : Cached ∅ s) (hr : Runs (Fs.exitFile sblock i fd) s u s') :
    Cached ∅ s' := by
  obtain ⟨_, _, hget, hr⟩ := runs_bind.mp hr
  obtain ⟨rfl, rfl⟩ := runs_get.mp hget
  split at hr
  case h_1 =>
    obtain ⟨-, rfl⟩ := runs_pure.mp hr
    exact hc
  case h_2 f hslot =>
    obtain ⟨_, t, hclose, hr⟩ := runs_bind.mp hr
    obtain rfl := runs_modifyProc.mp hr
    exact (h.inodes.cached_fileclose hc hclose).tables t.file _

theorem cached_sysExit {r : Int} (h : Accounted s) (hc : Cached ∅ s) (hr : Runs (Fs.sysExit sblock i) s r s') :
    Cached ∅ s' := by
  obtain ⟨_, t, hloop, hr⟩ := runs_bind.mp hr
  have hclosed := hloop.forM (I := fun _ t => Accounted t ∧ Cached ∅ t) ⟨h, hc⟩ fun fd _ t t' ht hround =>
    ⟨(ht.1.exitFile hround).1, ht.1.cached_exitFile ht.2 hround⟩
  obtain ⟨ht, hct⟩ := hclosed
  obtain ⟨cwd, _, hget, hr⟩ := runs_bind.mp hr
  obtain ⟨hcwd, rfl⟩ := runs_getCwd.mp hget
  obtain ⟨_, t1, hop, hr⟩ := runs_bind.mp hr
  obtain ⟨_, t2, hproc, hr⟩ := runs_bind.mp hr
  obtain ⟨-, rfl⟩ := runs_pure.mp hr
  obtain rfl := runs_modifyProc.mp hproc
  obtain ⟨m, hm⟩ := exists_bump (ht.inodes.cwd_pos hcwd)
  have h0 := ht.agreeing hct
  rw [hm] at h0
  exact (h0.inOp hop fun _ _ h1 _ _ hput => (h1.put (by simp) hput).1).cached.tables t1.file _

theorem cached_sysFork {r : Int} (h : Accounted s) (hc : Cached ∅ s) (hr : Runs (Fs.sysFork i child) s r s') :
    Cached ∅ s' := by
  obtain ⟨_, _, hget, hr⟩ := runs_bind.mp hr
  obtain ⟨rfl, rfl⟩ := runs_get.mp hget
  obtain ⟨_, _, hassert, hr⟩ := runs_bind.mp hr
  obtain ⟨-, rfl⟩ := runs_require.mp hassert
  obtain ⟨_, t, hloop, hr⟩ := runs_bind.mp hr
  have hforked := hloop.forM (I := fun _ t => Cached ∅ t ∧ t.list = s.list ∧ ∀ j,
    (t.proc j).cwd = (s.proc j).cwd)
    ⟨hc, rfl, fun _ => rfl⟩ ?_
  · obtain ⟨hct, hlist, hcwds⟩ := hforked
    obtain ⟨cwd, _, hget', hr⟩ := runs_bind.mp hr
    obtain ⟨hcwd, rfl⟩ := runs_getCwd.mp hget'
    obtain ⟨p, t1, hshare, hr⟩ := runs_bind.mp hr
    obtain ⟨_, t2, hproc, hr⟩ := runs_bind.mp hr
    obtain ⟨-, rfl⟩ := runs_pure.mp hr
    obtain rfl := runs_modifyProc.mp hproc
    have hmem : cwd ∈ t.list := by
      rw [hcwds] at hcwd
      rw [hlist]
      exact h.inodes.refs.mem cwd (h.inodes.cwd_pos hcwd)
    simp only [inodeShare, incrementRc, runs_bind, runs_modifyInode, runs_pure] at hshare
    obtain ⟨_, _, rfl, -, rfl⟩ := hshare
    exact (hct.incrementRc hmem).tables t.file _
  · rintro fd l t t' ⟨hct, hlist, hcwds⟩ hround
    obtain ⟨_, _, hget', hround⟩ := runs_bind.mp hround
    obtain ⟨rfl, rfl⟩ := runs_get.mp hget'
    split at hround
    case h_1 =>
      obtain ⟨-, rfl⟩ := runs_pure.mp hround
      exact ⟨hct, hlist, hcwds⟩
    case h_2 f hslot =>
      obtain ⟨_, t1, hdup, hround⟩ := runs_bind.mp hround
      obtain rfl := filedup_spec hdup
      obtain rfl := runs_modifyProc.mp hround
      exact ⟨hct.tables _ _, hlist, fun j => (cwd_setSlot (some f) j).trans (hcwds j)⟩

theorem cached_exec {call : Syscall} {r : Int} (h : Accounted s) (hc : Cached ∅ s) (hgrows : call.GrowsParent s)
    (hr : Runs (call.exec sblock) s r s') : Cached ∅ s' := by
  cases call with
  | openat => exact h.cached_sysOpenat hc hr
  | mkdirat => exact h.cached_sysMkdirat hc hgrows hr
  | mknodat => exact h.cached_sysMknodat hc hr
  | unlink => exact h.cached_sysUnlink hc hr
  | chdir => exact h.cached_sysChdir hc hr
  | write => exact h.cached_sysWrite hc hr
  | read => exact h.cached_sysRead hc hr
  | fstatat => exact h.cached_sysFstatat hc hr
  | execve => exact h.cached_sysExecve hc hr
  | close => exact h.cached_sysClose hc hr
  | dup => exact cached_sysDup hc hr
  | fork => exact h.cached_sysFork hc hr
  | exit => exact h.cached_sysExit hc hr

end Accounted

/-! ### Runs -/

theorem cached_boot {disk : Nat → BlockData} {mem : Ptr → Inode} (ho : BlocksOwned (diskEntry disk) disk)
    (hr : Runs (boot sblock) (mount sblock disk mem) u s) : Cached ∅ s := by
  obtain ⟨root, t, hroot, hrest⟩ := runs_bind.mp hr
  obtain ⟨c, t1, hop, hcwd⟩ := runs_bind.mp hrest
  have h0 : Agreeing _ _ ∅ (mount sblock disk mem) := ⟨refs_mount disk mem, cached_mount ho⟩
  have h1 := (h0.get hroot).1
  obtain ⟨_, t2, hbegin, hop⟩ := runs_bind.mp hop
  obtain ⟨_, t3, hx, hop⟩ := runs_bind.mp hop
  obtain ⟨_, t4, hend, hop⟩ := runs_bind.mp hop
  obtain ⟨rfl, rfl⟩ := runs_pure.mp hop
  obtain rfl := runs_modifyProc.mp hcwd
  exact (((h1.beginOp hbegin).1.namei bump_pos hx).endOp hend).1.cached.tables t4.file _

/-- Memory and disk agree in every state that the kernel reaches, unless some `sys_mkdirat` made a directory
in a parent with room for the entry: then the new link count of the parent is not on disk. -/
theorem kernel_coherent (hs : (kernel sblock Mkfs.Builds).ReachableUnder (fun s call => call.GrowsParent s) s) :
    Coherent s := by
  have h : Accounted s ∧ Cached ∅ s := by
    refine hs.invariant (I := fun s => Accounted s ∧ Cached ∅ s) ?_ ?_
    · rintro s ⟨disk, mem, himage, hr⟩
      exact ⟨accounted_boot hr, cached_boot (Mkfs.Builds.owned himage) hr⟩
    · intro s call s' h hgrows hn
      obtain ⟨r, hr⟩ := after_eq_some.mp hn
      exact ⟨h.1.exec hr, h.1.cached_exec h.2 hgrows hr⟩
  exact h.2.coherent

/-- `init_filesystem` counts the blocks that `mkfs` used. -/
theorem countUsed_main {inputs : List Mkfs.Input} {img : Mkfs.Image} {g : Nat}
    (hr : Runs (Mkfs.main inputs) Mkfs.blank u img) (hg : g < ngroups) (hused : img.usedBlock g ≤ 996) :
    (countUsed sblock img.disk g).toNat = img.usedBlock g := by
  simp only [Mkfs.main, runs_bind, runs_require] at hr
  obtain ⟨_, _, -, _, _, -, _, _, -, _, _, -, _, _, -, _, t, -, hballoc⟩ := hr
  have hkept : img.usedBlock = t.usedBlock := (Mkfs.ballocGroups_spec hballoc).1
  rw [hkept] at hused ⊢
  have hbits : usedBits img.disk g = Finset.Ico 4 (4 + t.usedBlock g) := by
    ext j
    rw [mem_usedBits, Finset.mem_Ico, Mkfs.ballocg_spec hballoc]
    have hg' : g < 10 := hg
    constructor
    · rintro ⟨⟨hmeta, hsize⟩, hbit⟩
      have hgroup : (65 + g * 1000 + j - 65) / 1000 = g := by omega
      rw [Mkfs.blockBit_finished (inGroups_iff.mpr (by omega)) (by rwa [hgroup]), hgroup,
        decide_eq_true_eq] at hbit
      omega
    · rintro ⟨hmeta, hlt⟩
      have hgroup : (65 + g * 1000 + j - 65) / 1000 = g := by omega
      refine ⟨by omega, ?_⟩
      rw [Mkfs.blockBit_finished (inGroups_iff.mpr (by omega)) (by rwa [hgroup]), hgroup,
        decide_eq_true_eq]
      omega
  rw [usedExact_countUsed img.disk g hg, hbits, Nat.card_Ico]
  omega

/-- The disk of an image of empty files, mounted.  The counts of the groups are known, so that to run the
kernel on it does not read the bitmaps. -/
theorem mount_emptyFiles (inputs : List Mkfs.Input) (hempty : ∀ input ∈ inputs, input.reads = [])
    (hlen : inputs.length < 30) : Mkfs.Builds (Mkfs.emptyFiles inputs) ∧
      mount sblock (Mkfs.emptyFiles inputs) zeroMem =
        { mount sblock (Mkfs.emptyFiles inputs) zeroMem with usedBlock := fun g =>
          if g = 0 then 1 else 0 } := by
  obtain ⟨img, hr, hdisk, hused⟩ := Mkfs.main_emptyFiles hempty hlen
  have hcount : countUsed sblock (Mkfs.emptyFiles inputs) = fun g => if g = 0 then 1 else 0 := by
    funext g
    have hg1 : Mkfs.oneUsed g ≤ 996 := by
      unfold Mkfs.oneUsed
      split <;> decide
    by_cases hg : g < ngroups
    · apply UInt32.toNat_inj.mp
      rw [← hdisk, countUsed_main hr hg (by rw [hused]; exact hg1), hused, Mkfs.oneUsed]
      split <;> rfl
    · have hzero : g ≠ 0 := by
        rintro rfl
        exact hg (by decide)
      rw [countUsed, if_neg hg, if_neg hzero]
  refine ⟨⟨inputs, img, hr, hdisk.symm⟩, ?_⟩
  rw [← hcount]
  rfl

/-- A directory of whole entries, none of them free. -/
def FullDir (d : Nat → BlockData) (m : Nat) : Prop :=
  (diskEntry d m).numBytes.toNat % 16 = 0 ∧
    ∀ i < (diskEntry d m).numBytes.toNat / 16, (dirEntry (fileByte (diskEntry d) d m) i).inodeNo ≠ 0

instance (d : Nat → BlockData) (m : Nat) : Decidable (FullDir d m) :=
  inferInstanceAs (Decidable (_ ∧ _))

/-- A call that makes a directory makes it where its path starts, and this directory is full. -/
def Syscall.growsStart (s : State) : Syscall → Bool
  | mkdirat i path _ => (s.proc i).cwd.all fun cwd =>
      (skipelem (argstr path)).all (fun step => step.1 = []) && decide
        (FullDir s.disk (startNo s cwd (argstr path)))
  | _ => true

theorem Syscall.growsParent_of_start {call : Syscall} (h : call.growsStart s = true) : call.GrowsParent s := by
  cases call with
  | mkdirat i path mode =>
    intro _ cwd hcwd m name hwalk _
    simp only [growsStart] at h
    rw [hcwd, Option.all_some, Bool.and_eq_true] at h
    obtain ⟨hone, hfull⟩ := h
    obtain ⟨hwhole, hused⟩ := of_decide_eq_true hfull
    cases hwalk with
    | done hpath hmode => cases hmode
    | stop => exact (insertGrows_iff (Nat.mul_div_cancel' (Nat.dvd_of_mod_eq_zero hwhole)).symm).mpr hused
    | next hpath hdir hstop hfound hrest =>
      rw [hpath] at hone
      exact absurd (.inl ⟨rfl, of_decide_eq_true hone⟩) hstop
  | _ => exact trivial

/-- Files A, B, ... without bytes, so many that one entry of the root is left. -/
def manyFiles : List Mkfs.Input := (List.range 29).map fun i => ⟨[UInt8.ofNat (65 + i)], []⟩

/-- A process creates and writes a file, whose entry is the last in the block of the root, and then makes a
directory and changes to it. -/
def creatWriteMkdir : List Syscall :=
  [.openat 0 [slash, 102] (oCreat ||| oRdwr), .write 0 0 (fun _ => 7) 600, .close 0 0,
    .mkdirat 0 [slash, 100] 0,
    .chdir 0 [slash, 100]]

/-- The root grows by the entry of the new directory. -/
theorem kernel_coherent_grows : ∃ s₀ s, (kernel sblock Mkfs.Builds).init s₀ ∧
    (diskEntry s₀.disk 1).numBytes = 512 ∧ (kernel sblock Mkfs.Builds).run s₀ creatWriteMkdir = some s ∧
    (diskEntry s.disk 1).numBytes = 528 ∧ Coherent s := by
  obtain ⟨hbuilds, hmount⟩ := mount_emptyFiles manyFiles (by simp [manyFiles]) (by decide)
  have hruns : ((after (boot sblock) (mount sblock (Mkfs.emptyFiles manyFiles) zeroMem)).bind fun s =>
      if (diskEntry s.disk 1).numBytes = 512 then
        (kernel sblock Mkfs.Builds).runUnder (fun s call => call.growsStart s = true) s creatWriteMkdir
      else none).any (fun s => (diskEntry s.disk 1).numBytes = 528) = true := by
    rw [hmount]
    decide +kernel
  obtain ⟨s, hs, hsize⟩ := (Option.any_eq_true _ _).mp hruns
  obtain ⟨s₀, hboot, hrun⟩ := Option.bind_eq_some_iff.mp hs
  obtain ⟨hsize₀, hrun⟩ := Option.ite_none_right_eq_some.mp hrun
  obtain ⟨u, hboot⟩ := after_eq_some.mp hboot
  have hinit : (kernel sblock Mkfs.Builds).init s₀ := ⟨_, zeroMem, hbuilds, hboot⟩
  have hreach := (Machine.ReachableUnder.runUnder (.init hinit) hrun).mono fun _ _ =>
    Syscall.growsParent_of_start
  exact ⟨s₀, s, hinit, hsize₀, Machine.run_of_runUnder hrun, of_decide_eq_true hsize, kernel_coherent hreach⟩

/-- The root has room for its first directory, so the link of its `..` is counted in memory only. -/
theorem kernel_incoherent_mkdirat :
    ∃ s₀ s, (kernel sblock Mkfs.Builds).init s₀ ∧
      (kernel sblock Mkfs.Builds).run s₀ [.mkdirat 0 [slash, 100] 0] = some s ∧ ¬Coherent s := by
  obtain ⟨hbuilds, hmount⟩ := mount_emptyFiles [] (by simp) (by decide)
  have hruns : (((after (boot sblock) (mount sblock (Mkfs.emptyFiles []) zeroMem)).bind fun s =>
      (kernel sblock Mkfs.Builds).run s [.mkdirat 0 [slash, 100] 0]).any fun s =>
        !decide (Coherent s)) = true := by
    rw [hmount]
    decide +kernel
  obtain ⟨s, hs, hnot⟩ := (Option.any_eq_true _ _).mp hruns
  obtain ⟨s₀, hboot, hrun⟩ := Option.bind_eq_some_iff.mp hs
  obtain ⟨u, hboot⟩ := after_eq_some.mp hboot
  exact ⟨s₀, s, ⟨_, zeroMem, hbuilds, hboot⟩, hrun, by simpa using hnot⟩

end FtosFfs.Fs
