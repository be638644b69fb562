import FtosFfs.Fs.Put
import FtosFfs.Fs.Syscall

/-! References to in-memory inodes and their locks: which calls leave them alone, and what
`inode_get`, `inode_share`, `inode_lock`, `inode_unlock`, `inode_put`, and `namex` do to them,
whatever the disk holds. -/

namespace FtosFfs.Fs

open Lib Lib.Exec Cache

variable {s s' t σ : State} {ctx : Bool} {p q : Ptr} {u : Unit}

/-- The same references, locks, open files, and processes; blocks, the log, and entries in memory may
differ. -/
structure SameRefs (s s' : State) : Prop where
  list : s'.list = s.list
  fresh : s'.fresh = s.fresh
  rc : ∀ p, (s'.mem p).rc = (s.mem p).rc
  inodeNo : ∀ p, (s'.mem p).inodeNo = (s.mem p).inodeNo
  locked : ∀ p, (s'.mem p).locked = (s.mem p).locked
  file : s'.file = s.file
  proc : s'.proc = s.proc

theorem SameRefs.refl (s : State) : SameRefs s s :=
  ⟨rfl, rfl, fun _ => rfl, fun _ => rfl, fun _ => rfl, rfl, rfl⟩

theorem SameRefs.trans (h : SameRefs s s') (h' : SameRefs s' t) : SameRefs s t :=
  ⟨h'.list.trans h.list, h'.fresh.trans h.fresh, fun p => (h'.rc p).trans (h.rc p),
    fun p => (h'.inodeNo p).trans (h.inodeNo p), fun p => (h'.locked p).trans (h.locked p),
    h'.file.trans h.file, h'.proc.trans h.proc⟩

/-- A change that leaves memory, files, and processes alone. -/
theorem SameRefs.of_eq (hlist : s'.list = s.list) (hfresh : s'.fresh = s.fresh)
    (hmem : s'.mem = s.mem) (hfile : s'.file = s.file) (hproc : s'.proc = s.proc) :
    SameRefs s s' := by
  refine ⟨hlist, hfresh, ?_, ?_, ?_, hfile, hproc⟩ <;> intro p <;> rw [hmem]

/-- A change of one object that leaves its number, its references, and its lock alone. -/
theorem SameRefs.setInode {ip : Inode} (hrc : ip.rc = (s.mem p).rc)
    (hno : ip.inodeNo = (s.mem p).inodeNo) (hk : ip.locked = (s.mem p).locked) :
    SameRefs s (s.setInode p ip) := by
  have hmem (q : Ptr) : (s.setInode p ip).mem q = if q = p then ip else s.mem q :=
    Function.update_apply ..
  refine ⟨rfl, rfl, ?_, ?_, ?_, rfl, rfl⟩ <;>
  · intro q
    rw [hmem]
    split
    case isTrue hq =>
      rw [hq]
      assumption
    case isFalse => rfl

/-! ### Calls that leave the references alone -/

section Quiet

variable {α : Type} {sb : SuperBlock}

/-- The computation leaves the references alone. -/
def Quiet (x : M α) : Prop := ∀ σ, Stays (SameRefs σ) x

theorem Quiet.same {x : M α} {a : α} (h : Quiet x) (hr : Runs x s a s') : SameRefs s s' :=
  h s s a s' hr (.refl s)

theorem Quiet.modify {f : State → State} (hf : ∀ s, SameRefs s (f s)) :
    Quiet (modify f : M PUnit) :=
  fun _ => .modify fun s hs => hs.trans (hf s)

theorem quiet_pure (a : α) : Quiet (pure a : M α) := fun _ => .pure a

theorem quiet_throw (e : Fault) : Quiet (throw e : M α) := fun _ => .throw e

theorem quiet_assert (c : Prop) [Decidable c] : Quiet (assert c) := fun _ => .require _ c

theorem Quiet.bind {β : Type} {x : M α} {f : α → M β} (hx : Quiet x) (hf : ∀ a, Quiet (f a)) :
    Quiet (x >>= f) :=
  fun σ => (hx σ).bind fun a => hf a σ

theorem Quiet.get_bind {f : State → M α} (hf : ∀ s, Quiet (f s)) : Quiet (get >>= f) :=
  fun σ => Stays.get.bind fun s => hf s σ

theorem Quiet.ite {c : Prop} [Decidable c] {x y : M α} (hx : Quiet x) (hy : Quiet y) :
    Quiet (if c then x else y) :=
  fun σ => .ite (hx σ) (hy σ)

theorem Quiet.when {c : Prop} [Decidable c] {x : M Unit} (hx : Quiet x) : Quiet (Exec.when c x) :=
  fun σ => .when (hx σ)

theorem Quiet.search {β : Type} {f : β → M (Option α)} (hf : ∀ b, Quiet (f b)) (l : List β) :
    Quiet (Exec.search f l) :=
  fun σ => .search (fun b => hf b σ) l

theorem Quiet.forM {β : Type} {f : β → M PUnit} (hf : ∀ b, Quiet (f b)) (l : List β) :
    Quiet (l.forM f) :=
  fun σ => .forM (fun b => hf b σ) l

/-- A store of a state that differs from the one before in blocks and the log only. -/
theorem Quiet.get_set {f : State → M α} (hf : ∀ s a s', Runs (f s) s a s' → SameRefs s s') :
    Quiet (get >>= f) := by
  intro σ s a s' hr hs
  obtain ⟨_, _, hget, hr⟩ := runs_bind.mp hr
  obtain ⟨rfl, rfl⟩ := runs_get.mp hget
  exact hs.trans (hf s a s' hr)

theorem quiet_cacheAcquire (b : Nat) : Quiet (cacheAcquire b) := by
  refine .get_set fun s a s' hr => ?_
  split at hr
  case isTrue => exact absurd hr runs_throw
  case isFalse =>
    obtain ⟨_, t, hset, hr⟩ := runs_bind.mp hr
    obtain rfl := runs_set.mp hset
    obtain ⟨-, rfl⟩ := runs_pure.mp hr
    exact .of_eq rfl rfl rfl rfl rfl

theorem quiet_cacheRelease (b : Nat) : Quiet (cacheRelease b) :=
  .modify fun _ => .of_eq rfl rfl rfl rfl rfl

theorem quiet_cacheSync (b : Nat) : Quiet (cacheSync ctx b) := by
  refine .get_set fun s a s' hr => ?_
  split at hr
  case isTrue =>
    split at hr
    case h_1 =>
      obtain rfl := runs_set.mp hr
      exact .of_eq rfl rfl rfl rfl rfl
    case h_2 => exact absurd hr runs_throw
  case isFalse =>
    obtain ⟨-, rfl⟩ := runs_pure.mp hr
    exact .refl s

theorem quiet_writeBack (b : Nat) (d : BlockData) : Quiet (writeBack ctx b d) := by
  refine .bind (.modify fun _ => .of_eq rfl rfl rfl rfl rfl) fun _ => ?_
  exact (quiet_cacheSync b).bind fun _ => quiet_cacheRelease b

theorem quiet_cacheBeginOp : Quiet cacheBeginOp := by
  refine .get_set fun s a s' hr => ?_
  split at hr
  case isTrue => exact absurd hr runs_throw
  case isFalse =>
    obtain rfl := runs_set.mp hr
    exact .of_eq rfl rfl rfl rfl rfl

theorem quiet_cacheEndOp : Quiet cacheEndOp := by
  refine .get_set fun s a s' hr => ?_
  split at hr
  case h_1 => exact absurd hr runs_throw
  case h_2 =>
    dsimp only at hr
    split at hr
    case isTrue =>
      split at hr
      case isTrue => exact absurd hr runs_throw
      case isFalse =>
        obtain rfl := runs_set.mp hr
        exact .of_eq rfl rfl rfl rfl rfl
    case isFalse =>
      split at hr
      case isTrue => exact absurd hr runs_throw
      case isFalse =>
        obtain rfl := runs_set.mp hr
        exact .of_eq rfl rfl rfl rfl rfl

/-! #### Allocation -/

theorem quiet_allocIn (h i bound : Nat) : Quiet (allocIn sb ctx h i bound) := by
  refine (quiet_cacheAcquire _).bind fun bitmap => ?_
  split
  case h_1 =>
    refine (quiet_writeBack _ _).bind fun _ => (quiet_cacheAcquire _).bind fun _ => ?_
    refine (quiet_writeBack _ _).bind fun _ => .bind (.modify fun _ => ?_) fun _ => quiet_pure _
    exact .of_eq rfl rfl rfl rfl rfl
  case h_2 => exact (quiet_cacheRelease _).bind fun _ => quiet_pure _

theorem quiet_cacheAlloc : Quiet (cacheAlloc sb ctx) := by
  refine (Quiet.search (fun h => .search (fun i => quiet_allocIn h i _) _) _).bind fun found => ?_
  cases found with
  | none => exact quiet_throw _
  | some b => exact quiet_pure b

theorem quiet_cacheAllocg (gno : Nat) : Quiet (cacheAllocg sb ctx gno) := by
  refine (quiet_assert _).bind fun _ => (Quiet.search (fun i => ?_) _).bind fun _ => quiet_pure _
  exact quiet_allocIn gno i _

theorem quiet_cacheFree (b : Nat) : Quiet (cacheFree sb ctx b) := by
  refine (quiet_cacheAcquire _).bind fun _ => (quiet_assert _).bind fun _ => ?_
  refine .bind (.modify fun _ => ?_) fun _ => quiet_writeBack _ _
  exact .of_eq rfl rfl rfl rfl rfl

theorem quiet_claimInode (type : UInt16) (ino : Nat) : Quiet (claimInode sb ctx type ino) := by
  refine (quiet_cacheAcquire _).bind fun _ => .ite ?_ ?_
  · exact (quiet_writeBack _ _).bind fun _ => quiet_pure _
  · exact (quiet_cacheRelease _).bind fun _ => quiet_pure _

theorem quiet_inodeAlloc (type : UInt16) : Quiet (inodeAlloc sb ctx type) :=
  (quiet_assert _).bind fun _ => (Quiet.search (quiet_claimInode type) _).bind fun _ => quiet_pure _

theorem quiet_claimFrom (type : UInt16) (gno : Nat) : Quiet (claimFrom sb ctx type gno) := by
  refine (Quiet.search (fun g => .search (fun ino => ?_) _) _).bind fun _ => quiet_pure _
  exact (quiet_assert _).bind fun _ => quiet_claimInode type _

theorem quiet_inodeAllocGroup (type : UInt16) (gno : Nat) :
    Quiet (inodeAllocGroup sb ctx type gno) := by
  unfold inodeAllocGroup
  refine (quiet_assert _).bind fun _ => .ite (.get_bind fun s => ?_) (quiet_claimFrom type gno)
  generalize emptiestGroup s.usedBlock gno = group
  obtain ⟨i, used, gno⟩ := group
  exact .ite (quiet_pure 0) (quiet_claimFrom type gno)

theorem quiet_createNo {dp : Ptr} (type : UInt16) : Quiet (createNo sb dp type) :=
  .get_bind fun _ => (quiet_inodeAllocGroup type _).bind fun _ => .ite (quiet_inodeAlloc type) (quiet_pure _)

/-! #### Entries and blocks of an inode -/

theorem quiet_modifyEntry (f : InodeEntry → InodeEntry) : Quiet (modifyEntry p f) :=
  .modify fun _ => .setInode rfl rfl rfl

theorem quiet_inodeSync (doWrite : Bool) : Quiet (inodeSync sb ctx p doWrite) := by
  refine .get_bind fun s => (quiet_cacheAcquire _).bind fun block => ?_
  refine .ite (quiet_writeBack _ _) (.ite ?_ (quiet_cacheRelease _))
  exact .bind (.modify fun _ => .setInode rfl rfl rfl) fun _ => quiet_cacheRelease _

theorem quiet_freeAddr (addr : UInt32) : Quiet (freeAddr sb ctx addr) := .when (quiet_cacheFree _)

theorem quiet_clearTable (iaddr : Nat) : Quiet (clearTable sb ctx p iaddr) := by
  refine (quiet_cacheAcquire _).bind fun _ => ?_
  refine (Quiet.forM (fun i => quiet_freeAddr _) _).bind fun _ => ?_
  exact (quiet_cacheRelease _).bind fun _ => (quiet_cacheFree _).bind fun _ => quiet_modifyEntry _

theorem quiet_inodeClear : Quiet (inodeClear sb ctx p) := by
  refine .get_bind fun s => (Quiet.forM (fun i => quiet_freeAddr _) _).bind fun _ => ?_
  refine (quiet_modifyEntry _).bind fun _ => (quiet_clearTable _).when.bind fun _ => ?_
  exact (quiet_modifyEntry _).bind fun _ => quiet_inodeSync true

theorem quiet_allocNear (gno : Nat) : Quiet (allocNear sb ctx gno) :=
  (quiet_cacheAllocg gno).bind fun _ => .ite quiet_cacheAlloc (quiet_pure _)

theorem quiet_mapDirect (index : Nat) : Quiet (mapDirect sb ctx p index) := by
  refine .get_bind fun s => .ite ((quiet_allocNear _).bind fun _ => ?_) (quiet_pure _)
  exact (quiet_modifyEntry _).bind fun _ => quiet_pure _

theorem quiet_mapTable : Quiet (mapTable sb ctx p) := by
  refine .get_bind fun s => .ite ((quiet_allocNear _).bind fun _ => ?_) (quiet_pure _)
  exact (quiet_modifyEntry _).bind fun _ => quiet_pure _

theorem quiet_mapSlot (iaddr index : Nat) (modified : Bool) :
    Quiet (mapSlot sb ctx iaddr index modified) := by
  refine (quiet_cacheAcquire _).bind fun block => .ite (.get_bind fun s => ?_) ?_
  · split
    case h_1 => exact quiet_throw _
    case h_2 =>
      exact (quiet_cacheAllocg _).bind fun _ => (quiet_writeBack _ _).bind fun _ => quiet_pure _
  · exact (quiet_cacheRelease _).bind fun _ => quiet_pure _

theorem quiet_inodeMap (offset : Nat) : Quiet (inodeMap sb ctx p offset) := by
  refine .ite (quiet_mapDirect _) ((quiet_assert _).bind fun _ => quiet_mapTable.bind fun m => ?_)
  exact .get_bind fun s => quiet_mapSlot _ _ m

/-! #### Reads, writes, and directories -/

theorem quiet_readLoop (offset stop fuel start : Nat) (dest : Nat → UInt8) :
    Quiet (readLoop sb p offset stop fuel start dest) := by
  induction fuel generalizing start dest with
  | zero => exact quiet_pure dest
  | succ fuel ih =>
    refine .ite ((quiet_inodeMap start).bind fun b => ?_) (quiet_pure dest)
    refine (quiet_assert _).bind fun _ => (quiet_cacheAcquire _).bind fun _ => ?_
    exact (quiet_cacheRelease _).bind fun _ => ih _ _

theorem quiet_inodeRead (dest : Nat → UInt8) (offset count : Nat) :
    Quiet (inodeRead sb p dest offset count) := by
  refine .get_bind fun s => .ite ((quiet_assert _).bind fun _ => quiet_throw _) ?_
  exact (quiet_assert _).bind fun _ => (quiet_readLoop _ _ _ _ _).bind fun _ => quiet_pure _

theorem quiet_writeLoop (src : Nat → UInt8) (offset stop fuel start : Nat) (modified : Bool) :
    Quiet (writeLoop sb ctx p src offset stop fuel start modified) := by
  induction fuel generalizing start modified with
  | zero => exact quiet_pure modified
  | succ fuel ih =>
    refine .ite ((quiet_inodeMap start).bind fun b => ?_) (quiet_pure modified)
    refine (quiet_cacheAcquire _).bind fun _ => (quiet_writeBack _ _).bind fun _ => ih _ _

theorem quiet_scan (whole : Bool) (hit : DirEntry → Bool) (n offset : Nat) (dentry : DirEntry) :
    Quiet (scan sb p whole hit n offset dentry) := by
  induction n generalizing offset dentry with
  | zero => exact quiet_pure none
  | succ n ih =>
    refine (quiet_inodeRead _ _ _).bind fun r => (quiet_assert _).bind fun _ => ?_
    exact .ite (quiet_pure _) (ih _ _)

theorem quiet_inodeLookup (name : List UInt8) : Quiet (inodeLookup sb p name) :=
  .get_bind fun _ => (quiet_assert _).bind fun _ => (quiet_scan _ _ _ _ _).bind fun _ =>
    quiet_pure _

theorem quiet_inodeEmpty : Quiet (inodeEmpty sb p) :=
  .get_bind fun _ => (quiet_assert _).bind fun _ => (quiet_scan _ _ _ _ _).bind fun _ =>
    quiet_pure _

end Quiet

/-! ### Calls that release a lock and take it again, or take one and release it -/

/-- A change of one object before and another one after. -/
theorem SameRefs.around {ip jp : Inode} (h : SameRefs (s.setInode p ip) t)
    (hrc : ip.rc = (s.mem p).rc) (hno : ip.inodeNo = (s.mem p).inodeNo) (hrc' : jp.rc = (t.mem p).rc)
    (hno' : jp.inodeNo = (t.mem p).inodeNo) (hk : jp.locked = (s.mem p).locked) :
    SameRefs s (t.setInode p jp) := by
  have hold (q : Ptr) : (s.setInode p ip).mem q = if q = p then ip else s.mem q :=
    Function.update_apply ..
  have hnew (q : Ptr) : (t.setInode p jp).mem q = if q = p then jp else t.mem q :=
    Function.update_apply ..
  refine ⟨h.list, h.fresh, fun q => ?_, fun q => ?_, fun q => ?_, h.file, h.proc⟩
  · have hq := h.rc q
    rw [hold] at hq
    rw [hnew]
    split at hq
    case isTrue hqp =>
      subst hqp
      rw [if_pos rfl, hrc', hq, hrc]
    case isFalse hqp => rw [if_neg hqp, hq]
  · have hq := h.inodeNo q
    rw [hold] at hq
    rw [hnew]
    split at hq
    case isTrue hqp =>
      subst hqp
      rw [if_pos rfl, hno', hq, hno]
    case isFalse hqp => rw [if_neg hqp, hq]
  · have hq := h.locked q
    rw [hold] at hq
    rw [hnew]
    split at hq
    case isTrue hqp =>
      subst hqp
      rw [if_pos rfl, hk]
    case isFalse hqp => rw [if_neg hqp, hq]

/-- The lock of an inode is released and taken again. -/
theorem same_relock (hr : Runs (inodeUnlock p) s u t) (hr' : Runs (inodeLock sblock p) t u s') :
    SameRefs s s' := by
  obtain ⟨hk, -, rfl⟩ := runs_inodeUnlock.mp hr
  obtain ⟨-, -, -, -, rfl⟩ := runs_inodeLock.mp hr'
  exact (SameRefs.refl _).around rfl rfl rfl rfl hk.symm

theorem same_freeInode (hr : Runs (freeInode sblock ctx p) s u s') : SameRefs s s' := by
  obtain ⟨_, _, hlock, hrest⟩ := runs_bind.mp hr
  obtain ⟨-, hk, -, -, rfl⟩ := runs_inodeLock.mp hlock
  obtain ⟨_, t, hclear, hrest⟩ := runs_bind.mp hrest
  obtain ⟨_, t', hentry, hrest⟩ := runs_bind.mp hrest
  obtain ⟨_, t'', hsync, hunlock⟩ := runs_bind.mp hrest
  obtain ⟨-, -, rfl⟩ := runs_inodeUnlock.mp hunlock
  have hquiet := (quiet_inodeClear.same hclear).trans
    (((quiet_modifyEntry _).same hentry).trans ((quiet_inodeSync true).same hsync))
  exact hquiet.around rfl rfl rfl rfl hk.symm

theorem same_inodeWrite {src : Nat → UInt8} {off count r : Nat}
    (hr : Runs (inodeWrite sblock ctx p src off count) s r s') : SameRefs s s' := by
  unfold inodeWrite at hr
  obtain ⟨_, _, hget, hr⟩ := runs_bind.mp hr
  obtain ⟨rfl, rfl⟩ := runs_get.mp hget
  dsimp only at hr
  split at hr
  case isTrue =>
    obtain ⟨_, _, hmajor, hr⟩ := runs_bind.mp hr
    obtain ⟨-, rfl⟩ := runs_require.mp hmajor
    obtain ⟨_, t, hunlock, hr⟩ := runs_bind.mp hr
    obtain ⟨_, t', hlock, hr⟩ := runs_bind.mp hr
    obtain ⟨-, rfl⟩ := runs_pure.mp hr
    exact same_relock hunlock hlock
  case isFalse =>
    refine Quiet.same ?_ hr
    refine (quiet_assert _).bind fun _ => (quiet_assert _).bind fun _ => ?_
    refine (quiet_writeLoop _ _ _ _ _ _).bind fun _ => (quiet_modifyEntry _).when.bind fun _ => ?_
    exact (quiet_inodeSync true).when.bind fun _ => quiet_pure _

theorem same_inodeInsert {name : List UInt8} {n r : Nat}
    (hr : Runs (inodeInsert sblock ctx p name n) s r s') : SameRefs s s' := by
  unfold inodeInsert at hr
  obtain ⟨_, _, hget, hr⟩ := runs_bind.mp hr
  obtain ⟨rfl, rfl⟩ := runs_get.mp hget
  obtain ⟨_, _, htype, hr⟩ := runs_bind.mp hr
  obtain ⟨-, rfl⟩ := runs_require.mp htype
  obtain ⟨found, t, hscan, hr⟩ := runs_bind.mp hr
  obtain ⟨_, t', hwrite, hr⟩ := runs_bind.mp hr
  obtain ⟨-, rfl⟩ := runs_pure.mp hr
  exact ((quiet_scan _ _ _ _ _).same hscan).trans (same_inodeWrite hwrite)

theorem same_inodeReadFrom {input : List UInt8} {dest : Nat → UInt8} {off count : Nat}
    {r : Int × (Nat → UInt8)} (hr : Runs (inodeReadFrom sblock p input dest off count) s r s') :
    SameRefs s s' := by
  unfold inodeReadFrom at hr
  obtain ⟨_, _, hget, hr⟩ := runs_bind.mp hr
  obtain ⟨rfl, rfl⟩ := runs_get.mp hget
  dsimp only at hr
  split at hr
  case isTrue =>
    obtain ⟨_, _, hmajor, hr⟩ := runs_bind.mp hr
    obtain ⟨-, rfl⟩ := runs_require.mp hmajor
    unfold consoleRead at hr
    obtain ⟨_, t, hunlock, hr⟩ := runs_bind.mp hr
    obtain ⟨_, t', hlock, hr⟩ := runs_bind.mp hr
    refine (same_relock hunlock hlock).trans (Quiet.same ?_ hr)
    split
    case h_1 => exact quiet_pure _
    case h_2 => exact quiet_pure _
  case isFalse => exact Quiet.same ((quiet_inodeRead _ _ _).bind fun _ => quiet_pure _) hr

theorem same_loadProgram {env : ExecEnv} {n i off : Nat} {ph : Nat → UInt8} {first r : Bool}
    (hr : Runs (loadProgram sblock env p n i off ph first) s r s') : SameRefs s s' := by
  induction n generalizing i off ph first s with
  | zero =>
    obtain ⟨-, rfl⟩ := runs_pure.mp hr
    exact .refl s
  | succ n ih =>
    unfold loadProgram at hr
    obtain ⟨⟨_, ph⟩, t, hread, hr⟩ := runs_bind.mp hr
    refine (same_inodeReadFrom hread).trans ?_
    have hbad {t' : State} (h : Runs (pure false : M Bool) t r t') : SameRefs t t' :=
      (quiet_pure false).same h
    dsimp only at hr
    obtain ⟨-, hr⟩ | ⟨-, hr⟩ := runs_ite.mp hr
    · exact ih hr
    obtain ⟨-, hr⟩ | ⟨-, hr⟩ := runs_ite.mp hr
    · exact hbad hr
    obtain ⟨-, hr⟩ | ⟨-, hr⟩ := runs_ite.mp hr
    · exact hbad hr
    obtain ⟨-, hr⟩ | ⟨-, hr⟩ := runs_ite.mp hr
    · exact hbad hr
    obtain ⟨-, hr⟩ | ⟨-, hr⟩ := runs_ite.mp hr
    · exact hbad hr
    obtain ⟨_, t', hread', hr⟩ := runs_bind.mp hr
    exact (same_inodeReadFrom hread').trans (ih hr)

theorem same_execRead {env : ExecEnv} {r : Bool} (hr : Runs (execRead sblock env p) s r s') :
    SameRefs s s' := by
  unfold execRead at hr
  obtain ⟨⟨_, elf⟩, t, hread, hr⟩ := runs_bind.mp hr
  refine (same_inodeReadFrom hread).trans ?_
  dsimp only at hr
  obtain ⟨-, hr⟩ | ⟨-, hr⟩ := runs_ite.mp hr
  · exact same_loadProgram hr
  · exact (quiet_pure false).same hr

end FtosFfs.Fs
