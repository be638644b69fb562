import FtosFfs.Fs.Budget
import FtosFfs.Fs.File
import Mathlib.Algebra.Order.BigOperators.Group.Finset

/-! The operations of `filewrite` against the limit of `OP_MAX_NUM_BLOCKS` blocks. -/

namespace FtosFfs.Fs

open Lib Lib.Exec Cache

variable {s t u : State} {p : Ptr} {n k f : Nat} {addr src : Nat → UInt8} {off stop count : Nat}

/-- The number of blocks that a write of bytes `off` to `stop - 1` to the file of inode `n` syncs: the
blocks of the bytes, the bitmaps of the groups in which it allocates, the index block if it fills a
slot, and the block of the inode if it allocates or the file grows. -/
def writeSize (s : State) (n off stop : Nat) : Nat :=
  loopSize (isMapped (diskEntry s.disk) s.disk n) (hasTable (diskEntry s.disk) s.disk n) (inodeGroup n)
      s.usedBlock (blocksAt off stop) +
    if (diskEntry s.disk n).numBytes.toNat < stop ∨
      (blocksAt off stop).any (fun k => isMapped (diskEntry s.disk) s.disk n k = false) then 1 else 0

theorem length_blocksAt_le (s : State) (n off stop : Nat) :
    (blocksAt off stop).length ≤ writeSize s n off stop := by
  unfold writeSize loopSize
  omega

theorem mem_blocksAt (h : k ∈ blocksAt off stop) :
    ∃ i, off ≤ i ∧ i < stop ∧ i / blockSize = k := by
  obtain ⟨hlt, hge, hk⟩ := mem_blocksAt_iff.mp h
  have hge' : off / 512 ≤ k := hge
  have hk' : k * 512 < stop := hk
  by_cases heq : off / 512 = k
  · exact ⟨off, Nat.le_refl _, hlt, heq⟩
  · refine ⟨k * 512, by omega, hk', ?_⟩
    show k * 512 / 512 = k
    omega

/-- A write needs no more blocks than a longer one. -/
theorem need_mono {E : Nat → InodeEntry} {d : Nat → BlockData} {stop' : Nat} (h : stop ≤ stop') :
    need n off stop E d ≤ need n off stop' E d := by
  unfold need
  refine Nat.add_le_add ?_ ?_
  · refine Finset.sum_le_sum_of_subset (Finset.Ico_subset_Ico_right ?_)
    show (stop + 512 - 1) / 512 ≤ (stop' + 512 - 1) / 512
    omega
  · split
    case isTrue hc => rw [if_pos ⟨by omega, hc.2⟩]
    case isFalse => exact Nat.zero_le _

/-! ### `inode_write` in an operation -/

/-- Some block of the bytes is not there, or the file grows: the block of the inode is synced. -/
def Enlarges (s : State) (n off stop : Nat) : Prop :=
  (diskEntry s.disk n).numBytes.toNat < stop ∨
    (blocksAt off stop).any (fun k => isMapped (diskEntry s.disk) s.disk n k = false) = true

instance (s : State) (n off stop : Nat) : Decidable (Enlarges s n off stop) :=
  inferInstanceAs (Decidable (_ ∨ _))

/-- The sync of the block of the inode. -/
def inodeSyncs (s : State) (n off stop : Nat) : List Nat :=
  if Enlarges s n off stop then [toBlockNo sblock n] else []

/-- What `inode_write` does outside of operations, and what it syncs. -/
structure WriteSyncs (p : Ptr) (n : Nat) (src : Nat → UInt8) (off count : Nat) (s t : State) (l new : List Nat)
    (e : InodeEntry) : Prop where
  entry : (t.mem p).entry = e
  done : WriteDone p n src off count (s.view p) s t e
  loop : LoopSyncs p n (blocksAt off (off + count)) (s.view p) s t l new
  syncs : Syncs (fun ctx => inodeWrite sblock ctx p src off count) s count t
    (l ++ inodeSyncs s n off (off + count))

/-- The blocks that are there stay. -/
theorem WriteSyncs.refs {l new : List Nat} {e : InodeEntry} (hw : WriteSyncs p n src off count s t l new e)
    (m k : Nat) (hk : ref (s.view p) s.disk (m, place k) ≠ 0) :
    ref (Function.update (s.view p) n (t.mem p).entry) t.disk (m, place k) =
      ref (s.view p) s.disk (m, place k) := by
  rw [hw.entry]
  exact hw.done.wrote.refs m k hk

/-- The places outside of the write keep their blocks. -/
theorem WriteSyncs.others {l new : List Nat} {e : InodeEntry} (hw : WriteSyncs p n src off count s t l new e)
    (m k : Nat) (hk : m = n → k ∉ blocksAt off (off + count)) :
    ref (Function.update (s.view p) n (t.mem p).entry) t.disk (m, place k) =
      ref (s.view p) s.disk (m, place k) := by
  rw [hw.entry]
  refine hw.done.wrote.outside m k ?_
  by_cases hm : m = n
  · have hout := hk hm
    rw [mem_blocksAt_iff] at hout
    omega
  · exact .inl hm

theorem Whole.writeSyncs (src : Nat → UInt8) (off count : Nat) (h : Whole s) (hp : p ∈ s.list)
    (hv : (s.mem p).valid = true) (hno : (s.mem p).inodeNo = n) (hdev : (s.mem p).entry.type ≠ inodeDevice)
    (hoff : off ≤ (s.mem p).entry.numBytes.toNat) (hmax : off + count ≤ inodeMaxBytes)
    (hfree : need n off (off + count) (diskEntry s.disk) s.disk ≤ (freeBlocks s.disk).card) :
    ∃ t l new e, WriteSyncs p n src off count s t l new e := by
  subst hno
  have hE : s.view p (s.mem p).inodeNo = (s.mem p).entry := State.view_self
  have hn := h.cached.inUse_view hp hv
  have howned := h.cached.owned_view hp hv
  have href := h.ref_view hp hv
  have hfree' : need (s.mem p).inodeNo off (off + count) (s.view p) s.disk ≤
      (freeBlocks s.disk).card := by
    unfold need at hfree ⊢
    rwa [href]
  obtain ⟨t, hr⟩ : ∃ t, Runs (Fs.inodeWrite sblock false p src off count) s count t :=
    inodeWrite_returns hv hE rfl hn howned h.cached.held h.used hdev hoff hmax (by simp [Room]) hfree'
  obtain ⟨-, -, -, e, hw⟩ := h.cached.inodeWrite hp hv hdev hr
  obtain ⟨l, new, hloop, hsyncs⟩ := inodeWrite_syncs hv rfl hE hn howned h.cached.held h.used hdev hr
  have hnew : new ≠ [] ↔ (blocksAt off (off + count)).any
      (fun k => isMapped (diskEntry s.disk) s.disk (s.mem p).inodeNo k = false) = true := by
    have hgroups := hloop.groups
    rw [ne_eq, ← List.map_eq_nil_iff (f := groupOf) (l := new), hgroups, groupsFor_eq_nil_iff,
      wants_eq_nil_iff, isMapped_congr href, List.any_eq_true]
    simp
  have hsize : (s.mem p).entry.numBytes = (diskEntry s.disk (s.mem p).inodeNo).numBytes :=
    h.size p hp hv
  have hinode : (if off + count > (s.mem p).entry.numBytes.toNat ∨ new ≠ [] then
      [toBlockNo sblock (s.mem p).inodeNo] else []) = inodeSyncs s (s.mem p).inodeNo off (off + count) := by
    refine if_congr ?_ rfl rfl
    rw [hsize, hnew]
    rfl
  rw [hinode] at hsyncs
  exact ⟨t, l, new, e, by rw [hw.frame.inode], hw, hloop, hsyncs⟩

/-- The blocks after a write belong to the files. -/
theorem Whole.after_write {e : InodeEntry} (h : Whole s) (hp : p ∈ s.list) (hv : (s.mem p).valid = true)
    (hno : (s.mem p).inodeNo = n) (hw : WriteDone p n src off count (s.view p) s t e) :
    InUse (Function.update (s.view p) n (t.mem p).entry) n ∧
    BlocksOwned (Function.update (s.view p) n (t.mem p).entry) t.disk ∧
    ∀ k ∈ blocksAt off (off + count),
      ref (Function.update (s.view p) n (t.mem p).entry) t.disk (n, place k) ≠ 0 := by
  subst hno
  have hent : (t.mem p).entry = e := by rw [hw.frame.inode]
  rw [hent]
  refine ⟨(inUse_update ?_).mpr (h.cached.inUse_view hp hv), hw.wrote.owned, fun k hk => ?_⟩
  · rw [hw.fields.type, State.view_self]
  · obtain ⟨i, hi, hi', rfl⟩ := mem_blocksAt hk
    exact hw.filled h.used i hi hi'

section

variable {l new : List Nat} {e : InodeEntry} (h : Whole s) (hp : p ∈ s.list) (hv : (s.mem p).valid = true)
  (hno : (s.mem p).inodeNo = n) (hw : WriteSyncs p n src off count s t l new e)

include h hp hv hno hw

/-- The inode block is not among the blocks of the loop. -/
theorem WriteSyncs.inode_notMem : toBlockNo sblock n ∉ l := by
  obtain ⟨hn', howned', hfilled⟩ := h.after_write hp hv hno hw.done
  intro hmem
  rcases hw.loop.kinds howned' hn' hfilled _ hmem with hb | hd
  · exact (isInodes_toBlockNo hn'.1).not_bitmap hb
  · exact hd.not_inodes (isInodes_toBlockNo hn'.1)

/-- The record has the blocks of the loop and the block of the inode. -/
theorem WriteSyncs.card :
    (l ++ inodeSyncs s n off (off + count)).toFinset.card = writeSize s n off (off + count) := by
  obtain ⟨hn', howned', hfilled⟩ := h.after_write hp hv hno hw.done
  have hcard := hw.loop.card howned' hn' hfilled List.nodup_range'
  have href := h.ref_view hp hv
  rw [isMapped_congr href, hasTable_congr href] at hcard
  have hsize : writeSize s n off (off + count) =
      l.toFinset.card + if Enlarges s n off (off + count) then 1 else 0 := by
    rw [hcard]
    rfl
  rw [hsize, inodeSyncs]
  split
  case isTrue =>
    rw [List.toFinset_append, Finset.card_union_of_disjoint]
    · rfl
    · simpa using hw.inode_notMem h hp hv hno
  case isFalse => rw [List.append_nil, Nat.add_zero]

end

/-- In an operation, `inode_write` returns if the record has at most `OP_MAX_NUM_BLOCKS` blocks with
what it syncs, and fails in `cache_sync` if it has more. -/
theorem WriteSyncs.decided {l new : List Nat} {e : InodeEntry} (hw : WriteSyncs p n src off count s t l new e)
    (hctx : OpContext.Ok s.ctx) :
    ((s.ctx.blockNo ++ (l ++ inodeSyncs s n off (off + count))).toFinset.card ≤ opMaxNumBlocks →
      ∃ t, Runs (inodeWrite sblock true p src off count) s count t) ∧
    (¬(s.ctx.blockNo ++ (l ++ inodeSyncs s n off (off + count))).toFinset.card ≤ opMaxNumBlocks →
      inodeWrite sblock true p src off count s = .error .overflow) := by
  have hrecord := recordAll_isSome hctx (l ++ inodeSyncs s n off (off + count))
  constructor
  · intro hle
    obtain ⟨c, hc⟩ := Option.isSome_iff_exists.mp (hrecord.mpr hle)
    exact ⟨_, hw.syncs.runs hc⟩
  · intro hlarge
    exact hw.syncs.eq_overflow (Option.not_isSome_iff_eq_none.mp fun hsome => hlarge (hrecord.mp hsome))

/-- In a fresh operation, `inode_write` returns if it syncs at most `OP_MAX_NUM_BLOCKS` blocks, and
fails in `cache_sync` if it syncs more. -/
theorem inodeWrite_decided (src : Nat → UInt8) (off count : Nat) (h : Whole s) (hp : p ∈ s.list)
    (hv : (s.mem p).valid = true) (hno : (s.mem p).inodeNo = n) (hdev : (s.mem p).entry.type ≠ inodeDevice)
    (hctx : s.ctx.blockNo = []) (hoff : off ≤ (s.mem p).entry.numBytes.toNat)
    (hmax : off + count ≤ inodeMaxBytes)
    (hfree : need n off (off + count) (diskEntry s.disk) s.disk ≤ (freeBlocks s.disk).card) :
    (writeSize s n off (off + count) ≤ opMaxNumBlocks →
      ∃ t, Runs (inodeWrite sblock true p src off count) s count t) ∧
    (¬writeSize s n off (off + count) ≤ opMaxNumBlocks →
      inodeWrite sblock true p src off count s = .error .overflow) := by
  obtain ⟨t, l, new, e, hw⟩ := h.writeSyncs src off count hp hv hno hdev hoff hmax hfree
  have hdecided := hw.decided (show s.ctx.blockNo.Nodup ∧ s.ctx.blockNo.length ≤ opMaxNumBlocks by
    rw [hctx]
    decide)
  rwa [hctx, List.nil_append, hw.card h hp hv hno] at hdecided

/-! ### `filewrite` -/

theorem never_cacheEndOp : Never Fault.overflow cacheEndOp := by
  unfold cacheEndOp
  refine .bind .get fun s => ?_
  cases s.log.commit s.ctx with
  | none => exact .throw nofun
  | some log => exact .ite (.ite (.throw nofun) (.set _)) (.ite (.throw nofun) (.set _))

theorem never_assert (c : Prop) [Decidable c] : Never Fault.overflow (assert c) :=
  .require (show Fault.panic ≠ .overflow from nofun) c

theorem never_inodeUnlock (p : Ptr) : Never Fault.overflow (inodeUnlock p) := by
  unfold inodeUnlock
  exact .bind .get fun s => .bind (never_assert _) fun _ => .bind (never_assert _) fun _ => .modify _

/-- An open regular file that can be written to, in a state where an operation can begin. -/
structure WriteReady (s : State) (f : Nat) : Prop where
  whole : Whole s
  room : s.log.logUsed + opMaxNumBlocks ≤ s.log.logSize
  writable : (s.file f).writable = true
  inode : (s.file f).type = .inode
  listed : (s.file f).ip ∈ s.list
  unlocked : (s.mem (s.file f).ip).locked = false
  regular : (diskEntry s.disk (s.mem (s.file f).ip).inodeNo).type = inodeRegular
  off : (s.file f).off ≤ (diskEntry s.disk (s.mem (s.file f).ip).inodeNo).numBytes.toNat

/-- The state in an operation that has just begun. -/
def State.begun (s : State) : State := { s with
  ctx := ⟨s.log.lastAllocatedTs + 1, []⟩
  log := { s.log with
    logUsed := s.log.logUsed + opMaxNumBlocks
    lastAllocatedTs := s.log.lastAllocatedTs + 1
    opCount := s.log.opCount + 1 } }

theorem cacheBeginOp_returns (h : s.log.logUsed + opMaxNumBlocks ≤ s.log.logSize) :
    Runs cacheBeginOp s () s.begun := by
  unfold cacheBeginOp
  refine runs_bind.mpr ⟨s, s, runs_get.mpr ⟨rfl, rfl⟩, ?_⟩
  rw [if_neg (Nat.not_lt.mpr h)]
  exact runs_set.mpr rfl

theorem touched_ge : count / 512 ≤ touched off (off + count) := by
  unfold touched
  split
  · show count / 512 ≤ (off + count + 512 - 1) / 512 - off / 512
    omega
  · omega

theorem length_blocksAt : (blocksAt off stop).length = touched off stop := List.length_range' ..

/-- The first operation of `filewrite` syncs too many blocks if all of its write in one would. -/
theorem writeSize_first (s : State) (n off count : Nat) :
    writeSize s n off (off + min count filewriteMax) ≤ opMaxNumBlocks ↔
      writeSize s n off (off + count) ≤ opMaxNumBlocks := by
  by_cases hle : count ≤ filewriteMax
  · rw [Nat.min_eq_left hle]
  · have hlarge (c : Nat) (hc : filewriteMax ≤ c) : ¬writeSize s n off (off + c) ≤ opMaxNumBlocks := by
      have hlen := length_blocksAt_le s n off (off + c)
      have htouched : c / 512 ≤ touched off (off + c) := touched_ge
      rw [length_blocksAt] at hlen
      have hc' : 34816 ≤ c := hc
      show ¬writeSize s n off (off + c) ≤ 10
      omega
    rw [Nat.min_eq_right (Nat.le_of_not_le hle)]
    exact iff_of_false (hlarge _ (Nat.le_refl _)) (hlarge _ (Nat.le_of_not_le hle))

/-- The state in an operation that has just begun, with the inode at `p` locked. -/
def State.begunLocked (s : State) (p : Ptr) : State := s.begun.setInode p (s.begun.lockedInode p)

/-- `inode_lock` in an operation that has just begun. -/
theorem Whole.lock_begun (h : Whole s) (hroom : s.log.logUsed + opMaxNumBlocks ≤ s.log.logSize)
    (hp : p ∈ s.list)
    (hunlocked : (s.mem p).locked = false)
    (htype : (diskEntry s.disk (s.mem p).inodeNo).type ≠ inodeInvalid) :
    Runs (inodeLock sblock p) s.begun () (s.begunLocked p) ∧ Whole (s.begunLocked p) ∧
      ((s.begunLocked p).mem p).entry.type = (diskEntry s.disk (s.mem p).inodeNo).type := by
  have hbegun : Whole s.begun :=
    InodeOp.whole h (show InodeOp.beginOp.Allowed s from trivial) (cacheBeginOp_returns hroom)
  have hsame : (s.loaded p).type = (diskEntry s.disk (s.mem p).inodeNo).type := by
    unfold State.loaded
    split
    case isTrue hv => exact ((h.cached.inode _ hp).same hv).type
    case isFalse => rfl
  have hlock : Runs (inodeLock sblock p) s.begun () (s.begunLocked p) := by
    refine runs_inodeLock.mpr ⟨h.cached.list.rc _ hp, hunlocked, fun _ => ?_, ?_, rfl⟩
    · rw [show s.begun.held = [] from h.cached.held]
      exact List.not_mem_nil
    · rwa [show s.begun.loaded p = s.loaded p from rfl, hsame]
  refine ⟨hlock, InodeOp.whole hbegun (show (InodeOp.lock p).Allowed s.begun from hp) hlock, ?_⟩
  rw [State.begunLocked, State.mem_setInode_same]
  exact hsame

/-- `inode_lock` of the inode of an open file, in an operation that has just begun. -/
theorem WriteReady.lock (h : WriteReady s f) : ∃ u, Runs (inodeLock sblock (s.file f).ip) s.begun () u ∧
    Whole u ∧ u.disk = s.disk ∧ u.usedBlock = s.usedBlock ∧ u.list = s.list ∧ u.ctx = s.begun.ctx ∧
    (u.mem (s.file f).ip).valid = true ∧
    (u.mem (s.file f).ip).inodeNo = (s.mem (s.file f).ip).inodeNo ∧
    (u.mem (s.file f).ip).entry.type = inodeRegular := by
  obtain ⟨hlock, hwhole, htype⟩ := h.whole.lock_begun h.room h.listed h.unlocked
    (by rw [h.regular]; decide)
  refine ⟨_, hlock, hwhole, rfl, rfl, rfl, rfl, ?_, ?_, htype.trans h.regular⟩
  all_goals rw [State.begunLocked, State.mem_setInode_same]
  · rfl
  · rfl

theorem WriteReady.decided (h : WriteReady s f) (addr : Nat → UInt8)
    (hmax : (s.file f).off + count ≤ inodeMaxBytes)
    (hfree : need (s.mem (s.file f).ip).inodeNo (s.file f).off ((s.file f).off + count)
      (diskEntry s.disk) s.disk ≤ (freeBlocks s.disk).card) :
    (writeSize s (s.mem (s.file f).ip).inodeNo (s.file f).off ((s.file f).off + count) ≤
      opMaxNumBlocks → filewrite sblock f addr count s ≠ .error .overflow) ∧
    (¬writeSize s (s.mem (s.file f).ip).inodeNo (s.file f).off ((s.file f).off + count) ≤
      opMaxNumBlocks → filewrite sblock f addr count s = .error .overflow) := by
  set n := (s.mem (s.file f).ip).inodeNo with hn
  set off := (s.file f).off with hoff
  obtain ⟨u, hlock, hwhole, hdisk, hused, hlist, hctx, hv, hno, htype⟩ := h.lock
  have hsize : (u.mem (s.file f).ip).entry.numBytes = (diskEntry s.disk n).numBytes := by
    rw [hwhole.size _ (by rw [hlist]; exact h.listed) hv, hno, hdisk]
  set c := min count filewriteMax with hc
  have hcount : c ≤ count := Nat.min_le_left ..
  have hsame : writeSize u n off (off + c) = writeSize s n off (off + c) := by
    unfold writeSize
    rw [hdisk, hused]
  obtain ⟨hreturns, hfails⟩ := inodeWrite_decided (fun k => addr (0 + k)) off c hwhole
    (by rw [hlist]; exact h.listed) hv hno (by rw [htype]; decide) (by rw [hctx]; rfl)
    (by rw [hsize]; exact h.off) (by omega)
    (by rw [hdisk]; exact (need_mono (by omega)).trans hfree)
  rw [hsame, writeSize_first] at hreturns hfails
  have hbegin : Runs cacheBeginOp s () s.begun := cacheBeginOp_returns h.room
  have hget : Runs (MonadState.get : M State) s s s := runs_get.mpr ⟨rfl, rfl⟩
  have hget' : Runs (MonadState.get : M State) s.begun s.begun s.begun := runs_get.mpr ⟨rfl, rfl⟩
  have hinode : Runs (assert ((s.file f).type = .inode)) s () s := runs_require.mpr ⟨h.inode, rfl⟩
  unfold filewrite
  rw [bind_eq_of_runs hget, if_pos h.writable, bind_eq_of_runs hinode]
  cases count with
  | zero =>
    refine ⟨fun _ => nofun, fun hlarge => absurd ?_ hlarge⟩
    have hnil : blocksAt off (off + 0) = [] := blocksAt_nil (by omega)
    have hnot : ¬(diskEntry s.disk n).numBytes.toNat < off + 0 := Nat.not_lt.mpr h.off
    unfold writeSize
    rw [hnil, if_neg (by simpa using hnot)]
    exact Nat.zero_le _
  | succ m =>
    constructor
    · intro hsmall
      obtain ⟨t, hwrite⟩ := hreturns hsmall
      -- All bytes are written in the first operation.
      have hall : c = m + 1 := by
        have hlen := length_blocksAt_le s n off (off + (m + 1))
        have htouched : (m + 1) / 512 ≤ touched off (off + (m + 1)) := touched_ge
        rw [length_blocksAt] at hlen
        have hsmall' : writeSize s n off (off + (m + 1)) ≤ 10 := hsmall
        exact Nat.min_eq_left (by show m + 1 ≤ 34816; omega)
      refine Avoids.bind (x := filewriteLoop sblock f addr (m + 1) (m + 1) 0) ?_ fun _ _ _ => .pure _
      unfold filewriteLoop
      rw [if_pos (Nat.succ_pos m)]
      refine .bind (.after hbegin (.bind (.after hget' (.after hlock (.after hwrite ?_))) fun _ _ _ =>
        .bind (never_cacheEndOp _) fun _ _ _ => .pure _)) fun r _ _ => ?_
      · exact (Never.modify _).bind (fun _ => (never_inodeUnlock _).bind fun _ => .pure _) t
      · refine .bind (.require nofun) fun _ _ hr => ?_
        have hr' : r = c := (runs_require.mp hr).1
        cases m with
        | zero => exact .pure _
        | succ m =>
          unfold filewriteLoop
          rw [if_neg (by omega)]
          exact .pure _
    · intro hlarge
      refine bind_eq_error ?_
      unfold filewriteLoop
      rw [if_pos (Nat.succ_pos m)]
      refine bind_eq_error ?_
      unfold inOp
      rw [bind_eq_of_runs hbegin]
      refine bind_eq_error ?_
      exact (bind_eq_of_runs hget').trans ((bind_eq_of_runs hlock).trans (bind_eq_error (hfails hlarge)))

/-- `filewrite` to a regular file, with free blocks for what it writes, does not fail in `cache_sync`
exactly if its write syncs at most `OP_MAX_NUM_BLOCKS` blocks. -/
theorem filewrite_avoids_overflow (h : WriteReady s f)
    (hmax : (s.file f).off + count ≤ inodeMaxBytes)
    (hfree : need (s.mem (s.file f).ip).inodeNo (s.file f).off ((s.file f).off + count)
      (diskEntry s.disk) s.disk ≤ (freeBlocks s.disk).card) :
    filewrite sblock f addr count s ≠ .error .overflow ↔
      writeSize s (s.mem (s.file f).ip).inodeNo (s.file f).off ((s.file f).off + count) ≤
        opMaxNumBlocks := by
  obtain ⟨hsmall, hlarge⟩ := h.decided addr hmax hfree
  exact ⟨fun hne => by_contra fun hnot => hne (hlarge hnot), hsmall⟩

/-- A mounted disk with inode `n` open as file 0 for reading and writing, from its first byte on. -/
def opened (disk : Nat → BlockData) (n : Nat) : State := {
  mount sblock disk fun _ => ⟨false, 1, n, false, InodeEntry.zero⟩ with
  list := [0]
  fresh := 1
  file := fun _ => ⟨.inode, 1, true, true, 0, 0⟩ }

theorem writeReady_opened {disk : Nat → BlockData} (ho : BlocksOwned (diskEntry disk) disk)
    (hfilled : FilledDisk disk) (hn : IsInode n) (hreg : (diskEntry disk n).type = inodeRegular) :
    WriteReady (opened disk n) 0 := by
  refine ⟨⟨⟨⟨List.nodup_singleton 0, ?_, ?_, ?_, ?_⟩, rfl, ho, ?_⟩, usedExact_countUsed disk, ?_, hfilled⟩,
    show 0 + 10 ≤ Log.initLogSize sblock by decide, rfl, rfl, List.mem_singleton_self 0, rfl, hreg,
      Nat.zero_le _⟩
  · simp [opened]
  · exact fun _ _ => Int.one_pos
  · exact fun _ _ => hn
  · simp [opened]
  · exact fun _ _ => ⟨nofun, nofun, nofun, nofun⟩
  · exact fun _ _ => nofun

/-- A write below the size of a file without holes allocates nothing, and syncs the blocks of its
bytes. -/
theorem Filled.overwrite (off stop : Nat)
    (h : Filled n 0 (diskEntry s.disk n).numBytes.toNat (diskEntry s.disk) s.disk)
    (hstop : stop ≤ (diskEntry s.disk n).numBytes.toNat) :
    writeSize s n off stop = touched off stop ∧
      need n off stop (diskEntry s.disk) s.disk = 0 := by
  have hmapped (k : Nat) (hk : k ∈ blocksAt off stop) :
      isMapped (diskEntry s.disk) s.disk n k = true := by
    obtain ⟨i, -, hi, rfl⟩ := mem_blocksAt hk
    exact decide_eq_true (h i (Nat.zero_le i) (by omega))
  constructor
  · unfold writeSize
    rw [loopSize_mapped _ _ _ hmapped, any_unmapped hmapped, length_blocksAt, if_neg (by simpa using hstop)]
    rfl
  · have hblocks := filled_iff.mp h
    unfold need
    rw [Finset.sum_eq_zero, if_neg]
    · rintro ⟨h12, h0⟩
      have h12' : 12 * 512 < stop := h12
      refine table_of_slot (Nat.le_refl inodeNumDirect) (hblocks inodeNumDirect ?_) h0
      show 12 < ((diskEntry s.disk n).numBytes.toNat + 512 - 1) / 512
      omega
    · intro k hk
      refine if_neg (hblocks k ?_)
      have hk' : k < (stop + 512 - 1) / 512 := (Finset.mem_Ico.mp hk).2
      show k < ((diskEntry s.disk n).numBytes.toNat + 512 - 1) / 512
      omega

/-- A file of eleven blocks. -/
def elevenBlocks : Mkfs.Input := ⟨[102], [List.replicate 5632 0]⟩

theorem length_elevenBlocks : elevenBlocks.reads.flatten.length = 5632 := by
  simp only [elevenBlocks, List.flatten_cons, List.flatten_nil, List.append_nil, List.length_replicate]

/-- The image with this file, which is inode 2. -/
theorem elevenBlocks_image : ∃ img, Runs (Mkfs.main [elevenBlocks]) Mkfs.blank () img ∧
    WriteReady (opened img.disk 2) 0 ∧ (diskEntry img.disk 2).numBytes.toNat = 5632 ∧
    Filled 2 0 (diskEntry img.disk 2).numBytes.toNat (diskEntry img.disk) img.disk := by
  have hmax : ∀ input ∈ [elevenBlocks], input.reads.flatten.length ≤ inodeMaxBytes := by
    intro input hinput
    rw [List.mem_singleton.mp hinput, length_elevenBlocks]
    decide
  have hfit : Mkfs.costOf ([elevenBlocks].map fun input => input.reads.flatten) ([elevenBlocks].length + 2) <
      Mkfs.capacity := by
    simp only [Mkfs.costOf, List.map_cons, List.map_nil, List.sum_cons, List.sum_nil, length_elevenBlocks]
    decide
  obtain ⟨img, hr⟩ : ∃ img, Runs (Mkfs.main [elevenBlocks]) Mkfs.blank () img :=
    Mkfs.main_returns (by decide) hmax hfit
  have hformat := Mkfs.main_formatted hr
  have hfilled := filledDisk_main hr (by decide)
  have htype := (hformat.file 2 (by decide) (by decide)).1
  have hn : IsInode 2 := isInode_iff.mpr (by decide)
  refine ⟨img, hr, writeReady_opened hformat.owned hfilled hn htype, ?_, ?_⟩
  · rw [(Mkfs.main_holds hr).size 0 elevenBlocks.reads.flatten rfl, length_elevenBlocks]
  · exact hfilled 2 ⟨hn, by rw [htype]; decide⟩

/-- A write of one byte to the file. -/
theorem filewrite_avoids_overflow_one : ∃ img, Runs (Mkfs.main [elevenBlocks]) Mkfs.blank () img ∧
    filewrite sblock 0 (fun _ => 1) 1 (opened img.disk 2) ≠ .error .overflow := by
  obtain ⟨img, hr, hready, hsize, hfilled⟩ := elevenBlocks_image
  obtain ⟨hwrite, hneed⟩ := Filled.overwrite (s := opened img.disk 2) 0 (0 + 1) hfilled
    (by rw [show (opened img.disk 2).disk = img.disk from rfl, hsize]; decide)
  refine ⟨img, hr, (filewrite_avoids_overflow hready (show 0 + 1 ≤ inodeMaxBytes by decide) ?_).mpr ?_⟩
  · exact Nat.le_trans (Nat.le_of_eq hneed) (Nat.zero_le _)
  · exact Nat.le_trans (Nat.le_of_eq hwrite) (by decide)

/-- Writing the file anew is one operation that syncs eleven blocks. -/
theorem filewrite_overflows : ∃ img, Runs (Mkfs.main [elevenBlocks]) Mkfs.blank () img ∧
    WriteReady (opened img.disk 2) 0 ∧ ((opened img.disk 2).file 0).off + 5632 ≤ inodeMaxBytes ∧
    need 2 0 (0 + 5632) (diskEntry img.disk) img.disk ≤ (freeBlocks img.disk).card ∧
    filewrite sblock 0 (fun _ => 1) 5632 (opened img.disk 2) = .error .overflow := by
  obtain ⟨img, hr, hready, hsize, hfilled⟩ := elevenBlocks_image
  obtain ⟨hwrite, hneed⟩ := Filled.overwrite (s := opened img.disk 2) 0 (0 + 5632) hfilled
    (by rw [show (opened img.disk 2).disk = img.disk from rfl, hsize])
  have hmax : 0 + 5632 ≤ inodeMaxBytes := by decide
  have hfree : need 2 0 (0 + 5632) (diskEntry img.disk) img.disk ≤ (freeBlocks img.disk).card :=
    Nat.le_trans (Nat.le_of_eq hneed) (Nat.zero_le _)
  refine ⟨img, hr, hready, hmax, hfree, (hready.decided _ hmax hfree).2 fun hle => ?_⟩
  exact absurd ((Nat.le_of_eq hwrite.symm).trans hle) (by decide)

end FtosFfs.Fs
