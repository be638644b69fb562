import FtosFfs.Fs.Overwrite

/-! What decides whether writes to an open file go through, one after the other: a shape of the file that
each write changes. -/

namespace FtosFfs.Fs

open Lib Lib.Exec Cache

variable {s t u v : State} {p : Ptr} {n k f : Nat} {src : Nat → UInt8} {off stop count : Nat} {ctx : Bool}
  {E : Nat → InodeEntry} {d : Nat → BlockData}

/-! ### Shapes -/

/-- Which blocks of a file are there and whether its index block is, `used_block`, the size of the file and
the number of free blocks. -/
@[ext] structure Shape where
  mapped : Nat → Bool
  table : Bool
  used : Nat → UInt32
  size : Nat
  free : Nat

def State.shape (s : State) (n : Nat) : Shape where
  mapped := isMapped (diskEntry s.disk) s.disk n
  table := hasTable (diskEntry s.disk) s.disk n
  used := s.usedBlock
  size := (diskEntry s.disk n).numBytes.toNat
  free := (freeBlocks s.disk).card

@[simp] theorem State.shape_size (s : State) (n : Nat) :
    (s.shape n).size = (diskEntry s.disk n).numBytes.toNat := rfl

@[simp] theorem State.shape_free (s : State) (n : Nat) : (s.shape n).free = (freeBlocks s.disk).card := by
  simp only [State.shape]

namespace Shape

/-- The allocations for bytes `off` to `stop - 1`. -/
def wants (h : Shape) (off stop : Nat) : List Want := Fs.wants h.mapped h.table (blocksAt off stop)

/-- The number of blocks that a write syncs, to a file of an inode of group `home`. -/
def cost (h : Shape) (home off stop : Nat) : Nat :=
  loopSize h.mapped h.table home h.used (blocksAt off stop) +
    if h.size < stop ∨ (blocksAt off stop).any (fun k => h.mapped k = false) then 1 else 0

/-- The shape after a write. -/
def write (h : Shape) (home off stop : Nat) : Shape where
  mapped k := h.mapped k || decide (k ∈ blocksAt off stop)
  table := h.table || decide (FillsSlot h.mapped (blocksAt off stop))
  used := (groupsFor home h.used (h.wants off stop)).foldl countUp h.used
  size := max h.size stop
  free := h.free - (h.wants off stop).length

@[simp] theorem write_size (h : Shape) (home off stop : Nat) :
    (h.write home off stop).size = max h.size stop := rfl

@[simp] theorem write_free (h : Shape) (home off stop : Nat) :
    (h.write home off stop).free = h.free - (h.wants off stop).length := rfl

/-- A write in an operation of its own passes all assertions. -/
def Takes (h : Shape) (home off stop : Nat) : Prop :=
  off ≤ h.size ∧ stop ≤ inodeMaxBytes ∧ (h.wants off stop).length ≤ h.free ∧
    h.cost home off stop ≤ opMaxNumBlocks

instance (h : Shape) (home off stop : Nat) : Decidable (h.Takes home off stop) :=
  inferInstanceAs (Decidable (_ ∧ _))

/-- So do writes of `counts` bytes one behind the other, where a write of no bytes does nothing. -/
def Fits (home : Nat) : Shape → Nat → List Nat → Prop
  | _, _, [] => True
  | h, off, count :: counts =>
    if count = 0 then Fits home h off counts
    else h.Takes home off (off + count) ∧ Fits home (h.write home off (off + count)) (off + count) counts

@[simp] theorem fits_zero {h : Shape} {home : Nat} {counts : List Nat} :
    Fits home h off (0 :: counts) ↔ Fits home h off counts := by
  rw [Fits, if_pos rfl]

/-- A write to blocks that are there, below the size, leaves the shape as it is. -/
theorem write_mapped {h : Shape} (home : Nat) (hmapped : ∀ k ∈ blocksAt off stop, h.mapped k = true)
    (hstop : stop ≤ h.size) :
    h.wants off stop = [] ∧ h.cost home off stop = touched off stop ∧ h.write home off stop = h := by
  have hwants : h.wants off stop = [] := (wants_eq_nil_iff _).mpr hmapped
  refine ⟨hwants, ?_, ?_⟩
  · unfold cost
    rw [loopSize_mapped _ _ _ hmapped, any_unmapped hmapped, length_blocksAt, if_neg (by simpa using hstop)]
    rfl
  · have hfills : ¬FillsSlot h.mapped (blocksAt off stop) := by
      rintro ⟨k, hk, -, hnot⟩
      exact Bool.false_ne_true (hnot.symm.trans (hmapped k hk))
    refine Shape.ext (funext fun k => ?_) ?_ ?_ ?_ ?_
    · show (h.mapped k || decide (k ∈ blocksAt off stop)) = h.mapped k
      by_cases hk : k ∈ blocksAt off stop
      · rw [hmapped k hk, Bool.true_or]
      · rw [decide_eq_false hk, Bool.or_false]
    · show (h.table || decide (FillsSlot h.mapped (blocksAt off stop))) = h.table
      rw [decide_eq_false hfills, Bool.or_false]
    · show (groupsFor home h.used (h.wants off stop)).foldl countUp h.used = h.used
      rw [hwants]
      rfl
    · exact Nat.max_eq_left hstop
    · rw [write_free, hwants]
      exact Nat.sub_zero _

/-- Small writes below the size of a file without holes. -/
theorem fits_mapped {h : Shape} (home : Nat) (hmapped : ∀ i < h.size, h.mapped (i / blockSize) = true)
    (hmax : h.size ≤ inodeMaxBytes) {counts : List Nat} (hsmall : ∀ c ∈ counts, c ≤ 4096)
    (hstop : off + counts.sum ≤ h.size) : Fits home h off counts := by
  induction counts generalizing off with
  | nil => exact trivial
  | cons c counts ih =>
    rw [List.sum_cons, ← Nat.add_assoc] at hstop
    have hrest : Fits home h (off + c) counts := ih (fun c hc => hsmall c (List.mem_cons_of_mem _ hc)) hstop
    have hblocks (k : Nat) (hk : k ∈ blocksAt off (off + c)) : h.mapped k = true := by
      obtain ⟨i, -, hi, rfl⟩ := mem_blocksAt hk
      exact hmapped i (by omega)
    obtain ⟨hwants, hcost, hwrite⟩ := write_mapped home hblocks (by omega)
    by_cases hzero : c = 0
    · subst hzero
      exact fits_zero.mpr hrest
    · rw [Fits, if_neg hzero, hwrite]
      refine ⟨⟨by omega, by omega, ?_, ?_⟩, hrest⟩
      · rw [hwants]
        exact Nat.zero_le _
      · have hc := hsmall c List.mem_cons_self
        have htouched : touched off (off + c) = (off + c + 512 - 1) / 512 - off / 512 := if_pos (by omega)
        rw [hcost, htouched]
        show _ ≤ 10
        omega

end Shape

/-- As many blocks are needed as the loop allocates. -/
theorem need_eq_newSyncs (hlt : off < stop) : need n off stop E d = newSyncs E d n (blocksAt off stop) := by
  have hsum : ∑ k ∈ Finset.Ico (off / blockSize) ((stop + blockSize - 1) / blockSize),
      (if ref E d (n, place k) = 0 then 1 else 0) =
      ((blocksAt off stop).filter fun k => !isMapped E d n k).length := by
    have hico : Finset.Ico (off / blockSize) ((stop + blockSize - 1) / blockSize) =
        (blocksAt off stop).toFinset := by
      ext k
      rw [Finset.mem_Ico, List.mem_toFinset, mem_blocksAt_iff]
      show off / 512 ≤ k ∧ k < (stop + 512 - 1) / 512 ↔ off < stop ∧ off / 512 ≤ k ∧ k * 512 < stop
      omega
    have hnodup : (blocksAt off stop).Nodup := List.nodup_range'
    rw [hico, ← Finset.card_filter, ← List.toFinset_card_of_nodup (hnodup.filter _), List.toFinset_filter]
    refine congrArg Finset.card (Finset.filter_congr fun k _ => ?_)
    simp [isMapped]
  have hslot : (inodeNumDirect * blockSize < stop ∧ ref E d (n, .table) = 0) ↔
      (hasTable E d n = false ∧ FillsSlot (isMapped E d n) (blocksAt off stop)) := by
    have hnone : ref E d (n, .table) = 0 ↔ hasTable E d n = false := by simp [hasTable]
    rw [hnone, and_comm]
    refine and_congr_right fun htable => ?_
    constructor
    · intro hmax
      refine ⟨(stop - 1) / blockSize, ?_, ?_, ?_⟩
      · rw [mem_blocksAt_iff]
        show off < stop ∧ off / 512 ≤ (stop - 1) / 512 ∧ (stop - 1) / 512 * 512 < stop
        omega
      · have hmax' : 12 * 512 < stop := hmax
        show 12 ≤ (stop - 1) / 512
        omega
      · rw [← hnone] at htable
        refine decide_eq_false fun hne => ?_
        have hmax' : 12 * 512 < stop := hmax
        exact table_of_slot (show 12 ≤ (stop - 1) / 512 by omega) hne htable
    · rintro ⟨k, hk, h12, -⟩
      obtain ⟨i, -, hi, rfl⟩ := mem_blocksAt hk
      have h12' : 12 ≤ i / 512 := h12
      show 12 * 512 < stop
      omega
  unfold need newSyncs
  rw [hsum, length_wants]
  congr 1
  exact if_congr hslot rfl rfl

/-! ### One write -/

section

variable (h : Whole s) (hp : p ∈ s.list) (hv : (s.mem p).valid = true) (hno : (s.mem p).inodeNo = n)
  (hdev : (s.mem p).entry.type ≠ inodeDevice)

include h hp hv hno hdev

/-- A write that returns has found the blocks that it needs. -/
theorem Whole.need_le_free (hlt : 0 < count) (hr : Runs (Fs.inodeWrite sblock ctx p src off count) s count t) :
    off ≤ (s.mem p).entry.numBytes.toNat ∧ off + count ≤ inodeMaxBytes ∧
      need n off (off + count) (diskEntry s.disk) s.disk ≤ (freeBlocks s.disk).card := by
  subst hno
  obtain ⟨-, -, -, e, hw⟩ := h.cached.inodeWrite hp hv hdev hr
  have hent : (t.mem p).entry = e := by rw [hw.frame.inode]
  have hview : s.view p (s.mem p).inodeNo = (s.mem p).entry := State.view_self
  have hn := h.cached.inUse_view hp hv
  have ho := h.cached.owned_view hp hv
  obtain ⟨hn', ho', hfilled⟩ := h.after_write hp hv rfl hw
  have hfree := freshSyncs_free hview hn ho hn' ho'
    (fun m k hk => by rw [hent]; exact hw.wrote.refs m k hk)
    (fun h0 => inodeWrite_table hview hn ho hv hdev h0 hr) hfilled
  have hcard := card_freshSyncs (s := s) ho' hfilled List.nodup_range'
  refine ⟨hw.bound.1, hw.bound.2, ?_⟩
  have href := h.ref_view hp hv
  have hneed : need (s.mem p).inodeNo off (off + count) (diskEntry s.disk) s.disk =
      need (s.mem p).inodeNo off (off + count) (s.view p) s.disk := by
    unfold need
    rw [href]
  rw [hneed, need_eq_newSyncs (by omega), ← hcard]
  exact Finset.card_le_card hfree

omit hdev

variable {l new : List Nat} {e : InodeEntry} (hw : WriteSyncs p n src off count s t l new e)

include hw

/-- After a write too the blocks of the files are those of the entries on disk. -/
theorem WriteSyncs.ref_disk : ref (diskEntry t.disk) t.disk =
    ref (Function.update (s.view p) n (t.mem p).entry) t.disk := by
  subst hno
  rw [hw.entry]
  exact ref_sameBlocks fun m hm => h.cached.sameBlocks_write hp hv hw.done hm

/-- Where the write fills no slot, the index block is there or not wanted. -/
theorem WriteSyncs.table_kept
    (hslot : ¬FillsSlot (isMapped (s.view p) s.disk n) (blocksAt off (off + count))) :
    (t.mem p).entry.indirect = (s.mem p).entry.indirect := by
  subst hno
  by_cases h0 : (s.mem p).entry.indirect = 0
  · refine hw.loop.table (.inr fun k hk => Nat.not_le.mp fun h12 => hslot ⟨k, hk, h12, ?_⟩)
    refine decide_eq_false fun hne => table_of_slot h12 hne ?_
    rw [ref_of_inUse (h.cached.inUse_view hp hv), State.view_self]
    exact toNat_eq_zero.mpr h0
  · exact hw.loop.table (.inl h0)

theorem WriteSyncs.isMapped_disk (k : Nat) : isMapped (diskEntry t.disk) t.disk n k =
    (isMapped (diskEntry s.disk) s.disk n k || decide (k ∈ blocksAt off (off + count))) := by
  obtain ⟨-, -, hfilled⟩ := h.after_write hp hv hno hw.done
  rw [isMapped_congr (hw.ref_disk h hp hv hno), ← isMapped_congr (h.ref_view hp hv)]
  by_cases hk : k ∈ blocksAt off (off + count)
  · simpa [hk, isMapped] using hfilled k hk
  · unfold isMapped
    rw [hw.others n k fun _ => hk]
    simp [hk]

theorem WriteSyncs.hasTable_disk : hasTable (diskEntry t.disk) t.disk n =
    (hasTable (diskEntry s.disk) s.disk n ||
      decide (FillsSlot (isMapped (diskEntry s.disk) s.disk n) (blocksAt off (off + count)))) := by
  obtain ⟨hn', -, hfilled⟩ := h.after_write hp hv hno hw.done
  have href := h.ref_view hp hv
  rw [hasTable_congr (hw.ref_disk h hp hv hno), ← hasTable_congr href, ← isMapped_congr href]
  by_cases hslot : FillsSlot (isMapped (s.view p) s.disk n) (blocksAt off (off + count))
  · simpa [hslot, hasTable] using (table_filled hn' hfilled hslot).2
  · have hkept := hw.table_kept h hp hv hno hslot
    unfold hasTable
    rw [ref_of_inUse hn', ref_of_inUse (hno ▸ h.cached.inUse_view hp hv), Function.update_self,
      show s.view p n = (s.mem p).entry from hno ▸ State.view_self]
    show decide ((t.mem p).entry.indirect.toNat ≠ 0) = _
    rw [hkept, decide_eq_false hslot, Bool.or_false]
    rfl

theorem WriteSyncs.size_disk (hw' : Whole t) : (diskEntry t.disk n).numBytes.toNat =
    max (diskEntry s.disk n).numBytes.toNat (off + count) := by
  subst hno
  have hpt : p ∈ t.list := by
    rw [hw.done.frame.list]
    exact hp
  have hmem : t.mem p = { s.mem p with entry := e } := hw.done.frame.inode
  have hvt : (t.mem p).valid = true := by rw [hmem]; exact hv
  have hnot : (t.mem p).inodeNo = (s.mem p).inodeNo := by rw [hmem]
  have hmax : off + count ≤ 71680 := hw.done.bound.2
  rw [← hnot, ← hw'.size p hpt hvt, hw.entry, hw.done.fields.numBytes, hnot, ← h.size p hp hv]
  show (grownSize (s.mem p).entry off count).toNat = _
  unfold grownSize
  split
  case isTrue hgt =>
    rw [UInt32.toNat_ofNat', Nat.mod_eq_of_lt (by omega)]
    omega
  case isFalse hle => omega

/-- The blocks that the write wants are taken from the free ones. -/
theorem WriteSyncs.card_freeBlocks : (freeBlocks t.disk).card =
    (freeBlocks s.disk).card - ((s.shape n).wants off (off + count)).length := by
  obtain ⟨hn', ho', hfilled⟩ := h.after_write hp hv hno hw.done
  have hview : s.view p n = (s.mem p).entry := hno ▸ State.view_self
  have hn : InUse (s.view p) n := hno ▸ h.cached.inUse_view hp hv
  have ho := h.cached.owned_view hp hv
  have href := h.ref_view hp hv
  have htable (h0 : (s.mem p).entry.indirect ≠ 0) := hw.loop.table (.inl h0)
  rw [freeBlocks_fresh hview hn ho hn' ho' hw.refs htable hfilled hw.others (hw.table_kept h hp hv hno),
    Finset.card_sdiff_of_subset (freshSyncs_free hview hn ho hn' ho' hw.refs htable hfilled),
    card_freshSyncs (s := s) ho' hfilled List.nodup_range']
  unfold newSyncs
  rw [isMapped_congr href, hasTable_congr href]
  rfl

/-- A write changes the shape as it should. -/
theorem WriteSyncs.shape (hw' : Whole t) :
    t.shape n = (s.shape n).write (inodeGroup n) off (off + count) := by
  have href := h.ref_view hp hv
  have hused : t.usedBlock = (groupsFor (inodeGroup n) s.usedBlock
      ((s.shape n).wants off (off + count))).foldl countUp s.usedBlock := by
    rw [hw.loop.used, hw.loop.groups, isMapped_congr href, hasTable_congr href]
    rfl
  refine Shape.ext (funext (hw.isMapped_disk h hp hv hno)) (hw.hasTable_disk h hp hv hno) hused ?_ ?_
  · rw [Shape.write_size, State.shape_size, State.shape_size, hw.size_disk h hp hv hno hw']
  · rw [Shape.write_free, State.shape_free, State.shape_free, hw.card_freeBlocks h hp hv hno]

end

/-! ### One operation -/

/-- An open inode, between two system calls: no operation runs, and the inode is not locked. -/
structure BetweenCalls (s : State) (f : Nat) : Prop where
  whole : Whole s
  inode : (s.file f).type = .inode
  listed : (s.file f).ip ∈ s.list
  unlocked : (s.mem (s.file f).ip).locked = false
  inUse : (diskEntry s.disk (s.mem (s.file f).ip).inodeNo).type ≠ inodeInvalid
  opCount : s.log.opCount = 0
  empty : s.log.header.numBlocks = 0
  unused : s.log.logUsed = 0
  logSize : opMaxNumBlocks ≤ s.log.logSize

/-- The operation of `filewrite` that writes `count` bytes. -/
def writeOp (f : Nat) (src : Nat → UInt8) (count : Nat) : M Nat := inOp do
  let file := (← get).file f
  inodeLock sblock file.ip
  let r ← inodeWrite sblock true file.ip src file.off count
  modifyFile f fun file => { file with off := file.off + r }
  inodeUnlock file.ip
  pure r

theorem filewriteLoop_succ (addr : Nat → UInt8) (fuel i : Nat) : filewriteLoop sblock f addr n (fuel + 1) i =
    if i < n then do
      let r ← writeOp f (fun k => addr (i + k)) (min (n - i) filewriteMax)
      assert (r = min (n - i) filewriteMax)
      filewriteLoop sblock f addr n fuel (i + r)
    else pure () := rfl

theorem length_recordAll {c c' : OpContext} {l : List Nat} (hr : recordAll true c l = some c')
    (hc : c.blockNo.length ≤ opMaxNumBlocks) : c'.blockNo.length ≤ opMaxNumBlocks := by
  induction l generalizing c with
  | nil =>
    cases hr
    exact hc
  | cons b l ih =>
    rw [recordAll_cons] at hr
    obtain ⟨c₁, hrecord, hrest⟩ := Option.bind_eq_some_iff.mp hr
    exact ih hrest (OpContext.length_record hrecord hc)

/-- The end of the only operation, before which the log was empty. -/
theorem cacheEndOp_empties (hop : t.log.opCount = 1) (hempty : t.log.header.numBlocks = 0)
    (hctx : t.ctx.blockNo.length ≤ t.log.logSize) (hheld : t.held = []) :
    ∃ v, Runs cacheEndOp t () v ∧ v.log.opCount = 0 ∧ v.log.header.numBlocks = 0 ∧ v.log.logUsed = 0 ∧
      v.log.logSize = t.log.logSize ∧ v.file = t.file := by
  have hnil : t.log.header.entries = [] := by
    rw [← List.length_eq_zero_iff, LogHeader.length_entries, hempty]
  have hroom : t.log.header.numBlocks + t.ctx.blockNo.length ≤ t.log.logSize := by
    rw [hempty, Nat.zero_add]
    exact hctx
  obtain ⟨header, absorbed, -, -, hcommit⟩ := Log.commit_spec t.ctx (by rw [hnil]; exact List.nodup_nil) hroom
  have hcount : t.log.opCount - 1 = 0 := by rw [hop]
  exact ⟨_, cacheEndOp_last hcommit hop hheld, hcount, rfl, rfl, rfl, rfl⟩

/-- The state after the operation, by the state `t` after its write of `count` bytes. -/
structure Finished (f : Nat) (count : Nat) (t v : State) : Prop where
  disk : v.disk = t.disk
  used : v.usedBlock = t.usedBlock
  list : v.list = t.list
  mem : v.mem = Function.update t.mem (t.file f).ip { t.mem (t.file f).ip with locked := false }
  file : v.file = Function.update t.file f { t.file f with off := (t.file f).off + count }
  log : v.log.opCount = 0 ∧ v.log.header.numBlocks = 0 ∧ v.log.logUsed = 0 ∧ v.log.logSize = t.log.logSize
  whole : Whole t → Whole v

theorem Finished.shape (h : Finished f count t v) (n : Nat) : v.shape n = t.shape n := by
  unfold State.shape
  rw [h.disk, h.used]

theorem BetweenCalls.begin_lock (h : BetweenCalls s f) :
    Runs cacheBeginOp s () s.begun ∧
      Runs (inodeLock sblock (s.file f).ip) s.begun () (s.begunLocked (s.file f).ip) ∧
      Whole (s.begunLocked (s.file f).ip) ∧ ((s.begunLocked (s.file f).ip).mem (s.file f).ip).entry.type =
        (diskEntry s.disk (s.mem (s.file f).ip).inodeNo).type := by
  have hroom : s.log.logUsed + opMaxNumBlocks ≤ s.log.logSize := by
    rw [h.unused, Nat.zero_add]
    exact h.logSize
  exact ⟨cacheBeginOp_returns hroom, h.whole.lock_begun hroom h.listed h.unlocked h.inUse⟩

/-- The operation returns if its `inode_write` does. -/
theorem BetweenCalls.finish {r : Nat} (h : BetweenCalls s f)
    (hr : Runs (inodeWrite sblock true (s.file f).ip src (s.file f).off count)
      (s.begunLocked (s.file f).ip) r t)
    (hlog : t.log = s.begun.log) (hheld : t.held = []) (hlist : t.list = s.list) (hfile : t.file = s.file)
    (hlocked : (t.mem (s.file f).ip).locked = true) (hrc : 0 < (t.mem (s.file f).ip).rc)
    (hctx : t.ctx.blockNo.length ≤ opMaxNumBlocks) :
    ∃ v, Runs (writeOp f src count) s r v ∧ Finished f r t v := by
  obtain ⟨hbegin, hlock, -, -⟩ := h.begin_lock
  set p := (s.file f).ip with hp
  let t₁ : State := { t with file := Function.update t.file f { t.file f with off := (t.file f).off + r } }
  let t₂ : State := t₁.setInode p { t₁.mem p with locked := false }
  have hop : t₂.log.opCount = 1 := by
    show t.log.opCount = 1
    rw [hlog]
    show s.log.opCount + 1 = 1
    rw [h.opCount]
  have hempty : t₂.log.header.numBlocks = 0 := by
    show t.log.header.numBlocks = 0
    rw [hlog]
    exact h.empty
  have hsize : t.ctx.blockNo.length ≤ t.log.logSize := by
    rw [hlog]
    exact hctx.trans h.logSize
  obtain ⟨v, hend, hcount, hblocks, hused, hlogSize, hfileEnd⟩ := cacheEndOp_empties hop hempty hsize hheld
  have hunlock : Runs (inodeUnlock p) t₁ () t₂ := runs_inodeUnlock.mpr ⟨hlocked, hrc, rfl⟩
  obtain ⟨hdisk, -, hlistEnd, hmem, -, husedBlock⟩ := runs_cacheEndOp hend
  have hip : (t.file f).ip = p := by rw [hfile]
  refine ⟨v, ?_, hdisk, husedBlock, hlistEnd, ?_, hfileEnd, ⟨hcount, hblocks, hused, hlogSize⟩, fun hw => ?_⟩
  · refine runs_bind.mpr ⟨(), _, hbegin, runs_bind.mpr ⟨r, t₂, ?_, runs_bind.mpr ⟨(), v, hend,
      runs_pure.mpr ⟨rfl, rfl⟩⟩⟩⟩
    refine runs_bind.mpr ⟨s.begun, s.begun, runs_get.mpr ⟨rfl, rfl⟩, runs_bind.mpr ⟨(), _, hlock,
      runs_bind.mpr ⟨r, t, hr, runs_bind.mpr ⟨⟨⟩, t₁, runs_modify.mpr rfl, runs_bind.mpr ⟨(), t₂, hunlock,
        runs_pure.mpr ⟨rfl, rfl⟩⟩⟩⟩⟩⟩
  · rw [hmem, hip]
    rfl
  · have hw₁ : Whole t₁ := hw.sameDisk (hw.cached.congr rfl rfl rfl rfl rfl) rfl rfl hw.size
    have hmem₁ : p ∈ t₁.list := by
      show p ∈ t.list
      rw [hlist]
      exact h.listed
    have hw₂ : Whole t₂ := InodeOp.whole hw₁ (show (InodeOp.unlock p).Allowed t₁ from hmem₁) hunlock
    exact InodeOp.whole hw₂ (show InodeOp.endOp.Allowed t₂ from trivial) hend

/-- An operation that returns has made its `inode_write`. -/
theorem BetweenCalls.runs_write {r : Nat} (h : BetweenCalls s f) (hr : Runs (writeOp f src count) s r v) :
    ∃ t, Runs (inodeWrite sblock true (s.file f).ip src (s.file f).off count)
      (s.begunLocked (s.file f).ip) r t := by
  obtain ⟨hbegin, hlock, -, -⟩ := h.begin_lock
  obtain ⟨_, s₀, hbegin', hr⟩ := runs_bind.mp hr
  obtain ⟨-, rfl⟩ := hbegin.unique hbegin'
  obtain ⟨r', t₂, hx, hr⟩ := runs_bind.mp hr
  obtain ⟨_, _, -, hpure⟩ := runs_bind.mp hr
  obtain ⟨rfl, -⟩ := runs_pure.mp hpure
  obtain ⟨_, _, hget, hx⟩ := runs_bind.mp hx
  obtain ⟨rfl, rfl⟩ := runs_get.mp hget
  obtain ⟨_, s₁, hlock', hx⟩ := runs_bind.mp hx
  obtain ⟨-, rfl⟩ := hlock.unique hlock'
  obtain ⟨r, t, hwrite, hx⟩ := runs_bind.mp hx
  obtain ⟨_, _, -, hx⟩ := runs_bind.mp hx
  obtain ⟨_, _, -, hx⟩ := runs_bind.mp hx
  obtain ⟨rfl, -⟩ := runs_pure.mp hx
  exact ⟨t, hwrite⟩

/-- `inode_write` to a device, whose inode is locked. -/
theorem runs_inodeWrite_device {r : Nat} (h : Whole s) (hp : p ∈ s.list) (hlocked : (s.mem p).locked = true)
    (hdev : (s.mem p).entry.type = inodeDevice) :
    Runs (inodeWrite sblock ctx p src off count) s r t ↔ (s.mem p).entry.major = 1 ∧ r = count ∧ t = s := by
  have hvalid := (h.cached.inode p hp).locked hlocked
  have hrc := h.cached.list.rc p hp
  constructor
  · intro hr
    obtain ⟨rfl, rfl⟩ := h.cached.inodeWrite_device hp hdev hr
    obtain ⟨_, _, hget, hr⟩ := runs_bind.mp hr
    obtain ⟨rfl, rfl⟩ := runs_get.mp hget
    rw [if_pos hdev] at hr
    obtain ⟨_, _, hmajor, -⟩ := runs_bind.mp hr
    exact ⟨(runs_require.mp hmajor).1, rfl, rfl⟩
  · rintro ⟨hmajor, rfl, rfl⟩
    let t₁ : State := t.setInode p { t.mem p with locked := false }
    have hunlock : Runs (inodeUnlock p) t () t₁ := runs_inodeUnlock.mpr ⟨hlocked, hrc, rfl⟩
    have hlock : Runs (inodeLock sblock p) t₁ () (t₁.setInode p (t₁.lockedInode p)) := by
      refine runs_inodeLock.mpr ⟨?_, ?_, ?_, ?_, rfl⟩
      · rw [State.mem_setInode_same]
        exact hrc
      · rw [State.mem_setInode_same]
      · rw [State.mem_setInode_same]
        exact fun hno => absurd (hvalid.symm.trans hno) (by decide)
      · rw [State.loaded, State.mem_setInode_same, if_pos hvalid, hdev]
        decide
    obtain ⟨t', hrun⟩ : ∃ t', Runs (inodeWrite sblock ctx p src off r) t r t' := by
      refine ⟨t₁.setInode p (t₁.lockedInode p), runs_bind.mpr ⟨t, t, runs_get.mpr ⟨rfl, rfl⟩, ?_⟩⟩
      dsimp only
      rw [if_pos hdev]
      exact runs_bind.mpr ⟨(), t, runs_require.mpr ⟨hmajor, rfl⟩, runs_bind.mpr ⟨(), _, hunlock,
        runs_bind.mpr ⟨(), _, hlock, runs_pure.mpr ⟨rfl, rfl⟩⟩⟩⟩
    obtain ⟨-, rfl⟩ := h.cached.inodeWrite_device hp hdev hrun
    exact hrun

/-- What the operation leaves of file `f`: it is between two calls again, its offset moved by `count`. -/
structure AfterOp (s : State) (f count : Nat) (v : State) : Prop where
  ready : BetweenCalls v f
  file : v.file f = { s.file f with off := (s.file f).off + count }
  inodeNo : (v.mem (s.file f).ip).inodeNo = (s.mem (s.file f).ip).inodeNo
  type : (diskEntry v.disk (s.mem (s.file f).ip).inodeNo).type =
    (diskEntry s.disk (s.mem (s.file f).ip).inodeNo).type
  major : (v.loaded (s.file f).ip).major = (s.loaded (s.file f).ip).major

/-- The state after an operation whose write has kept all but blocks and size of the inode. -/
theorem BetweenCalls.after {e : InodeEntry} (h : BetweenCalls s f) (hdone : Finished f count t v)
    (hw : Whole t) (hlog : t.log = s.begun.log) (hlist : t.list = s.list) (hfile : t.file = s.file)
    (hmem : t.mem (s.file f).ip = { (s.begunLocked (s.file f).ip).mem (s.file f).ip with entry := e })
    (hmeta : e.type = (s.loaded (s.file f).ip).type ∧ e.major = (s.loaded (s.file f).ip).major) :
    AfterOp s f count v := by
  set p := (s.file f).ip with hp
  have hip : (t.file f).ip = p := by rw [hfile]
  have hlocked : (s.begunLocked p).mem p = s.begun.lockedInode p := State.mem_setInode_same _
  have hv : v.mem p = { s.begun.lockedInode p with entry := e, locked := false } := by
    rw [hdone.mem, hip, Function.update_self, hmem, hlocked]
  have hvfile : v.file f = { s.file f with off := (s.file f).off + count } := by
    rw [hdone.file, hfile, Function.update_self]
  have hvip : (v.file f).ip = p := by rw [hvfile]
  have hno : (v.mem p).inodeNo = (s.mem p).inodeNo := by
    rw [hv]
    rfl
  have hvlist : p ∈ v.list := by
    rw [hdone.list, hlist]
    exact h.listed
  have hvw := hdone.whole hw
  have hvalid : (v.mem p).valid = true := by
    rw [hv]
    rfl
  have hloaded : (s.loaded p).type = (diskEntry s.disk (s.mem p).inodeNo).type := by
    unfold State.loaded
    split
    case isTrue hvs => exact ((h.whole.cached.inode _ h.listed).same hvs).type
    case isFalse => rfl
  have htype : (diskEntry v.disk (s.mem p).inodeNo).type = (diskEntry s.disk (s.mem p).inodeNo).type := by
    have hsame := ((hvw.cached.inode p hvlist).same hvalid).type
    rw [hno, hv] at hsame
    rw [← hsame, ← hloaded]
    exact hmeta.1
  obtain ⟨hcount, hempty, hunused, hsize⟩ := hdone.log
  refine ⟨⟨hvw, ?_, ?_, ?_, ?_, hcount, hempty, hunused, ?_⟩, hvfile, hno, htype, ?_⟩
  · rw [hvfile]
    exact h.inode
  · rw [hvip]
    exact hvlist
  · rw [hvip, hv]
  · rw [hvip, hno, htype]
    exact h.inUse
  · rw [hsize, hlog]
    exact h.logSize
  · rw [State.loaded, if_pos hvalid, hv]
    exact hmeta.2

section

variable (h : BetweenCalls s f) (hn : (s.mem (s.file f).ip).inodeNo = n)

include h hn

/-- The operation for a file: it returns exactly if the shape takes the write, and changes the shape. -/
theorem BetweenCalls.writeOp_file (src : Nat → UInt8) (hdev : (diskEntry s.disk n).type ≠ inodeDevice)
    (hcount : 0 < count) :
    ((∃ r v, Runs (writeOp f src count) s r v) ↔
      (s.shape n).Takes (inodeGroup n) (s.file f).off ((s.file f).off + count)) ∧
    ∀ r v, Runs (writeOp f src count) s r v → r = count ∧ AfterOp s f count v ∧
      v.shape n = (s.shape n).write (inodeGroup n) (s.file f).off ((s.file f).off + count) := by
  obtain ⟨-, -, hw, htype⟩ := h.begin_lock
  set p := (s.file f).ip with hp
  set off := (s.file f).off with hoff
  set u := s.begunLocked p with hu
  have hmem : u.mem p = s.begun.lockedInode p := State.mem_setInode_same _
  have hpu : p ∈ u.list := h.listed
  have hv : (u.mem p).valid = true := by
    rw [hmem]
    rfl
  have hno : (u.mem p).inodeNo = n := by
    rw [hmem]
    exact hn
  have hdev' : (u.mem p).entry.type ≠ inodeDevice := by rwa [htype, hn]
  have hsize : (u.mem p).entry.numBytes = (diskEntry s.disk n).numBytes := by
    rw [hw.size p hpu hv, hno]
    rfl
  have hctx : u.ctx.blockNo = [] := rfl
  -- a write that the shape takes
  have htakes (hfit : (s.shape n).Takes (inodeGroup n) off (off + count)) :
      ∃ v, Runs (writeOp f src count) s count v ∧ AfterOp s f count v ∧
        v.shape n = (s.shape n).write (inodeGroup n) off (off + count) := by
    obtain ⟨hle, hmax, hfree, hcost⟩ := hfit
    have hneed : need n off (off + count) (diskEntry u.disk) u.disk ≤ (freeBlocks u.disk).card := by
      rw [need_eq_newSyncs (by omega)]
      rw [State.shape_free] at hfree
      exact hfree
    obtain ⟨t, l, new, e, hsyncs⟩ := hw.writeSyncs src off count hpu hv hno hdev'
      (by rw [hsize]; exact hle) hmax hneed
    have hrecord := recordAll_isSome (c := u.ctx) (by rw [OpContext.Ok, hctx]; decide)
      (l ++ inodeSyncs u n off (off + count))
    rw [hctx, List.nil_append, hsyncs.card hw hpu hv hno] at hrecord
    obtain ⟨c, hc⟩ := Option.isSome_iff_exists.mp (hrecord.mpr hcost)
    have hrun : Runs (inodeWrite sblock true p src off count) u count { t with ctx := c } :=
      hsyncs.syncs.runs hc
    have hframe := hsyncs.done.frame
    have htm : t.mem p = { u.mem p with entry := e } := hframe.inode
    have hlen : c.blockNo.length ≤ opMaxNumBlocks := length_recordAll hc (by rw [hctx]; exact Nat.zero_le _)
    obtain ⟨v, hop, hdone⟩ := h.finish hrun (hframe.log.trans rfl) (hframe.held.trans hw.cached.held)
      (hframe.list.trans rfl) (hframe.file.trans rfl) (by
        show (t.mem p).locked = true
        rw [htm, hmem]
        rfl) (by
        show 0 < (t.mem p).rc
        rw [htm, hmem]
        exact h.whole.cached.list.rc p h.listed) hlen
    have hwt : Whole { t with ctx := c } := hw.inodeWrite hpu hv hrun
    have hwt' : Whole t := hw.inodeWrite hpu hv hsyncs.syncs.plain
    refine ⟨v, hop, h.after hdone hwt (hframe.log.trans rfl) (hframe.list.trans rfl)
      (hframe.file.trans rfl) htm ?_, ?_⟩
    · have hent : (u.mem p).entry = s.loaded p := by
        rw [hmem]
        rfl
      rw [← hent]
      exact ⟨hsyncs.done.fields.type, hsyncs.done.fields.major⟩
    · have hshape := hsyncs.shape hw hpu hv hno hwt'
      rw [show u.shape n = s.shape n from rfl] at hshape
      exact (hdone.shape n).trans hshape
  have hfits {r : Nat} {v : State} (hr : Runs (writeOp f src count) s r v) :
      (s.shape n).Takes (inodeGroup n) off (off + count) := by
    obtain ⟨t, hwrite⟩ := h.runs_write hr
    obtain ⟨rfl, -⟩ := hw.cached.inodeWrite hpu hv hdev' hwrite
    obtain ⟨hle, hmax, hneed⟩ := hw.need_le_free hpu hv hno hdev' hcount hwrite
    refine ⟨by rw [State.shape_size, ← hsize]; exact hle, hmax, ?_, ?_⟩
    · rw [State.shape_free]
      have hneed' := hneed
      rw [need_eq_newSyncs (by omega)] at hneed'
      exact hneed'
    · by_contra hlarge
      exact not_runs_of_error
        ((inodeWrite_decided src off r hw hpu hv hno hdev' hctx hle hmax hneed).2 hlarge) hwrite
  refine ⟨⟨fun ⟨r, v, hr⟩ => hfits hr, fun hfit => ?_⟩, fun r v hr => ?_⟩
  · obtain ⟨v, hr, -⟩ := htakes hfit
    exact ⟨count, v, hr⟩
  · obtain ⟨v', hr', hafter⟩ := htakes (hfits hr)
    obtain ⟨rfl, rfl⟩ := hr'.unique hr
    exact ⟨rfl, hafter⟩

omit hn in
/-- The operation for a device. -/
theorem BetweenCalls.writeOp_device (src : Nat → UInt8) (count : Nat)
    (hdev : (diskEntry s.disk (s.mem (s.file f).ip).inodeNo).type = inodeDevice) :
    ((∃ r v, Runs (writeOp f src count) s r v) ↔ (s.loaded (s.file f).ip).major = 1) ∧
    ∀ r v, Runs (writeOp f src count) s r v → r = count ∧ AfterOp s f count v := by
  obtain ⟨-, -, hw, htype⟩ := h.begin_lock
  set p := (s.file f).ip with hp
  set u := s.begunLocked p with hu
  have hmem : u.mem p = s.begun.lockedInode p := State.mem_setInode_same _
  have hent : (u.mem p).entry = s.loaded p := by
    rw [hmem]
    rfl
  have hpu : p ∈ u.list := h.listed
  have hdev' : (u.mem p).entry.type = inodeDevice := by rw [htype, hdev]
  have hlocked : (u.mem p).locked = true := by
    rw [hmem]
    rfl
  have hrc : 0 < (u.mem p).rc := by
    rw [hmem]
    exact h.whole.cached.list.rc p h.listed
  have hreturns (hmajor : (s.loaded p).major = 1) :
      ∃ v, Runs (writeOp f src count) s count v ∧ AfterOp s f count v := by
    have hrun : Runs (inodeWrite sblock true p src (s.file f).off count) u count u :=
      (runs_inodeWrite_device hw hpu hlocked hdev').mpr ⟨by rw [hent]; exact hmajor, rfl, rfl⟩
    obtain ⟨v, hop, hdone⟩ := h.finish hrun rfl hw.cached.held rfl rfl hlocked hrc (Nat.zero_le _)
    exact ⟨v, hop, h.after (e := (u.mem p).entry) hdone hw rfl rfl rfl rfl
      ⟨by rw [hent], by rw [hent]⟩⟩
  refine ⟨⟨?_, fun hmajor => ?_⟩, fun r v hr => ?_⟩
  · rintro ⟨r, v, hr⟩
    obtain ⟨t, hwrite⟩ := h.runs_write hr
    rw [← hent]
    exact ((runs_inodeWrite_device hw hpu hlocked hdev').mp hwrite).1
  · obtain ⟨v, hr, -⟩ := hreturns hmajor
    exact ⟨count, v, hr⟩
  · obtain ⟨t, hwrite⟩ := h.runs_write hr
    obtain ⟨hmajor, -, -⟩ := (runs_inodeWrite_device hw hpu hlocked hdev').mp hwrite
    obtain ⟨v', hr', hafter⟩ := hreturns (by rw [← hent]; exact hmajor)
    obtain ⟨rfl, rfl⟩ := hr'.unique hr
    exact ⟨rfl, hafter⟩

end

/-! ### `filewrite` -/

theorem AfterOp.refl (h : BetweenCalls s f) : AfterOp s f 0 s := ⟨h, rfl, rfl, rfl, rfl⟩

theorem AfterOp.trans {k' : Nat} (h : AfterOp s f k t) (h' : AfterOp t f k' v) : AfterOp s f (k + k') v := by
  have hip : (t.file f).ip = (s.file f).ip := by rw [h.file]
  have hno := h'.inodeNo
  have htype := h'.type
  have hmajor := h'.major
  rw [hip] at hno htype hmajor
  rw [h.inodeNo] at hno htype
  refine ⟨h'.ready, ?_, hno, htype.trans h.type, hmajor.trans h.major⟩
  rw [h'.file, h.file, Nat.add_assoc]

theorem runs_filewrite {addr : Nat → UInt8} {r : Int} (h : BetweenCalls s f) (hw : (s.file f).writable = true) :
    Runs (filewrite sblock f addr count) s r v ↔
      Runs (filewriteLoop sblock f addr count count 0) s () v ∧ r = count := by
  constructor
  · intro hr
    obtain ⟨_, _, hget, hr⟩ := runs_bind.mp hr
    obtain ⟨rfl, rfl⟩ := runs_get.mp hget
    rw [if_pos hw] at hr
    obtain ⟨_, _, hassert, hr⟩ := runs_bind.mp hr
    obtain ⟨-, rfl⟩ := runs_require.mp hassert
    obtain ⟨_, _, hloop, hr⟩ := runs_bind.mp hr
    obtain ⟨rfl, rfl⟩ := runs_pure.mp hr
    exact ⟨hloop, rfl⟩
  · rintro ⟨hloop, rfl⟩
    refine runs_bind.mpr ⟨s, s, runs_get.mpr ⟨rfl, rfl⟩, ?_⟩
    rw [if_pos hw]
    exact runs_bind.mpr ⟨(), s, runs_require.mpr ⟨h.inode, rfl⟩, runs_bind.mpr ⟨(), v, hloop,
      runs_pure.mpr ⟨rfl, rfl⟩⟩⟩

/-- One round of the loop. -/
theorem runs_filewriteLoop {addr : Nat → UInt8} {fuel i : Nat} (hlt : i < n) :
    Runs (filewriteLoop sblock f addr n (fuel + 1) i) s () v ↔
      ∃ t, Runs (writeOp f (fun k => addr (i + k)) (min (n - i) filewriteMax)) s (min (n - i) filewriteMax) t ∧
        Runs (filewriteLoop sblock f addr n fuel (i + min (n - i) filewriteMax)) t () v := by
  rw [filewriteLoop_succ, if_pos hlt]
  constructor
  · intro hr
    obtain ⟨r, t, hwrite, hr⟩ := runs_bind.mp hr
    obtain ⟨_, _, hassert, hr⟩ := runs_bind.mp hr
    obtain ⟨rfl, rfl⟩ := runs_require.mp hassert
    exact ⟨t, hwrite, hr⟩
  · rintro ⟨t, hwrite, hr⟩
    exact runs_bind.mpr ⟨_, t, hwrite, runs_bind.mpr ⟨(), t, runs_require.mpr ⟨rfl, rfl⟩, hr⟩⟩

theorem runs_filewriteLoop_end {addr : Nat → UInt8} {fuel : Nat} :
    Runs (filewriteLoop sblock f addr n fuel n) s () v ↔ v = s := by
  cases fuel with
  | zero =>
    unfold filewriteLoop
    rw [runs_pure]
    exact (and_iff_right rfl).trans eq_comm
  | succ fuel =>
    rw [filewriteLoop_succ, if_neg (Nat.lt_irrefl n), runs_pure]
    exact (and_iff_right rfl).trans eq_comm

/-- What one operation takes is less than `filewrite` gives to one. -/
theorem Shape.Takes.small {h : Shape} {home : Nat} (htakes : h.Takes home off (off + count)) :
    count < filewriteMax := by
  obtain ⟨-, -, -, hcost⟩ := htakes
  have hlen : (blocksAt off (off + count)).length ≤ opMaxNumBlocks := by
    refine Nat.le_trans ?_ hcost
    unfold Shape.cost loopSize
    omega
  have htouched : count / 512 ≤ touched off (off + count) := touched_ge
  rw [← length_blocksAt] at htouched
  have hop : opMaxNumBlocks = 10 := rfl
  have hmax : filewriteMax = 34816 := rfl
  omega

/-- The loop for a device, from byte `i` on. -/
theorem BetweenCalls.filewriteLoop_device (h : BetweenCalls s f) (addr : Nat → UInt8)
    (hdev : (diskEntry s.disk (s.mem (s.file f).ip).inodeNo).type = inodeDevice) (fuel : Nat) {i : Nat}
    (hle : i ≤ count) (hfuel : count ≤ i + fuel) :
    ((∃ v, Runs (filewriteLoop sblock f addr count fuel i) s () v) ↔
      (i < count → (s.loaded (s.file f).ip).major = 1)) ∧
    ∀ v, Runs (filewriteLoop sblock f addr count fuel i) s () v → AfterOp s f (count - i) v := by
  have hend {s : State} (h : BetweenCalls s f) (fuel : Nat) :
      ((∃ v, Runs (filewriteLoop sblock f addr count fuel count) s () v) ↔
        (count < count → (s.loaded (s.file f).ip).major = 1)) ∧
      ∀ v, Runs (filewriteLoop sblock f addr count fuel count) s () v → AfterOp s f (count - count) v := by
    refine ⟨iff_of_true ⟨s, runs_filewriteLoop_end.mpr rfl⟩ fun hlt => absurd hlt (Nat.lt_irrefl count),
      fun v hr => ?_⟩
    rw [runs_filewriteLoop_end.mp hr, Nat.sub_self]
    exact AfterOp.refl h
  induction fuel generalizing s i with
  | zero =>
    obtain rfl : i = count := by omega
    exact hend h 0
  | succ fuel ih =>
    obtain rfl | hlt := Nat.eq_or_lt_of_le hle
    · exact hend h (fuel + 1)
    · set m := min (count - i) filewriteMax with hm
      have hpos : 0 < m := Nat.lt_min.mpr ⟨by omega, by decide⟩
      have hcount : i + m ≤ count := by omega
      obtain ⟨hop, hafter⟩ := h.writeOp_device (fun k => addr (i + k)) m hdev
      have hrest {t : State} (hdone : AfterOp s f m t) :
          ((∃ v, Runs (filewriteLoop sblock f addr count fuel (i + m)) t () v) ↔
            (i + m < count → (s.loaded (s.file f).ip).major = 1)) ∧
          ∀ v, Runs (filewriteLoop sblock f addr count fuel (i + m)) t () v →
            AfterOp t f (count - (i + m)) v := by
        have hip : (t.file f).ip = (s.file f).ip := by rw [hdone.file]
        have hnext := ih hdone.ready (by rw [hip, hdone.inodeNo, hdone.type, hdev]) hcount (by omega)
        rwa [hip, hdone.major] at hnext
      constructor
      · constructor
        · rintro ⟨v, hr⟩ -
          obtain ⟨t, hwrite, -⟩ := (runs_filewriteLoop hlt).mp hr
          exact hop.mp ⟨_, t, hwrite⟩
        · intro hmajor
          obtain ⟨r, t, hwrite⟩ := hop.mpr (hmajor hlt)
          obtain ⟨rfl, hdone⟩ := hafter r t hwrite
          obtain ⟨v, hr⟩ := (hrest hdone).1.mpr fun _ => hmajor hlt
          exact ⟨v, (runs_filewriteLoop hlt).mpr ⟨t, hwrite, hr⟩⟩
      · intro v hr
        obtain ⟨t, hwrite, hr⟩ := (runs_filewriteLoop hlt).mp hr
        obtain ⟨-, hdone⟩ := hafter _ t hwrite
        have hsum : m + (count - (i + m)) = count - i := by omega
        rw [← hsum]
        exact hdone.trans ((hrest hdone).2 v hr)

section

variable (h : BetweenCalls s f) (hw : (s.file f).writable = true)

include h hw

theorem BetweenCalls.runs_first {addr : Nat → UInt8} {r : Int} (hcount : 0 < count)
    (hr : Runs (filewrite sblock f addr count) s r v) :
    ∃ t, Runs (writeOp f (fun k => addr (0 + k)) (min count filewriteMax)) s (min count filewriteMax) t ∧
      Runs (filewriteLoop sblock f addr count (count - 1) (0 + min count filewriteMax)) t () v := by
  obtain ⟨hloop, -⟩ := (runs_filewrite h hw).mp hr
  obtain ⟨fuel, rfl⟩ : ∃ fuel, count = fuel + 1 := ⟨count - 1, by omega⟩
  exact (runs_filewriteLoop hcount).mp hloop

/-- A write of no more bytes than one operation takes. -/
theorem BetweenCalls.runs_filewrite_one {addr : Nat → UInt8} {r : Int} (hcount : 0 < count)
    (hmax : count ≤ filewriteMax) :
    Runs (filewrite sblock f addr count) s r v ↔
      Runs (writeOp f (fun k => addr (0 + k)) count) s count v ∧ r = count := by
  rw [runs_filewrite h hw]
  refine and_congr_left fun _ => ?_
  obtain ⟨fuel, rfl⟩ : ∃ fuel, count = fuel + 1 := ⟨count - 1, by omega⟩
  rw [runs_filewriteLoop hcount, Nat.sub_zero, Nat.min_eq_left hmax, Nat.zero_add]
  constructor
  · rintro ⟨t, hwrite, hend⟩
    rwa [runs_filewriteLoop_end.mp hend]
  · exact fun hwrite => ⟨v, hwrite, runs_filewriteLoop_end.mpr rfl⟩

/-- A write to a file is one operation, if it returns. -/
theorem BetweenCalls.filewrite_file (addr : Nat → UInt8) (hn : (s.mem (s.file f).ip).inodeNo = n)
    (hdev : (diskEntry s.disk n).type ≠ inodeDevice) (hcount : 0 < count) :
    ((∃ r v, Runs (filewrite sblock f addr count) s r v) ↔
      (s.shape n).Takes (inodeGroup n) (s.file f).off ((s.file f).off + count)) ∧
    ∀ r v, Runs (filewrite sblock f addr count) s r v → AfterOp s f count v ∧
      v.shape n = (s.shape n).write (inodeGroup n) (s.file f).off ((s.file f).off + count) := by
  have hpos : 0 < min count filewriteMax := Nat.lt_min.mpr ⟨hcount, by decide⟩
  have hsmall {r : Int} {v : State} (hr : Runs (filewrite sblock f addr count) s r v) :
    count < filewriteMax := by
    obtain ⟨t, hwrite, -⟩ := h.runs_first hw hcount hr
    obtain ⟨hop, -⟩ := h.writeOp_file hn (fun k => addr (0 + k)) hdev hpos
    have hlt := (hop.mp ⟨_, t, hwrite⟩).small
    omega
  obtain ⟨hop, hafter⟩ := h.writeOp_file hn (fun k => addr (0 + k)) hdev hcount
  constructor
  · constructor
    · rintro ⟨r, v, hr⟩
      exact hop.mp ⟨_, v, ((h.runs_filewrite_one hw hcount (hsmall hr).le).mp hr).1⟩
    · intro htakes
      obtain ⟨r, v, hwrite⟩ := hop.mpr htakes
      obtain ⟨rfl, -⟩ := hafter r v hwrite
      exact ⟨r, v, (h.runs_filewrite_one hw hcount htakes.small.le).mpr ⟨hwrite, rfl⟩⟩
  · intro r v hr
    exact (hafter _ v ((h.runs_filewrite_one hw hcount (hsmall hr).le).mp hr).1).2

/-- A write to a device. -/
theorem BetweenCalls.filewrite_device (addr : Nat → UInt8)
    (hdev : (diskEntry s.disk (s.mem (s.file f).ip).inodeNo).type = inodeDevice) :
    ((∃ r v, Runs (filewrite sblock f addr count) s r v) ↔
      (0 < count → (s.loaded (s.file f).ip).major = 1)) ∧
    ∀ r v, Runs (filewrite sblock f addr count) s r v → AfterOp s f count v := by
  obtain ⟨hiff, hafter⟩ := h.filewriteLoop_device addr hdev count (Nat.zero_le count)
    (Nat.le_of_eq (Nat.zero_add count).symm)
  constructor
  · rw [← hiff]
    constructor
    · rintro ⟨r, v, hr⟩
      exact ⟨v, ((runs_filewrite h hw).mp hr).1⟩
    · rintro ⟨v, hr⟩
      exact ⟨_, v, (runs_filewrite h hw).mpr ⟨hr, rfl⟩⟩
  · intro r v hr
    exact hafter v ((runs_filewrite h hw).mp hr).1

end

/-- What decides whether writes of `counts` bytes to file `f`, one behind the other, pass all assertions:
a device is the console, or no byte is written to it; a file takes each write as the ones before leave it. -/
def WritesFit (s : State) (f : Nat) (counts : List Nat) : Prop :=
  if (diskEntry s.disk (s.mem (s.file f).ip).inodeNo).type = inodeDevice then
    (∃ c ∈ counts, 0 < c) → (s.loaded (s.file f).ip).major = 1
  else (s.shape (s.mem (s.file f).ip).inodeNo).Fits (inodeGroup (s.mem (s.file f).ip).inodeNo)
    (s.file f).off counts

theorem writesFit_file {counts : List Nat}
    (hdev : (diskEntry s.disk (s.mem (s.file f).ip).inodeNo).type ≠ inodeDevice) :
    WritesFit s f counts ↔ (s.shape (s.mem (s.file f).ip).inodeNo).Fits
      (inodeGroup (s.mem (s.file f).ip).inodeNo) (s.file f).off counts := by
  unfold WritesFit
  rw [if_neg hdev]

theorem writesFit_nil : WritesFit s f [] := by
  unfold WritesFit
  split
  · rintro ⟨c, hc, -⟩
    cases hc
  · exact trivial

theorem writesFit_zero {counts : List Nat} : WritesFit s f (0 :: counts) ↔ WritesFit s f counts := by
  simp [WritesFit]

theorem BetweenCalls.filewrite_after (h : BetweenCalls s f) (hw : (s.file f).writable = true)
    {addr : Nat → UInt8} {r : Int} (hcount : 0 < count) (hr : Runs (filewrite sblock f addr count) s r v) :
    AfterOp s f count v := by
  by_cases hdev : (diskEntry s.disk (s.mem (s.file f).ip).inodeNo).type = inodeDevice
  · exact (h.filewrite_device hw addr hdev).2 r v hr
  · exact ((h.filewrite_file hw addr rfl hdev hcount).2 r v hr).1

/-- The first write decides for itself, and the others after it. -/
theorem BetweenCalls.writesFit_cons (h : BetweenCalls s f) (hw : (s.file f).writable = true)
    (addr : Nat → UInt8) (hcount : 0 < count) {counts : List Nat} :
    WritesFit s f (count :: counts) ↔
      ∃ r v, Runs (filewrite sblock f addr count) s r v ∧ WritesFit v f counts := by
  have hfile {r : Int} {v : State} (hr : Runs (filewrite sblock f addr count) s r v) :
      (v.file f).ip = (s.file f).ip ∧ (v.file f).off = (s.file f).off + count := by
    rw [(h.filewrite_after hw hcount hr).file]
    exact ⟨rfl, rfl⟩
  by_cases hdev : (diskEntry s.disk (s.mem (s.file f).ip).inodeNo).type = inodeDevice
  case pos =>
    obtain ⟨hiff, hdone⟩ : ((∃ r v, Runs (filewrite sblock f addr count) s r v) ↔ _) ∧ _ :=
      h.filewrite_device hw addr hdev
    have hrest {r : Int} {v : State} (hr : Runs (filewrite sblock f addr count) s r v) :
        WritesFit v f counts ↔ ((∃ c ∈ counts, 0 < c) → (s.loaded (s.file f).ip).major = 1) := by
      have hop := hdone r v hr
      unfold WritesFit
      rw [(hfile hr).1, hop.inodeNo, hop.type, if_pos hdev, hop.major]
    unfold WritesFit
    rw [if_pos hdev]
    constructor
    · intro hmajor
      have hmajor' := hmajor ⟨count, List.mem_cons_self, hcount⟩
      obtain ⟨r, v, hr⟩ := hiff.mpr fun _ => hmajor'
      exact ⟨r, v, hr, (hrest hr).mpr fun _ => hmajor'⟩
    · rintro ⟨r, v, hr, -⟩ -
      exact hiff.mp ⟨r, v, hr⟩ hcount
  case neg =>
    obtain ⟨hiff, hdone⟩ := h.filewrite_file hw addr rfl hdev hcount
    have hrest {r : Int} {v : State} (hr : Runs (filewrite sblock f addr count) s r v) :
        WritesFit v f counts ↔ ((s.shape (s.mem (s.file f).ip).inodeNo).write
          (inodeGroup (s.mem (s.file f).ip).inodeNo) (s.file f).off ((s.file f).off + count)).Fits
            (inodeGroup (s.mem (s.file f).ip).inodeNo) ((s.file f).off + count) counts := by
      obtain ⟨hop, hshape⟩ := hdone r v hr
      rw [writesFit_file (by rw [(hfile hr).1, hop.inodeNo, hop.type]; exact hdev), (hfile hr).1, (hfile hr).2,
        hop.inodeNo, hshape]
    rw [writesFit_file hdev, Shape.Fits, if_neg (Nat.ne_of_gt hcount)]
    constructor
    · rintro ⟨htakes, hfits⟩
      obtain ⟨r, v, hr⟩ := hiff.mpr htakes
      exact ⟨r, v, hr, (hrest hr).mpr hfits⟩
    · rintro ⟨r, v, hr, hfits⟩
      exact ⟨hiff.mp ⟨r, v, hr⟩, (hrest hr).mp hfits⟩

end FtosFfs.Fs
