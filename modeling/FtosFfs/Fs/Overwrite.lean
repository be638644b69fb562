import FtosFfs.Fs.Filewrite

/-! Files as byte arrays in operations: which blocks a write adds to the record of an operation that may
have recorded others before. -/

namespace FtosFfs.Fs

open Lib Lib.Exec Cache

variable {s t : State} {p : Ptr} {n k : Nat} {src : Nat → UInt8} {off stop count : Nat}
  {E E' : Nat → InodeEntry} {d d' : Nat → BlockData}

/-! ### Old blocks and new ones -/

/-- The bitmap block of group `g`. -/
def groupBitmap (g : Nat) : Nat := sblock.bgStart + g * sblock.blocksPerGroup + sblock.bitmapStartPerGroup

/-- A slot of the index block is filled for one of the blocks `ks`. -/
def FillsSlot (mapped : Nat → Bool) (ks : List Nat) : Prop := ∃ k ∈ ks, inodeNumDirect ≤ k ∧ mapped k = false

instance (mapped : Nat → Bool) (ks : List Nat) : Decidable (FillsSlot mapped ks) :=
  inferInstanceAs (Decidable (∃ k ∈ ks, _))

/-- Of the blocks that the loop of `inode_write` syncs, those that are there before it: the bitmaps, the
blocks of the file and the index block. -/
def oldSyncs (E : Nat → InodeEntry) (d : Nat → BlockData) (n : Nat) (used : Nat → UInt32) (ks : List Nat) :
    List Nat :=
  (groupsFor (inodeGroup n) used (wants (isMapped E d n) (hasTable E d n) ks)).map groupBitmap ++
    (ks.filter (isMapped E d n)).map (fun k => ref E d (n, place k)) ++
    if hasTable E d n = true ∧ FillsSlot (isMapped E d n) ks then [ref E d (n, .table)] else []

/-- The number of blocks that the loop of `inode_write` allocates. -/
def newSyncs (E : Nat → InodeEntry) (d : Nat → BlockData) (n : Nat) (ks : List Nat) : Nat :=
  (wants (isMapped E d n) (hasTable E d n) ks).length

theorem fillsSlot_cons (mapped : Nat → Bool) (k : Nat) (ks : List Nat) :
    FillsSlot mapped (k :: ks) ↔ (inodeNumDirect ≤ k ∧ mapped k = false) ∨ FillsSlot mapped ks :=
  List.exists_mem_cons_iff ..

theorem length_wants (mapped : Nat → Bool) (table : Bool) (ks : List Nat) :
    (wants mapped table ks).length = (ks.filter fun k => !mapped k).length +
      if table = false ∧ FillsSlot mapped ks then 1 else 0 := by
  induction ks generalizing table with
  | nil => simp [wants, FillsSlot]
  | cons k ks ih =>
    rw [wants, List.length_append, ih, List.filter_cons]
    unfold wantsAt
    by_cases hk : mapped k = true
    · simp [hk, fillsSlot_cons]
    · by_cases h12 : k < inodeNumDirect
      · simp [hk, h12, Nat.not_le.mpr h12, fillsSlot_cons]
        omega
      · cases table
        · simp [hk, h12, Nat.not_lt.mp h12, fillsSlot_cons]
          omega
        · simp [hk, h12, fillsSlot_cons]
          omega

theorem place_of_ref {pl : Place} (h : ref E d (n, pl) ≠ 0) : pl = .table ∨ ∃ k, pl = place k := by
  cases pl with
  | table => exact .inl rfl
  | slot k => exact .inr ⟨inodeNumDirect + k, by simp [place]⟩
  | direct i =>
    refine .inr ⟨i, ?_⟩
    by_cases hi : i < inodeNumDirect
    · exact (if_pos hi).symm
    · refine absurd ?_ h
      unfold ref
      split
      case isTrue => simp [blockOf, InodeEntry.addr, hi]
      case isFalse => rfl

/-- A block that a slot gets has been free before. -/
theorem BlocksOwned.free_of_new {i : Nat × Place} (h : BlocksOwned E d) (h' : BlocksOwned E' d')
    (hkept : ∀ j, ref E d j ≠ 0 → ref E' d' j = ref E d j) (hold : ref E d i = 0) (hnew : ref E' d' i ≠ 0) :
    ref E' d' i ∈ freeBlocks d := by
  have hdata : IsData (ref E' d' i) := h'.owns.inArea i hnew
  refine mem_freeBlocks.mpr ⟨hdata, Bool.eq_false_iff.mpr fun hbit => ?_⟩
  obtain ⟨j, hj⟩ := (h.owns.exact _ hdata).mp hbit
  have hj0 : ref E d j ≠ 0 := by
    rw [hj]
    exact hnew
  have heq : ref E' d' i = ref E' d' j := by
    rw [hkept j hj0, hj]
  rw [h'.owns.distinct i j hnew heq] at hold
  exact hj0 hold

/-- A block of a slot is not free. -/
theorem BlocksOwned.ref_notFree {i : Nat × Place} (h : BlocksOwned E d) (hi : ref E d i ≠ 0) :
    ref E d i ∉ freeBlocks d := by
  intro hfree
  have hbit := h.owns.used_ref hi
  rw [(mem_freeBlocks.mp hfree).2] at hbit
  cases hbit

/-- The blocks that the loop allocates. -/
def freshSyncs (E E' : Nat → InodeEntry) (d d' : Nat → BlockData) (n : Nat) (ks : List Nat) : Finset Nat :=
  ((ks.filter fun k => !isMapped E d n k).map fun k => ref E' d' (n, place k)).toFinset ∪
    if hasTable E d n = false ∧ FillsSlot (isMapped E d n) ks then {ref E' d' (n, .table)} else ∅

theorem regroup {a b c d e : Prop} : a ∨ (b ∨ c) ∨ d ∨ e ↔ ((a ∨ b) ∨ d) ∨ c ∨ e := by tauto

section

variable {ks l new : List Nat} (hE : E n = (s.mem p).entry) (hn : InUse E n) (ho : BlocksOwned E s.disk)
  (hn' : InUse (Function.update E n (t.mem p).entry) n)
  (ho' : BlocksOwned (Function.update E n (t.mem p).entry) t.disk)
  (hrefs : ∀ m k, ref E s.disk (m, place k) ≠ 0 →
    ref (Function.update E n (t.mem p).entry) t.disk (m, place k) = ref E s.disk (m, place k))
  (htable : (s.mem p).entry.indirect ≠ 0 → (t.mem p).entry.indirect = (s.mem p).entry.indirect)
  (hfilled : ∀ k ∈ ks, ref (Function.update E n (t.mem p).entry) t.disk (n, place k) ≠ 0)

include hE hn hn' hrefs htable in
/-- A block that is in a place stays there. -/
theorem refs_kept (j : Nat × Place) (hj : ref E s.disk j ≠ 0) :
    ref (Function.update E n (t.mem p).entry) t.disk j = ref E s.disk j := by
  obtain ⟨m, pl⟩ := j
  obtain rfl | ⟨k, rfl⟩ := place_of_ref hj
  · by_cases hm : m = n
    · subst hm
      rw [ref_of_inUse hn, hE] at hj
      rw [ref_of_inUse hn', Function.update_self, ref_of_inUse hn, hE]
      show (t.mem p).entry.indirect.toNat = (s.mem p).entry.indirect.toNat
      rw [htable fun h0 => hj (toNat_eq_zero.mpr h0)]
    · rw [ref_update_ne hm]
      rfl
  · exact hrefs m k hj

include hn' hfilled in
/-- A table is there after a slot has been filled. -/
theorem table_filled (hslot : FillsSlot (isMapped E s.disk n) ks) :
    ref (Function.update E n (t.mem p).entry) t.disk (n, .table) = (t.mem p).entry.indirect.toNat ∧
      ref (Function.update E n (t.mem p).entry) t.disk (n, .table) ≠ 0 := by
  have htab : ref (Function.update E n (t.mem p).entry) t.disk (n, .table) =
    (t.mem p).entry.indirect.toNat := by
    rw [ref_of_inUse hn', Function.update_self]
    rfl
  obtain ⟨k, hk, hk12, -⟩ := hslot
  exact ⟨htab, table_of_slot hk12 (hfilled k hk)⟩

include hE hn ho hn' ho' hrefs htable hfilled in
/-- The blocks that the loop allocates have been free. -/
theorem freshSyncs_free :
    freshSyncs E (Function.update E n (t.mem p).entry) s.disk t.disk n ks ⊆ freeBlocks s.disk := by
  have hkept := refs_kept hE hn hn' hrefs htable
  intro x hx
  unfold freshSyncs at hx
  rcases Finset.mem_union.mp hx with hx | hx
  · obtain ⟨k, hk, rfl⟩ := List.mem_map.mp (List.mem_toFinset.mp hx)
    obtain ⟨hk, hmap⟩ := List.mem_filter.mp hk
    exact ho.free_of_new ho' hkept (by simpa [isMapped] using hmap) (hfilled k hk)
  · split at hx
    case isTrue hc =>
      rw [Finset.mem_singleton.mp hx]
      exact ho.free_of_new ho' hkept (by simpa [hasTable] using hc.1) (table_filled hn' hfilled hc.2).2
    case isFalse => exact absurd hx (Finset.notMem_empty x)

include ho' hfilled in
/-- The loop allocates as many blocks as it wants. -/
theorem card_freshSyncs (hks : ks.Nodup) :
    (freshSyncs E (Function.update E n (t.mem p).entry) s.disk t.disk n ks).card = newSyncs E s.disk n ks := by
  have hinj : ((ks.filter fun k => !isMapped E s.disk n k).map fun k =>
      ref (Function.update E n (t.mem p).entry) t.disk (n, place k)).Nodup := by
    refine (hks.filter _).map_on fun k hk k' _ heq => ?_
    have hi := ho'.owns.distinct _ _ (hfilled k (List.mem_filter.mp hk).1) heq
    exact place_inj (Prod.mk.inj hi).2
  unfold freshSyncs newSyncs
  rw [length_wants]
  split
  case isTrue =>
    rw [Finset.card_union_of_disjoint, List.toFinset_card_of_nodup hinj, List.length_map, Finset.card_singleton]
    refine Finset.disjoint_singleton_right.mpr fun hmem => ?_
    obtain ⟨k, hk, heq⟩ := List.mem_map.mp (List.mem_toFinset.mp hmem)
    have hi := ho'.owns.distinct _ _ (hfilled k (List.mem_filter.mp hk).1) heq
    exact place_ne_table k (Prod.mk.inj hi).2
  case isFalse =>
    rw [Finset.union_empty, List.toFinset_card_of_nodup hinj, List.length_map, Nat.add_zero]

include ho in
/-- The old blocks are not free. -/
theorem oldSyncs_notFree {x : Nat} (hx : x ∈ oldSyncs E s.disk n s.usedBlock ks) : x ∉ freeBlocks s.disk := by
  unfold oldSyncs at hx
  rw [List.mem_append, List.mem_append] at hx
  rcases hx with (hx | hx) | hx
  · obtain ⟨g, -, rfl⟩ := List.mem_map.mp hx
    intro hfree
    have hdata := (mem_freeBlocks.mp hfree).1
    rw [isData_iff, show groupBitmap g = 65 + g * 1000 + 3 from rfl] at hdata
    omega
  · obtain ⟨k, hk, rfl⟩ := List.mem_map.mp hx
    exact ho.ref_notFree (of_decide_eq_true (List.mem_filter.mp hk).2)
  · split at hx
    case isTrue hc =>
      rw [List.mem_singleton.mp hx]
      exact ho.ref_notFree (of_decide_eq_true hc.1)
    case isFalse => exact absurd hx List.not_mem_nil

section

variable (h : LoopSyncs p n ks E s t l new)

include h hn' hfilled hE hn hrefs in
/-- The loop syncs the old blocks and those it allocates. -/
theorem LoopSyncs.split : l.toFinset = (oldSyncs E s.disk n s.usedBlock ks).toFinset ∪
    freshSyncs E (Function.update E n (t.mem p).entry) s.disk t.disk n ks := by
  have hbitmaps : new.map bitmapOf = (groupsFor (inodeGroup n) s.usedBlock
      (wants (isMapped E s.disk n) (hasTable E s.disk n) ks)).map groupBitmap := by
    rw [← h.groups, List.map_map]
    rfl
  ext x
  rw [List.mem_toFinset, h.mem, hbitmaps]
  simp only [oldSyncs, freshSyncs, List.toFinset_append, Finset.mem_union, List.mem_toFinset]
  have hblocks : (∃ k ∈ ks, x = ref (Function.update E n (t.mem p).entry) t.disk (n, place k)) ↔
      x ∈ (ks.filter (isMapped E s.disk n)).map (fun k => ref E s.disk (n, place k)) ∨
      x ∈ (ks.filter fun k => !isMapped E s.disk n k).map fun k =>
        ref (Function.update E n (t.mem p).entry) t.disk (n, place k) := by
    simp only [List.mem_map, List.mem_filter]
    constructor
    · rintro ⟨k, hk, rfl⟩
      cases hmap : isMapped E s.disk n k with
      | true => exact .inl ⟨k, ⟨hk, hmap⟩, (hrefs n k (of_decide_eq_true hmap)).symm⟩
      | false => exact .inr ⟨k, ⟨hk, by rw [hmap]; rfl⟩, rfl⟩
    · rintro (⟨k, ⟨hk, hmap⟩, rfl⟩ | ⟨k, ⟨hk, -⟩, rfl⟩)
      · exact ⟨k, hk, (hrefs n k (of_decide_eq_true hmap)).symm⟩
      · exact ⟨k, hk, rfl⟩
  have hindex : (FillsSlot (isMapped E s.disk n) ks ∧ x = (t.mem p).entry.indirect.toNat) ↔
      (x ∈ if hasTable E s.disk n = true ∧ FillsSlot (isMapped E s.disk n) ks then
        [ref E s.disk (n, .table)] else []) ∨
      x ∈ (if hasTable E s.disk n = false ∧ FillsSlot (isMapped E s.disk n) ks then
        {ref (Function.update E n (t.mem p).entry) t.disk (n, .table)} else ∅ : Finset Nat) := by
    by_cases hslot : FillsSlot (isMapped E s.disk n) ks
    · rw [← (table_filled hn' hfilled hslot).1]
      cases htab : hasTable E s.disk n with
      | true =>
        rw [refs_kept hE hn hn' hrefs (fun h0 => h.table (.inl h0)) (n, .table) (of_decide_eq_true htab)]
        simp [hslot]
      | false => simp [hslot]
    · simp [hslot]
  have hslots : (∃ k ∈ ks, inodeNumDirect ≤ k ∧ isMapped E s.disk n k = false) ↔
      FillsSlot (isMapped E s.disk n) ks := Iff.rfl
  rw [hblocks, hslots, hindex]
  exact regroup

include h hE hn ho hn' ho' hrefs hfilled in
/-- How many blocks are in a record with those of the loop: the old ones of both, and at most the new
ones; and not fewer, if no free block has been recorded. -/
theorem LoopSyncs.card_record (hks : ks.Nodup) (c : List Nat) :
    (c ++ l).toFinset.card ≤ (c ++ oldSyncs E s.disk n s.usedBlock ks).toFinset.card + newSyncs E s.disk n ks ∧
    ((∀ b ∈ c, b ∉ freeBlocks s.disk) →
      (c ++ l).toFinset.card =
        (c ++ oldSyncs E s.disk n s.usedBlock ks).toFinset.card + newSyncs E s.disk n ks) := by
  have hfresh := freshSyncs_free hE hn ho hn' ho' hrefs (fun h0 => h.table (.inl h0)) hfilled
  have hset : (c ++ l).toFinset = (c ++ oldSyncs E s.disk n s.usedBlock ks).toFinset ∪
      freshSyncs E (Function.update E n (t.mem p).entry) s.disk t.disk n ks := by
    rw [List.toFinset_append, List.toFinset_append, h.split hE hn hn' hrefs hfilled, Finset.union_assoc]
  rw [hset, ← card_freshSyncs ho' hfilled hks]
  refine ⟨Finset.card_union_le _ _, fun hc => Finset.card_union_of_disjoint ?_⟩
  refine Finset.disjoint_left.mpr fun x hx hx' => ?_
  rcases List.mem_append.mp (List.mem_toFinset.mp hx) with hx | hx
  · exact hc x hx (hfresh hx')
  · exact oldSyncs_notFree ho hx (hfresh hx')

end

include hE hn ho hn' ho' hrefs htable hfilled in
/-- The blocks that stay free. -/
theorem freeBlocks_fresh (hother : ∀ m k, (m = n → k ∉ ks) →
      ref (Function.update E n (t.mem p).entry) t.disk (m, place k) = ref E s.disk (m, place k))
    (hnone : ¬FillsSlot (isMapped E s.disk n) ks → (t.mem p).entry.indirect = (s.mem p).entry.indirect) :
    freeBlocks t.disk = freeBlocks s.disk \
      freshSyncs E (Function.update E n (t.mem p).entry) s.disk t.disk n ks := by
  have hkept := refs_kept hE hn hn' hrefs htable
  have hfree {E : Nat → InodeEntry} {d : Nat → BlockData} (h : BlocksOwned E d) (x : Nat) :
      x ∈ freeBlocks d ↔ IsData x ∧ ∀ j, ref E d j ≠ x := by
    rw [mem_freeBlocks]
    refine and_congr_right fun hx => ?_
    rw [← Bool.not_eq_true, h.owns.exact x hx, not_exists]
  ext x
  rw [Finset.mem_sdiff, hfree ho', hfree ho]
  constructor
  · rintro ⟨hx, hnot⟩
    refine ⟨⟨hx, fun j hj => hnot j ?_⟩, fun hmem => ?_⟩
    · have hj0 : ref E s.disk j ≠ 0 := by
        rw [hj]
        exact hx.pos
      rw [hkept j hj0, hj]
    · unfold freshSyncs at hmem
      rcases Finset.mem_union.mp hmem with hmem | hmem
      · obtain ⟨k, -, hk⟩ := List.mem_map.mp (List.mem_toFinset.mp hmem)
        exact hnot (n, place k) hk
      · split at hmem
        case isTrue => exact hnot (n, .table) (Finset.mem_singleton.mp hmem).symm
        case isFalse => exact absurd hmem (Finset.notMem_empty x)
  · rintro ⟨⟨hx, hnot⟩, hfresh⟩
    refine ⟨hx, fun j hj => hfresh ?_⟩
    -- the place has got the block now
    have hold : ref E s.disk j = 0 := by
      by_contra hne
      exact hnot j ((hkept j hne).symm.trans hj)
    have hj0 : ref (Function.update E n (t.mem p).entry) t.disk j ≠ 0 := by
      rw [hj]
      exact hx.pos
    unfold freshSyncs
    obtain ⟨m, pl⟩ := j
    obtain rfl | ⟨k, rfl⟩ := place_of_ref hj0
    · by_cases hm : m = n
      · subst hm
        have hslot : FillsSlot (isMapped E s.disk m) ks := by
          by_contra hno
          rw [ref_of_inUse hn', Function.update_self] at hj0
          rw [ref_of_inUse hn, hE] at hold
          have hsame : (t.mem p).entry.indirect.toNat = (s.mem p).entry.indirect.toNat := by rw [hnone hno]
          exact hj0 (hsame.trans hold)
        rw [if_pos ⟨by simpa [hasTable] using hold, hslot⟩, ← hj]
        exact Finset.mem_union_right _ (Finset.mem_singleton_self _)
      · rw [ref_update_ne hm] at hj0
        exact absurd hold hj0
    · by_cases hin : m = n ∧ k ∈ ks
      · obtain ⟨rfl, hk⟩ := hin
        refine Finset.mem_union_left _ (List.mem_toFinset.mpr (List.mem_map.mpr ⟨k, ?_, hj⟩))
        exact List.mem_filter.mpr ⟨hk, by simpa [isMapped] using hold⟩
      · rw [hother m k fun hm hk => hin ⟨hm, hk⟩] at hj0
        exact absurd hold hj0

end

/-! ### Files as byte arrays -/

/-- The number of blocks in the record of the operation after a write of bytes `off` to `stop - 1` to the
file of inode `n`. -/
def recordedBy (s : State) (n off stop : Nat) : Nat :=
  (s.ctx.blockNo ++ inodeSyncs s n off stop ++
      oldSyncs (diskEntry s.disk) s.disk n s.usedBlock (blocksAt off stop)).toFinset.card +
    newSyncs (diskEntry s.disk) s.disk n (blocksAt off stop)

section

variable {l new : List Nat} {e : InodeEntry} (h : Whole s) (hp : p ∈ s.list) (hv : (s.mem p).valid = true)
  (hno : (s.mem p).inodeNo = n) (hw : WriteSyncs p n src off count s t l new e)

include h hp hv hno hw

/-- What the write adds to the record, whether the operation has recorded free blocks or not. -/
theorem WriteSyncs.recordedBy :
    (s.ctx.blockNo ++ (l ++ inodeSyncs s n off (off + count))).toFinset.card ≤
        recordedBy s n off (off + count) ∧
      ((∀ b ∈ s.ctx.blockNo, b ∉ freeBlocks s.disk) →
        (s.ctx.blockNo ++ (l ++ inodeSyncs s n off (off + count))).toFinset.card =
          recordedBy s n off (off + count)) := by
  obtain ⟨hn', howned', hfilled⟩ := h.after_write hp hv hno hw.done
  have hview : s.view p n = (s.mem p).entry := hno ▸ State.view_self
  obtain ⟨hle, heq⟩ := hw.loop.card_record hview (hno ▸ h.cached.inUse_view hp hv) (h.cached.owned_view hp hv)
    hn' howned' hw.refs hfilled List.nodup_range' (s.ctx.blockNo ++ inodeSyncs s n off (off + count))
  have href := h.ref_view hp hv
  have hold : oldSyncs (s.view p) s.disk n = oldSyncs (diskEntry s.disk) s.disk n := by
    funext used ks
    simp only [oldSyncs, isMapped_congr href, hasTable_congr href, href]
  have hnew : newSyncs (s.view p) s.disk n = newSyncs (diskEntry s.disk) s.disk n := by
    funext ks
    simp only [newSyncs, isMapped_congr href, hasTable_congr href]
  rw [hold, hnew] at hle heq
  have hset : (s.ctx.blockNo ++ (l ++ inodeSyncs s n off (off + count))).toFinset =
      (s.ctx.blockNo ++ inodeSyncs s n off (off + count) ++ l).toFinset := by
    simp only [List.toFinset_append, Finset.union_assoc, Finset.union_comm l.toFinset]
  rw [hset]
  refine ⟨hle, fun hctx => heq fun b hb => ?_⟩
  rcases List.mem_append.mp hb with hb | hb
  · exact hctx b hb
  · unfold inodeSyncs at hb
    split at hb
    case isTrue =>
      rw [List.mem_singleton.mp hb]
      exact fun hfree => (mem_freeBlocks.mp hfree).1.not_inodes (isInodes_toBlockNo hn'.1)
    case isFalse => exact absurd hb List.not_mem_nil

/-- In a fresh operation these are the blocks that the write syncs. -/
theorem WriteSyncs.recordedBy_fresh (hctx : s.ctx.blockNo = []) :
    Fs.recordedBy s n off (off + count) = writeSize s n off (off + count) := by
  have heq := (hw.recordedBy h hp hv hno).2 fun b hb => absurd (hctx ▸ hb) List.not_mem_nil
  rw [hctx, List.nil_append] at heq
  rw [← heq, hw.card h hp hv hno]

end

/-- `inode_write` returns, and has replaced the bytes of the file of inode `n` from `off` on by `l`: the
other files are as before. -/
def Overwrites (ctx : Bool) (p : Ptr) (n off : Nat) (l : List UInt8) (s : State) : Prop :=
  ∃ s', Runs (inodeWrite sblock ctx p (fun i => l.getD i 0) off l.length) s l.length s' ∧ Whole s' ∧
    s'.content n = overwrite (s.content n) off l ∧
    (s'.entryOf n).numBytes.toNat = max (s.entryOf n).numBytes.toNat (off + l.length) ∧
    ∀ m, IsInode m → m ≠ n → s'.entryOf m = s.entryOf m ∧ s'.content m = s.content m

section

variable {l : List UInt8} {ctx : Bool}

theorem Whole.overwrites (h : Whole s) (hp : p ∈ s.list) (hv : (s.mem p).valid = true)
    (hn : (s.mem p).inodeNo = n) (hdev : (s.mem p).entry.type ≠ inodeDevice)
    (hr : Runs (Fs.inodeWrite sblock ctx p (fun i => l.getD i 0) off l.length) s l.length t) :
    Overwrites ctx p n off l s := by
  subst hn
  have hw' := h.inodeWrite hp hv hr
  obtain ⟨-, -, -, e', hw⟩ := h.cached.inodeWrite hp hv hdev hr
  exact ⟨t, hr, hw', h.content_writeDone hp hv hw hw'⟩

/-- The hypotheses about a write, by the entries on disk. -/
theorem Whole.write_bounds (h : Whole s) (hp : p ∈ s.list) (hv : (s.mem p).valid = true)
    (hn : (s.mem p).inodeNo = n) (hoff : off ≤ (s.content n).length)
    (hfree : need n off stop s.entryOf s.disk ≤ (freeBlocks s.disk).card) :
    off ≤ (s.mem p).entry.numBytes.toNat ∧
      need n off stop (diskEntry s.disk) s.disk ≤ (freeBlocks s.disk).card := by
  subst hn
  have href : ref s.entryOf s.disk = ref (diskEntry s.disk) s.disk :=
    ref_sameBlocks fun m _ => h.cached.sameBlocks_entryOf m
  constructor
  · rwa [length_content, h.cached.entryOf_loaded hp hv] at hoff
  · unfold need at hfree ⊢
    rwa [← href]

end

/-- Files are byte arrays.  A write to a loaded inode that is no device, with free blocks for it, puts the
bytes at its offset exactly if the operation has room for the blocks that it syncs: outside of operations
always, and in one if its record has at most `OP_MAX_NUM_BLOCKS` blocks then.  A read gets the bytes from
its offset on, and changes nothing. -/
theorem inode_write_read_iff (h : Whole s) (hp : p ∈ s.list) (hv : (s.mem p).valid = true)
    (hn : (s.mem p).inodeNo = n) (hdev : (s.mem p).entry.type ≠ inodeDevice) :
    (∀ (ctx : Bool) off (l : List UInt8), off ≤ (s.content n).length → off + l.length ≤ inodeMaxBytes →
      need n off (off + l.length) s.entryOf s.disk ≤ (freeBlocks s.disk).card →
      (ctx = true → OpContext.Ok s.ctx) →
      ((ctx = true → recordedBy s n off (off + l.length) ≤ opMaxNumBlocks) → Overwrites ctx p n off l s) ∧
      ((ctx = true → ∀ b ∈ s.ctx.blockNo, b ∉ freeBlocks s.disk) →
        (Overwrites ctx p n off l s ↔
          (ctx = true → recordedBy s n off (off + l.length) ≤ opMaxNumBlocks)))) ∧
    ∀ off count dest, off ≤ (s.content n).length → off + count < 2 ^ 64 →
      ∃ dest', Runs (inodeRead sblock p dest off count) s
          (min count ((s.content n).length - off), dest') s ∧
        (List.range (min count ((s.content n).length - off))).map dest' =
          ((s.content n).drop off).take count := by
  refine ⟨fun ctx off l hoff hmax hfree hok => ?_, fun off count dest hoff _ =>
    h.inodeRead_content dest hp hv hn hdev hoff⟩
  obtain ⟨hoff', hfree'⟩ := h.write_bounds hp hv hn hoff hfree
  obtain ⟨t, l', new, e, hw⟩ := h.writeSyncs (fun i => l.getD i 0) off l.length hp hv hn hdev hoff' hmax hfree'
  have hfits : (ctx = true → recordedBy s n off (off + l.length) ≤ opMaxNumBlocks) →
      Overwrites ctx p n off l s := by
    intro hroom
    cases ctx with
    | false => exact h.overwrites hp hv hn hdev hw.syncs.plain
    | true =>
      have hle := (hw.recordedBy h hp hv hn).1.trans (hroom rfl)
      obtain ⟨t', hr⟩ := (hw.decided (hok rfl)).1 hle
      exact h.overwrites hp hv hn hdev hr
  refine ⟨hfits, fun hctx => ⟨?_, hfits⟩⟩
  rintro ⟨s', hr, -⟩ rfl
  by_contra hlarge
  rw [← (hw.recordedBy h hp hv hn).2 (hctx rfl)] at hlarge
  exact not_runs_of_error ((hw.decided (hok rfl)).2 hlarge) hr

/-- The file of eleven blocks is open and locked, in an operation that has just begun: `count` bytes at its
start are in blocks that are there. -/
theorem elevenBlocks_locked : ∃ img u, Runs (Mkfs.main [elevenBlocks]) Mkfs.blank () img ∧
    Runs (cacheBeginOp >>= fun _ => inodeLock sblock 0) (opened img.disk 2) () u ∧ Whole u ∧ 0 ∈ u.list ∧
    (u.mem 0).valid = true ∧ (u.mem 0).inodeNo = 2 ∧ (u.mem 0).entry.type ≠ inodeDevice ∧
    u.ctx.blockNo = [] ∧ (u.content 2).length = 5632 ∧
    ∀ count ≤ 5632, need 2 0 (0 + count) u.entryOf u.disk = 0 ∧
      recordedBy u 2 0 (0 + count) = touched 0 (0 + count) := by
  obtain ⟨img, hr, hready, hsize, hfilled⟩ := elevenBlocks_image
  obtain ⟨u, hlock, hwhole, hdisk, hused, hlist, hctx, hv, hno, htype⟩ := hready.lock
  have hp : 0 ∈ u.list := hlist ▸ hready.listed
  have hdev : (u.mem 0).entry.type ≠ inodeDevice := by
    rw [show (u.mem 0).entry.type = inodeRegular from htype]
    decide
  have hno' : (u.mem 0).inodeNo = 2 := hno
  have hlen : (diskEntry u.disk 2).numBytes.toNat = 5632 := by rw [hdisk]; exact hsize
  have hbytes : (u.mem 0).entry.numBytes.toNat = 5632 := by
    rw [hwhole.size 0 hp hv, hno', hlen]
  have hblank : u.ctx.blockNo = [] := by
    rw [hctx]
    rfl
  refine ⟨img, u, hr, runs_bind.mpr ⟨(), _, cacheBeginOp_returns hready.room, hlock⟩, hwhole, hp, hv, hno, hdev,
    hblank, ?_, fun count hcount => ?_⟩
  · rw [length_content, hwhole.numBytes_entryOf, hlen]
  · have hfilled' : Filled 2 0 (diskEntry u.disk 2).numBytes.toNat (diskEntry u.disk) u.disk := by
      rw [hdisk]
      exact hfilled
    obtain ⟨hwrite, hneed⟩ := hfilled'.overwrite 0 (0 + count) (by omega)
    have href : ref u.entryOf u.disk = ref (diskEntry u.disk) u.disk :=
      ref_sameBlocks fun m _ => hwhole.cached.sameBlocks_entryOf m
    obtain ⟨t, l, new, e, hw⟩ := hwhole.writeSyncs (fun _ => 0) 0 count hp hv hno' hdev (Nat.zero_le _)
      (show 0 + count ≤ 71680 by omega) (hneed.trans_le (Nat.zero_le _))
    refine ⟨?_, (hw.recordedBy_fresh hwhole hp hv hno' hblank).trans hwrite⟩
    unfold need at hneed ⊢
    rwa [href]

/-- Of the file of eleven blocks, three bytes can be written anew in an operation, all cannot, and two are
read at its end. -/
theorem inode_write_read_iff_eleven : ∃ u, Overwrites true 0 2 0 [1, 2, 3] u ∧
    ¬Overwrites true 0 2 0 (List.replicate 5632 1) u ∧
    ∃ dest, Runs (inodeRead sblock 0 (fun _ => 0) 5630 100) u (2, dest) u := by
  obtain ⟨img, u, -, -, hwhole, hp, hv, hno, hdev, hctx, hlen, hcount⟩ := elevenBlocks_locked
  obtain ⟨hwrite, hread⟩ := inode_write_read_iff hwhole hp hv hno hdev
  have hok : OpContext.Ok u.ctx := by
    unfold OpContext.Ok
    rw [hctx]
    decide
  have hnone : ∀ b ∈ u.ctx.blockNo, b ∉ freeBlocks u.disk := fun b hb => absurd (hctx ▸ hb) List.not_mem_nil
  obtain ⟨hneed₃, hthree⟩ := hcount 3 (by decide)
  obtain ⟨hneed, hall⟩ := hcount 5632 (Nat.le_refl _)
  obtain ⟨dest, hr, -⟩ := hread 5630 100 (fun _ => 0) (by rw [hlen]; decide) (by decide)
  rw [hlen] at hr
  refine ⟨u, ?_, fun hdone => ?_, dest, hr⟩
  · refine (hwrite true 0 [1, 2, 3] (Nat.zero_le _) (by decide) (hneed₃.trans_le (Nat.zero_le _))
      fun _ => hok).1 fun _ => ?_
    exact hthree.trans_le (by decide)
  · have hmany := ((hwrite true 0 (List.replicate 5632 1) (Nat.zero_le _)
      (by rw [List.length_replicate]; decide)
      (by rw [List.length_replicate]; exact hneed.trans_le (Nat.zero_le _)) fun _ => hok).2
      fun _ => hnone).mp hdone rfl
    rw [List.length_replicate] at hmany
    exact absurd (hall.symm.trans_le hmany) (by decide)

/-- A write of the eleven blocks in one operation fails in `cache_sync`. -/
theorem inodeWrite_overflows : ∃ img u, Runs (Mkfs.main [elevenBlocks]) Mkfs.blank () img ∧
    Runs (cacheBeginOp >>= fun _ => inodeLock sblock 0) (opened img.disk 2) () u ∧ Whole u ∧ 0 ∈ u.list ∧
    ((u.mem 0).valid = true ∧ (u.mem 0).inodeNo = 2 ∧ (u.mem 0).entry.type ≠ inodeDevice) ∧
    0 ≤ (u.content 2).length ∧ 0 + (List.replicate 5632 (1 : UInt8)).length ≤ inodeMaxBytes ∧
    need 2 0 (0 + 5632) u.entryOf u.disk ≤ (freeBlocks u.disk).card ∧
    inodeWrite sblock true 0
      (fun i => (List.replicate 5632 (1 : UInt8)).getD i 0) 0 5632 u = .error .overflow := by
  obtain ⟨img, u, hr, hu, hwhole, hp, hv, hno, hdev, hctx, hlen, hcount⟩ := elevenBlocks_locked
  obtain ⟨hneed, hall⟩ := hcount 5632 (Nat.le_refl _)
  have hfree : need 2 0 (0 + 5632) u.entryOf u.disk ≤ (freeBlocks u.disk).card := hneed.trans_le (Nat.zero_le _)
  obtain ⟨hoff, hfree'⟩ := hwhole.write_bounds hp hv hno (Nat.zero_le _) hfree
  have hmax : 0 + 5632 ≤ inodeMaxBytes := by decide
  refine ⟨img, u, hr, hu, hwhole, hp, ⟨hv, hno, hdev⟩, Nat.zero_le _, ?_, hfree, ?_⟩
  · rw [List.length_replicate]
    exact hmax
  refine (inodeWrite_decided _ 0 5632 hwhole hp hv hno hdev hctx hoff hmax hfree').2 fun hsmall => ?_
  obtain ⟨t, l, new, e, hw⟩ := hwhole.writeSyncs (fun _ => 0) 0 5632 hp hv hno hdev hoff hmax hfree'
  rw [← hw.recordedBy_fresh hwhole hp hv hno hctx, hall] at hsmall
  exact absurd hsmall (by decide)

end FtosFfs.Fs
