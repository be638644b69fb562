import FtosFfs.Cache.Reservation
import FtosFfs.Fs.Need

/-! Writes return if there are free blocks for what they allocate and, in an atomic operation, room in
its record for the blocks that they change. -/

namespace FtosFfs.Fs

open Lib Lib.Exec Cache

variable {s s' : State} {ctx : Bool} {c c' : OpContext} {p : Ptr} {b g k n r : Nat}
  {E : Nat → InodeEntry}

/-! ### The record of the operation -/

/-- The operation can record `k` more blocks. -/
def Room (ctx : Bool) (c : OpContext) (k : Nat) : Prop :=
  ctx = true → c.blockNo.length + k ≤ opMaxNumBlocks

/-- The operation has recorded block `b`. -/
def Noted (ctx : Bool) (c : OpContext) (b : Nat) : Prop := ctx = true → b ∈ c.blockNo

/-- The blocks recorded before are recorded. -/
def Kept (ctx : Bool) (c c' : OpContext) : Prop := ctx = true → ∀ x ∈ c.blockNo, x ∈ c'.blockNo

theorem Kept.refl (ctx : Bool) (c : OpContext) : Kept ctx c c := fun _ _ hx => hx

theorem Kept.trans {c'' : OpContext} (h : Kept ctx c c') (h' : Kept ctx c' c'') : Kept ctx c c'' :=
  fun ht x hx => h' ht x (h ht x hx)

theorem Kept.noted (h : Kept ctx c c') (hb : Noted ctx c b) : Noted ctx c' b :=
  fun ht => h ht b (hb ht)

theorem recorded_noted (h : Room ctx c k) (hb : Noted ctx c b) : recorded ctx c b = some c := by
  cases ctx with
  | false => rfl
  | true =>
    have hlen : c.blockNo.length ≤ opMaxNumBlocks := Nat.le_of_add_right_le (h rfl)
    exact (OpContext.record_eq c b hlen).trans (if_pos (hb rfl))

theorem recorded_room (h : Room ctx c (k + 1)) :
    ∃ c', recorded ctx c b = some c' ∧ Room ctx c' k ∧ Noted ctx c' b ∧ Kept ctx c c' := by
  cases ctx with
  | false => exact ⟨c, rfl, fun h => (nomatch h), fun h => (nomatch h), .refl _ _⟩
  | true =>
    have hroom := h rfl
    have hlen : c.blockNo.length ≤ opMaxNumBlocks := by omega
    have hrec := OpContext.record_eq c b hlen
    by_cases hb : b ∈ c.blockNo
    · rw [if_pos hb] at hrec
      exact ⟨c, hrec, fun _ => by omega, fun _ => hb, .refl _ _⟩
    · rw [if_neg hb, if_pos (by omega)] at hrec
      refine ⟨_, hrec, fun _ => ?_, fun _ => by simp, fun _ x hx => by simp [hx]⟩
      simp only [List.length_append, List.length_singleton]
      omega

/-! ### Allocation -/

/-- The held blocks are data blocks in use. -/
def HeldUsed (s : State) : Prop := ∀ c ∈ s.held, IsData c ∧ blockBit s.disk c = true

/-- What an allocation of block `b` with room for `k + 2` blocks does to the record. -/
structure AllocRecord (ctx : Bool) (k b : Nat) (c c' : OpContext) : Prop where
  room : Room ctx c' k
  noted : Noted ctx c' b
  kept : Kept ctx c c'

theorem allocIn_returns (hg : g < 10) (hm : MetaUsed s.disk) (hheld : HeldUsed s)
    (hroom : Room ctx s.ctx (k + 2)) {bound : Nat} (hbound : bound ≤ 1000)
    (hfree : ∃ j < bound, bitmapGet (s.disk (bitmapBlock sblock g 0)) j = false) :
    ∃ b s', Runs (allocIn sblock ctx g 0 bound) s (some b) s' ∧ AllocRecord ctx k b s.ctx s'.ctx := by
  have hbit : bitmapBlock sblock g 0 ∉ s.held := fun h =>
    (hheld _ h).1.not_bitmap (isBitmap_bitmapBlock hg (by omega))
  cases hf : (List.range bound).find? fun j => !bitmapGet (s.disk (bitmapBlock sblock g 0)) j with
  | none =>
    obtain ⟨j, hj, hget⟩ := hfree
    have := List.find?_eq_none.mp hf j (List.mem_range.mpr hj)
    simp [hget] at this
  | some j =>
    have hj : j < bound := by simpa using List.mem_of_find?_eq_some hf
    have hget : bitmapGet (s.disk (bitmapBlock sblock g 0)) j = false := by
      simpa using List.find?_some hf
    have ha := allocated_of_bit hg (by omega) hm hget
    have hb : sblock.bgStart + g * sblock.blocksPerGroup + 0 + j ∉ s.held := by
      intro h
      have hused := (hheld _ h).2
      rw [ha.free] at hused
      cases hused
    obtain ⟨c₁, h1, hroom₁, -, hkept₁⟩ := recorded_room (b := bitmapBlock sblock g 0) hroom
    obtain ⟨c₂, h2, hroom₂, hnoted, hkept₂⟩ := recorded_room
      (b := sblock.bgStart + g * sblock.blocksPerGroup + 0 + j) hroom₁
    have hrun : ∃ s', Runs (allocIn sblock ctx g 0 bound) s
        (some (sblock.bgStart + g * sblock.blocksPerGroup + 0 + j)) s' ∧ s'.ctx = c₂ := by
      simp only [allocIn, runs_bind, runs_cacheAcquire]
      exact ⟨_, ⟨_, _, ⟨hbit, rfl, rfl⟩, by
        rw [hf]
        simp only [runs_bind, runs_writeBack, runs_cacheAcquire, runs_modify, runs_pure,
          List.erase_cons_head]
        exact ⟨⟨⟩, _, ⟨c₁, h1, rfl⟩, _, _, ⟨hb, rfl, rfl⟩, ⟨⟩, _, ⟨c₂, h2, rfl⟩, ⟨⟩, _, rfl, trivial,
          rfl⟩⟩, rfl⟩
    obtain ⟨s', hr, hc⟩ := hrun
    exact ⟨_, s', hr, by rw [hc]; exact ⟨hroom₂, hnoted, hkept₁.trans hkept₂⟩⟩

/-- A group with a free data block has a clear bit. -/
theorem exists_clear_bit (h : (usedBits s.disk g).card ≠ sblock.numDatablocksPerGroup) :
    ∃ j < 1000, bitmapGet (s.disk (bitmapBlock sblock g 0)) j = false := by
  by_contra hno
  refine h (card_usedBits_eq.mpr fun j _ hj => ?_)
  rw [← bitmapGet_eq_blockBit hj]
  by_contra hget
  exact hno ⟨j, hj, by simpa using hget⟩

theorem cacheAllocg_returns (hg : g < 10) (hm : MetaUsed s.disk) (hheld : HeldUsed s)
    (hroom : Room ctx s.ctx (k + 2))
    (hfree : (usedBits s.disk g).card ≠ sblock.numDatablocksPerGroup) :
    ∃ b s', Runs (cacheAllocg sblock ctx g) s b s' ∧ AllocRecord ctx k b s.ctx s'.ctx := by
  obtain ⟨b, s', hr, hrec⟩ := allocIn_returns hg hm hheld hroom (Nat.le_refl 1000)
    (exists_clear_bit hfree)
  refine ⟨b, s', ?_, hrec⟩
  simp only [cacheAllocg, bitmapStarts_sblock, Exec.search, runs_bind, runs_require]
  exact ⟨⟨⟩, s, ⟨hg, rfl⟩, some b, s', ⟨some b, s', hr, runs_pure.mpr ⟨rfl, rfl⟩⟩,
    runs_pure.mpr ⟨rfl, rfl⟩⟩

/-- All bits of a group without free data blocks are set. -/
theorem bit_of_full (hg : g < 10) (hm : MetaUsed s.disk)
    (hfull : (usedBits s.disk g).card = sblock.numDatablocksPerGroup) {j : Nat} (hj : j < 1000) :
    bitmapGet (s.disk (bitmapBlock sblock g 0)) j = true := by
  rw [bitmapGet_eq_blockBit hj]
  by_cases h4 : 4 ≤ j
  · exact card_usedBits_eq.mp hfull j h4 hj
  · refine hm _ (by rw [inGroups_iff]; omega) ?_
    rw [isData_iff]
    omega

/-- A round of an allocation over a group without free blocks finds nothing. -/
theorem allocIn_full (hg : g < 10) (hm : MetaUsed s.disk) (hheld : HeldUsed s)
    (hfull : (usedBits s.disk g).card = sblock.numDatablocksPerGroup) :
    Runs (allocIn sblock ctx g 0 1000) s none s := by
  have hbit : bitmapBlock sblock g 0 ∉ s.held := fun h =>
    (hheld _ h).1.not_bitmap (isBitmap_bitmapBlock hg (by omega))
  exact runs_allocIn_none.mpr ⟨hbit, fun _ hj => bit_of_full hg hm hfull hj, rfl⟩

theorem cacheAlloc_returns (hm : MetaUsed s.disk) (hheld : HeldUsed s)
    (hroom : Room ctx s.ctx (k + 2)) (hfree : 0 < (freeBlocks s.disk).card) :
    ∃ b s', Runs (cacheAlloc sblock ctx) s b s' ∧ AllocRecord ctx k b s.ctx s'.ctx := by
  have hround {g : Nat} (hg : g < 10) : (usedBits s.disk g).card ≠ sblock.numDatablocksPerGroup →
      ∃ b s', Runs (Exec.search (fun i => allocIn sblock ctx g i (min bitPerBlock
        (sblock.blocksPerGroup - i))) (bitmapStarts sblock)) s (some b) s' ∧
        AllocRecord ctx k b s.ctx s'.ctx := by
    intro hne
    obtain ⟨b, s', hr, hrec⟩ := allocIn_returns hg hm hheld hroom (Nat.le_refl 1000)
      (exists_clear_bit hne)
    refine ⟨b, s', ?_, hrec⟩
    simp only [bitmapStarts_sblock, Exec.search, runs_bind]
    exact ⟨some b, s', hr, runs_pure.mpr ⟨rfl, rfl⟩⟩
  have hmiss {g : Nat} (hg : g < 10) : ¬(usedBits s.disk g).card ≠ sblock.numDatablocksPerGroup →
      Runs (Exec.search (fun i => allocIn sblock ctx g i (min bitPerBlock
        (sblock.blocksPerGroup - i))) (bitmapStarts sblock)) s none s := by
    intro hfull
    simp only [bitmapStarts_sblock, Exec.search, runs_bind]
    exact ⟨none, s, allocIn_full hg hm hheld (not_not.mp hfull), runs_pure.mpr ⟨rfl, rfl⟩⟩
  obtain ⟨g, hg, hne⟩ := exists_group_free hfree
  obtain ⟨b, s', hr, hrec⟩ := returns_search (fun g hg => hmiss (List.mem_range.mp hg))
    (fun g hg => hround (List.mem_range.mp hg)) ⟨g, List.mem_range.mpr hg, hne⟩
  refine ⟨b, s', ?_, hrec⟩
  simp only [cacheAlloc, runs_bind]
  exact ⟨some b, s', hr, runs_pure.mpr ⟨rfl, rfl⟩⟩

theorem allocNear_returns (hg : g < 10) (hm : MetaUsed s.disk) (hheld : HeldUsed s)
    (hroom : Room ctx s.ctx (k + 2)) (hfree : 0 < (freeBlocks s.disk).card) :
    ∃ b s', Runs (allocNear sblock ctx g) s b s' ∧ AllocRecord ctx k b s.ctx s'.ctx := by
  simp only [allocNear, runs_bind]
  by_cases hfull : (usedBits s.disk g).card = sblock.numDatablocksPerGroup
  · have hnone : Runs (cacheAllocg sblock ctx g) s 0 s := by
      simp only [cacheAllocg, bitmapStarts_sblock, Exec.search, runs_bind, runs_require]
      exact ⟨⟨⟩, s, ⟨hg, rfl⟩, none, s, ⟨none, s, allocIn_full hg hm hheld hfull,
        runs_pure.mpr ⟨rfl, rfl⟩⟩, runs_pure.mpr ⟨rfl, rfl⟩⟩
    obtain ⟨b, s', hr, hrec⟩ := cacheAlloc_returns hm hheld hroom hfree
    exact ⟨b, s', ⟨0, s, hnone, hr⟩, hrec⟩
  · obtain ⟨b, s', hr, hrec⟩ := cacheAllocg_returns hg hm hheld hroom hfull
    have hb : b ≠ 0 := by
      rintro rfl
      exact hfull ((cacheAllocg_zero hm hg).mp ⟨s', hr⟩).2
    refine ⟨b, s', ⟨b, s', hr, ?_⟩, hrec⟩
    rw [if_neg hb]
    exact runs_pure.mpr ⟨rfl, rfl⟩

/-! ### Blocks of an inode -/

/-- The syncs of `inode_map` for block `k` of inode `n` that no allocation makes: the one of the table,
unless it is recorded. -/
def tableCost (n k : Nat) (E : Nat → InodeEntry) (d : Nat → BlockData) (c : OpContext) : Nat :=
  if inodeNumDirect ≤ k ∧ ref E d (n, place k) = 0 ∧
    ¬(ref E d (n, .table) ≠ 0 ∧ ref E d (n, .table) ∈ c.blockNo) then 1 else 0

/-- What `inode_map` for block `k` of inode `n` does to the free blocks and to the record, when
`r` more blocks can be recorded after it. -/
structure MapReturn (ctx : Bool) (p : Ptr) (n k r b : Nat) (E : Nat → InodeEntry) (s s' : State) :
    Prop where
  card : (freeBlocks s.disk).card ≤ (freeBlocks s'.disk).card + needAt n k E s.disk
  room : Room ctx s'.ctx r
  noted : ref E s.disk (n, place k) = 0 → Noted ctx s'.ctx b
  table : (s.mem p).entry.indirect ≠ 0 → (s'.mem p).entry.indirect = (s.mem p).entry.indirect
  tableNoted : inodeNumDirect ≤ k → ref E s.disk (n, place k) = 0 →
    Noted ctx s'.ctx (s'.mem p).entry.indirect.toNat
  kept : Kept ctx s.ctx s'.ctx

/-- The blocks that `inode_map` for block `k` of inode `n` records. -/
def mapCost (n k : Nat) (E : Nat → InodeEntry) (d : Nat → BlockData) (c : OpContext) : Nat :=
  needAt n k E d + (if ref E d (n, place k) = 0 then 1 else 0) + tableCost n k E d c

theorem inodeGroup_lt (hn : IsInode n) : inodeGroup n < 10 := by
  have h := isInode_iff.mp hn
  show (n - 1) / 20 < 10
  omega

theorem mapDirect_returns (hE : E n = (s.mem p).entry) (hno : (s.mem p).inodeNo = n) (hn : InUse E n)
    (ho : BlocksOwned E s.disk) (hheld : s.held = []) (hi : k < inodeNumDirect)
    (hroom : Room ctx s.ctx (mapCost n k E s.disk s.ctx + r))
    (hfree : needAt n k E s.disk ≤ (freeBlocks s.disk).card) :
    ∃ b m s', Runs (mapDirect sblock ctx p k) s (b, m) s' ∧ MapReturn ctx p n k r b E s s' := by
  have hblock : ref E s.disk (n, place k) = ((s.mem p).entry.addr k).toNat := by
    rw [show place k = .direct k from if_pos hi, ref_of_inUse hn, hE]
    rfl
  simp only [mapDirect, runs_bind, runs_get]
  by_cases h0 : (s.mem p).entry.addr k = 0
  · have href : ref E s.disk (n, place k) = 0 := by
      rw [hblock, h0]
      rfl
    have hneed : needAt n k E s.disk = 1 := by
      unfold needAt
      rw [if_pos href, if_neg fun h => Nat.not_le.mpr hi h.1]
    have hroom' : Room ctx s.ctx (r + 2) := by
      intro ht
      have := hroom ht
      rw [mapCost, hneed, if_pos href] at this
      omega
    have hg := inodeGroup_lt (hno ▸ hn.1)
    obtain ⟨b, t, hr, hrec⟩ := allocNear_returns hg ho.metaUsed (by simp [HeldUsed, hheld]) hroom'
      (by omega)
    obtain ⟨hob, ha⟩ := allocNear_spec ho.metaUsed hr
    refine ⟨b, true, t.setInode p { t.mem p with
      entry := InodeEntry.setAddrs (t.mem p).entry k (UInt32.ofNat b) }, ⟨s, s, ⟨rfl, rfl⟩, ?_⟩, ?_⟩
    · rw [if_pos h0]
      simp only [runs_bind, runs_modifyEntry, runs_pure]
      exact ⟨b, t, hr, ⟨⟩, _, rfl, rfl, rfl⟩
    · refine ⟨?_, hrec.room, fun _ => hrec.noted, fun _ => ?_, fun hle => absurd hi (Nat.not_lt.mpr hle),
        hrec.kept⟩
      · rw [hneed]
        exact Nat.le_of_eq ha.card_freeBlocks.symm
      · rw [State.mem_setInode_same, hob.mem]
        rfl
  · refine ⟨((s.mem p).entry.addr k).toNat, false, s, ⟨s, s, ⟨rfl, rfl⟩, ?_⟩, ?_⟩
    · rw [if_neg h0]
      exact runs_pure.mpr ⟨rfl, rfl⟩
    · have hne : ref E s.disk (n, place k) ≠ 0 := by
        rw [hblock]
        exact fun h => h0 (toNat_eq_zero.mp h)
      exact ⟨Nat.le_add_right .., fun ht => by have := hroom ht; omega, fun h => absurd h hne,
        fun _ => rfl, fun _ h => absurd h hne, .refl _ _⟩

/-- The allocation of the table. -/
theorem mapTable_returns (hno : (s.mem p).inodeNo = n) (hn : InUse E n)
    (ho : BlocksOwned E s.disk) (hheld : s.held = [])
    (hroom : Room ctx s.ctx ((if (s.mem p).entry.indirect = 0 then 2 else 0) + r))
    (hfree : (s.mem p).entry.indirect = 0 → 0 < (freeBlocks s.disk).card) :
    ∃ m t, Runs (mapTable sblock ctx p) s m t ∧ Room ctx t.ctx r ∧ Kept ctx s.ctx t.ctx ∧
      (freeBlocks s.disk).card ≤ (freeBlocks t.disk).card +
        (if (s.mem p).entry.indirect = 0 then 1 else 0) ∧
      ((s.mem p).entry.indirect ≠ 0 → t = s) ∧
      ((s.mem p).entry.indirect = 0 → Noted ctx t.ctx (t.mem p).entry.indirect.toNat) := by
  simp only [mapTable, runs_bind, runs_get]
  by_cases h0 : (s.mem p).entry.indirect = 0
  · rw [if_pos h0] at hroom ⊢
    have hg := inodeGroup_lt (hno ▸ hn.1)
    obtain ⟨b, t, hr, hrec⟩ := allocNear_returns hg ho.metaUsed (by simp [HeldUsed, hheld])
      (by rwa [Nat.add_comm]) (hfree h0)
    obtain ⟨hob, ha⟩ := allocNear_spec ho.metaUsed hr
    refine ⟨true, t.setInode p { t.mem p with
      entry := { (t.mem p).entry with indirect := UInt32.ofNat b } }, ⟨s, s, ⟨rfl, rfl⟩, ?_⟩, hrec.room,
      hrec.kept, Nat.le_of_eq ha.card_freeBlocks.symm, fun h => absurd h0 h, fun _ => ?_⟩
    · rw [if_pos h0]
      simp only [runs_bind, runs_modifyEntry, runs_pure]
      exact ⟨b, t, hr, ⟨⟩, _, rfl, trivial, rfl⟩
    · rw [State.mem_setInode_same]
      show Noted ctx t.ctx (UInt32.ofNat b).toNat
      rw [toNat_ofNat_data ha.data]
      exact hrec.noted
  · rw [if_neg h0, Nat.zero_add] at hroom
    refine ⟨false, s, ⟨s, s, ⟨rfl, rfl⟩, ?_⟩, hroom, .refl _ _, Nat.le_add_right .., fun _ => rfl,
      fun h => absurd h h0⟩
    rw [if_neg h0]
    exact runs_pure.mpr ⟨rfl, rfl⟩

/-- With an exact `used_block`, `inode_map` finds a group for the block of a slot. -/
theorem tableGroup_returns (hu : UsedExact s.disk s.usedBlock) (hfree : 0 < (freeBlocks s.disk).card)
    (k : Nat) : ∃ g < 10, tableGroup sblock s.usedBlock k = some g ∧
      (usedBits s.disk g).card ≠ sblock.numDatablocksPerGroup := by
  obtain ⟨g, hg, hne⟩ := exists_group_free hfree
  have hmod : (k / ninblocksPerGroup + 1) % ngroups < 10 := Nat.mod_lt _ (by decide)
  have hfuel : 20 - (k / ninblocksPerGroup + 1) % ngroups ≤ 3 * ngroups :=
    Nat.le_trans (Nat.sub_le ..) (by decide)
  let full (g : Nat) : Bool := (s.usedBlock g).toNat = sblock.numDatablocksPerGroup
  have hfull : full g = false := by
    rw [decide_eq_false_iff_not, hu g hg]
    exact hne
  obtain ⟨t, ht⟩ := nextGroup_two hg hfull hmod hfuel
  obtain ⟨ht10, hfull'⟩ := nextGroup_spec hmod ht
  rw [decide_eq_false_iff_not, hu t ht10] at hfull'
  exact ⟨t, ht10, ht, hfull'⟩

theorem mapSlot_returns (modified : Bool) (hn : InUse E n) (ho : BlocksOwned E s.disk)
    (h0 : (E n).indirect ≠ 0) (hheld : s.held = []) (hu : UsedExact s.disk s.usedBlock)
    (hroom : Room ctx s.ctx ((if ref E s.disk (n, .slot k) = 0 then
      2 + (if (E n).indirect.toNat ∈ s.ctx.blockNo then 0 else 1) else 0) + r))
    (hfree : ref E s.disk (n, .slot k) = 0 → 0 < (freeBlocks s.disk).card) :
    ∃ b m s', Runs (mapSlot sblock ctx (E n).indirect.toNat k modified) s (b, m) s' ∧
      Room ctx s'.ctx r ∧ Kept ctx s.ctx s'.ctx ∧
      (freeBlocks s.disk).card ≤ (freeBlocks s'.disk).card +
        (if ref E s.disk (n, .slot k) = 0 then 1 else 0) ∧
      (ref E s.disk (n, .slot k) = 0 →
        Noted ctx s'.ctx b ∧ Noted ctx s'.ctx (E n).indirect.toNat) := by
  set a := (E n).indirect.toNat with ha'
  have htd : IsData a := ho.isData_table hn h0
  have hblock : ref E s.disk (n, .slot k) = (getAddr (s.disk a) k).toNat := by
    rw [ref_of_inUse hn]
    simp [blockOf, h0, ← ha']
  simp only [mapSlot, runs_bind, runs_cacheAcquire]
  by_cases hslot : getAddr (s.disk a) k = 0
  · have href : ref E s.disk (n, .slot k) = 0 := by
      rw [hblock, hslot]
      rfl
    rw [if_pos href] at hroom ⊢
    have hused : blockBit s.disk a = true := by
      have hrt : ref E s.disk (n, .table) = a := ref_of_inUse hn
      have h := ho.owns.used_ref (i := (n, .table)) (by rw [hrt]; exact htd.pos)
      rwa [hrt] at h
    set t : State := { s with held := a :: s.held } with ht
    have hheld' : HeldUsed t := by
      intro c hc
      obtain rfl : c = a := by simpa [ht, hheld] using hc
      exact ⟨htd, hused⟩
    obtain ⟨g, hg, hgroup, hne⟩ := tableGroup_returns hu (hfree href) k
    have hroomt : Room ctx t.ctx ((if a ∈ s.ctx.blockNo then 0 else 1) + r + 2) := by
      intro hc
      have := hroom hc
      show s.ctx.blockNo.length + _ ≤ _
      omega
    obtain ⟨b, t', hr, hrec⟩ := cacheAllocg_returns (s := t) hg ho.metaUsed hheld' hroomt hne
    have hb : b ≠ 0 := by
      rintro rfl
      exact hne ((cacheAllocg_zero (s := t) ho.metaUsed hg).mp ⟨t', hr⟩).2
    obtain ⟨hob, hz | halloc⟩ := cacheAllocg_spec (s := t) ho.metaUsed hr
    · exact absurd hz.1 hb
    -- The sync of the table is one more record unless the table is recorded.
    obtain ⟨c, hc, hroom', hnoted, hkept⟩ : ∃ c, recorded ctx t'.ctx a = some c ∧ Room ctx c r ∧
        Noted ctx c a ∧ Kept ctx t'.ctx c := by
      by_cases hmem : a ∈ s.ctx.blockNo
      · have hroom₁ := hrec.room
        rw [if_pos hmem, Nat.zero_add] at hroom₁
        have hnoted : Noted ctx t'.ctx a := hrec.kept.noted fun _ => hmem
        exact ⟨t'.ctx, recorded_noted hroom₁ hnoted, hroom₁, hnoted, .refl _ _⟩
      · have hroom₁ := hrec.room
        rw [if_neg hmem, Nat.add_comm] at hroom₁
        exact recorded_room hroom₁
    refine ⟨b, true, { t' with
      disk := Function.update t'.disk a (setAddr (s.disk a) k (UInt32.ofNat b))
      ctx := c
      held := t'.held.erase a }, ⟨_, t, ⟨by simp [hheld], rfl, rfl⟩, ?_⟩, hroom', hrec.kept.trans hkept,
      ?_, fun _ => ⟨hkept.noted hrec.noted, hnoted⟩⟩
    · rw [if_pos hslot]
      simp only [runs_bind, runs_get]
      refine ⟨t, t, ⟨rfl, rfl⟩, ?_⟩
      rw [show tableGroup sblock t.usedBlock k = some g from hgroup]
      simp only [runs_bind, runs_writeBack, runs_pure]
      exact ⟨b, t', hr, ⟨⟩, _, ⟨c, hc, rfl⟩, rfl, rfl⟩
    · show _ ≤ (freeBlocks (Function.update t'.disk a _)).card + 1
      rw [freeBlocks_congr fun c hci => blockBit_update htd.not_bitmap hci]
      exact Nat.le_of_eq halloc.card_freeBlocks.symm
  · have hne : ref E s.disk (n, .slot k) ≠ 0 := by
      rw [hblock]
      exact fun h => hslot (toNat_eq_zero.mp h)
    rw [if_neg hne, Nat.zero_add] at hroom
    refine ⟨(getAddr (s.disk a) k).toNat, modified, s, ⟨_, _, ⟨by simp [hheld], rfl, rfl⟩, ?_⟩, hroom,
      .refl _ _, Nat.le_add_right .., fun h => absurd h hne⟩
    rw [if_neg hslot]
    simp only [runs_bind, runs_cacheRelease, runs_pure, List.erase_cons_head]
    exact ⟨⟨⟩, s, rfl, trivial, rfl⟩

/-- `inode_map` returns, and what it takes of the free blocks and of the room in the record. -/
theorem inodeMap_grows {off : Nat} (hE : E n = (s.mem p).entry) (hno : (s.mem p).inodeNo = n)
    (hn : InUse E n) (ho : BlocksOwned E s.disk) (hheld : s.held = [])
    (hu : UsedExact s.disk s.usedBlock) (hmax : off / blockSize < inodeMaxBlocks)
    (hroom : Room ctx s.ctx (mapCost n (off / blockSize) E s.disk s.ctx + r))
    (hfree : needAt n (off / blockSize) E s.disk ≤ (freeBlocks s.disk).card) :
    ∃ b m s', Runs (inodeMap sblock ctx p off) s (b, m) s' ∧
      MapReturn ctx p n (off / blockSize) r b E s s' := by
  simp only [inodeMap]
  by_cases hi : off / blockSize < inodeNumDirect
  · rw [if_pos hi]
    exact mapDirect_returns hE hno hn ho hheld hi hroom hfree
  · obtain ⟨k, hk⟩ : ∃ k, off / blockSize = inodeNumDirect + k :=
      ⟨off / blockSize - inodeNumDirect, by omega⟩
    rw [if_neg hi, hk, Nat.add_sub_cancel_left]
    rw [hk] at hroom hfree hmax
    have hk' : k < inodeNumIndirect := Nat.lt_of_add_lt_add_left hmax
    have hpl : place (inodeNumDirect + k) = .slot k := by simp [place]
    have htab : ref E s.disk (n, .table) = (s.mem p).entry.indirect.toNat := by
      rw [ref_of_inUse hn, hE]
      rfl
    have hneed : needAt n (inodeNumDirect + k) E s.disk =
        (if ref E s.disk (n, .slot k) = 0 then 1 else 0) +
          if (s.mem p).entry.indirect = 0 then 1 else 0 := by
      unfold needAt
      rw [hpl, htab]
      simp only [Nat.le_add_right, true_and, toNat_eq_zero]
    have hslot0 : (s.mem p).entry.indirect = 0 → ref E s.disk (n, .slot k) = 0 := by
      intro h0
      rw [ref_of_inUse hn, hE]
      simp [blockOf, h0]
    rw [mapCost, hneed, tableCost, hpl, htab] at hroom
    rw [hneed] at hfree
    -- The room that `mapSlot` needs after the table is there.
    set r' := if (s.mem p).entry.indirect = 0 then 2 + r else
      (if ref E s.disk (n, .slot k) = 0 then
        2 + (if (s.mem p).entry.indirect.toNat ∈ s.ctx.blockNo then 0 else 1) else 0) + r with hr'
    have hroom₁ : Room ctx s.ctx ((if (s.mem p).entry.indirect = 0 then 2 else 0) + r') := by
      intro hc
      have h := hroom hc
      rw [hr']
      by_cases h0 : (s.mem p).entry.indirect = 0
      · simp only [h0, hslot0 h0, if_true, Nat.le_add_right, true_and] at h ⊢
        simp at h
        omega
      · simp only [h0, if_false, Nat.le_add_right, true_and, ne_eq, toNat_eq_zero, not_false_eq_true] at h ⊢
        split at h <;> split at h <;> simp_all
    obtain ⟨m, t, hmap, hroomt, hkept, hcard, hsame, hnoted⟩ := mapTable_returns hno hn ho hheld hroom₁
      (fun h0 => by rw [if_pos h0] at hfree; omega)
    obtain ⟨e', hmeta, hframe, hne, howned, href, -, -, -, -⟩ := mapTable_spec hE hn ho hmap
    have hn' : InUse (Function.update E n e') n := (inUse_update (by rw [hmeta.type, hE])).mpr hn
    have he' : Function.update E n e' n = e' := Function.update_self ..
    have hent : (t.mem p).entry = e' := by rw [hframe.inode]
    have hslot := href (n, .slot k) (by simp)
    have hroom₂ : Room ctx t.ctx ((if ref (Function.update E n e') t.disk (n, .slot k) = 0 then
        2 + (if (Function.update E n e' n).indirect.toNat ∈ t.ctx.blockNo then 0 else 1) else 0) + r) := by
      intro hc
      have h := hroomt hc
      rw [hslot, he', ← hent]
      by_cases h0 : (s.mem p).entry.indirect = 0
      · rw [hr', if_pos h0] at h
        rw [if_pos (hslot0 h0), if_pos (hnoted h0 hc)]
        exact h
      · rw [hr', if_neg h0] at h
        obtain rfl := hsame h0
        exact h
    obtain ⟨b, m', s', hrun, hroom', hkept', hcard', hnoted'⟩ := mapSlot_returns m hn' howned
      (by rw [he']; exact hne) (hframe.held.trans hheld) (hframe.used hu) hroom₂ (fun h0 => by
        rw [hslot] at h0
        rw [if_pos h0] at hfree
        omega)
    rw [he'] at hrun hnoted'
    rw [hslot] at hcard' hnoted'
    have hframe' := (mapSlot_spec hn' howned (by rw [he']; exact hne) hk' (by rw [he']; exact hrun)).1
    refine ⟨b, m', s', ?_, ?_⟩
    · simp only [runs_bind, runs_require, runs_get]
      exact ⟨⟨⟩, s, ⟨hk', rfl⟩, m, t, hmap, t, t, ⟨rfl, rfl⟩, by rw [hent]; exact hrun⟩
    · constructor
      case card =>
        rw [hneed]
        omega
      case room => exact hroom'
      case noted =>
        rw [hpl]
        exact fun h0 => (hnoted' h0).1
      case table =>
        intro h0
        rw [hframe'.mem, hsame h0]
      case tableNoted =>
        rw [hpl, hframe'.mem, hent]
        exact fun _ h0 => (hnoted' h0).2
      case kept => exact hkept.trans hkept'

/-! ### Writes -/

/-- The number of blocks of a file that bytes `start` to `stop - 1` lie in. -/
def touched (start stop : Nat) : Nat :=
  if start < stop then (stop + blockSize - 1) / blockSize - start / blockSize else 0

/-- Whether a write up to byte `stop` may have to record the table. -/
def tableLeft (n stop : Nat) (E : Nat → InodeEntry) (d : Nat → BlockData) (c : OpContext) : Nat :=
  if inodeNumDirect * blockSize < stop ∧
    ¬(ref E d (n, .table) ≠ 0 ∧ ref E d (n, .table) ∈ c.blockNo) then 1 else 0

/-- The number of blocks that the loop of `inode_write` records: the blocks it writes to, the bitmaps
of those it allocates, and the table. -/
def writeCost (n start stop : Nat) (E : Nat → InodeEntry) (d : Nat → BlockData) (c : OpContext) : Nat :=
  touched start stop + need n start stop E d + tableLeft n stop E d c

theorem Room.mono {k k' : Nat} (h : Room ctx c k) (hle : ctx = true → k' ≤ k) : Room ctx c k' :=
  fun hc => by
    have h1 := h hc
    have h2 := hle hc
    omega

theorem tableCost_le {start stop : Nat} {d : Nat → BlockData} (hlt : start < stop) :
    tableCost n (start / blockSize) E d c ≤ tableLeft n stop E d c := by
  unfold tableCost tableLeft
  split
  case isTrue h =>
    have h12 : 12 ≤ start / 512 := h.1
    have hstop : inodeNumDirect * blockSize < stop := by
      show 12 * 512 < stop
      omega
    rw [if_pos ⟨hstop, h.2.2⟩]
  case isFalse => exact Nat.zero_le _

/-- The table is recorded at most once. -/
theorem tableLeft_step {start stop b : Nat} {m : Bool} {e₁ : InodeEntry} {d : Nat → BlockData}
    (hlt : start < stop) (hE : E n = (s.mem p).entry) (hn : InUse E n)
    (hm : MapDone p n (start / blockSize) b m E s s' e₁) (hb : b ≠ 0)
    (hr : MapReturn ctx p n (start / blockSize) r b E s s')
    (hd : ref (Function.update E n e₁) d = ref (Function.update E n e₁) s'.disk)
    (hk : Kept ctx s'.ctx c) (hc : ctx = true) :
    tableCost n (start / blockSize) E s.disk s.ctx +
      tableLeft n stop (Function.update E n e₁) d c ≤ tableLeft n stop E s.disk s.ctx := by
  have hn₁ : InUse (Function.update E n e₁) n := (inUse_update (by rw [hm.fields.type, hE])).mpr hn
  have hent : (s'.mem p).entry = e₁ := by rw [hm.frame.inode]
  have htab : ref E s.disk (n, .table) = (s.mem p).entry.indirect.toNat := by
    rw [ref_of_inUse hn, hE]
    rfl
  have htab' : ref (Function.update E n e₁) d (n, .table) = (s'.mem p).entry.indirect.toNat := by
    rw [hd, ref_of_inUse hn₁, Function.update_self, hent]
    rfl
  have hle := tableCost_le (n := n) (E := E) (d := s.disk) (c := s.ctx) hlt
  by_cases hcost : tableCost n (start / blockSize) E s.disk s.ctx = 0
  · rw [hcost, Nat.zero_add]
    unfold tableLeft
    split
    case isTrue h =>
      have hleft : ¬(ref E s.disk (n, .table) ≠ 0 ∧ ref E s.disk (n, .table) ∈ s.ctx.blockNo) := by
        intro hno
        rw [htab] at hno
        have hkeep := hr.table fun h0 => hno.1 (by rw [h0]; rfl)
        refine h.2 ?_
        rw [htab', hkeep]
        exact ⟨hno.1, hk hc _ (hr.kept hc _ hno.2)⟩
      rw [if_pos ⟨h.1, hleft⟩]
    case isFalse => exact Nat.zero_le _
  · -- The table is recorded now.
    have hcond : inodeNumDirect ≤ start / blockSize ∧ ref E s.disk (n, place (start / blockSize)) = 0 ∧
        ¬(ref E s.disk (n, .table) ≠ 0 ∧ ref E s.disk (n, .table) ∈ s.ctx.blockNo) := by
      by_contra h
      exact hcost (if_neg h)
    have hnoted := hr.tableNoted hcond.1 hcond.2.1
    have hne : ref (Function.update E n e₁) d (n, .table) ≠ 0 := by
      rw [hd]
      exact table_of_slot hcond.1 (by rw [hm.mapped.here]; exact hb)
    have hzero : tableLeft n stop (Function.update E n e₁) d c = 0 := by
      unfold tableLeft
      refine if_neg fun h => h.2 ⟨hne, ?_⟩
      rw [htab']
      exact hk hc _ (hnoted hc)
    rw [hzero]
    exact hle

/-- The loop of `inode_write` returns. -/
theorem writeLoop_returns {src : Nat → UInt8} {off stop fuel start : Nat} {m : Bool}
    (hE : E n = (s.mem p).entry) (hno : (s.mem p).inodeNo = n) (hn : InUse E n)
    (ho : BlocksOwned E s.disk) (hheld : s.held = []) (hu : UsedExact s.disk s.usedBlock)
    (hmax : stop ≤ inodeMaxBytes)
    (hroom : Room ctx s.ctx (writeCost n start stop E s.disk s.ctx + r))
    (hfree : need n start stop E s.disk ≤ (freeBlocks s.disk).card) :
    ∃ m' s', Runs (writeLoop sblock ctx p src off stop fuel start m) s m' s' ∧ Room ctx s'.ctx r := by
  have hdone : Room ctx s.ctx r := hroom.mono fun _ => Nat.le_add_left ..
  induction fuel generalizing s start m E with
  | zero => exact ⟨m, s, runs_pure.mpr ⟨rfl, rfl⟩, hdone⟩
  | succ fuel ih =>
    unfold writeLoop
    split
    case isFalse => exact ⟨m, s, runs_pure.mpr ⟨rfl, rfl⟩, hdone⟩
    case isTrue hlt =>
      have hmax' : stop ≤ 71680 := hmax
      have hindex : start / blockSize < inodeMaxBlocks := by
        show start / 512 < 140
        omega
      set step := min (stop - start) (blockSize - start % blockSize) with hstep
      have hstep' : step = min (stop - start) (512 - start % 512) := hstep
      have htouched : touched start stop = 1 + touched (start + step) stop := by
        unfold touched
        rw [if_pos hlt]
        show (stop + 512 - 1) / 512 - start / 512 =
          1 + if start + step < stop then (stop + 512 - 1) / 512 - (start + step) / 512 else 0
        split <;> omega
      have hneedAt := needAt_le_need (n := n) (E := E) (d := s.disk) hlt
      have htable := tableCost_le (n := n) (E := E) (d := s.disk) (c := s.ctx) hlt
      -- A block that is there is recorded when it is written to, a new one before that.
      set x := if ref E s.disk (n, place (start / blockSize)) = 0 then 0 else 1 with hx
      set rest := writeCost n start stop E s.disk s.ctx + r - mapCost n
        (start / blockSize) E s.disk s.ctx - x with hrest
      have hcost : mapCost n (start / blockSize) E s.disk s.ctx + (x + rest) =
          writeCost n start stop E s.disk s.ctx + r := by
        have hone : (if ref E s.disk (n, place (start / blockSize)) = 0 then 1 else 0) + x = 1 := by
          rw [hx]
          split <;> rfl
        unfold mapCost writeCost at hrest ⊢
        omega
      obtain ⟨b, m₁, t, hmap, hret⟩ := inodeMap_grows (r := x + rest) hE hno hn ho hheld hu hindex
        (by rw [hcost]; exact hroom) (by omega)
      obtain ⟨-, e₁, hm⟩ := inodeMap_spec hE hn ho hmap
      have hb : b ≠ 0 := hm.filled hu
      obtain ⟨c, hc, hroomc, hkept⟩ : ∃ c, recorded ctx t.ctx b = some c ∧ Room ctx c rest ∧
          Kept ctx t.ctx c := by
        have hroomt := hret.room
        by_cases href : ref E s.disk (n, place (start / blockSize)) = 0
        · rw [hx, if_pos href, Nat.zero_add] at hroomt
          exact ⟨t.ctx, recorded_noted hroomt (hret.noted href), hroomt, .refl _ _⟩
        · rw [hx, if_neg href, Nat.add_comm] at hroomt
          obtain ⟨c, hc, hroomc, -, hkept⟩ := recorded_room (b := b) hroomt
          exact ⟨c, hc, hroomc, hkept⟩
      have hmeta := hm.mapped.owned.not_meta hm.mapped.here.symm
      set x' := (t.disk b).splice (start % blockSize) step fun i => src (start - off + i) with hx'
      have hframe := hm.frame.store hmeta.2 x' c
      set t' : State := { t with
        disk := Function.update t.disk b x'
        ctx := c
        held := (b :: t.held).erase b } with ht'
      have hn₁ : InUse (Function.update E n e₁) n := (inUse_update (by rw [hm.fields.type, hE])).mpr hn
      have hE₁ : Function.update E n e₁ n = (t'.mem p).entry := by rw [hframe.inode, Function.update_self]
      have hd : ref (Function.update E n e₁) t'.disk = ref (Function.update E n e₁) t.disk :=
        ref_store hm.mapped.owned hm.mapped.here.symm
      have htab : ref E s.disk (n, .table) ≠ 0 →
          ref (Function.update E n e₁) t.disk (n, .table) ≠ 0 := by
        rw [ref_of_inUse hn, ref_of_inUse hn₁, hE, Function.update_self]
        intro h h0
        have hind : (t.mem p).entry = e₁ := by rw [hm.frame.inode]
        rw [← hind, blockOf, hret.table fun hz => h (by rw [blockOf, hz]; rfl)] at h0
        exact h h0
      have hneed := need_step hm.mapped hb htab hlt hstep
      have hneed' : need n (start + step) stop (Function.update E n e₁) t'.disk =
          need n (start + step) stop (Function.update E n e₁) t.disk := by
        unfold need
        rw [hd]
      have hcard : (freeBlocks t'.disk).card = (freeBlocks t.disk).card :=
        congrArg _ (freeBlocks_congr fun c hci => blockBit_update hmeta.2 hci)
      have hroom' : Room ctx t'.ctx
          (writeCost n (start + step) stop (Function.update E n e₁) t'.disk t'.ctx + r) := by
        refine hroomc.mono fun htrue => ?_
        have hleft := tableLeft_step hlt hE hn hm hb hret hd hkept htrue
        have hone : (if ref E s.disk (n, place (start / blockSize)) = 0 then 1 else 0) + x = 1 := by
          rw [hx]
          split <;> rfl
        unfold writeCost at hcost ⊢
        rw [hneed']
        unfold mapCost at hcost
        show _ + tableLeft n stop (Function.update E n e₁) t'.disk c + r ≤ rest
        omega
      obtain ⟨m', s', hr, hroom''⟩ := ih hE₁ (by rw [hframe.inode]; exact hno) hn₁
        (hm.mapped.owned.store hm.mapped.here.symm) (hframe.held.trans hheld) (hframe.used hu) hroom'
        (by have := hret.card; rw [hneed', hcard]; omega) (hroom'.mono fun _ => Nat.le_add_left ..)
      refine ⟨m', s', ?_, hroom''⟩
      simp only [runs_bind, runs_cacheAcquire, runs_writeBack]
      have hbt : b ∉ t.held := by
        rw [hm.frame.held]
        exact fun h => by rw [show (s.setInode p _).held = s.held from rfl, hheld] at h; cases h
      exact ⟨(b, m₁), t, hmap, _, _, ⟨hbt, rfl, rfl⟩, ⟨⟩, t', ⟨c, hc, rfl⟩, hr⟩

/-- `inode_write` returns if there are free blocks for what it allocates, and room in the record for
the blocks that it writes to and the block of the inode. -/
theorem inodeWrite_returns {src : Nat → UInt8} {off count : Nat} (hv : (s.mem p).valid = true)
    (hE : E n = (s.mem p).entry) (hno : (s.mem p).inodeNo = n) (hn : InUse E n)
    (ho : BlocksOwned E s.disk) (hheld : s.held = []) (hu : UsedExact s.disk s.usedBlock)
    (hdev : (s.mem p).entry.type ≠ inodeDevice) (hoff : off ≤ (s.mem p).entry.numBytes.toNat)
    (hmax : off + count ≤ inodeMaxBytes)
    (hroom : Room ctx s.ctx (writeCost n off (off + count) E s.disk s.ctx + 1))
    (hfree : need n off (off + count) E s.disk ≤ (freeBlocks s.disk).card) :
    ∃ s', Runs (inodeWrite sblock ctx p src off count) s count s' := by
  obtain ⟨m, t, hloop, hroomt⟩ : ∃ m t, Runs (writeLoop sblock ctx p src off (off + count) count off
      false) s m t ∧ Room ctx t.ctx 1 := writeLoop_returns hE hno hn ho hheld hu hmax hroom hfree
  obtain ⟨e₁, -, hframe, -⟩ := writeLoop_spec hn hE ho (Nat.le_refl off) (Nat.le_refl _) hloop
  -- The change of the size keeps what the sync of the inode needs.
  obtain ⟨t₁, hsize, hctx, hheld₁, hv₁⟩ : ∃ t₁, Runs (Exec.when (off + count > (s.mem p).entry.numBytes.toNat)
      (modifyEntry p fun e => { e with numBytes := UInt32.ofNat (off + count) })) t () t₁ ∧
      t₁.ctx = t.ctx ∧ t₁.held = t.held ∧ (t₁.mem p).valid = true := by
    have hvt : (t.mem p).valid = true := by
      rw [hframe.inode]
      exact hv
    by_cases hgt : off + count > (s.mem p).entry.numBytes.toNat
    · refine ⟨_, runs_when.mpr (.inl ⟨hgt, runs_modifyEntry.mpr rfl⟩), rfl, rfl, ?_⟩
      rw [State.mem_setInode_same]
      exact hvt
    · exact ⟨t, runs_when.mpr (.inr ⟨hgt, rfl⟩), rfl, rfl, hvt⟩
  have hsync : ∃ t₂, Runs (Exec.when (off + count > (s.mem p).entry.numBytes.toNat ∨ m = true)
      (inodeSync sblock ctx p true)) t₁ () t₂ := by
    by_cases hc : off + count > (s.mem p).entry.numBytes.toNat ∨ m = true
    · obtain ⟨c, hrec, -⟩ := recorded_room (b := toBlockNo sblock (t₁.mem p).inodeNo) hroomt
      refine ⟨_, runs_when.mpr (.inl ⟨hc, (runs_inodeSync_write hv₁).mpr ⟨?_, c, ?_, rfl⟩⟩)⟩
      · rw [hheld₁, hframe.held]
        exact fun h => by rw [show (s.setInode p _).held = s.held from rfl, hheld] at h; cases h
      · rw [hctx]
        exact hrec
    · exact ⟨t₁, runs_when.mpr (.inr ⟨hc, rfl⟩)⟩
  obtain ⟨t₂, hsync⟩ := hsync
  refine ⟨t₂, ?_⟩
  simp only [inodeWrite, runs_bind, runs_get]
  refine ⟨s, s, ⟨rfl, rfl⟩, ?_⟩
  rw [if_neg hdev]
  simp only [runs_bind, runs_require, runs_pure]
  exact ⟨⟨⟩, s, ⟨hoff, rfl⟩, ⟨⟩, s, ⟨hmax, rfl⟩, m, t, hloop, ⟨⟩, t₁, hsize, ⟨⟩, t₂, hsync, trivial, rfl⟩

end FtosFfs.Fs
