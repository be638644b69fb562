import FtosFfs.Fs.Grow
import FtosFfs.Fs.Handles

/-! The choice of a group: the search of `inode_map` and `iappend` for a group that is not full, and
the group in which `inode_map` places the blocks behind the index block. -/

namespace FtosFfs.Fs

open Lib Lib.Exec Cache

variable {s s' : State} {ctx : Bool} {p : Ptr} {b g k : Nat}

/-! ### The search -/

/-- The search for a group from `tgno` ends, and at a group that is not full if there is one. -/
def SearchOk (full : Nat → Bool) (tgno : Nat) : Prop :=
  ∃ fuel g, nextGroup full fuel tgno 2 = some g ∧
    ((∃ h < ngroups, full h = false) → g < ngroups ∧ full g = false)

theorem searchOk_iff {full : Nat → Bool} {tgno : Nat} (ht : tgno < ngroups) :
    SearchOk full tgno ↔ ∃ g < ngroups, full g = false := by
  constructor
  · rintro ⟨fuel, g, hg, -⟩
    by_contra hno
    have hfull : ∀ h < ngroups, full h = true := by
      intro h hh
      by_contra hf
      exact hno ⟨h, hh, by simpa using hf⟩
    rw [nextGroup_full hfull ht fuel] at hg
    cases hg
  · rintro ⟨g, hg, hfull⟩
    obtain ⟨r, hr⟩ := nextGroup_two hg hfull ht (Nat.le_refl _)
    exact ⟨20 - tgno, r, hr, fun _ => nextGroup_spec ht hr⟩

/-- The searches of `inode_map` and of `iappend` in `mkfs` meet this exactly when some group is not
full: with all groups full, the test that should leave the loop comes after the index is reset. -/
theorem searches_ok_iff (sb : SuperBlock) (usedBlock : Nat → UInt32) (mkfsUsed : Nat → Nat)
    (tgno : Fin ngroups) :
    (SearchOk (fun g => (usedBlock g).toNat = sb.numDatablocksPerGroup) tgno ↔
      ∃ g < ngroups, (usedBlock g).toNat ≠ sb.numDatablocksPerGroup) ∧
    (SearchOk (Mkfs.full mkfsUsed) tgno ↔
      ∃ g < ngroups, mkfsUsed g ≠ mkfsSuperBlock.numDatablocksPerGroup) := by
  rw [searchOk_iff tgno.isLt, searchOk_iff tgno.isLt]
  simp only [Mkfs.full, decide_eq_false_iff_not, ne_eq, and_self]

/-- On a full disk, the search of `inode_map` from the group of slot 0 does not end. -/
theorem not_searchOk_full : ¬∀ (usedBlock : Nat → UInt32),
    (∀ g < ngroups, (usedBlock g).toNat ≤ sblock.numDatablocksPerGroup) → ∀ tgno < ngroups,
      SearchOk (fun g => (usedBlock g).toNat = sblock.numDatablocksPerGroup) tgno := by
  intro h
  have hok := h (fun _ => 996) (by decide) ((0 / ninblocksPerGroup + 1) % ngroups) (by decide)
  rw [searchOk_iff (by decide)] at hok
  obtain ⟨g, -, hfull⟩ := hok
  simp [sblock, mkfsSuperBlock, fssize, ngroups, logMaxSize, blockSize, ninodes, inodePerBlock,
    bitPerBlock] at hfull

/-! ### The group of a block behind the index block -/

/-- The group of block `b`. -/
def groupOf (b : Nat) : Nat := (b - sblock.bgStart) / sblock.blocksPerGroup

/-- What the allocation of a block of group `g` does to `used_block`. -/
def countUp (used : Nat → UInt32) (g : Nat) : Nat → UInt32 := Function.update used g (used g + 1)

/-- Group `g` has a clear bit. -/
def HasClear (d : Nat → BlockData) (g : Nat) : Prop :=
  ∃ j < 1000, bitmapGet (d (bitmapBlock sblock g 0)) j = false

instance (d : Nat → BlockData) (g : Nat) : Decidable (HasClear d g) :=
  inferInstanceAs (Decidable (∃ j < 1000, _))

/-- A group has a clear bit exactly if it has a free data block. -/
theorem hasClear_iff (hg : g < 10) (hm : MetaUsed s.disk) :
    HasClear s.disk g ↔ (usedBits s.disk g).card ≠ sblock.numDatablocksPerGroup := by
  refine ⟨?_, exists_clear_bit⟩
  rintro ⟨j, hj, hclear⟩ hfull
  rw [bit_of_full hg hm hfull hj] at hclear
  cases hclear

/-- Block `b` of group `g` is allocated. -/
structure TakenIn (g b : Nat) (s s' : State) : Prop where
  clear : HasClear s.disk g
  group : groupOf b = g
  block : 0 < b ∧ b < 65 + ngroups * 1000
  used : s'.usedBlock = countUp s.usedBlock g
  zero : s'.disk b = Bytes.zero
  mem : s'.mem = s.mem

theorem allocIn_taken (hg : g < ngroups) (hr : Runs (allocIn sblock ctx g 0 1000) s (some b) s') :
    TakenIn g b s s' := by
  simp only [allocIn, runs_bind, runs_cacheAcquire] at hr
  obtain ⟨_, _, ⟨-, rfl, rfl⟩, hr⟩ := hr
  split at hr
  case h_1 j hj =>
    have hlt : j < 1000 := List.mem_range.mp (List.mem_of_find?_eq_some hj)
    simp only [runs_bind, runs_writeBack, runs_cacheAcquire, runs_modify, runs_pure] at hr
    obtain ⟨_, _, ⟨_, -, rfl⟩, _, _, ⟨-, -, rfl⟩, _, _, ⟨_, -, rfl⟩, _, _, rfl, hb, rfl⟩ := hr
    obtain rfl : 65 + g * 1000 + 0 + j = b := Option.some.inj hb
    have hg10 : g < 10 := hg
    refine ⟨⟨j, hlt, by simpa using List.find?_some hj⟩, ?_, ⟨by omega, ?_⟩, rfl, Function.update_self ..,
      rfl⟩
    · show (65 + g * 1000 + 0 + j - 65) / 1000 = g
      omega
    · show 65 + g * 1000 + 0 + j < 65 + 10 * 1000
      omega
  case h_2 =>
    simp only [runs_bind, runs_pure] at hr
    obtain ⟨_, _, -, hb, -⟩ := hr
    cases hb

theorem allocIn_missed (hr : Runs (allocIn sblock ctx g 0 1000) s none s') : ¬HasClear s.disk g ∧ s' = s := by
  obtain ⟨-, hall, rfl⟩ := runs_allocIn_none.mp hr
  refine ⟨?_, rfl⟩
  rintro ⟨j, hj, hclear⟩
  rw [hall j hj] at hclear
  cases hclear

/-- The rounds of an allocation over the bitmap block of one group. -/
theorem searchGroup_taken {bound : Nat → Nat} {r : Option Nat} (hbound : bound 0 = 1000) (hg : g < ngroups)
    (hr : Runs (Exec.search (fun i => allocIn sblock ctx g i (bound i)) (bitmapStarts sblock)) s r s') :
    r.elim (¬HasClear s.disk g ∧ s' = s) (TakenIn g · s s') := by
  rw [bitmapStarts_sblock] at hr
  obtain ⟨o, v, hround, hr⟩ := runs_bind.mp hr
  dsimp only at hround
  rw [hbound] at hround
  cases o with
  | none =>
    obtain ⟨rfl, rfl⟩ := runs_pure.mp hr
    exact allocIn_missed hround
  | some c =>
    obtain ⟨rfl, rfl⟩ := runs_pure.mp hr
    exact allocIn_taken hg hround

/-- `cache_allocg` allocates in the group that it was called with, if the group has a clear bit. -/
theorem cacheAllocg_taken (hr : Runs (cacheAllocg sblock ctx g) s b s') :
    b = 0 ∧ ¬HasClear s.disk g ∧ s' = s ∨ TakenIn g b s s' := by
  simp only [cacheAllocg, runs_bind, runs_require] at hr
  obtain ⟨_, _, ⟨hg, rfl⟩, found, u, hsearch, hr⟩ := hr
  obtain ⟨rfl, rfl⟩ := runs_pure.mp hr
  have hround := searchGroup_taken rfl hg hsearch
  cases found with
  | none => exact .inl ⟨rfl, hround⟩
  | some c => exact .inr hround

/-- A block that `cache_allocg` allocates is in the group that it was called with. -/
theorem cacheAllocg_group (hr : Runs (cacheAllocg sblock ctx g) s b s') (hb : b ≠ 0) : groupOf b = g := by
  rcases cacheAllocg_taken hr with ⟨rfl, -⟩ | htaken
  · exact absurd rfl hb
  · exact htaken.group

/-- The search of `cache_alloc` ends at the first group that has a clear bit. -/
theorem searchGroups_taken {l : List Nat} (hl : ∀ h ∈ l, h < ngroups)
    (hr : Runs (Exec.search (fun h => Exec.search
      (fun i => allocIn sblock ctx h i (min bitPerBlock (sblock.blocksPerGroup - i))) (bitmapStarts sblock)) l)
      s (some b) s') :
    ∃ g < ngroups, l.find? (fun h => decide (HasClear s.disk h)) = some g ∧ TakenIn g b s s' := by
  induction l with
  | nil => cases (runs_pure.mp hr).1
  | cons h l ih =>
    obtain ⟨o, v, hround, hrest⟩ := runs_bind.mp hr
    have hgroup := searchGroup_taken rfl (hl h List.mem_cons_self) hround
    rw [List.find?_cons]
    cases o with
    | none =>
      obtain ⟨hmiss, rfl⟩ := hgroup
      rw [decide_eq_false hmiss]
      exact ih (fun h hh => hl h (List.mem_cons_of_mem _ hh)) hrest
    | some a =>
      have htaken : TakenIn h a s v := hgroup
      obtain ⟨hc, rfl⟩ := runs_pure.mp hrest
      obtain rfl := Option.some.inj hc
      rw [decide_eq_true htaken.clear]
      exact ⟨h, hl h List.mem_cons_self, rfl, htaken⟩

/-- The group in which `inode_map` allocates the index block of an inode of group `g`. -/
def tableHome (d : Nat → BlockData) (g : Nat) : Nat :=
  if HasClear d g then g else ((List.range ngroups).find? fun h => decide (HasClear d h)).getD 0

theorem allocNear_taken (hr : Runs (allocNear sblock ctx g) s b s') :
    TakenIn (tableHome s.disk g) b s s' := by
  obtain ⟨c, u, hallocg, hrest⟩ := runs_bind.mp hr
  rcases cacheAllocg_taken hallocg with ⟨rfl, hmiss, rfl⟩ | htaken
  · rw [if_pos rfl] at hrest
    obtain ⟨found, v, hsearch, hend⟩ := runs_bind.mp hrest
    cases found with
    | none => exact absurd hend runs_throw
    | some d =>
      obtain ⟨rfl, rfl⟩ := runs_pure.mp hend
      obtain ⟨h, -, hfind, htaken⟩ := searchGroups_taken (fun h hh => List.mem_range.mp hh) hsearch
      have hhome : tableHome u.disk g = h := by
        rw [tableHome, if_neg hmiss]
        exact congrArg (Option.getD · 0) hfind
      rwa [hhome]
  · rw [if_neg (Nat.ne_of_gt htaken.block.1)] at hrest
    obtain ⟨rfl, rfl⟩ := runs_pure.mp hrest
    rwa [tableHome, if_pos htaken.clear]

/-- A first hit is `T` when everything before `T` is no hit. -/
theorem find?_eq_some_iff_takeWhile {hit : Nat → Bool} {l : List Nat} {T : Nat} (hT : hit T = true)
    (hmem : T ∈ l) : l.find? hit = some T ↔ ∀ h ∈ l.takeWhile (· ≠ T), hit h = false := by
  induction l with
  | nil => cases hmem
  | cons a l ih =>
    rw [List.find?_cons, List.takeWhile_cons]
    by_cases haT : a = T
    · subst haT
      simp [hT]
    · have hmem' : T ∈ l := by simpa [Ne.symm haT] using hmem
      cases ha : hit a with
      | true => simp [haT, ha]
      | false => simpa [haT, ha] using ih hmem'

/-- The group in which the block of slot `k` of inode `n` should be: in steps of
`NINBLOCKS_PER_GROUP` slots, from the group after that of the inode on. -/
def targetGroup (n k : Nat) : Nat := (inodeGroup n + 1 + k / ninblocksPerGroup) % ngroups

/-- The groups that the search for slot `k` looks at before group `g` are full. -/
def FullBefore (usedBlock : Nat → UInt32) (k g : Nat) : Prop :=
  ∀ h ∈ (searchOrder ((k / ninblocksPerGroup + 1) % ngroups)).takeWhile (· ≠ g),
    (usedBlock h).toNat = sblock.numDatablocksPerGroup

instance (usedBlock : Nat → UInt32) (k g : Nat) : Decidable (FullBefore usedBlock k g) :=
  inferInstanceAs (Decidable (∀ h ∈ List.takeWhile _ _, _))

theorem tableGroup_eq_iff {usedBlock : Nat → UInt32} (hg : g < ngroups)
    (hfree : (usedBlock g).toNat ≠ sblock.numDatablocksPerGroup) :
    tableGroup sblock usedBlock k = some g ↔ FullBefore usedBlock k g := by
  have hmod : (k / ninblocksPerGroup + 1) % ngroups < ngroups := Nat.mod_lt _ (by decide)
  have hmem : g ∈ searchOrder ((k / ninblocksPerGroup + 1) % ngroups) :=
    List.mem_append_right _ (List.mem_range.mpr hg)
  let hit (h : Nat) : Bool := !decide ((usedBlock h).toNat = sblock.numDatablocksPerGroup)
  have hhit : hit g = true := by simpa [hit] using hfree
  have hfuel : 2 * ngroups - (k / ninblocksPerGroup + 1) % ngroups ≤ 3 * ngroups :=
    Nat.le_trans (Nat.sub_le ..) (by decide)
  have hsearch : tableGroup sblock usedBlock k =
      (searchOrder ((k / ninblocksPerGroup + 1) % ngroups)).find? hit := by
    cases hfind : (searchOrder ((k / ninblocksPerGroup + 1) % ngroups)).find? hit with
    | some h => exact nextGroup_find hmod hfuel hfind
    | none => exact absurd hhit (List.find?_eq_none.mp hfind g hmem)
  rw [hsearch, find?_eq_some_iff_takeWhile hhit hmem]
  simp [FullBefore, hit]

/-- The end of `inode_map` allocates a block for an empty slot in the group of its search. -/
theorem mapSlot_group {a : Nat} {m m' : Bool} (hslot : getAddr (s.disk a) k = 0)
    (hr : Runs (mapSlot sblock ctx a k m) s (b, m') s') (hb : b ≠ 0) :
    tableGroup sblock s.usedBlock k = some (groupOf b) := by
  simp only [mapSlot, runs_bind, runs_cacheAcquire] at hr
  obtain ⟨_, t, ⟨-, rfl, rfl⟩, hr⟩ := hr
  rw [if_pos hslot] at hr
  simp only [runs_bind, runs_get] at hr
  obtain ⟨_, _, ⟨rfl, rfl⟩, hr⟩ := hr
  cases hg : tableGroup sblock s.usedBlock k with
  | none =>
    simp only [hg] at hr
    exact absurd hr runs_throw
  | some tgno =>
    simp only [hg, runs_bind, runs_pure] at hr
    obtain ⟨c, t, hc, _, _, -, hbm, -⟩ := hr
    obtain ⟨rfl, -⟩ := Prod.mk.inj hbm
    rw [cacheAllocg_group hc hb]

/-- A block behind the index block is mapped after the index block is there. -/
theorem runs_inodeMap_slot {off : Nat} {m' : Bool} (hoff : off / blockSize = inodeNumDirect + k) :
    Runs (inodeMap sblock ctx p off) s (b, m') s' ↔ k < inodeNumIndirect ∧ ∃ m t,
      Runs (mapTable sblock ctx p) s m t ∧
      Runs (mapSlot sblock ctx (t.mem p).entry.indirect.toNat k m) t (b, m') s' := by
  have hge : ¬inodeNumDirect + k < inodeNumDirect := by omega
  simp only [inodeMap, hoff, if_neg hge, Nat.add_sub_cancel_left, runs_bind, runs_require, runs_get]
  constructor
  · rintro ⟨_, _, ⟨hk, rfl⟩, m, t, ht, _, _, ⟨rfl, rfl⟩, hr⟩
    exact ⟨hk, m, t, ht, hr⟩
  · rintro ⟨hk, m, t, ht, hr⟩
    exact ⟨⟨⟩, s, ⟨hk, rfl⟩, m, t, ht, t, t, ⟨rfl, rfl⟩, hr⟩

theorem freeBlocks_pos (hm : MetaUsed s.disk) (hg : g < 10)
    (hne : (usedBits s.disk g).card ≠ sblock.numDatablocksPerGroup) :
    0 < (freeBlocks s.disk).card := by
  obtain ⟨j, hj, hclear⟩ := exists_clear_bit hne
  rw [bitmapGet_eq_blockBit hj] at hclear
  refine Finset.card_pos.mpr ⟨65 + g * 1000 + j, mem_freeBlocks.mpr ⟨?_, hclear⟩⟩
  by_contra hd
  rw [hm _ (by rw [inGroups_iff]; omega) hd] at hclear
  cases hclear

theorem mapTable_used {t : State} {m : Bool} (h : Cached Set.univ s) (hp : p ∈ s.list)
    (hv : (s.mem p).valid = true) (ht : Runs (mapTable sblock ctx p) s m t)
    (hu : UsedExact s.disk s.usedBlock) : UsedExact t.disk t.usedBlock := by
  obtain ⟨e', -, hframe, -⟩ := mapTable_spec State.view_self (h.inUse_view hp hv)
    (h.owned_view hp hv) ht
  exact hframe.used hu

/-- With room in the record, the block of an empty slot is allocated. -/
theorem inodeMap_allocates {t : State} {m : Bool} {off : Nat} (h : Cached Set.univ s)
    (hu : UsedExact s.disk s.usedBlock) (hp : p ∈ s.list) (hv : (s.mem p).valid = true)
    (hoff : off / blockSize = inodeNumDirect + k) (hk : k < inodeNumIndirect)
    (ht : Runs (mapTable sblock ctx p) s m t) (hg : g < 10)
    (hfree : (t.usedBlock g).toNat ≠ sblock.numDatablocksPerGroup) (hroom : Room ctx t.ctx 3) :
    ∃ b m' s', Runs (inodeMap sblock ctx p off) s (b, m') s' ∧ b ≠ 0 := by
  obtain ⟨e', hmeta, hframe, hne, howned, -⟩ := mapTable_spec State.view_self (h.inUse_view hp hv)
    (h.owned_view hp hv) ht
  set E := Function.update (s.view p) (s.mem p).inodeNo e' with hE
  have hn : InUse E (s.mem p).inodeNo :=
    (inUse_update (by rw [hmeta.type, State.view_self])).mpr (h.inUse_view hp hv)
  have he' : E (s.mem p).inodeNo = e' := Function.update_self ..
  have hent : (t.mem p).entry = e' := by rw [hframe.inode]
  have hut : UsedExact t.disk t.usedBlock := hframe.used hu
  have hpos : 0 < (freeBlocks t.disk).card :=
    freeBlocks_pos howned.metaUsed hg (by rwa [← hut g hg])
  have hroom' : Room ctx t.ctx ((if ref E t.disk ((s.mem p).inodeNo, .slot k) = 0 then
      2 + (if (E (s.mem p).inodeNo).indirect.toNat ∈ t.ctx.blockNo then 0 else 1) else 0) + 0) := by
    intro hc
    have := hroom hc
    have hle : (if (E (s.mem p).inodeNo).indirect.toNat ∈ t.ctx.blockNo then 0 else 1) ≤ 1 := by
      split <;> omega
    split <;> omega
  have h0 : (E (s.mem p).inodeNo).indirect ≠ 0 := by rwa [he']
  obtain ⟨b, m', s', hr, -⟩ := mapSlot_returns m hn howned h0 (hframe.held.trans h.held) hut hroom'
    fun _ => hpos
  refine ⟨b, m', s', ?_, (mapSlot_spec hn howned h0 hk hr).2.2.2 hut⟩
  rw [he', ← hent] at hr
  exact (runs_inodeMap_slot hoff).mpr ⟨hk, m, t, ht, hr⟩

/-- `used_block` with the index block of the inode counted in, which `inode_map` allocates first if there is
none. -/
def usedWithTable (s : State) (p : Ptr) : Nat → UInt32 :=
  if (s.mem p).entry.indirect = 0 then
    countUp s.usedBlock (tableHome s.disk (inodeGroup (s.mem p).inodeNo))
  else s.usedBlock

/-- What `inode_map` finds when the index block is there. -/
theorem mapTable_finds {t : State} {m : Bool} (ht : Runs (mapTable sblock ctx p) s m t)
    (hslot : (s.mem p).entry.indirect ≠ 0 → getAddr (s.disk (s.mem p).entry.indirect.toNat) k = 0) :
    t.usedBlock = usedWithTable s p ∧ getAddr (t.disk (t.mem p).entry.indirect.toNat) k = 0 := by
  simp only [mapTable, runs_bind, runs_get] at ht
  obtain ⟨_, _, ⟨rfl, rfl⟩, ht⟩ := ht
  unfold usedWithTable
  by_cases h0 : (s.mem p).entry.indirect = 0
  · rw [if_pos h0] at ht ⊢
    simp only [runs_bind, runs_modifyEntry, runs_pure] at ht
    obtain ⟨c, u, halloc, _, _, rfl, -, rfl⟩ := ht
    have htaken := allocNear_taken halloc
    refine ⟨htaken.used, ?_⟩
    rw [State.mem_setInode_same]
    show getAddr (u.disk (UInt32.ofNat c).toNat) k = 0
    have hsmall : c < 65 + 10 * 1000 := htaken.block.2
    rw [UInt32.toNat_ofNat', Nat.mod_eq_of_lt (by omega), htaken.zero, getAddr_zero]
  · rw [if_neg h0] at ht ⊢
    obtain ⟨-, rfl⟩ := runs_pure.mp ht
    exact ⟨rfl, hslot h0⟩

/-- The block that `inode_map` allocates for slot `k` is in the group due exactly when, with the index block counted
in, the group is not full and the groups that the search looks at before it are: the search starts as for an inode
of group 0. -/
theorem inodeMap_places_iff {off : Nat}
    (hoff : off / blockSize = inodeNumDirect + k) (hk : k < inodeNumIndirect)
    (hslot : (s.mem p).entry.indirect ≠ 0 → getAddr (s.disk (s.mem p).entry.indirect.toNat) k = 0)
    (hfree : (s.usedBlock (targetGroup (s.mem p).inodeNo k)).toNat ≠ sblock.numDatablocksPerGroup) :
    (∀ b m s', Runs (inodeMap sblock ctx p off) s (b, m) s' → b ≠ 0 →
      (groupOf b = targetGroup (s.mem p).inodeNo k ↔
        (usedWithTable s p (targetGroup (s.mem p).inodeNo k)).toNat ≠ sblock.numDatablocksPerGroup ∧
          FullBefore (usedWithTable s p) k (targetGroup (s.mem p).inodeNo k))) ∧
    (Cached Set.univ s → UsedExact s.disk s.usedBlock → p ∈ s.list → (s.mem p).valid = true →
      Room ctx s.ctx 5 →
      (usedWithTable s p (targetGroup (s.mem p).inodeNo k)).toNat ≠ sblock.numDatablocksPerGroup →
        ∃ b m s', Runs (inodeMap sblock ctx p off) s (b, m) s' ∧ b ≠ 0) := by
  have hlt : targetGroup (s.mem p).inodeNo k < ngroups := Nat.mod_lt _ (by decide)
  constructor
  · intro b m s' hr hb
    obtain ⟨-, m₁, t, ht, hr⟩ := (runs_inodeMap_slot hoff).mp hr
    obtain ⟨hused, hempty⟩ := mapTable_finds ht hslot
    have hgroup := mapSlot_group hempty hr hb
    rw [hused] at hgroup
    by_cases hroom : (usedWithTable s p (targetGroup (s.mem p).inodeNo k)).toNat = sblock.numDatablocksPerGroup
    · -- The index block took the last block of the group due.
      refine iff_of_false (fun heq => ?_) fun h => h.1 hroom
      obtain ⟨-, hnot⟩ := nextGroup_spec (Nat.mod_lt _ (by decide)) hgroup
      rw [heq] at hnot
      exact of_decide_eq_false hnot hroom
    · rw [← tableGroup_eq_iff hlt hroom, hgroup, Option.some.injEq, and_iff_right hroom]
  · intro h hu hp hv hroom hfree'
    obtain ⟨m, t, ht, hroom', -⟩ := mapTable_returns (p := p) (r := 3) rfl
      (h.inUse_view hp hv) (h.owned_view hp hv) h.held
      (show Room ctx s.ctx _ from hroom.mono fun _ => by split <;> omega)
      fun _ => freeBlocks_pos (h.owned_view hp hv).metaUsed hlt (by rwa [← hu _ hlt])
    obtain ⟨hused, -⟩ := mapTable_finds (k := k) ht hslot
    rw [← hused] at hfree'
    exact inodeMap_allocates h hu hp hv hoff hk ht hlt hfree' hroom'

/-- Inode `n` of disk `d`, referenced and loaded. -/
def loadedHandle (d : Nat → BlockData) (n : Nat) : State :=
  (firstHandle d n InodeEntry.zero).setInode 0 ((firstHandle d n InodeEntry.zero).lockedInode 0)

theorem cached_loadedHandle {d : Nat → BlockData} {n : Nat} (hd : BlocksOwned (diskEntry d) d)
    (hn : InUse (diskEntry d) n) : Cached ∅ (loadedHandle d n) := by
  have h := (handles_handled hd (reachable_firstHandle hd hn InodeEntry.zero)).cached
  refine (h.inodeLock (p := 0) (u := ⟨⟩) (by simp [firstHandle]) (runs_inodeLock.mpr ?_)).1
  exact ⟨Int.zero_lt_one, rfl, fun _ => by simp [firstHandle, mount], hn.2, rfl⟩

/-- A group with a clear bit in its data area is not full. -/
theorem UsedExact.not_full {d : Nat → BlockData} {used : Nat → UInt32} {j : Nat}
    (hu : UsedExact d used) (hg : g < 10) (h4 : 4 ≤ j) (hj : j < 1000)
    (hclear : blockBit d (65 + g * 1000 + j) = false) :
    (used g).toNat ≠ sblock.numDatablocksPerGroup := by
  intro hfull
  rw [hu g hg] at hfull
  rw [card_usedBits_eq.mp hfull j h4 hj] at hclear
  cases hclear

/-- The first block behind the index block of the root directory of an empty image is in group 1, the
group after that of the inode. -/
theorem inodeMap_places_root : ∃ s b m s', Cached Set.univ s ∧ UsedExact s.disk s.usedBlock ∧
    (s.mem 0).inodeNo = 1 ∧ (s.mem 0).entry.indirect = 0 ∧
    Runs (inodeMap sblock true 0 (inodeNumDirect * blockSize)) s (b, m) s' ∧ b ≠ 0 ∧
    groupOf b = targetGroup 1 0 := by
  let s := loadedHandle Mkfs.emptyImage 1
  have hn : InUse (diskEntry Mkfs.emptyImage) 1 := ⟨Mkfs.isInode_one, by decide +kernel⟩
  have hc : Cached Set.univ s :=
    (cached_loadedHandle Mkfs.builds_emptyImage.owned hn).mono (Set.subset_univ _)
  have hu : UsedExact s.disk s.usedBlock := usedExact_countUsed Mkfs.emptyImage
  have htest : (s.mem 0).entry.indirect = 0 ∧ blockBit s.disk 2064 = false ∧ HasClear s.disk 0 ∧
      s.ctx.blockNo.length + 5 ≤ opMaxNumBlocks := by decide +kernel
  obtain ⟨h0, hclear, hhome, hroom⟩ := htest
  have hno : (s.mem 0).inodeNo = 1 := rfl
  have htarget : targetGroup (s.mem 0).inodeNo 0 = 1 := by
    rw [hno]
    decide
  have hfree : (s.usedBlock 1).toNat ≠ sblock.numDatablocksPerGroup :=
    hu.not_full (j := 999) (by decide) (by decide) (by decide) hclear
  -- The index block is in group 0, that of the inode.
  have hused : usedWithTable s 0 = countUp s.usedBlock 0 := by
    rw [usedWithTable, if_pos h0, hno, show inodeGroup 1 = 0 by decide, tableHome, if_pos hhome]
  have hfree' : (usedWithTable s 0 1).toNat ≠ sblock.numDatablocksPerGroup := by
    rwa [hused, countUp, Function.update_of_ne Nat.one_ne_zero]
  have hoff : inodeNumDirect * blockSize / blockSize = inodeNumDirect + 0 := by decide
  rw [← htarget] at hfree hfree'
  have hslot (h : (s.mem 0).entry.indirect ≠ 0) : getAddr (s.disk (s.mem 0).entry.indirect.toNat) 0 = 0 :=
    absurd h0 h
  obtain ⟨b, m, s', hr, hb⟩ : ∃ b m s', Runs (inodeMap sblock true 0 (inodeNumDirect * blockSize)) s (b, m) s' ∧
      b ≠ 0 :=
    (inodeMap_places_iff hoff (by decide) hslot hfree).2 hc hu (by decide) rfl (fun _ => hroom) hfree'
  -- The search starts at group 1, so that there is no group before it.
  have hbefore : FullBefore (usedWithTable s 0) 0 (targetGroup (s.mem 0).inodeNo 0) := by
    intro h hh
    rw [htarget, show List.takeWhile _ _ = [] from by decide] at hh
    cases hh
  refine ⟨s, b, m, s', hc, hu, hno, h0, hr, hb, ?_⟩
  exact ((inodeMap_places_iff hoff (by decide) hslot hfree).1 b m s' hr hb).mpr ⟨hfree', hbefore⟩

/-- The first block behind the index block of inode 21 is in group 1, that of the inode, though the
group after it is not full. -/
theorem inodeMap_misplaces : ∃ s b m s', Cached Set.univ s ∧ UsedExact s.disk s.usedBlock ∧
    0 ∈ s.list ∧ (s.mem 0).inodeNo = 21 ∧ (s.mem 0).valid = true ∧ (s.mem 0).entry.indirect = 0 ∧
    (∀ g < ngroups, (s.usedBlock g).toNat ≠ sblock.numDatablocksPerGroup) ∧
    Runs (inodeMap sblock true 0 (inodeNumDirect * blockSize)) s (b, m) s' ∧ b ≠ 0 ∧
    groupOf b ≠ targetGroup 21 0 := by
  let d := storeEntry Mkfs.emptyImage 21 (newEntry inodeRegular)
  have hd : BlocksOwned (diskEntry d) d :=
    Mkfs.builds_emptyImage.owned.claim (isInode_iff.mpr (by decide)) (by decide +kernel)
  let s := loadedHandle d 21
  have hc : Cached Set.univ s :=
    (cached_loadedHandle hd ⟨isInode_iff.mpr (by decide), by decide +kernel⟩).mono (Set.subset_univ _)
  have hu : UsedExact s.disk s.usedBlock := usedExact_countUsed d
  have htest : (s.mem 0).entry.indirect = 0 ∧ ∀ g < 10, blockBit s.disk (65 + g * 1000 + 999) = false := by
    decide +kernel
  obtain ⟨h0, hclear⟩ := htest
  have hfree : ∀ g < ngroups, (s.usedBlock g).toNat ≠ sblock.numDatablocksPerGroup := fun g hg =>
    hu.not_full (j := 999) hg (by decide) (by decide) (hclear g hg)
  have htable : returnsWith (mapTable sblock true 0) s (fun _ t =>
      blockBit t.disk 2064 = false ∧ t.ctx.blockNo.length + 3 ≤ opMaxNumBlocks) = true := by
    decide +kernel
  obtain ⟨m, t, ht, htest⟩ := runs_of_returnsWith htable
  rw [decide_eq_true_eq] at htest
  obtain ⟨hclear₁, hroom⟩ := htest
  have hfree₁ := (mapTable_used hc (by decide) rfl ht hu).not_full (g := 1) (j := 999) (by decide) (by decide)
    (by decide) hclear₁
  have hoff : inodeNumDirect * blockSize / blockSize = inodeNumDirect + 0 := by decide
  obtain ⟨b, m', s', hr, hb⟩ := inodeMap_allocates hc hu (by decide) rfl hoff (by decide) ht (by decide)
    hfree₁ fun _ => hroom
  have hplaced : tableGroup sblock t.usedBlock 0 = some (groupOf b) := by
    obtain ⟨-, m₁, t₁, ht₁, hslot₁⟩ := (runs_inodeMap_slot hoff).mp hr
    obtain ⟨rfl, rfl⟩ := ht₁.unique ht
    exact mapSlot_group (mapTable_finds ht fun h => absurd h0 h).2 hslot₁ hb
  have hfirst : tableGroup sblock t.usedBlock 0 = some 1 := by
    refine (tableGroup_eq_iff (by decide) hfree₁).mpr fun h hh => ?_
    rw [show List.takeWhile _ _ = [] from by decide] at hh
    cases hh
  have hgroup : groupOf b = 1 := Option.some.inj (hplaced.symm.trans hfirst)
  exact ⟨s, b, m', s', hc, hu, by decide, rfl, rfl, h0, hfree, hr, hb, by
    rw [hgroup]
    decide⟩

end FtosFfs.Fs
