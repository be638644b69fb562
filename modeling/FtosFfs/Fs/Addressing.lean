import FtosFfs.Fs.Listing

/-! Where the entry of an inode lies on disk: `to_block_no` and `get_entry` of `fs/inode.c`, for any number
and size of groups, and `IBLOCK` of `mkfs`. -/

namespace FtosFfs.Fs

open Lib Lib.Exec

/-- The block and the slot in it of the entry of `inodeNo`, from `to_block_no` and `get_entry`. -/
def inodeAt (sb : SuperBlock) (inodeNo : Nat) : Nat × Nat :=
  (toBlockNo sb inodeNo, inodeNo % inodePerBlock)

/-- `to_block_no` in the 64-bit arithmetic of `usize`, with the fields of the super block as `u32`. -/
def toBlockNo64 (sb : SuperBlock) (inodeNo : UInt64) : UInt64 :=
  .ofNat sb.bgStart + .ofNat sb.blocksPerGroup * ((inodeNo - 1) / .ofNat (ginodes sb)) +
    (inodeNo - 1) % .ofNat (ginodes sb) / .ofNat inodePerBlock

/-- The inodes are divided evenly among the groups, and their blocks fit in a group. -/
structure Grouped (sb : SuperBlock) : Prop where
  groups : 0 < sb.numGroups
  divides : sb.numGroups ∣ sb.numInodes
  inodes : 1 ≤ ginodes sb
  blocks : sb.numInodeblocksPerGroup = ginodes sb / inodePerBlock + 1
  room : sb.numInodeblocksPerGroup ≤ sb.blocksPerGroup

/-- The fields that `to_block_no` reads are 32 bits wide. -/
structure Words (sb : SuperBlock) : Prop where
  bgStart : sb.bgStart < 2 ^ 32
  blocksPerGroup : sb.blocksPerGroup < 2 ^ 32
  numInodes : sb.numInodes < 2 ^ 32
  numGroups : sb.numGroups < 2 ^ 32

variable {sb : SuperBlock} {i j : Nat}

/-! ### Groups -/

/-- The group of an inode. -/
theorem Grouped.group_lt (h : Grouped sb) (hi : i ∈ Set.Icc 1 sb.numInodes) :
    (i - 1) / ginodes sb < sb.numGroups := by
  have hall : sb.numGroups * ginodes sb = sb.numInodes := Nat.mul_div_cancel' h.divides
  obtain ⟨hone, hle⟩ := hi
  apply Nat.div_lt_of_lt_mul
  rw [Nat.mul_comm, hall]
  omega

/-- The block of an inode within its group is one of the inode blocks. -/
theorem Grouped.offset_lt (h : Grouped sb) (i : Nat) :
    (i - 1) % ginodes sb / inodePerBlock < sb.numInodeblocksPerGroup := by
  have hmod : (i - 1) % ginodes sb < ginodes sb := Nat.mod_lt _ h.inodes
  have hdiv := Nat.div_le_div_right (c := inodePerBlock) (Nat.le_of_lt hmod)
  rw [h.blocks]
  omega

/-- A block number past `bg_start` determines the group and the offset in it. -/
theorem group_unique {size g g' o o' : Nat} (ho : o < size) (ho' : o' < size)
    (heq : size * g + o = size * g' + o') : g = g' ∧ o = o' := by
  have hg : g = g' := by
    have hdiv := congrArg (· / size) heq
    simpa only [Nat.mul_add_div (Nat.zero_lt_of_lt ho), Nat.div_eq_of_lt ho, Nat.div_eq_of_lt ho',
      Nat.add_zero] using hdiv
  subst hg
  exact ⟨rfl, Nat.add_left_cancel heq⟩

theorem inodeAt_injective (h : Grouped sb) (hi : i ∈ Set.Icc 1 sb.numInodes)
    (hj : j ∈ Set.Icc 1 sb.numInodes) (heq : inodeAt sb i = inodeAt sb j) : i = j := by
  obtain ⟨hblock, hslot⟩ := Prod.mk.inj heq
  rw [toBlockNo, toBlockNo, Nat.add_assoc, Nat.add_assoc] at hblock
  obtain ⟨hgroup, hoffset⟩ := group_unique (Nat.lt_of_lt_of_le (h.offset_lt i) h.room)
    (Nat.lt_of_lt_of_le (h.offset_lt j) h.room) (Nat.add_left_cancel hblock)
  -- In one block of one group the numbers differ by less than `INODE_PER_BLOCK`.
  have hsplit := Nat.div_add_mod (i - 1) (ginodes sb)
  have hsplit' := Nat.div_add_mod (j - 1) (ginodes sb)
  rw [← hgroup] at hsplit'
  have hone : 1 ≤ i ∧ 1 ≤ j := ⟨hi.1, hj.1⟩
  simp only [inodePerBlock, blockSize] at hoffset hslot
  omega

/-- No other block of a group holds an entry. -/
theorem toBlockNo_ne (h : Grouped sb) {g o : Nat} (ho : sb.numInodeblocksPerGroup ≤ o)
    (hsize : o < sb.blocksPerGroup) (i : Nat) :
    toBlockNo sb i ≠ sb.bgStart + sb.blocksPerGroup * g + o := by
  intro heq
  rw [toBlockNo, Nat.add_assoc, Nat.add_assoc] at heq
  obtain ⟨-, hoffset⟩ := group_unique (Nat.lt_of_lt_of_le (h.offset_lt i) h.room) hsize
    (Nat.add_left_cancel heq)
  have := h.offset_lt i
  omega

/-- The 64-bit computation does not wrap. -/
theorem toNat_toBlockNo64 (h : Grouped sb) (hw : Words sb) (hi : i ∈ Set.Icc 1 sb.numInodes) :
    (toBlockNo64 sb (.ofNat i)).toNat = toBlockNo sb i := by
  have hsize {n : Nat} (hn : n < 2 ^ 32) : n < UInt64.size := Nat.lt_trans hn (by decide)
  have hbg := hw.bgStart
  have hnumber : i < 2 ^ 32 := Nat.lt_of_le_of_lt hi.2 hw.numInodes
  have hone : (1 : UInt64) ≤ .ofNat i := by
    rw [UInt64.le_iff_toNat_le, UInt64.toNat_ofNat_of_lt' (hsize hnumber)]
    exact hi.1
  have hbefore : (UInt64.ofNat i - 1).toNat = i - 1 := by
    rw [UInt64.toNat_sub_of_le _ _ hone, UInt64.toNat_ofNat_of_lt' (hsize hnumber)]
    rfl
  have hinodes : ginodes sb < 2 ^ 32 := Nat.lt_of_le_of_lt (Nat.div_le_self _ _) hw.numInodes
  have hmod : (i - 1) % ginodes sb < ginodes sb := Nat.mod_lt _ h.inodes
  have hoffset : (i - 1) % ginodes sb / inodePerBlock < 2 ^ 32 :=
    Nat.lt_of_le_of_lt (Nat.div_le_self _ _) (Nat.lt_trans hmod hinodes)
  -- The group number and the size of a group are 32 bits wide.
  have hgroup : sb.blocksPerGroup * ((i - 1) / ginodes sb) ≤ (2 ^ 32 - 1) * (2 ^ 32 - 2) := by
    have hbpg := hw.blocksPerGroup
    have hnum := hw.numGroups
    have hlt := h.group_lt hi
    exact Nat.mul_le_mul (by omega) (by omega)
  unfold toBlockNo64 toBlockNo
  rw [UInt64.toNat_add, UInt64.toNat_add, UInt64.toNat_mul, UInt64.toNat_div, UInt64.toNat_div,
    UInt64.toNat_mod, hbefore, UInt64.toNat_ofNat_of_lt' (hsize hbg),
    UInt64.toNat_ofNat_of_lt' (hsize hw.blocksPerGroup), UInt64.toNat_ofNat_of_lt' (hsize hinodes),
    UInt64.toNat_ofNat_of_lt' (show inodePerBlock < UInt64.size by decide)]
  generalize sb.blocksPerGroup * ((i - 1) / ginodes sb) = start at hgroup
  generalize (i - 1) % ginodes sb / inodePerBlock = offset at hoffset
  omega

/-! ### `mkfs` -/

theorem grouped_sblock : Grouped sblock := by
  constructor <;> decide

/-- `mkfs` reads the entry of an inode where the kernel looks for it. -/
theorem runs_rinode_inodeAt {s s' : Mkfs.Image} {e : InodeEntry} (hi : i ∈ Set.Icc 1 sblock.numInodes) :
    Runs (Mkfs.rinode i) s e s' ↔
      e = getEntry (s.disk (inodeAt sblock i).1) (inodeAt sblock i).2 ∧ s' = s := by
  have hn : IsInode i := hi
  rw [Mkfs.runs_rinode]
  constructor
  · rintro ⟨-, rfl, rfl⟩
    exact ⟨rfl, rfl⟩
  · rintro ⟨rfl, rfl⟩
    exact ⟨Mkfs.iblock_lt hn, rfl, rfl⟩

/-- `mkfs` writes the entry of an inode where the kernel looks for it. -/
theorem runs_winode_inodeAt {s s' : Mkfs.Image} {e : InodeEntry} (hi : i ∈ Set.Icc 1 sblock.numInodes) :
    Runs (Mkfs.winode i e) s () s' ↔
      s' = { s with
        disk := Function.update s.disk (inodeAt sblock i).1
          (setEntry (s.disk (inodeAt sblock i).1) (inodeAt sblock i).2 e) } := by
  have hn : IsInode i := hi
  rw [Mkfs.runs_winode]
  constructor
  · exact fun h => h.2
  · exact fun h => ⟨Mkfs.iblock_lt hn, h⟩

/-- The entries of distinct inodes are distinct slots of the inode blocks of their groups, which are
neither bitmap nor data blocks, the computation does not wrap, and `mkfs` finds the same slots. -/
theorem inode_addressing (sb : SuperBlock) (h : Grouped sb) :
    (∀ i ∈ Set.Icc 1 sb.numInodes, ∀ j ∈ Set.Icc 1 sb.numInodes,
      inodeAt sb i = inodeAt sb j → i = j) ∧
    (∀ i ∈ Set.Icc 1 sb.numInodes, (i - 1) / ginodes sb < sb.numGroups ∧
      ∃ o < sb.numInodeblocksPerGroup,
        (inodeAt sb i).1 = sb.bgStart + sb.blocksPerGroup * ((i - 1) / ginodes sb) + o) ∧
    (∀ i ∈ Set.Icc 1 sb.numInodes, ∀ g o, sb.numInodeblocksPerGroup ≤ o → o < sb.blocksPerGroup →
      (inodeAt sb i).1 ≠ sb.bgStart + sb.blocksPerGroup * g + o) ∧
    (Words sb → ∀ i ∈ Set.Icc 1 sb.numInodes,
      (toBlockNo64 sb (.ofNat i)).toNat = (inodeAt sb i).1) ∧
    ∀ i ∈ Set.Icc 1 sblock.numInodes, (Mkfs.iblock i, i % inodePerBlock) = inodeAt sblock i ∧
      (∀ s e s', Runs (Mkfs.rinode i) s e s' ↔
        e = getEntry (s.disk (inodeAt sblock i).1) (inodeAt sblock i).2 ∧ s' = s) ∧
      ∀ s e s', Runs (Mkfs.winode i e) s () s' ↔
        s' = { s with
          disk := Function.update s.disk (inodeAt sblock i).1
            (setEntry (s.disk (inodeAt sblock i).1) (inodeAt sblock i).2 e) } := by
  refine ⟨fun i hi j hj => inodeAt_injective h hi hj, fun i hi => ⟨h.group_lt hi, _, h.offset_lt i, rfl⟩,
    fun i _ g o ho hsize => toBlockNo_ne h ho hsize i, fun hw i hi => toNat_toBlockNo64 h hw hi,
    fun i hi => ⟨?_, fun s e s' => runs_rinode_inodeAt hi, fun s e s' => runs_winode_inodeAt hi⟩⟩
  rw [Mkfs.iblock_eq, inodeAt]

/-- A disk of 3 groups of 10 blocks, with 9 inodes in each. -/
def threeGroups : SuperBlock :=
  { mkfsSuperBlock with
    numGroups := 3, numInodes := 27, blocksPerGroup := 10, numInodeblocksPerGroup := 2 }

theorem inode_addressing_threeGroups :
    (∀ i ∈ Set.Icc 1 27, ∀ j ∈ Set.Icc 1 27, inodeAt threeGroups i = inodeAt threeGroups j → i = j) ∧
    ∀ i ∈ Set.Icc 1 27, (i - 1) / 9 < 3 ∧
      ∃ o < 2, (inodeAt threeGroups i).1 = threeGroups.bgStart + 10 * ((i - 1) / 9) + o := by
  have h := inode_addressing threeGroups (by constructor <;> decide)
  exact ⟨h.1, h.2.1⟩

end FtosFfs.Fs
