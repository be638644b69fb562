import FtosFfs.Fs.Inode

/-! The areas of the disk in the shipped geometry, the bitmap bit of a block, and the inode entries
on disk, with what changes of single blocks do to them. -/

namespace FtosFfs.Fs

open Lib Lib.Exec Cache

/-- The super block of the shipped geometry. -/
abbrev sblock : SuperBlock := mkfsSuperBlock

/-- The blocks of the block groups. -/
def InGroups (b : Nat) : Prop :=
  sblock.bgStart ≤ b ∧ b < sblock.bgStart + sblock.numGroups * sblock.blocksPerGroup

/-- The place of a block in its group. -/
def groupOffset (b : Nat) : Nat := (b - sblock.bgStart) % sblock.blocksPerGroup

/-- The data areas of the groups. -/
def IsData (b : Nat) : Prop := InGroups b ∧ sblock.dataStartPerGroup ≤ groupOffset b

/-- The bitmap blocks of the groups. -/
def IsBitmap (b : Nat) : Prop := InGroups b ∧ groupOffset b = sblock.bitmapStartPerGroup

/-- The inode blocks of the groups. -/
def IsInodes (b : Nat) : Prop := InGroups b ∧ groupOffset b < sblock.bitmapStartPerGroup

/-- The bitmap bit of block `b`. -/
def blockBit (d : Nat → BlockData) (b : Nat) : Bool :=
  bitmapGet (d (bitmapBlock sblock ((b - sblock.bgStart) / sblock.blocksPerGroup) (groupOffset b)))
    (groupOffset b % bitPerBlock)

/-- The entry of inode `n` on disk. -/
def diskEntry (d : Nat → BlockData) (n : Nat) : InodeEntry :=
  getEntry (d (toBlockNo sblock n)) (n % inodePerBlock)

/-- The inode numbers. -/
def IsInode (n : Nat) : Prop := 1 ≤ n ∧ n ≤ sblock.numInodes

/-! ### Arithmetic of the geometry -/

theorem inGroups_iff {b : Nat} : InGroups b ↔ 65 ≤ b ∧ b < 10065 := Iff.rfl

theorem isData_iff {b : Nat} : IsData b ↔ (65 ≤ b ∧ b < 10065) ∧ 4 ≤ (b - 65) % 1000 := Iff.rfl

theorem isBitmap_iff {b : Nat} : IsBitmap b ↔ (65 ≤ b ∧ b < 10065) ∧ (b - 65) % 1000 = 3 := Iff.rfl

instance (b : Nat) : Decidable (IsBitmap b) := decidable_of_iff _ isBitmap_iff.symm

theorem isInodes_iff {b : Nat} : IsInodes b ↔ (65 ≤ b ∧ b < 10065) ∧ (b - 65) % 1000 < 3 := Iff.rfl

theorem isInode_iff {n : Nat} : IsInode n ↔ 1 ≤ n ∧ n ≤ 200 := Iff.rfl

theorem bitmapBlock_eq (h i : Nat) : bitmapBlock sblock h i = 65 + h * 1000 + 3 + i / 4096 := rfl

theorem toBlockNo_eq (n : Nat) :
    toBlockNo sblock n = 65 + 1000 * ((n - 1) / 20) + (n - 1) % 20 / 8 := rfl

theorem blockBit_eq (d : Nat → BlockData) (b : Nat) :
    blockBit d b = bitmapGet (d (65 + (b - 65) / 1000 * 1000 + 3 + (b - 65) % 1000 / 4096))
      ((b - 65) % 1000 % 4096) := rfl

theorem isBitmap_bitmapBlock {h i : Nat} (hh : h < 10) (hi : i < 1000) :
    IsBitmap (bitmapBlock sblock h i) := by
  rw [isBitmap_iff, bitmapBlock_eq]
  omega

theorem isInodes_toBlockNo {n : Nat} (hn : IsInode n) : IsInodes (toBlockNo sblock n) := by
  rw [isInode_iff] at hn
  rw [isInodes_iff, toBlockNo_eq]
  omega

theorem IsData.not_bitmap {b : Nat} (h : IsData b) : ¬IsBitmap b := by
  rw [isData_iff] at h
  rw [isBitmap_iff]
  omega

theorem IsData.not_inodes {b : Nat} (h : IsData b) : ¬IsInodes b := by
  rw [isData_iff] at h
  rw [isInodes_iff]
  omega

theorem IsInodes.not_bitmap {b : Nat} (h : IsInodes b) : ¬IsBitmap b := by
  rw [isInodes_iff] at h
  rw [isBitmap_iff]
  omega

theorem IsData.pos {b : Nat} (h : IsData b) : b ≠ 0 := by
  rw [isData_iff] at h
  omega

/-- Two inodes with the same block and the same slot in it are the same. -/
theorem toBlockNo_inj {n m : Nat} (hn : IsInode n) (hm : IsInode m)
    (hb : toBlockNo sblock n = toBlockNo sblock m)
    (hs : n % inodePerBlock = m % inodePerBlock) : n = m := by
  rw [isInode_iff] at hn hm
  rw [toBlockNo_eq, toBlockNo_eq] at hb
  have hs' : n % 8 = m % 8 := hs
  omega

/-! ### Changes of single blocks -/

theorem diskEntry_update {d : Nat → BlockData} {b n : Nat} {x : BlockData} (hb : ¬IsInodes b)
    (hn : IsInode n) : diskEntry (Function.update d b x) n = diskEntry d n := by
  have hne : toBlockNo sblock n ≠ b := by
    rintro rfl
    exact hb (isInodes_toBlockNo hn)
  rw [diskEntry, Function.update_of_ne hne, diskEntry]

/-- The entries on disk after the store of the entry of inode `n`. -/
theorem diskEntry_store {d : Nat → BlockData} {n m : Nat} {e : InodeEntry} (hn : IsInode n)
    (hm : IsInode m) :
    diskEntry (Function.update d (toBlockNo sblock n)
      (setEntry (d (toBlockNo sblock n)) (n % inodePerBlock) e)) m =
      if m = n then e else diskEntry d m := by
  have hlt : n % inodePerBlock < inodePerBlock := Nat.mod_lt _ (by decide)
  split
  case isTrue h =>
    subst h
    rw [diskEntry, Function.update_self, getEntry_setEntry_same hlt]
  case isFalse h =>
    unfold diskEntry
    by_cases hb : toBlockNo sblock m = toBlockNo sblock n
    · have hs : m % inodePerBlock ≠ n % inodePerBlock := fun hs => h (toBlockNo_inj hm hn hb hs)
      rw [hb, Function.update_self, getEntry_setEntry_ne hs]
    · rw [Function.update_of_ne hb]

theorem blockBit_update {d : Nat → BlockData} {b c : Nat} {x : BlockData} (hb : ¬IsBitmap b)
    (hc : InGroups c) : blockBit (Function.update d b x) c = blockBit d c := by
  rw [inGroups_iff] at hc
  have hne : 65 + (c - 65) / 1000 * 1000 + 3 + (c - 65) % 1000 / 4096 ≠ b := by
    rintro rfl
    rw [isBitmap_iff] at hb
    omega
  rw [blockBit_eq, Function.update_of_ne hne, ← blockBit_eq]

/-- The bits after bit `j` of the bitmap of group `h` is changed. -/
theorem blockBit_bitmap {d : Nat → BlockData} {h j c : Nat} {x : BlockData} {v : Bool}
    (hj : j < 1000) (hx : ∀ k, bitmapGet x k = if k = j then v else
      bitmapGet (d (bitmapBlock sblock h j)) k) (hc : InGroups c) :
    blockBit (Function.update d (bitmapBlock sblock h j) x) c =
      if c = 65 + h * 1000 + j then v else blockBit d c := by
  rw [inGroups_iff] at hc
  rw [blockBit_eq, bitmapBlock_eq] at *
  by_cases hg : (c - 65) / 1000 = h
  · have hb : 65 + (c - 65) / 1000 * 1000 + 3 + (c - 65) % 1000 / 4096 =
        65 + h * 1000 + 3 + j / 4096 := by omega
    have hk : (c - 65) % 1000 % 4096 = j ↔ c = 65 + h * 1000 + j := by omega
    rw [hb, Function.update_self, hx]
    simp only [hk]
    split
    · rfl
    · rw [blockBit_eq, hb]
  · have hb : 65 + (c - 65) / 1000 * 1000 + 3 + (c - 65) % 1000 / 4096 ≠
        65 + h * 1000 + 3 + j / 4096 := by omega
    rw [Function.update_of_ne hb, if_neg (by omega), blockBit_eq]

end FtosFfs.Fs
