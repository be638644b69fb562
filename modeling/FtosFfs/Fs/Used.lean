import FtosFfs.Fs.Area
import Mathlib.Data.Finset.Card
import Mathlib.Order.Interval.Finset.Nat

/-! The number of used data blocks of a group, which `used_block` is to hold, and how it changes with
the bit of one block. -/

namespace FtosFfs.Fs

open Cache

variable {d d' : Nat → BlockData} {g b : Nat} {used : Nat → UInt32}

/-- The hits of a loop from `a` to `b`. -/
theorem countP_range' (p : Nat → Bool) (a b : Nat) :
    (List.range' a (b - a)).countP p = ((Finset.Ico a b).filter fun j => p j = true).card := by
  have hnodup : ((List.range' a (b - a)).filter p).Nodup := List.Nodup.filter p List.nodup_range'
  rw [List.countP_eq_length_filter, ← List.toFinset_card_of_nodup hnodup]
  congr 1
  ext j
  simp only [List.mem_toFinset, List.mem_filter, List.mem_range'_1, Finset.mem_filter,
    Finset.mem_Ico]
  constructor
  · rintro ⟨⟨ha, hb⟩, hp⟩
    exact ⟨⟨ha, by omega⟩, hp⟩
  · rintro ⟨⟨ha, hb⟩, hp⟩
    exact ⟨⟨ha, by omega⟩, hp⟩

/-- The set bits of the data area in the bitmap of group `g`. -/
def usedBits (d : Nat → BlockData) (g : Nat) : Finset Nat :=
  (Finset.Ico sblock.dataStartPerGroup sblock.blocksPerGroup).filter fun j =>
    bitmapGet (d (bitmapBlock sblock g 0)) j = true

/-- `used_block` holds the number of used data blocks of every group. -/
def UsedExact (d : Nat → BlockData) (used : Nat → UInt32) : Prop :=
  ∀ g < ngroups, (used g).toNat = (usedBits d g).card

theorem bitmapGet_eq_blockBit {j : Nat} (hj : j < 1000) :
    bitmapGet (d (bitmapBlock sblock g 0)) j = blockBit d (65 + g * 1000 + j) := by
  rw [blockBit_eq, bitmapBlock_eq, show (65 + g * 1000 + j - 65) / 1000 = g by omega,
    show (65 + g * 1000 + j - 65) % 1000 = j by omega, show j / 4096 = 0 / 4096 by omega,
    show j % 4096 = j by omega]

theorem mem_usedBits {j : Nat} :
    j ∈ usedBits d g ↔ (4 ≤ j ∧ j < 1000) ∧ blockBit d (65 + g * 1000 + j) = true := by
  have hj : (4 ≤ j ∧ j < 1000) → bitmapGet (d (bitmapBlock sblock g 0)) j =
      blockBit d (65 + g * 1000 + j) := fun h => bitmapGet_eq_blockBit h.2
  rw [usedBits, Finset.mem_filter, Finset.mem_Ico]
  exact and_congr_right fun h => by rw [hj h]

theorem card_dataArea : (Finset.Ico sblock.dataStartPerGroup sblock.blocksPerGroup).card =
    sblock.numDatablocksPerGroup :=
  Nat.card_Ico ..

theorem card_usedBits_le (d : Nat → BlockData) (g : Nat) :
    (usedBits d g).card ≤ sblock.numDatablocksPerGroup := by
  rw [← card_dataArea]
  exact Finset.card_filter_le ..

/-- A group is full when all bits of its data area are set. -/
theorem card_usedBits_eq :
    (usedBits d g).card = sblock.numDatablocksPerGroup ↔
      ∀ j, 4 ≤ j → j < 1000 → blockBit d (65 + g * 1000 + j) = true := by
  rw [usedBits, ← card_dataArea, Finset.card_filter_eq_iff]
  constructor
  · intro h j h4 hj
    rw [← bitmapGet_eq_blockBit hj]
    exact h j (Finset.mem_Ico.mpr ⟨h4, hj⟩)
  · intro h j hj
    have hj' : 4 ≤ j ∧ j < 1000 := Finset.mem_Ico.mp hj
    rw [bitmapGet_eq_blockBit hj'.2]
    exact h j hj'.1 hj'.2

theorem usedBits_congr (hbit : ∀ c, InGroups c → blockBit d' c = blockBit d c) (hg : g < 10) :
    usedBits d' g = usedBits d g := by
  ext j
  rw [mem_usedBits, mem_usedBits]
  refine and_congr_right fun hj => ?_
  rw [hbit _ (by rw [inGroups_iff]; omega)]

/-- The used bits after the bit of data block `b` is set. -/
theorem usedBits_set (hb : IsData b)
    (hbit : ∀ c, InGroups c → blockBit d' c = if c = b then true else blockBit d c) (hg : g < 10) :
    usedBits d' g = if g = (b - 65) / 1000 then insert ((b - 65) % 1000) (usedBits d g)
      else usedBits d g := by
  rw [isData_iff] at hb
  ext j
  by_cases hj : 4 ≤ j ∧ j < 1000
  · have hc := hbit (65 + g * 1000 + j) (by rw [inGroups_iff]; omega)
    have heq : 65 + g * 1000 + j = b ↔ g = (b - 65) / 1000 ∧ j = (b - 65) % 1000 := by omega
    split
    case isTrue hgb =>
      rw [Finset.mem_insert, mem_usedBits, mem_usedBits, hc]
      split <;> simp_all
    case isFalse hgb =>
      rw [mem_usedBits, mem_usedBits, hc, if_neg (by omega)]
  · split
    case isTrue =>
      rw [Finset.mem_insert, mem_usedBits, mem_usedBits]
      omega
    case isFalse =>
      rw [mem_usedBits, mem_usedBits]
      omega

/-- The used bits after the bit of data block `b` is cleared. -/
theorem usedBits_clear (hb : IsData b)
    (hbit : ∀ c, InGroups c → blockBit d' c = if c = b then false else blockBit d c) (hg : g < 10) :
    usedBits d' g = if g = (b - 65) / 1000 then (usedBits d g).erase ((b - 65) % 1000)
      else usedBits d g := by
  rw [isData_iff] at hb
  ext j
  by_cases hj : 4 ≤ j ∧ j < 1000
  · have hc := hbit (65 + g * 1000 + j) (by rw [inGroups_iff]; omega)
    have heq : 65 + g * 1000 + j = b ↔ g = (b - 65) / 1000 ∧ j = (b - 65) % 1000 := by omega
    split
    case isTrue hgb =>
      rw [Finset.mem_erase, mem_usedBits, mem_usedBits, hc]
      split <;> simp_all
    case isFalse hgb =>
      rw [mem_usedBits, mem_usedBits, hc, if_neg (by omega)]
  · split
    case isTrue =>
      rw [Finset.mem_erase, mem_usedBits, mem_usedBits]
      omega
    case isFalse =>
      rw [mem_usedBits, mem_usedBits]
      omega

theorem mem_usedBits_block (hb : IsData b) :
    (b - 65) % 1000 ∈ usedBits d ((b - 65) / 1000) ↔ blockBit d b = true := by
  rw [isData_iff] at hb
  rw [mem_usedBits, show 65 + (b - 65) / 1000 * 1000 + (b - 65) % 1000 = b by omega]
  exact and_iff_right (by omega)

namespace UsedExact

theorem congr (h : UsedExact d used) (hbit : ∀ c, InGroups c → blockBit d' c = blockBit d c) :
    UsedExact d' used := by
  intro g hg
  rw [h g hg, usedBits_congr hbit hg]

/-- The count goes up by one with a block that is allocated. -/
theorem set (h : UsedExact d used) (hb : IsData b) (hfree : blockBit d b = false)
    (hbit : ∀ c, InGroups c → blockBit d' c = if c = b then true else blockBit d c) :
    UsedExact d' (Function.update used ((b - 65) / 1000) (used ((b - 65) / 1000) + 1)) := by
  intro g hg
  rw [usedBits_set hb hbit hg, Function.update_apply]
  split
  case isTrue hgb =>
    subst hgb
    have hle := card_usedBits_le d' ((b - 65) / 1000)
    rw [usedBits_set hb hbit hg, if_pos rfl] at hle
    have hnot : (b - 65) % 1000 ∉ usedBits d ((b - 65) / 1000) := by
      rw [mem_usedBits_block hb, hfree]
      exact Bool.false_ne_true
    rw [Finset.card_insert_of_notMem hnot] at hle ⊢
    have hlt : (usedBits d ((b - 65) / 1000)).card + 1 ≤ 996 := hle
    rw [UInt32.toNat_add, h _ hg]
    exact Nat.mod_eq_of_lt (by show _ + 1 < _; omega)
  case isFalse => exact h g hg

/-- The count goes down by one with a block that is freed. -/
theorem clear (h : UsedExact d used) (hb : IsData b) (hused : blockBit d b = true)
    (hbit : ∀ c, InGroups c → blockBit d' c = if c = b then false else blockBit d c) :
    UsedExact d' (Function.update used ((b - 65) / 1000) (used ((b - 65) / 1000) - 1)) := by
  intro g hg
  rw [usedBits_clear hb hbit hg, Function.update_apply]
  split
  case isTrue hgb =>
    subst hgb
    have hmem := (mem_usedBits_block hb).mpr hused
    have hpos := Finset.card_pos.mpr ⟨_, hmem⟩
    have hone : (1 : UInt32).toNat ≤ (used ((b - 65) / 1000)).toNat := by
      rw [h _ hg]
      exact hpos
    rw [Finset.card_erase_of_mem hmem, UInt32.toNat_sub_of_le _ _ hone, h _ hg]
    rfl
  case isFalse => exact h g hg

end UsedExact

end FtosFfs.Fs
