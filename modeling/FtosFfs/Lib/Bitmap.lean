import Mathlib.Data.Finset.Card
import Mathlib.Logic.Function.Basic

/-! Bitmaps in cells of 64 bits, and the number of bits that are set. -/

namespace FtosFfs.Lib

/-- The cells of a bitmap. -/
abbrev Bitmap : Type := Nat → BitVec 64

namespace Bitmap

variable {m : Bitmap} {i j n : Nat}

def empty : Bitmap := fun _ => 0

def get (m : Bitmap) (i : Nat) : Bool := (m (i / 64)).getLsbD (i % 64)

def set (m : Bitmap) (i : Nat) : Bitmap :=
  Function.update m (i / 64) (m (i / 64) ||| BitVec.twoPow 64 (i % 64))

def clear (m : Bitmap) (i : Nat) : Bitmap :=
  Function.update m (i / 64) (m (i / 64) &&& ~~~BitVec.twoPow 64 (i % 64))

@[simp] theorem get_empty (i : Nat) : empty.get i = false := by simp [get, empty]

theorem get_set : (m.set i).get j = if j = i then true else m.get j := by
  unfold get set
  by_cases hc : j / 64 = i / 64
  · rw [hc, Function.update_self, BitVec.getLsbD_or, BitVec.getLsbD_twoPow]
    by_cases hji : j = i
    · subst hji
      simp [Nat.mod_lt]
    · have hne : i % 64 ≠ j % 64 := by omega
      simp [hne, hji]
  · have hji : j ≠ i := by
      rintro rfl
      exact hc rfl
    rw [Function.update_of_ne hc, if_neg hji]

theorem get_clear : (m.clear i).get j = if j = i then false else m.get j := by
  unfold get clear
  by_cases hc : j / 64 = i / 64
  · rw [hc, Function.update_self, BitVec.getLsbD_and, BitVec.getLsbD_not, BitVec.getLsbD_twoPow]
    by_cases hji : j = i
    · subst hji
      simp [Nat.mod_lt]
    · have hne : i % 64 ≠ j % 64 := by omega
      have hlt : j % 64 < 64 := Nat.mod_lt _ (by decide)
      simp [hne, hji, hlt]
  · have hji : j ≠ i := by
      rintro rfl
      exact hc rfl
    rw [Function.update_of_ne hc, if_neg hji]

/-- The set bits below `n`. -/
def bits (m : Bitmap) (n : Nat) : Finset Nat := (Finset.range n).filter fun i => m.get i = true

theorem mem_bits : i ∈ m.bits n ↔ i < n ∧ m.get i = true := by simp [bits]

@[simp] theorem bits_empty (n : Nat) : empty.bits n = ∅ := by simp [bits]

theorem card_bits_le (m : Bitmap) (n : Nat) : (m.bits n).card ≤ n := by
  have h := Finset.card_filter_le (Finset.range n) fun i => m.get i = true
  rwa [Finset.card_range] at h

/-- Without set bits from `n` on, the set bits below any larger bound are those below `n`. -/
theorem bits_of_clear {k : Nat} (hk : n ≤ k) (h : ∀ i, n ≤ i → m.get i = false) :
    m.bits k = m.bits n := by
  ext i
  rw [mem_bits, mem_bits]
  constructor
  · rintro ⟨-, hi⟩
    refine ⟨?_, hi⟩
    by_contra hge
    rw [h i (Nat.not_lt.mp hge)] at hi
    cases hi
  · exact fun ⟨hlt, hi⟩ => ⟨Nat.lt_of_lt_of_le hlt hk, hi⟩

/-- A bitmap with fewer than `n` bits set below `n` has a clear one there. -/
theorem exists_clear (h : (m.bits n).card < n) : ∃ i < n, m.get i = false := by
  by_contra hno
  have hall : m.bits n = Finset.range n := by
    refine Finset.filter_true_of_mem fun i hi => ?_
    by_contra hget
    exact hno ⟨i, Finset.mem_range.mp hi, by simpa using hget⟩
  rw [hall, Finset.card_range] at h
  exact Nat.lt_irrefl n h

theorem card_bits_set (hi : i < n) (hclear : m.get i = false) :
    ((m.set i).bits n).card = (m.bits n).card + 1 := by
  have hbits : (m.set i).bits n = insert i (m.bits n) := by
    ext j
    rw [Finset.mem_insert, mem_bits, mem_bits, get_set]
    by_cases hji : j = i
    · simp [hji, hi]
    · simp [hji]
  rw [hbits, Finset.card_insert_of_notMem]
  simp [mem_bits, hclear]

theorem card_bits_clear (hi : i < n) (hset : m.get i = true) :
    ((m.clear i).bits n).card + 1 = (m.bits n).card := by
  have hbits : (m.clear i).bits n = (m.bits n).erase i := by
    ext j
    rw [Finset.mem_erase, mem_bits, mem_bits, get_clear]
    by_cases hji : j = i
    · simp [hji]
    · simp [hji]
  rw [hbits]
  exact Finset.card_erase_add_one (mem_bits.mpr ⟨hi, hset⟩)

end Bitmap

end FtosFfs.Lib
