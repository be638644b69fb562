import Mathlib.Data.Fintype.Pi
import Mathlib.Data.Nat.Bitwise
import Mathlib.Tactic.Ring

/-! Memories of a fixed number of bytes: writes of byte ranges, little-endian words, and the bits
of words. -/

namespace FtosFfs.Lib

/-- A memory of `n` bytes. -/
def Bytes (n : Nat) : Type := Fin n → UInt8

namespace Bytes

variable {n : Nat}

instance : DecidableEq (Bytes n) := inferInstanceAs (DecidableEq (Fin n → UInt8))

/-- Byte `i`, 0 past the end. -/
def get (m : Bytes n) (i : Nat) : UInt8 := if h : i < n then m ⟨i, h⟩ else 0

/-- The memory with bytes `f 0`, `f 1`, ... -/
def ofFn (f : Nat → UInt8) : Bytes n := fun i => f i

/-- `memset(m, 0, n)`. -/
def zero : Bytes n := ofFn fun _ => 0

theorem get_of_le {m : Bytes n} {i : Nat} (h : n ≤ i) : m.get i = 0 := by
  simp [get, Nat.not_lt.mpr h]

theorem get_ofFn {f : Nat → UInt8} {i : Nat} (h : i < n) : (ofFn f : Bytes n).get i = f i := by
  simp [get, ofFn, h]

@[simp] theorem get_zero (i : Nat) : (zero : Bytes n).get i = 0 := by
  simp [get, zero, ofFn]

@[ext] theorem ext {m m' : Bytes n} (h : ∀ i < n, m.get i = m'.get i) : m = m' := by
  funext i
  have hi := h i i.isLt
  simpa [get] using hi

/-- The memory `m` after a copy of the `k` bytes `f 0`, ..., `f (k - 1)` to offset `o`. -/
def splice (m : Bytes n) (o k : Nat) (f : Nat → UInt8) : Bytes n :=
  ofFn fun i => if o ≤ i ∧ i < o + k then f (i - o) else m.get i

theorem get_splice_in {m : Bytes n} {o k i : Nat} {f : Nat → UInt8} (hk : i < k)
    (h : o + i < n) : (m.splice o k f).get (o + i) = f i := by
  rw [splice, get_ofFn h]
  simp [hk]

theorem get_splice_out {m : Bytes n} {o k i : Nat} {f : Nat → UInt8} (h : i < o ∨ o + k ≤ i) :
    (m.splice o k f).get i = m.get i := by
  by_cases hi : i < n
  · rw [splice, get_ofFn hi]
    have : ¬(o ≤ i ∧ i < o + k) := by omega
    simp [this]
  · rw [get_of_le (by omega), get_of_le (by omega)]

/-- Byte `k` of the number `v`, lowest first. -/
def byteOf (v k : Nat) : UInt8 := UInt8.ofNat (v / 256 ^ k)

/-- The little-endian number in the `w` bytes from offset `o`. -/
def word (m : Bytes n) (o : Nat) : Nat → Nat
  | 0 => 0
  | w + 1 => (m.get o).toNat + 256 * word m (o + 1) w

/-- The memory after a store of the `w` lowest bytes of `v` at offset `o`. -/
def setWord (m : Bytes n) (o w v : Nat) : Bytes n := m.splice o w (byteOf v)

theorem word_congr {m m' : Bytes n} {o w : Nat} (h : ∀ k < w, m.get (o + k) = m'.get (o + k)) :
    m.word o w = m'.word o w := by
  induction w generalizing o with
  | zero => rfl
  | succ w ih =>
    have h0 := h 0 (by omega)
    rw [Nat.add_zero] at h0
    rw [word, word, h0, ih fun k hk => ?_]
    rw [show o + 1 + k = o + (k + 1) by omega]
    exact h (k + 1) (by omega)

/-- Bytes that spell `v` read back as `v`. -/
theorem word_of_bytes {m : Bytes n} {o w v : Nat} (h : ∀ k < w, m.get (o + k) = byteOf v k) :
    m.word o w = v % 256 ^ w := by
  induction w generalizing o v with
  | zero => simp [word, Nat.mod_one]
  | succ w ih =>
    have h0 := h 0 (by omega)
    rw [Nat.add_zero] at h0
    have htail : m.word (o + 1) w = v / 256 % 256 ^ w := by
      refine ih fun k hk => ?_
      rw [show o + 1 + k = o + (k + 1) by omega, h (k + 1) (by omega), byteOf, byteOf,
        Nat.div_div_eq_div_mul, Nat.pow_succ, Nat.mul_comm]
    rw [word, htail, h0, Nat.pow_succ, Nat.mul_comm (256 ^ w) 256, Nat.mod_mul]
    simp [byteOf]

theorem byteOf_word {m : Bytes n} {o w k : Nat} (hk : k < w) : byteOf (m.word o w) k = m.get (o + k) := by
  induction w generalizing o k with
  | zero => omega
  | succ w ih =>
    have hb := (m.get o).toNat_lt
    rw [word]
    cases k with
    | zero =>
      have hmod : ((m.get o).toNat + 256 * m.word (o + 1) w) % 256 = (m.get o).toNat % 256 :=
        Nat.add_mul_mod_self_left ..
      rw [byteOf, pow_zero, Nat.div_one, Nat.add_zero, ← UInt8.toNat_inj, UInt8.toNat_ofNat', hmod]
      exact Nat.mod_eq_of_lt hb
    | succ k =>
      have hnext : ((m.get o).toNat + 256 * m.word (o + 1) w) / 256 = m.word (o + 1) w := by omega
      have hrest := ih (o := o + 1) (k := k) (by omega)
      rw [byteOf] at hrest
      rw [byteOf, Nat.pow_succ, Nat.mul_comm (256 ^ k) 256, ← Nat.div_div_eq_div_mul, hnext, hrest,
        show o + 1 + k = o + (k + 1) by omega]

theorem word_setWord_same {m : Bytes n} {o w v : Nat} (h : o + w ≤ n) :
    (m.setWord o w v).word o w = v % 256 ^ w :=
  word_of_bytes fun k hk => get_splice_in hk (by omega)

theorem word_splice_out {m : Bytes n} {o k o' w : Nat} {f : Nat → UInt8}
    (h : o' + w ≤ o ∨ o + k ≤ o') : (m.splice o k f).word o' w = m.word o' w :=
  word_congr fun j hj => get_splice_out (by omega)

@[simp] theorem word_zero (o w : Nat) : (zero : Bytes n).word o w = 0 := by
  induction w generalizing o with
  | zero => rfl
  | succ w ih => simp [word, ih]

/-- Bit `8 * k + t` of a word is bit `t` of its byte `k`. -/
theorem testBit_word {m : Bytes n} {o w k t : Nat} (hk : k < w) (ht : t < 8) :
    (m.word o w).testBit (8 * k + t) = (m.get (o + k)).toNat.testBit t := by
  induction w generalizing o k with
  | zero => omega
  | succ w ih =>
    have hb : (m.get o).toNat < 2 ^ 8 := (m.get o).toNat_lt
    have hadd : m.word o (w + 1) = 2 ^ 8 * m.word (o + 1) w + (m.get o).toNat := by
      rw [word]; ring
    rw [hadd, Nat.testBit_two_pow_mul_add _ hb]
    cases k with
    | zero => simp [ht]
    | succ k =>
      rw [if_neg (by omega), show 8 * (k + 1) + t - 8 = 8 * k + t by omega, ih (by omega),
        show o + 1 + k = o + (k + 1) by omega]

end Bytes

end FtosFfs.Lib
