import Mathlib.Algebra.GroupWithZero.Nat
import Mathlib.Logic.Function.Basic

/-! `memmove` of `common/string.c` on a memory of bytes with 64-bit addresses. -/

namespace FtosFfs.Common

/-- The bytes by their addresses. -/
abbrev ByteMemory := UInt64 → UInt8

/-- The loop `*d++ = *s++` of `memmove`, for `n` bytes. -/
def copyForward : Nat → ByteMemory → UInt64 → UInt64 → ByteMemory
  | 0, m, _, _ => m
  | n + 1, m, d, s => copyForward n (Function.update m d (m s)) (d + 1) (s + 1)

/-- The loop `*--d = *--s` of `memmove`, for `n` bytes. -/
def copyBackward : Nat → ByteMemory → UInt64 → UInt64 → ByteMemory
  | 0, m, _, _ => m
  | n + 1, m, d, s => copyBackward n (Function.update m (d - 1) (m (s - 1))) (d - 1) (s - 1)

/-- `memmove`: the pointer that it returns and the memory after it. -/
def memmove (m : ByteMemory) (dest src n : UInt64) : UInt64 × ByteMemory :=
  let m :=
    if src < dest ∧ dest - src < n then copyBackward n.toNat m (dest + n) (src + n)
    else copyForward n.toNat m dest src
  (dest, m)

variable {m m' : ByteMemory} {d s dest src n p : UInt64} {i j k : Nat}

/-! ### Addresses -/

theorem add_ofNat_succ (p : UInt64) (i : Nat) : p + .ofNat (i + 1) = p + 1 + .ofNat i := by
  rw [UInt64.ofNat_add, UInt64.add_assoc, UInt64.add_comm (.ofNat i)]
  rfl

theorem add_ofNat_succ_sub (p : UInt64) (i : Nat) : p + .ofNat (i + 1) - 1 = p + .ofNat i := by
  rw [UInt64.ofNat_add, ← UInt64.add_assoc]
  exact UInt64.add_sub_cancel _ _

/-- An address within the memory is not reduced. -/
theorem toNat_add_ofNat (h : p.toNat + i < 2 ^ 64) : (p + .ofNat i).toNat = p.toNat + i := by
  have hi : i < UInt64.size := Nat.lt_of_le_of_lt (Nat.le_add_left i _) h
  rw [UInt64.toNat_add, UInt64.toNat_ofNat_of_lt' hi, Nat.mod_eq_of_lt h]

/-- The addresses of a range that does not wrap are distinct. -/
theorem add_ofNat_ne (h : p.toNat + k ≤ 2 ^ 64) (hi : i < k) (hj : j < k) (hij : i ≠ j) :
    p + .ofNat i ≠ p + .ofNat j := by
  intro heq
  have hnat := congrArg UInt64.toNat heq
  rw [toNat_add_ofNat (by omega), toNat_add_ofNat (by omega)] at hnat
  omega

/-! ### Copied ranges -/

/-- The first `k` bytes from `d` on are the old bytes from `s` on, and no other byte changed. -/
structure Copied (m m' : ByteMemory) (d s : UInt64) (k : Nat) : Prop where
  copied : ∀ i < k, m' (d + .ofNat i) = m (s + .ofNat i)
  frame : ∀ a, (∀ i < k, a ≠ d + .ofNat i) → m' a = m a

theorem Copied.zero (m : ByteMemory) (d s : UInt64) : Copied m m d s 0 where
  copied i hi := absurd hi (Nat.not_lt_zero i)
  frame _ _ := rfl

/-- The upward loop, when no byte is overwritten before it is read. -/
theorem copied_copyForward (hread : ∀ i < k, ∀ j < i, s + .ofNat i ≠ d + .ofNat j)
    (hdist : ∀ i < k, ∀ j < i, d + .ofNat i ≠ d + .ofNat j) :
    Copied m (copyForward k m d s) d s k := by
  induction k generalizing m d s with
  | zero => exact Copied.zero m d s
  | succ k ih =>
    have hzero (p : UInt64) : p + .ofNat 0 = p := UInt64.add_zero p
    have hrest := ih (m := Function.update m d (m s)) (d := d + 1) (s := s + 1)
      (fun i hi j hj => by
        rw [← add_ofNat_succ, ← add_ofNat_succ]
        exact hread (i + 1) (by omega) (j + 1) (by omega))
      (fun i hi j hj => by
        rw [← add_ofNat_succ, ← add_ofNat_succ]
        exact hdist (i + 1) (by omega) (j + 1) (by omega))
    constructor
    · intro i hi
      cases i with
      | zero =>
        -- The rest of the loop leaves the first byte alone.
        have hfirst : ∀ j < k, d ≠ d + 1 + .ofNat j := by
          intro j hj heq
          refine hdist (j + 1) (by omega) 0 (by omega) ?_
          rw [hzero, add_ofNat_succ]
          exact heq.symm
        rw [hzero, hzero, copyForward, hrest.frame d hfirst, Function.update_self]
      | succ i =>
        have hne : s + 1 + .ofNat i ≠ d := by
          rw [← add_ofNat_succ]
          have h := hread (i + 1) hi 0 (by omega)
          rwa [hzero] at h
        rw [add_ofNat_succ, add_ofNat_succ, copyForward, hrest.copied i (by omega),
          Function.update_of_ne hne]
    · intro a ha
      have hne : a ≠ d := by
        have h := ha 0 (by omega)
        rwa [hzero] at h
      have hout : ∀ i < k, a ≠ d + 1 + .ofNat i := by
        intro i hi
        rw [← add_ofNat_succ]
        exact ha (i + 1) (by omega)
      rw [copyForward, hrest.frame a hout, Function.update_of_ne hne]

/-- The downward loop, when no byte is overwritten before it is read. -/
theorem copied_copyBackward (hread : ∀ i < k, ∀ j < i, s + .ofNat j ≠ d + .ofNat i)
    (hdist : ∀ i < k, ∀ j < i, d + .ofNat i ≠ d + .ofNat j) :
    Copied m (copyBackward k m (d + .ofNat k) (s + .ofNat k)) d s k := by
  induction k generalizing m with
  | zero => exact Copied.zero m d s
  | succ k ih =>
    have hrest := ih (m := Function.update m (d + .ofNat k) (m (s + .ofNat k)))
      (fun i hi => hread i (by omega)) (fun i hi => hdist i (by omega))
    rw [copyBackward, add_ofNat_succ_sub, add_ofNat_succ_sub]
    constructor
    · intro i hi
      by_cases hlast : i = k
      · subst hlast
        rw [hrest.frame _ fun j hj => hdist i hi j hj, Function.update_self]
      · have hik : i < k := by omega
        rw [hrest.copied i hik, Function.update_of_ne (hread k (by omega) i hik)]
    · intro a ha
      rw [hrest.frame a fun i hi => ha i (by omega), Function.update_of_ne (ha k (by omega))]

/-- Without wrapping, `memmove` takes the loop that reads each byte before it is overwritten. -/
theorem copied_memmove (hd : dest.toNat + n.toNat ≤ 2 ^ 64) (hs : src.toNat + n.toNat ≤ 2 ^ 64) :
    Copied m (memmove m dest src n).2 dest src n.toNat := by
  have hdist : ∀ i < n.toNat, ∀ j < i, dest + .ofNat i ≠ dest + .ofNat j :=
    fun i hi j hj => add_ofNat_ne hd hi (Nat.lt_trans hj hi) (Nat.ne_of_gt hj)
  have hn : UInt64.ofNat n.toNat = n := UInt64.ofNat_toNat
  unfold memmove
  split
  case isTrue hdown =>
    -- The destination is above the source: a lower source byte is not a higher destination byte.
    have hlt := UInt64.lt_iff_toNat_lt.mp hdown.1
    have hback := copied_copyBackward (m := m) (d := dest) (s := src) (k := n.toNat)
      (fun i hi j hj heq => by
        have hnat := congrArg UInt64.toNat heq
        rw [toNat_add_ofNat (by omega), toNat_add_ofNat (by omega)] at hnat
        omega) hdist
    rwa [hn] at hback
  case isFalse hup =>
    refine copied_copyForward (fun i hi j hj heq => hup ?_) hdist
    -- A source byte that was overwritten means that the destination starts inside the source.
    have hnat := congrArg UInt64.toNat heq
    rw [toNat_add_ofNat (by omega), toNat_add_ofNat (by omega)] at hnat
    have hlt : src < dest := UInt64.lt_iff_toNat_lt.mpr (by omega)
    refine ⟨hlt, UInt64.lt_iff_toNat_lt.mpr ?_⟩
    rw [UInt64.toNat_sub_of_le _ _ (UInt64.le_of_lt hlt)]
    omega

/-! ### `memmove` -/

/-- Whatever the overlap of two ranges that do not wrap: the bytes of the destination are the old
bytes of the source, the bytes outside of the destination are unchanged, and `dest` is returned. -/
theorem memmove_correct (m : ByteMemory) (dest src n : UInt64)
    (hd : dest.toNat + n.toNat ≤ 2 ^ 64) (hs : src.toNat + n.toNat ≤ 2 ^ 64) :
    (memmove m dest src n).1 = dest ∧
      (∀ i : UInt64, i < n → (memmove m dest src n).2 (dest + i) = m (src + i)) ∧
      ∀ a : UInt64, ¬(dest.toNat ≤ a.toNat ∧ a.toNat < dest.toNat + n.toNat) →
        (memmove m dest src n).2 a = m a := by
  have hmoved := copied_memmove (m := m) hd hs
  refine ⟨rfl, fun i hi => ?_, fun a ha => hmoved.frame a fun i hi heq => ha ?_⟩
  · have hcopied := hmoved.copied i.toNat (UInt64.lt_iff_toNat_lt.mp hi)
    rwa [UInt64.ofNat_toNat] at hcopied
  · rw [heq, toNat_add_ofNat (by omega)]
    omega

/-- A memory with the bytes 0 to 9, of which 5 are moved up by 2. -/
theorem memmove_correct_overlap :
    let m : ByteMemory := fun a => if a < 10 then a.toUInt8 else 0
    (memmove m 3 1 5).1 = 3 ∧
      (∀ i : UInt64, i < 5 → (memmove m 3 1 5).2 (3 + i) = m (1 + i)) ∧
      ∀ a : UInt64, ¬(3 ≤ a.toNat ∧ a.toNat < 3 + 5) → (memmove m 3 1 5).2 a = m a :=
  memmove_correct _ 3 1 5 (by decide) (by decide)

end FtosFfs.Common
