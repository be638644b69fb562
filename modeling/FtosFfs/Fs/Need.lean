import FtosFfs.Fs.Write
import Mathlib.Algebra.BigOperators.Intervals

/-! The free data blocks, how many of them a write needs, and the searches for a group that has
one. -/

namespace FtosFfs.Fs

open Lib Lib.Exec Cache

variable {E E' : Nat → InodeEntry} {d d' : Nat → BlockData} {n b g : Nat}

/-! ### Free blocks -/

instance (b : Nat) : Decidable (IsData b) := decidable_of_iff _ isData_iff.symm

/-- The free blocks of the data areas. -/
def freeBlocks (d : Nat → BlockData) : Finset Nat :=
  (Finset.range fssize).filter fun b => IsData b ∧ blockBit d b = false

theorem mem_freeBlocks : b ∈ freeBlocks d ↔ IsData b ∧ blockBit d b = false := by
  rw [freeBlocks, Finset.mem_filter, Finset.mem_range]
  exact and_iff_right_of_imp fun h => h.1.1.2

theorem freeBlocks_congr (hbit : ∀ c, InGroups c → blockBit d' c = blockBit d c) :
    freeBlocks d' = freeBlocks d := by
  ext c
  rw [mem_freeBlocks, mem_freeBlocks]
  exact and_congr_right fun hc => by rw [hbit c hc.1]

/-- An allocation takes one of the free blocks. -/
theorem Allocated.card_freeBlocks (h : Allocated b d d') :
    (freeBlocks d').card + 1 = (freeBlocks d).card := by
  have herase : freeBlocks d' = (freeBlocks d).erase b := by
    ext c
    rw [Finset.mem_erase, mem_freeBlocks, mem_freeBlocks]
    by_cases hc : IsData c
    · rw [h.bit c hc.1]
      split <;> simp [*]
    · simp [hc]
  rw [herase]
  exact Finset.card_erase_add_one (mem_freeBlocks.mpr ⟨h.data, h.free⟩)

/-- With a free block, one of the groups is not full. -/
theorem exists_group_free (h : 0 < (freeBlocks d).card) :
    ∃ g < 10, (usedBits d g).card ≠ sblock.numDatablocksPerGroup := by
  obtain ⟨b, hb⟩ := Finset.card_pos.mp h
  obtain ⟨hd, hfree⟩ := mem_freeBlocks.mp hb
  rw [isData_iff] at hd
  refine ⟨(b - 65) / 1000, by omega, fun hfull => ?_⟩
  have hbit := card_usedBits_eq.mp hfull ((b - 65) % 1000) (by omega) (by omega)
  rw [show 65 + (b - 65) / 1000 * 1000 + (b - 65) % 1000 = b by omega, hfree] at hbit
  cases hbit

/-! ### Searches -/

/-- The groups that the search from `tgno` looks at: every second one, then all from the first. -/
def searchOrder (tgno : Nat) : List Nat :=
  List.range' tgno ((ngroups + 1 - tgno) / 2) 2 ++ List.range ngroups

/-- In steps of 1, the search ends at the first group that is not full. -/
theorem nextGroup_one {full : Nat → Bool} {fuel tgno : Nat} (hfuel : ngroups - tgno ≤ fuel)
    (hfind : (List.range' tgno (ngroups - tgno)).find? (fun h => !full h) = some g) :
    nextGroup full fuel tgno 1 = some g := by
  induction fuel generalizing tgno with
  | zero =>
    rw [show ngroups - tgno = 0 by omega] at hfind
    cases hfind
  | succ fuel ih =>
    obtain ⟨len, hlen⟩ : ∃ len, ngroups - tgno = len + 1 := by
      refine Nat.exists_eq_add_one.mpr (Nat.pos_of_ne_zero fun h0 => ?_)
      rw [h0] at hfind
      cases hfind
    rw [hlen, List.range'_succ, List.find?_cons] at hfind
    unfold nextGroup
    cases hf : full tgno with
    | false =>
      simp only [hf, Bool.not_false] at hfind
      simpa using hfind
    | true =>
      simp only [hf, Bool.not_true] at hfind
      have hlt : ¬tgno + 1 ≥ ngroups := by
        intro hge
        rw [show len = 0 by omega] at hfind
        cases hfind
      simp only [hlt, if_true, if_false, and_false]
      refine ih (by omega) ?_
      rwa [show ngroups - (tgno + 1) = len by omega]

/-- The search ends at the first group in its order that is not full. -/
theorem nextGroup_find {full : Nat → Bool} {fuel tgno : Nat} (ht : tgno < ngroups)
    (hfuel : 2 * ngroups - tgno ≤ fuel)
    (hfind : (searchOrder tgno).find? (fun h => !full h) = some g) :
    nextGroup full fuel tgno 2 = some g := by
  induction fuel generalizing tgno with
  | zero => omega
  | succ fuel ih =>
    obtain ⟨len, hlen⟩ : ∃ len, (ngroups + 1 - tgno) / 2 = len + 1 :=
      Nat.exists_eq_add_one.mpr (by omega)
    rw [searchOrder, hlen, List.range'_succ, List.cons_append, List.find?_cons] at hfind
    unfold nextGroup
    cases hf : full tgno with
    | false =>
      simp only [hf, Bool.not_false] at hfind
      simpa using hfind
    | true =>
      simp only [hf, Bool.not_true] at hfind
      by_cases hge : tgno + 2 ≥ ngroups
      · rw [show len = 0 by omega, List.range'_zero, List.nil_append, List.range_eq_range'] at hfind
        simp only [hge, if_true]
        exact nextGroup_one (by omega) hfind
      · simp only [hge, if_true, if_false, and_false]
        refine ih (Nat.not_le.mp hge) (by omega) ?_
        rwa [searchOrder, show (ngroups + 1 - (tgno + 2)) / 2 = len by omega]

theorem nextGroup_two {full : Nat → Bool} {fuel tgno : Nat} (hg : g < 10) (hfull : full g = false)
    (ht : tgno < 10) (hfuel : 20 - tgno ≤ fuel) : ∃ r, nextGroup full fuel tgno 2 = some r := by
  cases hfind : (searchOrder tgno).find? (fun h => !full h) with
  | some r => exact ⟨r, nextGroup_find ht hfuel hfind⟩
  | none =>
    have hmem : g ∈ searchOrder tgno := List.mem_append_right _ (List.mem_range.mpr hg)
    have hall := List.find?_eq_none.mp hfind g hmem
    simp [hfull] at hall

/-- Without a group that is not full, the search does not end. -/
theorem nextGroup_full {full : Nat → Bool} {tgno step : Nat} (hfull : ∀ g < ngroups, full g = true)
    (ht : tgno < ngroups) (fuel : Nat) : nextGroup full fuel tgno step = none := by
  induction fuel generalizing tgno step with
  | zero => rfl
  | succ fuel ih =>
    unfold nextGroup
    rw [if_pos (hfull tgno ht)]
    by_cases hge : tgno + step ≥ ngroups
    · simp only [hge, if_true]
      exact ih (by decide)
    · simp only [hge, if_false, and_false]
      exact ih (Nat.not_le.mp hge)

/-! ### What a write needs -/

/-- The number of blocks to allocate before block `k` of inode `n` is there. -/
def needAt (n k : Nat) (E : Nat → InodeEntry) (d : Nat → BlockData) : Nat :=
  (if ref E d (n, place k) = 0 then 1 else 0) +
    if inodeNumDirect ≤ k ∧ ref E d (n, .table) = 0 then 1 else 0

/-- The number of blocks to allocate before bytes `start` to `stop - 1` of inode `n` are there. -/
def need (n start stop : Nat) (E : Nat → InodeEntry) (d : Nat → BlockData) : Nat :=
  ∑ k ∈ Finset.Ico (start / blockSize) ((stop + blockSize - 1) / blockSize),
      (if ref E d (n, place k) = 0 then 1 else 0) +
    if inodeNumDirect * blockSize < stop ∧ ref E d (n, .table) = 0 then 1 else 0

theorem needAt_le_need {start stop : Nat} (hlt : start < stop) :
    needAt n (start / blockSize) E d ≤ need n start stop E d := by
  have hK : start / blockSize < (stop + blockSize - 1) / blockSize := by
    show start / 512 < (stop + 512 - 1) / 512
    omega
  have hstop : inodeNumDirect ≤ start / blockSize → inodeNumDirect * blockSize < stop := by
    show 12 ≤ start / 512 → 12 * 512 < stop
    omega
  unfold need needAt
  rw [Finset.sum_eq_sum_Ico_succ_bot hK]
  have htab : (if inodeNumDirect ≤ start / blockSize ∧ ref E d (n, .table) = 0 then 1 else 0) ≤
      if inodeNumDirect * blockSize < stop ∧ ref E d (n, .table) = 0 then 1 else 0 := by
    split
    case isTrue h => rw [if_pos ⟨hstop h.1, h.2⟩]
    case isFalse => exact Nat.zero_le _
  omega

/-- A slot with a block is in a table. -/
theorem table_of_slot {k : Nat} (hk : inodeNumDirect ≤ k) (h : ref E d (n, place k) ≠ 0) :
    ref E d (n, .table) ≠ 0 := by
  have hpl : place k = .slot (k - inodeNumDirect) := if_neg (Nat.not_lt.mpr hk)
  rw [hpl] at h
  unfold ref at h ⊢
  split at h
  case isTrue hn =>
    rw [if_pos hn]
    intro h0
    refine h ?_
    show (if (E n).indirect = 0 then 0 else _) = 0
    rw [if_pos (toNat_eq_zero.mp h0)]
  case isFalse => exact absurd rfl h

/-- What is needed from byte `start` on, after the block of byte `start` is there. -/
theorem need_step {start stop step : Nat} (h : Mapped n (start / blockSize) b E E' d d') (hb : b ≠ 0)
    (htable : ref E d (n, .table) ≠ 0 → ref E' d' (n, .table) ≠ 0) (hlt : start < stop)
    (hstep : step = min (stop - start) (blockSize - start % blockSize)) :
    needAt n (start / blockSize) E d + need n (start + step) stop E' d' ≤ need n start stop E d := by
  have hstep' : step = min (stop - start) (512 - start % 512) := hstep
  have hK : start / blockSize < (stop + blockSize - 1) / blockSize := by
    show start / 512 < (stop + 512 - 1) / 512
    omega
  have hother (k : Nat) (hk : k ≠ start / blockSize) :
      ref E' d' (n, place k) = ref E d (n, place k) :=
    h.other _ (place_ne_table k) (by simpa using fun hpl => hk (place_inj hpl))
  -- The blocks after the one of byte `start` are as before.
  have hsum : ∑ k ∈ Finset.Ico ((start + step) / blockSize) ((stop + blockSize - 1) / blockSize),
        (if ref E' d' (n, place k) = 0 then 1 else 0) =
      ∑ k ∈ Finset.Ico (start / blockSize + 1) ((stop + blockSize - 1) / blockSize),
        if ref E d (n, place k) = 0 then 1 else 0 := by
    by_cases hal : (start + step) / blockSize = start / blockSize + 1
    · rw [hal]
      refine Finset.sum_congr rfl fun k hk => ?_
      rw [hother k (by have := (Finset.mem_Ico.mp hk).1; omega)]
    · have hal' : (start + step) / 512 ≠ start / 512 + 1 := hal
      have heq : (start + step) / blockSize = start / blockSize := by
        show (start + step) / 512 = start / 512
        omega
      have hend : (stop + blockSize - 1) / blockSize = start / blockSize + 1 := by
        show (stop + 512 - 1) / 512 = start / 512 + 1
        omega
      rw [heq, hend, Nat.Ico_succ_singleton, Finset.sum_singleton, h.here, if_neg hb, Finset.Ico_self,
        Finset.sum_empty]
  unfold need needAt
  rw [hsum, Finset.sum_eq_sum_Ico_succ_bot hK]
  have htab : (if inodeNumDirect ≤ start / blockSize ∧ ref E d (n, .table) = 0 then 1 else 0) +
      (if inodeNumDirect * blockSize < stop ∧ ref E' d' (n, .table) = 0 then 1 else 0) ≤
      if inodeNumDirect * blockSize < stop ∧ ref E d (n, .table) = 0 then 1 else 0 := by
    by_cases h12 : inodeNumDirect ≤ start / blockSize
    · have hstop : inodeNumDirect * blockSize < stop := by
        have h12' : 12 ≤ start / 512 := h12
        show 12 * 512 < stop
        omega
      have hnew : ref E' d' (n, .table) ≠ 0 := table_of_slot h12 (by rw [h.here]; exact hb)
      simp [h12, hstop, hnew]
    · by_cases h0 : ref E d (n, .table) = 0
      · rw [if_neg (fun h => h12 h.1), Nat.zero_add]
        split
        case isTrue hc => rw [if_pos ⟨hc.1, h0⟩]
        case isFalse => exact Nat.zero_le _
      · simp [h0, htable h0]
  omega

end FtosFfs.Fs
