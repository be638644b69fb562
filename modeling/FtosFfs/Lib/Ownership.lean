import Mathlib.Data.Set.Function
import Mathlib.Logic.Function.Basic

/-! Slots that refer to the cells of an area, each cell marked as used exactly when a slot refers to
it: how allocating and freeing one cell changes such an arrangement. -/

namespace FtosFfs.Lib

variable {ι : Type*} [DecidableEq ι] {area : Set Nat} {ref : ι → Nat} {used used' : Nat → Prop}

/-- The references other than 0 lie in the area, no two slots share a cell, and the used cells of
the area are those referred to. -/
structure Owns (area : Set Nat) (ref : ι → Nat) (used : Nat → Prop) : Prop where
  zero : 0 ∉ area
  distinct : ∀ i j, ref i ≠ 0 → ref i = ref j → i = j
  inArea : ∀ i, ref i ≠ 0 → ref i ∈ area
  exact : ∀ b ∈ area, used b ↔ ∃ i, ref i = b

namespace Owns

omit [DecidableEq ι] in
theorem used_ref (h : Owns area ref used) {i : ι} (hi : ref i ≠ 0) : used (ref i) :=
  (h.exact _ (h.inArea i hi)).mpr ⟨i, rfl⟩

omit [DecidableEq ι] in
theorem ref_ne (h : Owns area ref used) {b : Nat} (hb : b ∈ area) (hu : ¬used b) (i : ι) :
    ref i ≠ b :=
  fun hi => hu ((h.exact b hb).mpr ⟨i, hi⟩)

/-- An empty slot takes an unused cell. -/
theorem take (h : Owns area ref used) {i : ι} {b : Nat} (hi : ref i = 0) (hb : b ∈ area)
    (hu : ¬used b) (hused : ∀ c ∈ area, used' c ↔ c = b ∨ used c) :
    Owns area (Function.update ref i b) used' := by
  have hne := h.ref_ne hb hu
  constructor
  case zero => exact h.zero
  case distinct =>
    intro j k hj hjk
    simp only [Function.update_apply] at hj hjk
    split at hjk
    case isTrue hji =>
      split at hjk
      case isTrue hki => rw [hji, hki]
      case isFalse => exact absurd hjk.symm (hne k)
    case isFalse hji =>
      rw [if_neg hji] at hj
      split at hjk
      case isTrue => exact absurd hjk (hne j)
      case isFalse => exact h.distinct j k hj hjk
  case inArea =>
    intro j hj
    simp only [Function.update_apply] at hj ⊢
    split
    case isTrue => exact hb
    case isFalse hji => exact h.inArea j (by rwa [if_neg hji] at hj)
  case exact =>
    intro c hc
    rw [hused c hc, h.exact c hc]
    constructor
    · rintro (rfl | ⟨j, rfl⟩)
      · exact ⟨i, Function.update_self ..⟩
      · have hji : j ≠ i := by
          rintro rfl
          rw [hi] at hc
          exact h.zero hc
        exact ⟨j, Function.update_of_ne hji ..⟩
    · rintro ⟨j, hj⟩
      simp only [Function.update_apply] at hj
      split at hj
      case isTrue => exact .inl hj.symm
      case isFalse => exact .inr ⟨j, hj⟩

/-- A slot gives its cell back. -/
theorem drop (h : Owns area ref used) {i : ι} (hi : ref i ≠ 0)
    (hused : ∀ c ∈ area, used' c ↔ c ≠ ref i ∧ used c) :
    Owns area (Function.update ref i 0) used' := by
  constructor
  case zero => exact h.zero
  case distinct =>
    intro j k hj hjk
    simp only [Function.update_apply] at hj hjk
    split at hjk
    case isTrue hji => simp [hji] at hj
    case isFalse hji =>
      rw [if_neg hji] at hj
      split at hjk
      case isTrue => exact absurd hjk hj
      case isFalse => exact h.distinct j k hj hjk
  case inArea =>
    intro j hj
    simp only [Function.update_apply] at hj ⊢
    split
    case isTrue hji => simp [hji] at hj
    case isFalse hji => exact h.inArea j (by rwa [if_neg hji] at hj)
  case exact =>
    intro c hc
    have hc0 : c ≠ 0 := fun h0 => h.zero (h0 ▸ hc)
    rw [hused c hc, h.exact c hc]
    constructor
    · rintro ⟨hne, j, rfl⟩
      have hji : j ≠ i := fun hji => hne (by rw [hji])
      exact ⟨j, Function.update_of_ne hji ..⟩
    · rintro ⟨j, hj⟩
      simp only [Function.update_apply] at hj
      split at hj
      case isTrue => exact absurd hj.symm hc0
      case isFalse hji =>
        refine ⟨fun hci => hji ?_, j, hj⟩
        exact (h.distinct i j hi (by rw [hj, hci])).symm

omit [DecidableEq ι] in
/-- The marks outside of the area do not matter. -/
theorem congr (h : Owns area ref used) (hused : ∀ c ∈ area, used' c ↔ used c) :
    Owns area ref used' :=
  ⟨h.zero, h.distinct, h.inArea, fun b hb => by rw [hused b hb, h.exact b hb]⟩

end Owns

end FtosFfs.Lib
