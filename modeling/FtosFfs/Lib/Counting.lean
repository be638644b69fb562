import Mathlib.Data.Set.Card

/-! How many of the places of a table hold a reference to something, and what a change of one place
does to that number. -/

namespace FtosFfs.Lib

variable {ι β : Type} {g : ι → Option β} {b : β}

/-- The places that hold something are finitely many. -/
def FiniteUse (g : ι → Option β) : Prop := {i | g i ≠ none}.Finite

/-- The number of places that hold `b`. -/
noncomputable def uses (g : ι → Option β) (b : β) : Nat := {i | g i = some b}.ncard

theorem finiteUse_none : FiniteUse fun _ : ι => (none : Option β) := by
  simp [FiniteUse]

@[simp] theorem uses_none : uses (fun _ : ι => (none : Option β)) b = 0 := by
  simp [uses]

theorem FiniteUse.update [DecidableEq ι] (h : FiniteUse g) (a : ι) (v : Option β) :
    FiniteUse (Function.update g a v) := by
  refine (Set.Finite.insert a h).subset fun i hi => ?_
  by_cases hia : i = a
  · exact .inl hia
  · right
    simpa [Function.update_of_ne hia] using hi

theorem FiniteUse.of_some (h : FiniteUse g) (b : β) : {i | g i = some b}.Finite :=
  h.subset fun i hi => by
    rw [Set.mem_ofPred_eq] at hi ⊢
    simp [hi]

theorem uses_pos (h : FiniteUse g) {a : ι} (ha : g a = some b) : 0 < uses g b :=
  (Set.ncard_pos (h.of_some b)).mpr ⟨a, ha⟩

variable [DecidableEq β]

/-- One for a place that holds `b`. -/
def holdsOne (v : Option β) (b : β) : Nat := if v = some b then 1 else 0

@[simp] theorem holdsOne_none : holdsOne (none : Option β) b = 0 := rfl

@[simp] theorem holdsOne_self : holdsOne (some b) b = 1 := if_pos rfl

/-- The number of places without `a` that hold `b`. -/
theorem uses_eq (h : FiniteUse g) (a : ι) :
    uses g b = ({i | g i = some b} \ {a}).ncard + holdsOne (g a) b := by
  unfold uses holdsOne
  split
  case isTrue ha =>
    have hmem : a ∈ {i | g i = some b} := ha
    rw [Set.ncard_sdiff_singleton_add_one hmem (h.of_some b)]
  case isFalse ha =>
    have hmem : a ∉ {i | g i = some b} := ha
    rw [Set.sdiff_singleton_eq_self hmem, Nat.add_zero]

theorem uses_update [DecidableEq ι] (h : FiniteUse g) (a : ι) (v : Option β) :
    uses (Function.update g a v) b + holdsOne (g a) b = uses g b + holdsOne v b := by
  have hrest : {i | Function.update g a v i = some b} \ {a} = {i | g i = some b} \ {a} := by
    ext i
    simp only [Set.mem_sdiff, Set.mem_ofPred_eq, Set.mem_singleton_iff]
    refine and_congr_left fun hia => ?_
    rw [Function.update_of_ne hia]
  rw [uses_eq (h.update a v) a, uses_eq h a, hrest, Function.update_self]
  omega

end FtosFfs.Lib
