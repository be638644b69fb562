import Mathlib.Data.List.Basic

/-! The fields of a list between separators, and paths along labelled edges. -/

namespace FtosFfs.Lib

section

variable {α : Type} [DecidableEq α] {sep : α} {l w : List α}

/-- The non-empty pieces of a list between separators. -/
def fields (sep : α) (l : List α) : List (List α) := (l.splitOn sep).filter (· ≠ [])

theorem fields_sep_cons (sep : α) (l : List α) : fields sep (sep :: l) = fields sep l := by
  have hsplit : (sep :: l).splitOn sep = [] :: l.splitOn sep := by simp [List.splitOn_cons_eq_if_modifyHead]
  simp [fields, hsplit]

theorem fields_seps_append {a : List α} (h : ∀ x ∈ a, x = sep) : fields sep (a ++ l) = fields sep l := by
  induction a with
  | nil => rfl
  | cons x a ih =>
    rw [h x List.mem_cons_self, List.cons_append, fields_sep_cons]
    exact ih fun y hy => h y (List.mem_cons_of_mem x hy)

/-- A field with separators after it. -/
theorem fields_append {b : List α} (hw : w ≠ []) (hsep : sep ∉ w) (hb : ∀ x ∈ b, x = sep)
    (hl : b = [] → l = []) : fields sep (w ++ (b ++ l)) = w :: fields sep l := by
  cases b with
  | nil =>
    rw [hl rfl, List.nil_append, List.append_nil, fields, List.splitOn_eq_singleton hsep]
    simp [hw, fields]
  | cons x b =>
    have hrest : fields sep (b ++ l) = fields sep l := fields_seps_append fun y hy =>
      hb y (List.mem_cons_of_mem x hy)
    rw [hb x List.mem_cons_self, List.cons_append, fields, List.splitOn_append_cons_self_of_not_mem hsep,
      List.filter_cons_of_pos (by simpa using hw)]
    exact congrArg _ hrest

end

/-- Following the labels of a list along the edges from one node leads to another. -/
inductive Follows {ν κ : Type} (edge : ν → κ → ν → Prop) : ν → List κ → ν → Prop
  | nil (n : ν) : Follows edge n [] n
  | cons {n m k : ν} {c : κ} {cs : List κ} (hedge : edge n c m) (hrest : Follows edge m cs k) :
      Follows edge n (c :: cs) k

section

variable {ν κ : Type} {edge : ν → κ → ν → Prop} {n m k : ν} {c : κ} {cs : List κ}

@[simp] theorem follows_nil : Follows edge n [] m ↔ n = m := by
  constructor
  · intro h
    cases h
    rfl
  · rintro rfl
    exact .nil n

@[simp] theorem follows_cons : Follows edge n (c :: cs) k ↔ ∃ m, edge n c m ∧ Follows edge m cs k := by
  constructor
  · intro h
    cases h with
    | cons hedge hrest => exact ⟨_, hedge, hrest⟩
  · rintro ⟨m, hedge, hrest⟩
    exact .cons hedge hrest

/-- Where every label leads to at most one node, so does every list of labels. -/
theorem Follows.unique {P : ν → Prop} {k' : ν} (hclosed : ∀ n c m, P n → edge n c m → P m)
    (hunique : ∀ n c m m', P n → edge n c m → edge n c m' → m = m') (hn : P n)
    (h : Follows edge n cs k) (h' : Follows edge n cs k') : k = k' := by
  induction h with
  | nil => exact follows_nil.mp h'
  | cons hedge hrest ih =>
    obtain ⟨m', hedge', hrest'⟩ := follows_cons.mp h'
    obtain rfl := hunique _ _ _ _ hn hedge hedge'
    exact ih (hclosed _ _ _ hn hedge) hrest'

end

end FtosFfs.Lib
