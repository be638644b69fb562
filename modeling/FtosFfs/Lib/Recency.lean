import Mathlib.Data.List.Basic
import Mathlib.Logic.Function.Basic

/-! Lists that are kept in the order of last use by moving what is used to the front. -/

namespace FtosFfs.Lib

variable {α : Type*} {time time' : α → Nat} {l : List α} {x : α} {now : Nat}

/-- The elements of `l` come from the most recent to the least recent one. -/
def Recent (time : α → Nat) (l : List α) : Prop := l.Pairwise fun x y => time y < time x

namespace Recent

theorem nodup (h : Recent time l) : l.Nodup := by
  refine List.Pairwise.imp (fun {x y} (hlt : time y < time x) => ?_) h
  rintro rfl
  exact Nat.lt_irrefl _ hlt

theorem congr (h : Recent time l) (heq : ∀ x ∈ l, time' x = time x) : Recent time' l :=
  h.imp_of_mem fun hx hy hlt => by rwa [heq _ hx, heq _ hy]

/-- What is used now goes to the front. -/
theorem front [DecidableEq α] (h : Recent time l) (hpast : ∀ y ∈ l, y ≠ x → time y < now)
    (hnow : time' x = now) (heq : ∀ y ∈ l, y ≠ x → time' y = time y) :
    Recent time' (x :: l.erase x) := by
  have hmem (y : α) (hy : y ∈ l.erase x) : y ≠ x ∧ y ∈ l := h.nodup.mem_erase_iff.mp hy
  refine List.pairwise_cons.mpr ⟨fun y hy => ?_, ?_⟩
  · obtain ⟨hne, hy⟩ := hmem y hy
    rw [hnow, heq y hy hne]
    exact hpast y hy hne
  · have herase : Recent time (l.erase x) := List.Pairwise.erase x h
    exact herase.congr fun y hy => heq y (hmem y hy).2 (hmem y hy).1

/-- The last element that meets a condition is the least recent one. -/
theorem oldest {p : α → Bool} (h : Recent time l) (hlast : (l.filter p).getLast? = some x) :
    x ∈ l ∧ p x = true ∧ ∀ y ∈ l, p y = true → y ≠ x → time x < time y := by
  obtain ⟨init, hinit⟩ := List.getLast?_eq_some_iff.mp hlast
  have hx : x ∈ l.filter p := by
    rw [hinit]
    exact List.mem_append_right _ (List.mem_singleton_self x)
  refine ⟨(List.mem_filter.mp hx).1, (List.mem_filter.mp hx).2, fun y hy hpy hne => ?_⟩
  have hmem : y ∈ init ++ [x] := hinit ▸ List.mem_filter.mpr ⟨hy, hpy⟩
  have hbefore : y ∈ init := by
    rcases List.mem_append.mp hmem with hy | hy
    · exact hy
    · exact absurd (List.mem_singleton.mp hy) hne
  have hsorted : (init ++ [x]).Pairwise fun x y => time y < time x := hinit ▸ h.filter p
  exact (List.pairwise_append.mp hsorted).2.2 y hbefore x (List.mem_singleton_self x)

end Recent

end FtosFfs.Lib
