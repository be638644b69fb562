import Mathlib.Data.List.Basic
import Mathlib.Logic.Function.Basic

/-! Ring buffers with counters that only grow: the elements between two counters, which slot a
counter stands for, and what a store in the next free slot leaves alone. -/

namespace FtosFfs.Lib.Ring

variable {α : Type} {N : Nat} {buf : Nat → α} {a b c : Nat}

/-- The elements that the counters from `a` to `b - 1` stand for in a buffer of `N` slots. -/
def window (N : Nat) (buf : Nat → α) (a b : Nat) : List α :=
  (List.range' a (b - a)).map fun i => buf (i % N)

@[simp] theorem window_self (N : Nat) (buf : Nat → α) (a : Nat) : window N buf a a = [] := by
  simp [window]

@[simp] theorem length_window : (window N buf a b).length = b - a := by
  simp [window]

theorem lt_of_window_ne_nil (h : window N buf a b ≠ []) : a < b := by
  have hlen := List.length_pos_iff.mpr h
  rw [length_window] at hlen
  omega

theorem window_cons (h : a < b) : window N buf a b = buf (a % N) :: window N buf (a + 1) b := by
  unfold window
  rw [show b - a = b - (a + 1) + 1 by omega, List.range'_succ, List.map_cons]

theorem window_append (hab : a ≤ b) (hbc : b ≤ c) :
    window N buf a b ++ window N buf b c = window N buf a c := by
  unfold window
  rw [← List.map_append, show c - a = (b - a) + (c - b) by omega, ← List.range'_append_1,
    show a + (b - a) = b by omega]

theorem window_congr {buf' : Nat → α} (h : ∀ i, a ≤ i → i < b → buf' (i % N) = buf (i % N)) :
    window N buf' a b = window N buf a b := by
  unfold window
  refine List.map_congr_left fun i hi => ?_
  rw [List.mem_range'_1] at hi
  exact h i hi.1 (by omega)

/-- The slot of counter `b` is none of those of the `N - 1` counters before it. -/
theorem mod_ne_mod (h : a < b) (hN : b < a + N) : a % N ≠ b % N := by
  intro heq
  have hzero := Nat.sub_mod_eq_zero_of_mod_eq heq.symm
  rw [Nat.mod_eq_of_lt (by omega)] at hzero
  omega

end FtosFfs.Lib.Ring
