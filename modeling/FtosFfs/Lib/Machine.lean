import Mathlib.Logic.Relation

/-! Machines with labelled partial steps: the states that runs reach, when every step of the run
meets a condition, the invariant rule, and runs computed from a list of labels. -/

namespace FtosFfs.Lib

/-- A machine with initial states `init` and, for each label, a partial step `next`. -/
structure Machine (σ : Type*) (ℓ : Type*) where
  init : σ → Prop
  next : σ → ℓ → Option σ

namespace Machine

variable {σ ℓ : Type*} (M : Machine σ ℓ)

/-- The states reached by the runs whose steps all meet `C`. -/
inductive ReachableUnder (C : σ → ℓ → Prop) : σ → Prop
  | init {s : σ} : M.init s → ReachableUnder C s
  | step {s s' : σ} {a : ℓ} : ReachableUnder C s → C s a → M.next s a = some s' →
      ReachableUnder C s'

/-- The states reached by all runs. -/
def Reachable (s : σ) : Prop := M.ReachableUnder (fun _ _ => True) s

variable {M}

/-- What holds initially and is kept by every step that meets `C` holds in every state that such
steps reach. -/
theorem ReachableUnder.invariant {C : σ → ℓ → Prop} {I : σ → Prop}
    (hinit : ∀ s, M.init s → I s)
    (hstep : ∀ s a s', I s → C s a → M.next s a = some s' → I s') {s : σ}
    (h : M.ReachableUnder C s) : I s := by
  induction h with
  | init hs => exact hinit _ hs
  | step _ hC hn ih => exact hstep _ _ _ ih hC hn

theorem Reachable.invariant {I : σ → Prop} (hinit : ∀ s, M.init s → I s)
    (hstep : ∀ s a s', I s → M.next s a = some s' → I s') {s : σ} (h : M.Reachable s) : I s :=
  ReachableUnder.invariant hinit (fun s a s' hs _ => hstep s a s' hs) h

theorem ReachableUnder.mono {C D : σ → ℓ → Prop} (hCD : ∀ s a, C s a → D s a) {s : σ}
    (h : M.ReachableUnder C s) : M.ReachableUnder D s := by
  induction h with
  | init hs => exact .init hs
  | step _ hC hn ih => exact .step ih (hCD _ _ hC) hn

/-- The machine with runs from `s` on. -/
def startingAt (M : Machine σ ℓ) (s : σ) : Machine σ ℓ := { M with init := (· = s) }

/-- A run after a run. -/
theorem ReachableUnder.append {C : σ → ℓ → Prop} {s t : σ} (h : M.ReachableUnder C s)
    (h' : (M.startingAt s).ReachableUnder C t) : M.ReachableUnder C t := by
  induction h' with
  | init hs =>
    cases hs
    exact h
  | step _ hC hn ih => exact ih.step hC hn

variable (M)

/-- The state after the steps of a list of labels. -/
def run : σ → List ℓ → Option σ
  | s, [] => some s
  | s, a :: as => (M.next s a).bind fun s' => run s' as

variable {M}

theorem ReachableUnder.run {C : σ → ℓ → Prop} {s s' : σ} {as : List ℓ}
    (h : M.ReachableUnder C s) (hC : ∀ s, ∀ a ∈ as, C s a) (hr : M.run s as = some s') :
    M.ReachableUnder C s' := by
  induction as generalizing s with
  | nil =>
    obtain rfl : s = s' := by simpa [Machine.run] using hr
    exact h
  | cons a as ih =>
    simp only [Machine.run, Option.bind_eq_some_iff] at hr
    obtain ⟨t, ht, hr⟩ := hr
    exact ih (h.step (hC s a (by simp)) ht) (fun s b hb => hC s b (by simp [hb])) hr

theorem Reachable.run {s s' : σ} {as : List ℓ} (h : M.Reachable s) (hr : M.run s as = some s') :
    M.Reachable s' :=
  ReachableUnder.run h (fun _ _ _ => trivial) hr

/-- A run with one more step. -/
theorem run_concat {s t u : σ} {as : List ℓ} {a : ℓ} (hr : M.run s as = some t)
    (hn : M.next t a = some u) : M.run s (as ++ [a]) = some u := by
  induction as generalizing s with
  | nil =>
    obtain rfl : s = t := by simpa [Machine.run] using hr
    simp [Machine.run, hn]
  | cons b as ih =>
    simp only [List.cons_append, Machine.run, Option.bind_eq_some_iff] at hr ⊢
    obtain ⟨s', hs', hr⟩ := hr
    exact ⟨s', hs', ih hr⟩

/-- A computed run that ends in a state with property `p` reaches such a state. -/
theorem Reachable.of_run {s : σ} {l : List ℓ} {p : σ → Bool} (hs : M.init s)
    (hr : (M.run s l).map p = some true) : ∃ s', M.Reachable s' ∧ p s' = true := by
  obtain ⟨s', hs', hp⟩ := Option.map_eq_some_iff.mp hr
  exact ⟨s', Reachable.run (.init hs) hs', hp⟩

variable (M)

/-- The state after the steps of a list of labels, if all of them meet `C`. -/
def runUnder (C : σ → ℓ → Prop) [∀ s a, Decidable (C s a)] : σ → List ℓ → Option σ
  | s, [] => some s
  | s, a :: as => if C s a then (M.next s a).bind fun s' => runUnder C s' as else none

variable {M}

theorem run_of_runUnder {C : σ → ℓ → Prop} [∀ s a, Decidable (C s a)] {s s' : σ} {as : List ℓ}
    (hr : M.runUnder C s as = some s') : M.run s as = some s' := by
  induction as generalizing s with
  | nil => exact hr
  | cons a as ih =>
    simp only [Machine.runUnder, Option.ite_none_right_eq_some, Option.bind_eq_some_iff] at hr
    obtain ⟨-, t, ht, hr⟩ := hr
    exact Option.bind_eq_some_iff.mpr ⟨t, ht, ih hr⟩

theorem ReachableUnder.runUnder {C : σ → ℓ → Prop} [∀ s a, Decidable (C s a)] {s s' : σ}
    {as : List ℓ} (h : M.ReachableUnder C s) (hr : M.runUnder C s as = some s') :
    M.ReachableUnder C s' := by
  induction as generalizing s with
  | nil =>
    obtain rfl : s = s' := by simpa [Machine.runUnder] using hr
    exact h
  | cons a as ih =>
    simp only [Machine.runUnder, Option.ite_none_right_eq_some, Option.bind_eq_some_iff] at hr
    obtain ⟨hC, t, ht, hr⟩ := hr
    exact ih (h.step hC ht) hr

end Machine

end FtosFfs.Lib
