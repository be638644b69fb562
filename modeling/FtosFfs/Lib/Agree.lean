import FtosFfs.Lib.Exec

/-! Two computations that do the same from a state: their results, their faults, and the states they
end in. -/

namespace FtosFfs.Lib.Exec

variable {ε σ α β : Type} {s : σ}

/-- From `s`, the computations do the same. -/
def Agree (x y : Exec ε σ α) (s : σ) : Prop := x s = y s

namespace Agree

theorem refl (x : Exec ε σ α) (s : σ) : Agree x x s := rfl

theorem bind {x y : Exec ε σ α} {f g : α → Exec ε σ β} (hx : Agree x y s)
    (hf : ∀ a t, Runs y s a t → Agree (f a) (g a) t) : Agree (x >>= f) (y >>= g) s := by
  cases hy : y s with
  | error e => exact (bind_eq_error (hx.trans hy)).trans (bind_eq_error hy).symm
  | ok r =>
    obtain ⟨a, t⟩ := r
    exact (bind_eq_of_runs (hx.trans hy)).trans ((hf a t hy).trans (bind_eq_of_runs hy).symm)

/-- The same first part. -/
theorem after {x : Exec ε σ α} {f g : α → Exec ε σ β} (hf : ∀ a t, Runs x s a t → Agree (f a) (g a) t) :
    Agree (x >>= f) (x >>= g) s :=
  (refl x s).bind hf

/-- The same rest. -/
theorem andThen {x y : Exec ε σ α} (hx : Agree x y s) (f : α → Exec ε σ β) :
    Agree (x >>= f) (y >>= f) s :=
  hx.bind fun a t _ => refl (f a) t

theorem map {x y : Exec ε σ α} (hx : Agree x y s) (f : α → β) : Agree (f <$> x) (f <$> y) s :=
  hx.andThen fun a => pure (f a)

theorem discard {x y : Exec ε σ α} (hx : Agree x y s) : Agree (discard x) (discard y) s :=
  hx.map fun _ => PUnit.unit

theorem get {f g : σ → Exec ε σ α} (h : Agree (f s) (g s) s) :
    Agree (MonadState.get >>= f) (MonadState.get >>= g) s := by
  refine after fun a t hr => ?_
  obtain ⟨rfl, rfl⟩ := runs_get.mp hr
  exact h

theorem ite {c : Prop} [Decidable c] {x x' y y' : Exec ε σ α} (hx : c → Agree x x' s)
    (hy : ¬c → Agree y y' s) : Agree (if c then x else y) (if c then x' else y') s := by
  by_cases h : c
  · rw [if_pos h, if_pos h]
    exact hx h
  · rw [if_neg h, if_neg h]
    exact hy h

theorem require {e : ε} {c : Prop} [Decidable c] {f g : Unit → Exec ε σ α}
    (h : c → Agree (f ()) (g ()) s) :
    Agree (Exec.require e c >>= f) (Exec.require e c >>= g) s := by
  refine after fun _ t hr => ?_
  obtain ⟨hc, rfl⟩ := runs_require.mp hr
  exact h hc

theorem when {c : Prop} [Decidable c] {x y : Exec ε σ Unit} (hx : c → Agree x y s) :
    Agree (Exec.when c x) (Exec.when c y) s :=
  ite hx fun _ => refl _ s

/-- A loop whose rounds agree wherever the invariant holds. -/
theorem forM {f g : β → Exec ε σ PUnit} {I : σ → Prop} (hI : I s)
    (hstep : ∀ b t, I t → Agree (f b) (g b) t ∧ ∀ t', Runs (g b) t ⟨⟩ t' → I t') (l : List β) :
    Agree (l.forM f) (l.forM g) s := by
  induction l generalizing s with
  | nil => exact refl _ s
  | cons b l ih =>
    obtain ⟨hb, hkeep⟩ := hstep b s hI
    exact hb.bind fun _ t hr => ih (hkeep t hr)

/-- A search whose rounds agree wherever the invariant holds, which a round without a hit keeps. -/
theorem search {f g : β → Exec ε σ (Option α)} {I : σ → Prop} {l : List β} (hI : I s)
    (hstep : ∀ b ∈ l, ∀ t, I t → Agree (f b) (g b) t ∧ ∀ t', Runs (g b) t none t' → I t') :
    Agree (Exec.search f l) (Exec.search g l) s := by
  induction l generalizing s with
  | nil => exact refl _ s
  | cons b l ih =>
    obtain ⟨hb, hkeep⟩ := hstep b List.mem_cons_self s hI
    refine hb.bind fun o t hr => ?_
    cases o with
    | some a => exact refl _ t
    | none => exact ih (hkeep t hr) fun c hc => hstep c (List.mem_cons_of_mem b hc)

end Agree

end FtosFfs.Lib.Exec
