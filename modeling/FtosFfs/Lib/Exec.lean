import Mathlib.Data.List.Basic
import Mathlib.Order.Defs.LinearOrder
import Mathlib.Order.Lattice

/-! Computations on a state that return or stop with a fault: what a computation that returns went
through, loops over lists, and searches that stop at the first hit. -/

namespace FtosFfs.Lib

/-- Computations on states `σ` that return a result or stop with a fault. -/
abbrev Exec (ε σ α : Type) : Type := StateT σ (Except ε) α

namespace Exec

variable {ε σ α β : Type} {s s' : σ}

/-- From `s`, the computation returns `a` in `s'`. -/
def Runs (x : Exec ε σ α) (s : σ) (a : α) (s' : σ) : Prop := x s = .ok (a, s')

theorem Runs.unique {x : Exec ε σ α} {a a' : α} {t t' : σ} (h : Runs x s a t)
    (h' : Runs x s a' t') : a = a' ∧ t = t' := by
  unfold Runs at h h'
  rw [h] at h'
  simpa using h'

/-- The computation returns with a result and a state that pass the test. -/
def returnsWith (x : Exec ε σ α) (s : σ) (test : α → σ → Bool) : Bool :=
  match x s with
  | .ok (a, t) => test a t
  | .error _ => false

theorem runs_of_returnsWith {x : Exec ε σ α} {test : α → σ → Bool}
    (h : returnsWith x s test = true) : ∃ a t, Runs x s a t ∧ test a t = true := by
  unfold returnsWith at h
  cases hx : x s with
  | ok r =>
    obtain ⟨a, t⟩ := r
    rw [hx] at h
    exact ⟨a, t, hx, h⟩
  | error e =>
    rw [hx] at h
    cases h

/-- The error with which the computation ends. -/
def raises (x : Exec ε σ α) (s : σ) : Option ε :=
  match x s with
  | .ok _ => none
  | .error e => some e

theorem raises_eq_some {x : Exec ε σ α} {e : ε} : raises x s = some e ↔ x s = .error e := by
  unfold raises
  cases x s with
  | ok r => exact iff_of_false nofun nofun
  | error e' =>
    rw [Option.some.injEq, Except.error.injEq]

theorem not_runs_of_error {x : Exec ε σ α} {e : ε} {a : α} (h : x s = .error e) : ¬Runs x s a s' := by
  unfold Runs
  rw [h]
  nofun

@[simp] theorem runs_pure {a b : α} : Runs (pure a : Exec ε σ α) s b s' ↔ a = b ∧ s = s' := by
  unfold Runs
  constructor
  · intro h
    cases h
    exact ⟨rfl, rfl⟩
  · rintro ⟨rfl, rfl⟩
    rfl

@[simp] theorem runs_bind {x : Exec ε σ α} {f : α → Exec ε σ β} {b : β} :
    Runs (x >>= f) s b s' ↔ ∃ a t, Runs x s a t ∧ Runs (f a) t b s' := by
  unfold Runs
  show (x s >>= fun r => f r.1 r.2) = _ ↔ _
  cases hx : x s with
  | error e => simp [bind, Except.bind]
  | ok r =>
    obtain ⟨a, t⟩ := r
    simp [bind, Except.bind]

theorem bind_eq_of_runs {x : Exec ε σ α} {f : α → Exec ε σ β} {a : α} {t : σ} (h : Runs x s a t) :
    (x >>= f) s = f a t := by
  show (x s >>= fun r => f r.1 r.2) = _
  rw [show x s = .ok (a, t) from h]
  rfl

theorem runs_after {x : Exec ε σ α} {f : α → Exec ε σ β} {a : α} {b : β} {t : σ} (h : Runs x s a t) :
    Runs (x >>= f) s b s' ↔ Runs (f a) t b s' := by
  unfold Runs
  rw [bind_eq_of_runs h]

theorem bind_eq_error {x : Exec ε σ α} {f : α → Exec ε σ β} {e : ε} (h : x s = .error e) :
    (x >>= f) s = .error e := by
  show (x s >>= fun r => f r.1 r.2) = _
  rw [h]
  rfl

@[simp] theorem runs_map {x : Exec ε σ α} {f : α → β} {b : β} :
    Runs (f <$> x) s b s' ↔ ∃ a, Runs x s a s' ∧ f a = b := by
  rw [← bind_pure_comp, runs_bind]
  constructor
  · rintro ⟨a, t, hx, hf⟩
    obtain ⟨rfl, rfl⟩ := runs_pure.mp hf
    exact ⟨a, hx, rfl⟩
  · rintro ⟨a, hx, rfl⟩
    exact ⟨a, s', hx, runs_pure.mpr ⟨rfl, rfl⟩⟩

@[simp] theorem runs_throw {e : ε} {a : α} : ¬Runs (throw e : Exec ε σ α) s a s' := by
  intro h
  cases h

@[simp] theorem runs_get {a : σ} : Runs (get : Exec ε σ σ) s a s' ↔ s = a ∧ s = s' := by
  unfold Runs
  constructor
  · intro h
    cases h
    exact ⟨rfl, rfl⟩
  · rintro ⟨rfl, rfl⟩
    rfl

@[simp] theorem runs_set {t : σ} {u : PUnit} :
    Runs (set t : Exec ε σ PUnit) s u s' ↔ s' = t := by
  unfold Runs
  constructor
  · intro h
    cases h
    rfl
  · rintro rfl
    rfl

@[simp] theorem runs_modify {f : σ → σ} {u : PUnit} :
    Runs (modify f : Exec ε σ PUnit) s u s' ↔ s' = f s := by
  unfold Runs
  constructor
  · intro h
    cases h
    rfl
  · rintro rfl
    rfl

/-- A branch returns when the branch taken returns. -/
theorem runs_ite {c : Prop} [Decidable c] {x y : Exec ε σ α} {a : α} :
    Runs (if c then x else y) s a s' ↔ (c ∧ Runs x s a s') ∨ (¬c ∧ Runs y s a s') := by
  split <;> simp [*]

/-- The computation that stops with `e` unless `c`. -/
def require (e : ε) (c : Prop) [Decidable c] : Exec ε σ Unit := if c then pure () else throw e

@[simp] theorem runs_require {e : ε} {c : Prop} [Decidable c] {u : Unit} :
    Runs (require e c : Exec ε σ Unit) s u s' ↔ c ∧ s = s' := by
  simp [require, runs_ite]

/-- `x` if `c`, and nothing otherwise. -/
def when (c : Prop) [Decidable c] (x : Exec ε σ Unit) : Exec ε σ Unit := if c then x else pure ()

theorem runs_when {c : Prop} [Decidable c] {x : Exec ε σ Unit} {u : Unit} :
    Runs (when c x) s u s' ↔ (c ∧ Runs x s u s') ∨ (¬c ∧ s = s') := by
  simp [when, runs_ite]

/-! ### Loops -/

/-- The first result of `f` along a list. -/
def search (f : β → Exec ε σ (Option α)) : List β → Exec ε σ (Option α)
  | [] => pure none
  | b :: l => do
    match ← f b with
    | some a => pure (some a)
    | none => search f l

/-- A search whose rounds without a hit change nothing ends without a hit and changes nothing, or
with a hit from the state it started in. -/
theorem Runs.search {f : β → Exec ε σ (Option α)} {l : List β} {r : Option α}
    (h : Runs (search f l) s r s') (hmiss : ∀ b ∈ l, ∀ t, Runs (f b) s none t → t = s) :
    (r = none ∧ s' = s) ∨ ∃ b ∈ l, ∃ a, r = some a ∧ Runs (f b) s (some a) s' := by
  induction l with
  | nil =>
    obtain ⟨rfl, rfl⟩ := runs_pure.mp h
    exact .inl ⟨rfl, rfl⟩
  | cons b l ih =>
    simp only [Exec.search, runs_bind] at h
    obtain ⟨o, t, hb, h⟩ := h
    cases o with
    | some a =>
      obtain ⟨rfl, rfl⟩ := runs_pure.mp h
      exact .inr ⟨b, by simp, a, rfl, hb⟩
    | none =>
      obtain rfl := hmiss b (by simp) t hb
      rcases ih h fun c hc => hmiss c (by simp [hc]) with hr | ⟨c, hc, a, hr⟩
      · exact .inl hr
      · exact .inr ⟨c, by simp [hc], a, hr⟩

/-- A search returns a hit if one of the rounds is a hit and the rounds before the first hit return
without one and change nothing. -/
theorem returns_search {f : β → Exec ε σ (Option α)} {l : List β} {P : β → Prop} {Q : α → σ → Prop}
    (hmiss : ∀ b ∈ l, ¬P b → Runs (f b) s none s)
    (hhit : ∀ b ∈ l, P b → ∃ a t, Runs (f b) s (some a) t ∧ Q a t) (hex : ∃ b ∈ l, P b) :
    ∃ a t, Runs (Exec.search f l) s (some a) t ∧ Q a t := by
  induction l with
  | nil => simp at hex
  | cons b l ih =>
    simp only [Exec.search, runs_bind]
    by_cases hb : P b
    · obtain ⟨a, t, hr, hq⟩ := hhit b (by simp) hb
      exact ⟨a, t, ⟨some a, t, hr, runs_pure.mpr ⟨rfl, rfl⟩⟩, hq⟩
    · have hex' : ∃ c ∈ l, P c := by
        obtain ⟨c, hc, hp⟩ := hex
        rcases List.mem_cons.mp hc with rfl | hc
        · exact absurd hp hb
        · exact ⟨c, hc, hp⟩
      obtain ⟨a, t, hr, hq⟩ := ih (fun c hc => hmiss c (by simp [hc]))
        (fun c hc => hhit c (by simp [hc])) hex'
      exact ⟨a, t, ⟨none, s, hmiss b (by simp) hb, hr⟩, hq⟩

/-- A search along an increasing list whose rounds hit exactly for `P` ends without a hit, or at the
least element with `P`. -/
theorem search_least {β : Type} [LinearOrder β] {f : β → Exec ε σ (Option α)} {l : List β}
    {P : β → Prop} (hl : l.Pairwise (· < ·)) (hmiss : ∀ b ∈ l, ¬P b → Runs (f b) s none s)
    (hhit : ∀ b ∈ l, P b → ∃ a t, Runs (f b) s (some a) t) :
    ((∀ b ∈ l, ¬P b) ∧ Runs (search f l) s none s) ∨
      ∃ b ∈ l, P b ∧ (∀ c ∈ l, P c → b ≤ c) ∧
        ∃ a t, Runs (f b) s (some a) t ∧ Runs (search f l) s (some a) t := by
  induction l with
  | nil => exact .inl ⟨by simp, runs_pure.mpr ⟨rfl, rfl⟩⟩
  | cons b l ih =>
    obtain ⟨hb, hl⟩ := List.pairwise_cons.mp hl
    simp only [Exec.search, runs_bind]
    by_cases hp : P b
    · obtain ⟨a, t, hr⟩ := hhit b (by simp) hp
      refine .inr ⟨b, by simp, hp, fun c hc _ => ?_, a, t, hr, some a, t, hr, runs_pure.mpr ⟨rfl, rfl⟩⟩
      rcases List.mem_cons.mp hc with rfl | hc
      · exact le_refl _
      · exact le_of_lt (hb c hc)
    · have hb0 := hmiss b (by simp) hp
      rcases ih hl (fun c hc => hmiss c (by simp [hc])) fun c hc => hhit c (by simp [hc]) with
        ⟨hno, hr⟩ | ⟨c, hc, hpc, hleast, a, t, hf, hr⟩
      · refine .inl ⟨fun c hc => ?_, none, s, hb0, hr⟩
        rcases List.mem_cons.mp hc with rfl | hc
        · exact hp
        · exact hno c hc
      · refine .inr ⟨c, by simp [hc], hpc, fun x hx hpx => ?_, a, t, hf, none, s, hb0, hr⟩
        rcases List.mem_cons.mp hx with rfl | hx
        · exact absurd hpx hp
        · exact hleast x hx hpx

/-- Rounds without a hit that change nothing are skipped. -/
theorem search_append {f : β → Exec ε σ (Option α)} {l l' : List β}
    (hmiss : ∀ b ∈ l, Runs (f b) s none s) : search f (l ++ l') s = search f l' s := by
  induction l with
  | nil => rfl
  | cons b l ih =>
    have hb := hmiss b (by simp)
    rw [List.cons_append, search, bind_eq_of_runs hb]
    exact ih fun c hc => hmiss c (by simp [hc])

theorem runs_search_hit {f : β → Exec ε σ (Option α)} {b : β} {l : List β} {a : α}
    (h : Runs (f b) s (some a) s') : Runs (search f (b :: l)) s (some a) s' := by
  rw [search, runs_bind]
  exact ⟨some a, s', h, runs_pure.mpr ⟨rfl, rfl⟩⟩

/-- In a search without a hit whose rounds without one change nothing, every round is one. -/
theorem Runs.search_none {f : β → Exec ε σ (Option α)} {l : List β}
    (h : Runs (Exec.search f l) s none s') (hmiss : ∀ b ∈ l, ∀ t, Runs (f b) s none t → t = s) :
    ∀ b ∈ l, Runs (f b) s none s := by
  induction l with
  | nil => simp
  | cons b l ih =>
    rw [Exec.search, runs_bind] at h
    obtain ⟨o, t, hb, h⟩ := h
    cases o with
    | some a => cases (runs_pure.mp h).1
    | none =>
      obtain rfl := hmiss b (by simp) t hb
      intro c hc
      rcases List.mem_cons.mp hc with rfl | hc
      · exact hb
      · exact ih h (fun c hc => hmiss c (by simp [hc])) c hc

/-- What every round keeps, with the list of the rounds to come, holds after the loop. -/
theorem Runs.forM {f : β → Exec ε σ PUnit} {I : List β → σ → Prop} {l : List β} {u : PUnit}
    (h : Runs (l.forM f) s u s') (hI : I l s)
    (hstep : ∀ b l t t', I (b :: l) t → Runs (f b) t ⟨⟩ t' → I l t') : I [] s' := by
  induction l generalizing s with
  | nil =>
    obtain ⟨-, rfl⟩ := runs_pure.mp (show Runs (pure ⟨⟩) s u s' from h)
    exact hI
  | cons b l ih =>
    obtain ⟨_, t, hb, h⟩ := runs_bind.mp (show Runs (f b >>= fun _ => l.forM f) s u s' from h)
    exact ih h (hstep b l s t hI hb)

/-- A loop whose rounds return, and keep what the rounds to come need, returns. -/
theorem returns_forM {f : β → Exec ε σ PUnit} {I : List β → σ → Prop} {l : List β} (hI : I l s)
    (hstep : ∀ b l t, I (b :: l) t → ∃ t', Runs (f b) t ⟨⟩ t' ∧ I l t') :
    ∃ s', Runs (l.forM f) s ⟨⟩ s' ∧ I [] s' := by
  induction l generalizing s with
  | nil => exact ⟨s, runs_pure.mpr ⟨rfl, rfl⟩, hI⟩
  | cons b l ih =>
    obtain ⟨t, hb, ht⟩ := hstep b l s hI
    obtain ⟨s', hl, hs'⟩ := ih ht
    exact ⟨s', runs_bind.mpr ⟨_, t, hb, hl⟩, hs'⟩

/-! ### Computations that may stop with one fault -/

/-- From `s`, the computation stops with the fault `e` or returns as `Q` says. -/
def Yields (e : ε) (Q : α → σ → Prop) (x : Exec ε σ α) (s : σ) : Prop :=
  x s = .error e ∨ ∃ a s', Runs x s a s' ∧ Q a s'

namespace Yields

variable {e : ε} {Q : α → σ → Prop} {R : β → σ → Prop}

theorem pure {a : α} (h : Q a s) : Yields e Q (Pure.pure a : Exec ε σ α) s :=
  .inr ⟨a, s, runs_pure.mpr ⟨rfl, rfl⟩, h⟩

theorem bind {x : Exec ε σ α} {f : α → Exec ε σ β} (hx : Yields e Q x s)
    (hf : ∀ a t, Q a t → Yields e R (f a) t) : Yields e R (x >>= f) s := by
  rcases hx with hx | ⟨a, t, hx, hq⟩
  · exact .inl (bind_eq_error hx)
  · rcases hf a t hq with hy | ⟨b, u, hy, hr⟩
    · exact .inl ((bind_eq_of_runs hx).trans hy)
    · exact .inr ⟨b, u, runs_bind.mpr ⟨a, t, hx, hy⟩, hr⟩

theorem mono {Q' : α → σ → Prop} {x : Exec ε σ α} (hx : Yields e Q x s)
    (h : ∀ a t, Q a t → Q' a t) : Yields e Q' x s :=
  hx.imp id fun ⟨a, t, hr, hq⟩ => ⟨a, t, hr, h a t hq⟩

theorem after {x : Exec ε σ α} {f : α → Exec ε σ β} {a : α} {t : σ} (hx : Runs x s a t)
    (hf : Yields e R (f a) t) : Yields e R (x >>= f) s := by
  apply bind (Q := fun b u => b = a ∧ u = t) (.inr ⟨a, t, hx, rfl, rfl⟩)
  rintro _ _ ⟨rfl, rfl⟩
  exact hf

/-- The check of a `require` with the fault itself may be taken to hold. -/
theorem require {c : Prop} [Decidable c] {f : Unit → Exec ε σ β} (hf : c → Yields e R (f ()) s) :
    Yields e R (Exec.require e c >>= f) s := by
  by_cases hc : c
  · exact after (runs_require.mpr ⟨hc, rfl⟩) (hf hc)
  · apply bind (Q := fun _ _ => False) (.inl ?_) fun _ _ h => h.elim
    rw [Exec.require, if_neg hc]
    rfl

end Yields

/-! ### Computations that do not stop with one fault -/

/-- From `s`, the computation does not stop with the fault `e`. -/
def Avoids (e : ε) (x : Exec ε σ α) (s : σ) : Prop := x s ≠ .error e

namespace Avoids

variable {e e' : ε}

theorem of_runs {x : Exec ε σ α} {a : α} {t : σ} (h : Runs x s a t) : Avoids e x s := by
  unfold Avoids
  rw [show x s = .ok (a, t) from h]
  exact nofun

theorem pure (a : α) : Avoids e (Pure.pure a : Exec ε σ α) s := nofun

theorem throw (h : e' ≠ e) : Avoids e (MonadExcept.throw e' : Exec ε σ α) s :=
  fun heq => h (by cases heq; rfl)

theorem bind {x : Exec ε σ α} {f : α → Exec ε σ β} (hx : Avoids e x s)
    (hf : ∀ a t, Runs x s a t → Avoids e (f a) t) : Avoids e (x >>= f) s := by
  unfold Avoids at hx ⊢
  cases hr : x s with
  | error e' =>
    rw [bind_eq_error hr]
    rw [hr] at hx
    exact fun heq => hx (by cases heq; rfl)
  | ok r =>
    rw [bind_eq_of_runs (a := r.1) (t := r.2) hr]
    exact hf r.1 r.2 hr

theorem after {x : Exec ε σ α} {f : α → Exec ε σ β} {a : α} {t : σ} (hx : Runs x s a t)
    (hf : Avoids e (f a) t) : Avoids e (x >>= f) s := by
  unfold Avoids
  rw [bind_eq_of_runs hx]
  exact hf

theorem get {f : σ → Exec ε σ α} (h : Avoids e (f s) s) : Avoids e (MonadState.get >>= f) s :=
  after (runs_get.mpr ⟨rfl, rfl⟩) h

theorem ite {c : Prop} [Decidable c] {x y : Exec ε σ α} (hx : c → Avoids e x s)
    (hy : ¬c → Avoids e y s) : Avoids e (if c then x else y) s := by
  split
  case isTrue hc => exact hx hc
  case isFalse hc => exact hy hc

theorem require {c : Prop} [Decidable c] (h : e' ≠ e) :
    Avoids e (Exec.require e' c : Exec ε σ Unit) s :=
  ite (fun _ => pure ()) fun _ => throw h

theorem when {c : Prop} [Decidable c] {x : Exec ε σ Unit} (hx : c → Avoids e x s) :
    Avoids e (Exec.when c x) s :=
  ite hx fun _ => pure ()

end Avoids

/-- The computation never stops with the fault `e`. -/
def Never (e : ε) (x : Exec ε σ α) : Prop := ∀ s, Avoids e x s

namespace Never

variable {e e' : ε}

theorem pure (a : α) : Never e (Pure.pure a : Exec ε σ α) := fun _ => .pure a

theorem throw (h : e' ≠ e) : Never e (MonadExcept.throw e' : Exec ε σ α) := fun _ => .throw h

theorem get : Never e (MonadState.get : Exec ε σ σ) := fun _ => nofun

theorem set (t : σ) : Never e (MonadStateOf.set t : Exec ε σ PUnit) := fun _ => nofun

theorem modify (f : σ → σ) : Never e (modifyGet fun s => (⟨⟩, f s) : Exec ε σ PUnit) := fun _ => nofun

theorem bind {x : Exec ε σ α} {f : α → Exec ε σ β} (hx : Never e x) (hf : ∀ a, Never e (f a)) :
    Never e (x >>= f) :=
  fun s => (hx s).bind fun a t _ => hf a t

theorem ite {c : Prop} [Decidable c] {x y : Exec ε σ α} (hx : Never e x) (hy : Never e y) :
    Never e (if c then x else y) :=
  fun s => .ite (fun _ => hx s) fun _ => hy s

theorem require (h : e' ≠ e) (c : Prop) [Decidable c] : Never e (Exec.require e' c : Exec ε σ Unit) :=
  fun _ => .require h

theorem when {c : Prop} [Decidable c] {x : Exec ε σ Unit} (hx : Never e x) : Never e (Exec.when c x) :=
  fun s => .when fun _ => hx s

theorem search {f : β → Exec ε σ (Option α)} (hf : ∀ b, Never e (f b)) (l : List β) :
    Never e (Exec.search f l) := by
  induction l with
  | nil => exact pure none
  | cons b l ih =>
    refine bind (hf b) fun o => ?_
    cases o with
    | none => exact ih
    | some a => exact pure (some a)

end Never

/-- From `s`, the computation does not stop with the fault `e`, and what it returns is as `Q` says. -/
def Spares (e : ε) (Q : α → σ → Prop) (x : Exec ε σ α) (s : σ) : Prop :=
  Avoids e x s ∧ ∀ a t, Runs x s a t → Q a t

namespace Spares

variable {e e' : ε} {Q Q' : α → σ → Prop} {R : β → σ → Prop}

theorem mono {x : Exec ε σ α} (h : Spares e Q x s) (hq : ∀ a t, Q a t → Q' a t) : Spares e Q' x s :=
  ⟨h.1, fun a t hr => hq a t (h.2 a t hr)⟩

theorem pure {a : α} (h : Q a s) : Spares e Q (Pure.pure a : Exec ε σ α) s := by
  refine ⟨.pure a, fun b t hr => ?_⟩
  obtain ⟨rfl, rfl⟩ := runs_pure.mp hr
  exact h

theorem throw (h : e' ≠ e) : Spares e Q (MonadExcept.throw e' : Exec ε σ α) s :=
  ⟨.throw h, fun _ _ hr => absurd hr runs_throw⟩

theorem bind {x : Exec ε σ α} {f : α → Exec ε σ β} (hx : Spares e Q x s)
    (hf : ∀ a t, Runs x s a t → Q a t → Spares e R (f a) t) : Spares e R (x >>= f) s := by
  refine ⟨hx.1.bind fun a t hr => (hf a t hr (hx.2 a t hr)).1, fun b u hr => ?_⟩
  obtain ⟨a, t, hxr, hfr⟩ := runs_bind.mp hr
  exact (hf a t hxr (hx.2 a t hxr)).2 b u hfr

theorem after {x : Exec ε σ α} {f : α → Exec ε σ β} {a : α} {t : σ} (hx : Runs x s a t)
    (hf : Spares e R (f a) t) : Spares e R (x >>= f) s := by
  refine ⟨.after hx hf.1, fun b u hr => ?_⟩
  obtain ⟨a', t', hxr, hfr⟩ := runs_bind.mp hr
  obtain ⟨rfl, rfl⟩ := hx.unique hxr
  exact hf.2 b u hfr

theorem get {f : σ → Exec ε σ α} (h : Spares e Q (f s) s) : Spares e Q (MonadState.get >>= f) s :=
  after (runs_get.mpr ⟨rfl, rfl⟩) h

theorem set {P : PUnit → σ → Prop} {t : σ} (h : P ⟨⟩ t) :
    Spares e P (MonadStateOf.set t : Exec ε σ PUnit) s := by
  refine ⟨nofun, fun a u hr => ?_⟩
  obtain rfl := runs_set.mp hr
  exact h

theorem modify {P : PUnit → σ → Prop} {f : σ → σ} (h : P ⟨⟩ (f s)) :
    Spares e P (modifyGet fun s => (⟨⟩, f s) : Exec ε σ PUnit) s := by
  refine ⟨nofun, fun a u hr => ?_⟩
  obtain rfl := runs_modify.mp hr
  exact h

theorem ite {c : Prop} [Decidable c] {x y : Exec ε σ α} (hx : c → Spares e Q x s)
    (hy : ¬c → Spares e Q y s) : Spares e Q (if c then x else y) s := by
  split
  case isTrue hc => exact hx hc
  case isFalse hc => exact hy hc

theorem require {c : Prop} [Decidable c] {f : Unit → Exec ε σ α} (h : e' ≠ e)
    (hf : c → Spares e Q (f ()) s) : Spares e Q (Exec.require e' c >>= f) s := by
  refine bind (Q := fun _ t => c ∧ s = t) ⟨.require h, fun _ t hr => runs_require.mp hr⟩ ?_
  rintro _ _ - ⟨hc, rfl⟩
  exact hf hc

theorem when {Q : Unit → σ → Prop} {c : Prop} [Decidable c] {x : Exec ε σ Unit}
    (hx : c → Spares e Q x s) (hs : ¬c → Q () s) : Spares e Q (Exec.when c x) s :=
  ite hx fun hc => pure (hs hc)

/-- A search whose rounds without a hit keep `I`. -/
theorem search {f : β → Exec ε σ (Option α)} {I : σ → Prop} {l : List β} (hI : I s)
    (hf : ∀ b ∈ l, ∀ t, I t → Spares e (fun o u => (o = none → I u) ∧ ∀ a ∈ o, Q a u) (f b) t) :
    Spares e (fun o u => (o = none → I u) ∧ ∀ a ∈ o, Q a u) (Exec.search f l) s := by
  induction l generalizing s with
  | nil => exact pure ⟨fun _ => hI, nofun⟩
  | cons b l ih =>
    refine bind (hf b List.mem_cons_self s hI) fun o t _ ho => ?_
    cases o with
    | none => exact ih (ho.1 rfl) fun c hc => hf c (List.mem_cons_of_mem b hc)
    | some a => exact pure ⟨nofun, ho.2⟩

end Spares

/-! ### What stays -/

/-- The computation keeps `B`. -/
def Stays (B : σ → Prop) (x : Exec ε σ α) : Prop := ∀ s a s', Runs x s a s' → B s → B s'

namespace Stays

variable {B : σ → Prop}

theorem pure (a : α) : Stays B (Pure.pure a : Exec ε σ α) := by
  intro s b s' h hs
  obtain ⟨-, rfl⟩ := runs_pure.mp h
  exact hs

theorem throw (e : ε) : Stays B (MonadExcept.throw e : Exec ε σ α) :=
  fun _ _ _ h => absurd h runs_throw

theorem get : Stays B (MonadState.get : Exec ε σ σ) := by
  intro s a s' h hs
  obtain ⟨-, rfl⟩ := runs_get.mp h
  exact hs

theorem set {t : σ} (ht : B t) : Stays B (MonadStateOf.set t : Exec ε σ PUnit) := by
  intro s a s' h _
  obtain rfl := runs_set.mp h
  exact ht

theorem modify {f : σ → σ} (hf : ∀ s, B s → B (f s)) :
    Stays B (modifyGet fun s => (⟨⟩, f s) : Exec ε σ PUnit) := by
  intro s a s' h hs
  obtain rfl := runs_modify.mp h
  exact hf s hs

theorem bind {x : Exec ε σ α} {f : α → Exec ε σ β} (hx : Stays B x) (hf : ∀ a, Stays B (f a)) :
    Stays B (x >>= f) := by
  intro s b s' h hs
  obtain ⟨a, t, h1, h2⟩ := runs_bind.mp h
  exact hf a t b s' h2 (hx s a t h1 hs)

theorem ite {c : Prop} [Decidable c] {x y : Exec ε σ α} (hx : Stays B x) (hy : Stays B y) :
    Stays B (if c then x else y) := by
  split
  · exact hx
  · exact hy

theorem require (e : ε) (c : Prop) [Decidable c] : Stays B (Exec.require e c : Exec ε σ Unit) :=
  ite (pure ()) (throw e)

theorem when {c : Prop} [Decidable c] {x : Exec ε σ Unit} (hx : Stays B x) :
    Stays B (Exec.when c x) :=
  ite hx (pure ())

theorem forM {f : β → Exec ε σ PUnit} (hf : ∀ b, Stays B (f b)) (l : List β) :
    Stays B (l.forM f) := by
  induction l with
  | nil => exact pure _
  | cons b l ih => exact bind (hf b) fun _ => ih

theorem search {f : β → Exec ε σ (Option α)} (hf : ∀ b, Stays B (f b)) (l : List β) :
    Stays B (Exec.search f l) := by
  induction l with
  | nil => exact pure none
  | cons b l ih =>
    refine bind (hf b) fun o => ?_
    cases o with
    | none => exact ih
    | some a => exact pure (some a)

theorem foldlM {f : α → β → Exec ε σ α} (hf : ∀ a b, Stays B (f a b)) (l : List β) (a : α) :
    Stays B (l.foldlM f a) := by
  induction l generalizing a with
  | nil => exact pure _
  | cons b l ih => exact bind (hf a b) fun a' => ih a'

end Stays

end Exec

end FtosFfs.Lib
