import FtosFfs.Core.Translate

/-! How many free pages the operations on address spaces take, and that they return when there are
that many. -/

namespace FtosFfs.Core

open Lib Lib.Exec

variable {s s' : Sys} {n m k pgdir va : Nat} {α β : Type}

/-- With `n` free pages the computation returns, and finds all pages that it asks for. -/
def Affords (n : Nat) (x : Sys.M α) : Prop :=
  ∀ s : Sys, s.short = false → n ≤ s.free.length →
    ∃ a s', Runs x s a s' ∧ s'.short = false ∧ s.free.length ≤ s'.free.length + n

namespace Affords

theorem pure (a : α) : Affords 0 (Pure.pure a : Sys.M α) := fun s hs _ =>
  ⟨a, s, runs_pure.mpr ⟨rfl, rfl⟩, hs, Nat.le_refl _⟩

theorem bind {x : Sys.M α} {f : α → Sys.M β} (hx : Affords n x) (hf : ∀ a, Affords m (f a)) :
    Affords (n + m) (x >>= f) := by
  intro s hs hfree
  obtain ⟨a, s₁, hr₁, hs₁, hle₁⟩ := hx s hs (by omega)
  obtain ⟨b, s₂, hr₂, hs₂, hle₂⟩ := hf a s₁ hs₁ (by omega)
  exact ⟨b, s₂, runs_bind.mpr ⟨a, s₁, hr₁, hr₂⟩, hs₂, by omega⟩

theorem mono {x : Sys.M α} (hx : Affords n x) (hle : n ≤ m) : Affords m x := by
  intro s hs hfree
  obtain ⟨a, s', hr, hs', hle'⟩ := hx s hs (by omega)
  exact ⟨a, s', hr, hs', by omega⟩

theorem get : Affords 0 (MonadState.get : Sys.M Sys) := fun s hs _ =>
  ⟨s, s, runs_get.mpr ⟨rfl, rfl⟩, hs, Nat.le_refl _⟩

/-- A step that does not take a page. -/
theorem modify {f : Sys → Sys} (hf : ∀ s, (f s).short = s.short ∧ s.free.length ≤ (f s).free.length) :
    Affords 0 (modifyGet fun s => (⟨⟩, f s) : Sys.M PUnit) := fun s hs _ =>
  ⟨⟨⟩, f s, runs_modify.mpr rfl, (hf s).1.trans hs, (hf s).2⟩

theorem ite {c : Prop} [Decidable c] {x y : Sys.M α} (hx : Affords n x) (hy : Affords n y) :
    Affords n (if c then x else y) := by
  split
  · exact hx
  · exact hy

theorem when {c : Prop} [Decidable c] {x : Sys.M Unit} (hx : Affords n x) :
    Affords n (Exec.when c x) :=
  ite hx ((pure ()).mono (Nat.zero_le n))

theorem forM {f : β → Sys.M PUnit} (hf : ∀ b, Affords n (f b)) (l : List β) :
    Affords (n * l.length) (l.forM f) := by
  induction l with
  | nil => exact pure PUnit.unit
  | cons b l ih =>
    rw [List.length_cons, Nat.mul_succ, Nat.add_comm]
    exact (hf b).bind fun _ => ih

end Affords

theorem affords_store (p i v : Nat) : Affords 0 (modify fun s => s.store p i v : Sys.M PUnit) :=
  .modify fun _ => ⟨rfl, Nat.le_refl _⟩

theorem affords_fill (p : Nat) (f : Sys → Nat → Nat) :
    Affords 0 (modify fun s => s.fill p (f s) : Sys.M PUnit) :=
  .modify fun _ => ⟨rfl, Nat.le_refl _⟩

theorem affords_kalloc : Affords 1 kalloc := by
  intro s hs hfree
  unfold kalloc
  cases hl : s.free with
  | nil =>
    rw [hl] at hfree
    cases hfree
  | cons p free =>
    refine ⟨some p, { s with free }, runs_bind.mpr ⟨s, s, runs_get.mpr ⟨rfl, rfl⟩, ?_⟩, hs, Nat.le_refl _⟩
    rw [hl]
    exact runs_bind.mpr ⟨⟨⟩, _, runs_set.mpr rfl, runs_pure.mpr ⟨rfl, rfl⟩⟩

theorem affords_kfree (p : Nat) : Affords 0 (kfree p) :=
  .modify fun _ => ⟨rfl, Nat.le_succ _⟩

theorem affords_pgdirInit : Affords 1 pgdirInit := by
  refine Affords.bind (m := 0) affords_kalloc fun o => ?_
  cases o with
  | none => exact .pure none
  | some p => exact (affords_fill p _).bind fun _ => .pure _

theorem affords_walkStep (va table k : Nat) : Affords 1 (walkStep va true table k) := by
  refine Affords.bind (m := 1) .get fun s => Affords.bind (m := 0) (.when ?_) fun _ =>
    Affords.get.bind fun _ => .pure _
  refine Affords.bind (m := 0) affords_pgdirInit fun o => ?_
  cases o with
  | none => exact .pure ()
  | some p => exact affords_store _ _ _

/-- A walk that takes no pages. -/
theorem affords_walkStep_find (va table k : Nat) : Affords 0 (walkStep va false table k) := by
  refine Affords.bind (m := 0) .get fun s => Affords.bind (m := 0) ?_ fun _ =>
    Affords.get.bind fun _ => .pure _
  unfold Exec.when
  rw [if_neg (by simp)]
  exact .pure ()

theorem affords_pgdirWalk (pgdir va : Nat) : Affords 3 (pgdirWalk pgdir va true) := by
  refine Affords.bind (n := 3) (m := 0) ?_ fun _ => .pure _
  exact (affords_walkStep va pgdir 3).bind fun t₁ => (affords_walkStep va t₁ 2).bind fun t₂ =>
    (affords_walkStep va t₂ 1).bind fun t₃ => .pure t₃

theorem affords_pgdirWalk_find (pgdir va : Nat) : Affords 0 (pgdirWalk pgdir va false) := by
  refine Affords.bind (n := 0) (m := 0) ?_ fun _ => .pure _
  exact (affords_walkStep_find va pgdir 3).bind fun t₁ => (affords_walkStep_find va t₁ 2).bind fun t₂ =>
    (affords_walkStep_find va t₂ 1).bind fun t₃ => .pure t₃

theorem affords_uvmMap_page (pgdir q : Nat) (hva : va % pageSize = 0) :
    Affords 3 (uvmMap pgdir va pageSize q) := by
  have hdown : roundDown va pageSize = va := by simp [roundDown, hva]
  unfold uvmMap
  rw [hdown, pagesFrom_page]
  refine Affords.bind (n := 3) (m := 0) ?_ fun _ => .pure _
  exact (affords_pgdirWalk pgdir va).bind fun _ => affords_store _ _ _

theorem affords_uvmDealloc (pgdir base oldsz newsz : Nat) : Affords 0 (uvmDealloc pgdir base oldsz newsz) := by
  refine .ite (.pure _) (Affords.bind (n := 0) (m := 0) ?_ fun _ => .pure _)
  refine (Affords.forM (n := 0) (fun a => ?_) _).mono (by simp)
  refine Affords.bind (m := 0) (affords_pgdirWalk_find pgdir a) fun _ =>
    Affords.bind (m := 0) Affords.get fun s => Affords.when ?_
  exact (affords_kfree _).bind fun _ => affords_store _ _ _

theorem affords_uvmAllocLoop (pgdir base oldsz : Nat) {as : List Nat} (has : ∀ a ∈ as, a % pageSize = 0) :
    Affords (4 * as.length) (uvmAllocLoop pgdir base oldsz as) := by
  induction as with
  | nil => exact .pure true
  | cons a as ih =>
    have hrest := ih fun a ha => has a (List.mem_cons_of_mem _ ha)
    refine (Affords.bind (m := 3 + 4 * as.length) affords_kalloc fun o => ?_).mono (by simp; omega)
    cases o with
    | none =>
      exact ((affords_uvmDealloc pgdir base _ oldsz).bind fun _ => .pure false).mono (Nat.zero_le _)
    | some p => exact (affords_uvmMap_page pgdir p (has a List.mem_cons_self)).bind fun _ => hrest

theorem freeTable_returns {x : Nat → Sys.M Unit} (hx : ∀ q s, ∃ s', Runs (x q) s () s') (t : Nat)
    (s : Sys) : ∃ s', Runs (freeTable x t) s () s' := by
  obtain ⟨s₁, hr, -⟩ := returns_forM (f := fun i => do
      let s ← get
      when (pteValid (s.word t i)) (x (pteFrame (s.word t i)))) (I := fun _ _ => True)
    (l := List.range 512) (s := s) trivial fun i l t' _ => by
      simp only [runs_after (runs_get.mpr ⟨rfl, rfl⟩)]
      by_cases hv : pteValid (t'.word t i)
      · obtain ⟨t'', hr⟩ := hx (pteFrame (t'.word t i)) t'
        exact ⟨t'', runs_when.mpr (.inl ⟨hv, hr⟩), trivial⟩
      · exact ⟨t', runs_when.mpr (.inr ⟨hv, rfl⟩), trivial⟩
  exact ⟨_, runs_bind.mpr ⟨⟨⟩, s₁, hr, runs_modify.mpr rfl⟩⟩

theorem vmFree_returns (t : Nat) (s : Sys) : ∃ s', Runs (vmFree t) s () s' := by
  have h (depth : Nat) : ∀ q s, ∃ s', Runs (recurVmFree depth q) s () s' := by
    induction depth with
    | zero => exact freeTable_returns fun q s => ⟨_, runs_modify.mpr rfl⟩
    | succ depth ih => exact freeTable_returns ih
  exact h 3 t s

theorem affords_copyoutPage (pgdir va : Nat) : Affords 4 (copyoutPage pgdir va) := by
  refine Affords.bind (m := 1) (affords_pgdirWalk pgdir va) fun x =>
    Affords.bind (m := 1) Affords.get fun s => Affords.ite ((Affords.pure _).mono (Nat.zero_le _)) ?_
  refine Affords.bind (m := 0) affords_kalloc fun o => ?_
  cases o with
  | none => exact .pure none
  | some p => exact (affords_store _ _ _).bind fun _ => .pure _

/-- The pages that a copy of `len` bytes to `va` goes to. -/
def copyPages (va len : Nat) : Nat :=
  if len = 0 then 0 else (va % pageSize + len + (pageSize - 1)) / pageSize

theorem affords_copyoutLoop (pgdir : Nat) (data : Nat → Nat → Nat) (fuel va len : Nat) :
    Affords (4 * copyPages va len) (copyoutLoop pgdir data fuel va len) := by
  induction fuel generalizing va len with
  | zero => exact (Affords.pure true).mono (Nat.zero_le _)
  | succ fuel ih =>
    rw [copyoutLoop]
    split
    case isTrue => exact (Affords.pure true).mono (Nat.zero_le _)
    case isFalse hpos =>
      -- one page for the first round, and one page less for the others
      have hnext : 1 + copyPages (va + min (pageSize - va % pageSize) len)
          (len - min (pageSize - va % pageSize) len) ≤ copyPages va len := by
        unfold copyPages
        rw [if_neg hpos]
        split
        case isTrue =>
          show 1 + 0 ≤ (va % 4096 + len + 4095) / 4096
          omega
        case isFalse hmore =>
          change ¬len - min (4096 - va % 4096) len = 0 at hmore
          show 1 + ((va + min (4096 - va % 4096) len) % 4096 + (len - min (4096 - va % 4096) len) + 4095) /
            4096 ≤ (va % 4096 + len + 4095) / 4096
          rw [Nat.min_eq_left (by omega)]
          omega
      refine (Affords.bind (affords_copyoutPage pgdir va) fun o => ?_).mono
        (show 4 + 4 * copyPages (va + min (pageSize - va % pageSize) len)
          (len - min (pageSize - va % pageSize) len) ≤ _ by omega)
      cases o with
      | none => exact (Affords.pure false).mono (Nat.zero_le _)
      | some p =>
        refine (Affords.bind (affords_fill p fun _ => data va) fun _ => ih _ _).mono ?_
        rw [Nat.zero_add]

end FtosFfs.Core
