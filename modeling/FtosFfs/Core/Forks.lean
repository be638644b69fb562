import FtosFfs.Core.Copies

/-! `fork` when the free pages run out while it copies the address space: the failure is never clean. -/

namespace FtosFfs.Core

open Lib Lib.Exec

variable {s s' a a' : Sys} {r : Roles} {p q t l d c new parent stack : Nat} 
  {w : Nat → Nat → Nat} {is : List Nat}
  {copy : Nat → Sys.M (Option Nat)} {T : Tree} {i j : Slot}

/-! ### Copies with too few pages -/

/-- The computation does not find all pages if there are too few. -/
def MissesPages (w : Nat → Nat → Nat) (copy : Nat → Sys.M (Option Nat)) (d : Nat) : Prop :=
  ∀ t a, Pages a → (∀ q ∈ pagesOf w d t, q ∉ a.free ∧ a.word q = w q) →
    a.free.length < (pagesOf w d t).length → ∀ o a', Runs (copy t) a o a' → a'.short = true

theorem missesPages_page (w : Nat → Nat → Nat) : MissesPages w copyPage 0 := by
  intro t a _ _ hfew o a' hr
  obtain ⟨o, a₁, halloc, hr⟩ := runs_bind.mp hr
  obtain ⟨p, free, -, hcons, -⟩ | ⟨rfl, -, -⟩ := kalloc_cases halloc
  · rw [hcons] at hfew
    exact absurd hfew (by simp [pagesOf])
  · exact absurd hr runs_throw

theorem MissesPages.entries (h : MissesPages w copy d) (hcopy : CopiesTree w copy d)
    (hB : ∀ q, Stays (fun s => s.short = true) (copy q)) (hp : Pages a) (hnew : new ∉ a.free)
    (ht : t ∉ a.free ∧ t ≠ new ∧ a.word t = w t)
    (hkept : ∀ i ∈ is, ∀ q ∈ entryPages w d t i, q ∉ a.free ∧ q ≠ new ∧ a.word q = w q)
    (hfew : a.free.length < (is.flatMap (entryPages w d t)).length) {u : PUnit}
    (hr : Runs (is.forM (copyEntry copy (some new) t)) a u a') : a'.short = true := by
  induction is generalizing a with
  | nil => exact absurd hfew (Nat.not_lt_zero _)
  | cons i is ih =>
    rw [List.flatMap_cons, List.length_append] at hfew
    have hkeptRest (j : Nat) (hj : j ∈ is) := hkept j (List.mem_cons_of_mem _ hj)
    obtain ⟨_, a₂, hround, hrest⟩ := runs_bind.mp (show Runs (_ >>= fun _ => is.forM _) a u a' from hr)
    by_cases hv : pteValid (w t i)
    · have hentry : entryPages w d t i = pagesOf w d (pteFrame (w t i)) := if_pos hv
      rw [hentry] at hfew
      have hkepti := hkept i List.mem_cons_self
      rw [hentry] at hkepti
      have hchild (q : Nat) (hq : q ∈ pagesOf w d (pteFrame (w t i))) : q ∉ a.free ∧ a.word q = w q :=
        ⟨(hkepti q hq).1, (hkepti q hq).2.2⟩
      by_cases henough : (pagesOf w d (pteFrame (w t i))).length ≤ a.free.length
      · obtain ⟨child, a₁, hchildren, hdone⟩ := hcopy (pteFrame (w t i)) a hp hchild henough
        obtain rfl := (runs_copyEntry (by rwa [ht.2.2]) (by rwa [ht.2.2])).mp hround
        have hsub : a₁.free.Sublist a.free := hdone.taken ▸ List.sublist_append_right _ _
        have harena : a₁.arena = a.arena := by rw [hdone.only]
        have hold {q v : Nat} (hq : q ∉ a.free) (hne : q ≠ new) : (a₁.store new i v).word q = a.word q :=
          (Function.update_of_ne hne _ _).trans (hdone.words q hq)
        refine ih (a := a₁.store new i (pteOf (some child) (pteFlags (a.word t i)))) (hp.sublist hsub harena)
           (fun hmem => hnew (hsub.subset hmem))
          ⟨fun hmem => ht.1 (hsub.subset hmem), ht.2.1, (hold ht.1 ht.2.1).trans ht.2.2⟩
          (fun j hj q hq => ?_) ?_ hrest
        · obtain ⟨hfree, hne, hsame⟩ := hkeptRest j hj q hq
          exact ⟨fun hmem => hfree (hsub.subset hmem), hne, (hold hfree hne).trans hsame⟩
        · have hlength := congrArg List.length hdone.taken
          rw [List.length_append, hdone.length] at hlength
          show a₁.free.length < _
          omega
      · -- the copy of this entry runs out of pages, and that is not forgotten
        have hshort : a₂.short = true := by
          obtain ⟨_, _, hget, hwhen⟩ := runs_bind.mp hround
          obtain ⟨rfl, rfl⟩ := runs_get.mp hget
          rw [runs_when, ht.2.2, or_iff_left fun h => h.1 hv] at hwhen
          obtain ⟨o, a₁, hr, hstore⟩ := runs_bind.mp hwhen.2
          obtain rfl := runs_modify.mp hstore
          exact h (pteFrame (w t i)) _ hp hchild (by omega) o a₁ hr
        exact Stays.forM (stays_copyEntry loose_short hB (some new) t) is a₂ u a' hrest hshort
    · rw [entryPages, if_neg hv, List.length_nil, Nat.zero_add] at hfew
      obtain rfl := (runs_copyEntry_invalid (by rwa [ht.2.2])).mp hround
      exact ih hp hnew ht hkeptRest hfew hrest

theorem MissesPages.table (h : MissesPages w copy d) (hcopy : CopiesTree w copy d)
    (hB : ∀ q, Stays (fun s => s.short = true) (copy q)) : MissesPages w (copyTable copy) (d + 1) := by
  intro t a hp hkept hfew o a' hr
  rw [copyTable_eq] at hr
  obtain ⟨o, a₁, hinit, hr⟩ := runs_bind.mp hr
  obtain ⟨_, a₂, hloop, hpure⟩ := runs_bind.mp hr
  obtain ⟨-, rfl⟩ := runs_pure.mp hpure
  obtain ⟨new, free, rfl, hcons, rfl⟩ | ⟨rfl, -, rfl⟩ := pgdirInit_cases hinit
  · rw [pagesOf_succ, List.length_cons, hcons, List.length_cons] at hfew
    have hsource {q : Nat} (hq : q ∈ pagesOf w (d + 1) t) :
        q ∉ free ∧ q ≠ new ∧ (({ a with free } : Sys).fill new fun _ => 0).word q = w q := by
      obtain ⟨hfree, hsame⟩ := hkept q hq
      rw [hcons, List.mem_cons, not_or] at hfree
      exact ⟨hfree.2, hfree.1, (Function.update_of_ne hfree.1 _ _).trans hsame⟩
    exact h.entries (a := ({ a with free } : Sys).fill new fun _ => 0) hcopy hB (hp.rest hcons rfl rfl)
      (List.nodup_cons.mp (hcons ▸ hp.free)).1
      (hsource (self_mem_pagesOf w (d + 1) t))
      (fun i hi q hq => hsource (List.mem_cons_of_mem _ (List.mem_flatMap.mpr ⟨i, hi, hq⟩)))
      (show free.length < _ by omega) hloop
  · exact Stays.forM (stays_copyEntry loose_short hB none t) _ _ _ _ hloop rfl

theorem missesPages_recur (w : Nat → Nat → Nat) (depth : Nat) :
    MissesPages w (recurUvmCopy depth) (depth + 1) := by
  induction depth with
  | zero => exact (missesPages_page w).table (copiesTree_page w) (stays_copyPage loose_short)
  | succ depth ih => exact ih.table (copiesTree_recur w depth) (stays_recurUvmCopy loose_short depth)

/-- Some `kalloc` of the copy of the address space finds no free page: the copy does not come to its
end, or comes there with a page missing. -/
def CopyFails (s : Sys) (pgdir : Nat) : Prop :=
  ¬∃ o s', Runs (uvmCopy pgdir) { s with short := false } o s' ∧ s'.short = false

theorem copyFails_iff (h : Space r s) (hp : Pages s) (hroot : r parent = some 0) :
    CopyFails s parent ↔ s.free.length < (pagesOf s.word 4 parent).length := by
  have hp' : Pages { s with short := false } := hp.congr rfl rfl
  have hkept (q : Nat) (hq : q ∈ pagesOf s.word 4 parent) :
      q ∉ ({ s with short := false } : Sys).free ∧ ({ s with short := false } : Sys).word q = s.word q :=
    ⟨h.pagesOf_apart hroot rfl hq, rfl⟩
  constructor
  · intro hfails
    by_contra hfew
    obtain ⟨new, s', hr, hdone⟩ := copiesTree_recur s.word 3 parent _ hp' hkept (Nat.le_of_not_lt hfew)
    refine hfails ⟨some new, s', hr, ?_⟩
    rw [hdone.only]
  · rintro hfew ⟨o, s', hr, hs⟩
    have hshort := missesPages_recur s.word 3 parent _ hp' hkept hfew o s' hr
    rw [hs] at hshort
    cases hshort

/-! ### The failure of `fork` -/

/-- The call of `fork` that has chosen the slot `j` fails, with the process and its memory unchanged, the
slot not in use, and every page that was free before free again. -/
structure FailsCleanly (T : Tree) (c : Nat) (i j : Slot) (s s' : Sys) : Prop where
  returns : Runs (fork T c i) s none s'
  parent : s'.pgdir c i = s.pgdir c i ∧ (s'.kernel c).ptable i = (s.kernel c).ptable i ∧
    ∀ q ∉ s.free, s'.word q = s.word q
  slot : ((s'.kernel c).ptable j).state = .unused
  pages : ∀ p ∈ s.free, p ∈ s'.free

/-- Without a page for the root of the copy nothing is copied. -/
theorem uvmCopy_none (hr : Runs (uvmCopy parent) s none s') : s.free = [] ∧ s'.free = [] := by
  change Runs (copyTable (recurUvmCopy 2) parent) s none s' at hr
  rw [copyTable_eq] at hr
  obtain ⟨o, s₁, hinit, hr⟩ := runs_bind.mp hr
  obtain ⟨_, s₂, hloop, hpure⟩ := runs_bind.mp hr
  obtain ⟨rfl, rfl⟩ := runs_pure.mp hpure
  obtain ⟨p, free, heq, -, -⟩ | ⟨-, hempty, rfl⟩ := pgdirInit_cases hinit
  · cases heq
  refine ⟨hempty, hloop.forM (I := fun _ t => t.free = []) hempty fun k _ t t' ht hround => ?_⟩
  by_cases hv : pteValid (t.word parent k)
  · -- a valid entry would be stored through the null pointer
    obtain ⟨_, _, hget, hwhen⟩ := runs_bind.mp hround
    obtain ⟨rfl, rfl⟩ := runs_get.mp hget
    rw [runs_when, or_iff_left fun h => h.1 hv] at hwhen
    obtain ⟨_, _, -, hthrow⟩ := runs_bind.mp hwhen.2
    exact absurd hthrow runs_throw
  · obtain rfl := (runs_copyEntry_invalid hv).mp hround
    exact ht

/-- A `fork` that fails loses the page that `alloc_proc` took for a table. -/
theorem fork_none_loses (hnodup : s.free.Nodup) (hr : Runs (fork T c i) s none s') :
    ∃ p ∈ s.free, p ∉ s'.free := by
  obtain ⟨⟨k, stack⟩, s₁, halloc, hr⟩ := runs_bind.mp hr
  obtain ⟨lost, free, hfree, hfree₁, -, -⟩ := allocProcPages_takes halloc
  obtain ⟨_, _, hget, hr⟩ := runs_bind.mp hr
  obtain ⟨rfl, rfl⟩ := runs_get.mp hget
  split at hr
  case h_1 => exact absurd hr runs_throw
  case h_2 parent hparent =>
    obtain ⟨o, s₂, hcopy, hr⟩ := runs_bind.mp hr
    obtain ⟨_, _, hset, hr⟩ := runs_bind.mp hr
    obtain rfl := runs_modify.mp hset
    cases o with
    | some pgdir =>
      obtain ⟨_, _, -, hr⟩ := runs_bind.mp hr
      cases (runs_pure.mp hr).1
    | none =>
      obtain ⟨-, hfree₂⟩ := uvmCopy_none hcopy
      obtain ⟨_, _, hkfree, hr⟩ := runs_bind.mp hr
      obtain rfl := runs_modify.mp hkfree
      obtain ⟨_, _, hset, hr⟩ := runs_bind.mp hr
      obtain rfl := runs_modify.mp hset
      obtain ⟨-, rfl⟩ := runs_pure.mp hr
      refine ⟨lost, hfree ▸ List.mem_cons_self, ?_⟩
      show lost ∉ stack :: s₂.free
      rw [hfree₂, List.mem_singleton]
      rintro rfl
      rw [hfree] at hnodup
      exact (List.nodup_cons.mp hnodup).1 List.mem_cons_self

/-- `fork` fails cleanly, where its copy of the address space fails, only if the copy does not fail:
there is a free page for each page of the space.  The space is any one, so also that of process `i`. -/
theorem fork_fails_cleanly_iff (hp : Pages s) (hr : Runs (allocProcPages T c) s (j, stack) a)
    (h : Space r a) (hroot : r parent = some 0) :
    (CopyFails a parent → ∃ s', FailsCleanly T c i j s s') ↔
      (pagesOf a.word 4 parent).length ≤ a.free.length := by
  have hpages : Pages a := by
    obtain ⟨lost, free, hfree, hfree₁, harena, -⟩ := allocProcPages_takes hr
    refine hp.sublist ?_ harena
    rw [hfree₁, hfree]
    exact (List.sublist_cons_self stack free).trans (List.sublist_cons_self lost _)
  have hfails := copyFails_iff h hpages hroot
  constructor
  · intro hclean
    by_contra hfew
    obtain ⟨s', hdone⟩ := hclean (hfails.mpr (Nat.lt_of_not_le hfew))
    obtain ⟨p, hmem, hlost⟩ := fork_none_loses hp.free hdone.returns
    exact hlost (hdone.pages p hmem)
  · intro henough hfew
    exact absurd (hfails.mp hfew) (Nat.not_lt_of_le henough)

/-- The address space of `pageProcess` has five pages, and after `alloc_proc` one is free. -/
theorem fork_fails_cleanly_iff_mapped : ∃ a, Runs (allocProcPages flatTree 0) pageProcess (1, 2) a ∧
    a.pgdir 0 0 = some 4 ∧ (a.free.length = 1 ∧ (pagesOf a.word 4 4).length = 5) ∧
      ¬(CopyFails a 4 → ∃ s', FailsCleanly flatTree 0 0 1 pageProcess s') := by
  have hfree : (pageProcess.kernel 0).freeSlot = some 1 := rfl
  obtain ⟨k, halloc⟩ : ∃ k, allocProc flatTree pageProcess.kernel 0 = some (1, k) :=
    ⟨_, allocProc_rooted hfree rfl (by decide)⟩
  have hr := runs_allocProcPages halloc (show pageProcess.free = 1 :: 2 :: [3] from rfl)
  have hlength : (pagesOf (Function.update pageProcess.word 1 fun _ => 0) 4 4).length = 5 := by decide +kernel
  refine ⟨_, hr, rfl, ⟨rfl, hlength⟩, fun hclean => ?_⟩
  have henough := (fork_fails_cleanly_iff pageProcess_pages hr
    (pageProcess_space.of_words (fun t l ht _ => ?_) fun p hp => ?_)
    (show pageRoles 4 = some 0 from rfl)).mp hclean
  · exact Nat.not_succ_le_self 1 (Nat.le_trans (by decide) (hlength.symm.trans_le henough))
  · rw [pageRoles_eq] at ht
    exact Function.update_of_ne (by omega) _ _
  · apply pageProcess_space.apart
    obtain hfree | harena := hp
    · exact .inl (List.mem_cons_of_mem _ (List.mem_cons_of_mem _ hfree))
    · exact .inr harena

/-- The copy finds a page for the root, and none for the table below it: `fork` stores through a null
pointer. -/
theorem fork_stores_through_null : ∃ a, Runs (allocProcPages flatTree 0) pageProcess (1, 2) a ∧
    a.pgdir 0 0 = some 4 ∧ CopyFails a 4 ∧ fork flatTree 0 0 pageProcess = .error .null ∧
      ¬∃ s', FailsCleanly flatTree 0 0 1 pageProcess s' := by
  have hfree : (pageProcess.kernel 0).freeSlot = some 1 := rfl
  have halloc : allocProc flatTree pageProcess.kernel 0 = some (1, _) := allocProc_rooted hfree rfl (by decide)
  have hr := runs_allocProcPages halloc (show pageProcess.free = 1 :: 2 :: [3] from rfl)
  have hnull : fork flatTree 0 0 pageProcess = .error .null := by
    refine (bind_eq_of_runs hr).trans (raises_eq_some.mp ?_)
    decide +kernel
  refine ⟨_, hr, rfl, ?_, hnull, ?_⟩
  · rintro ⟨o, s', hcopy, -⟩
    refine not_runs_of_error (e := Fault.null) (raises_eq_some.mp ?_) hcopy
    decide +kernel
  · rintro ⟨s', hclean⟩
    exact not_runs_of_error hnull hclean.returns

end FtosFfs.Core
