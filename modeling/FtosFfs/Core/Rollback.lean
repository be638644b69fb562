import FtosFfs.Core.Mapping

/-! `uvm_alloc` when the free pages run out: what its call of `uvm_dealloc` undoes. -/

namespace FtosFfs.Core

open Lib Lib.Exec

variable {s s' : Sys} {pgdir va base oldsz newsz stksz : Nat} {as data l : List Nat} {u : Unit}

/-- The rounds of `uvm_alloc` for the addresses `as` lead from one state to another, and take the
pages `data` for them. -/
inductive Obtains (pgdir : Nat) : List Nat → Sys → List Nat → Sys → Prop
  | nil {s : Sys} : Obtains pgdir [] s [] s
  | cons {a p : Nat} {as data : List Nat} {s s₁ s₂ s' : Sys} :
    Runs kalloc s (some p) s₁ → Runs (uvmMap pgdir a pageSize p) s₁ () s₂ →
      Obtains pgdir as s₂ data s' → Obtains pgdir (a :: as) s (p :: data) s'

/-- The loop of `uvm_alloc` has taken the pages `data`, has found no page for the next address, and
has called `uvm_dealloc`. -/
def OutOfPages (s : Sys) (pgdir base oldsz : Nat) (as data : List Nat) (s' : Sys) : Prop :=
  ∃ before a after s₁ s₂ n, as = before ++ a :: after ∧ Obtains pgdir before s data s₁ ∧
    Runs kalloc s₁ none s₂ ∧
    Runs (uvmDealloc pgdir base ((a + 2 ^ 64 - pageSize) % 2 ^ 64) oldsz) s₂ n s'

/-- A loop that does not find all pages runs out of pages at one of them. -/
theorem uvmAllocLoop_out (hr : Runs (uvmAllocLoop pgdir base oldsz as) s false s') :
    ∃ data, OutOfPages s pgdir base oldsz as data s' := by
  induction as generalizing s with
  | nil => cases (runs_pure.mp hr).1
  | cons a as ih =>
    obtain ⟨o, s₁, halloc, hr⟩ := runs_bind.mp hr
    cases o with
    | none =>
      obtain ⟨n, s₂, hdealloc, hr⟩ := runs_bind.mp hr
      obtain ⟨-, rfl⟩ := runs_pure.mp hr
      exact ⟨[], [], a, as, s, s₁, n, rfl, .nil, halloc, hdealloc⟩
    | some p =>
      obtain ⟨_, s₂, hmap, hr⟩ := runs_bind.mp hr
      obtain ⟨data, before, b, after, t₁, t₂, n, rfl, hobtains, hnone, hdealloc⟩ := ih hr
      exact ⟨p :: data, a :: before, b, after, t₁, t₂, n, rfl, .cons halloc hmap hobtains, hnone, hdealloc⟩

theorem Obtains.length_eq (h : Obtains pgdir as s data s') : data.length = as.length := by
  induction h with
  | nil => rfl
  | cons _ _ _ ih => exact congrArg Nat.succ ih

/-! ### The free pages -/

theorem shrinks_kalloc (l : List Nat) : Stays (fun t : Sys => t.free.Sublist l) kalloc := by
  intro s o s' hr hs
  obtain ⟨p, free, -, hfree, rfl⟩ | ⟨-, -, rfl⟩ := kalloc_cases hr
  · rw [hfree] at hs
    exact (List.sublist_cons_self p free).trans hs
  · exact hs

theorem shrinks_walkStep (l : List Nat) (va t k : Nat) (alloc : Bool) :
    Stays (fun t : Sys => t.free.Sublist l) (walkStep va alloc t k) := by
  intro s q s' hr hs
  obtain ⟨-, rfl, -⟩ | ⟨-, -, p, free, hfree, rfl, -⟩ | ⟨-, -, rfl, -⟩ := walkStep_outcome hr
  · exact hs
  · rw [hfree] at hs
    exact (List.sublist_cons_self p free).trans hs
  · exact hs

theorem shrinks_uvmMap (l : List Nat) (pgdir va sz p : Nat) :
    Stays (fun t : Sys => t.free.Sublist l) (uvmMap pgdir va sz p) := by
  have hstore (t i v : Nat) : Stays (fun t : Sys => t.free.Sublist l)
    (modify fun s => s.store t i v : Sys.M Unit) :=
    .modify fun _ hs => hs
  refine .forM (fun a => Stays.bind ?_ fun _ => hstore _ _ _) _
  exact (Stays.foldlM (fun t k => shrinks_walkStep l a t k true) _ _).bind fun _ => .pure _

/-- The data pages are different free pages. -/
theorem Obtains.sublist (h : Obtains pgdir as s data s') : data.Sublist s.free := by
  induction h with
  | nil => exact List.nil_sublist _
  | cons halloc hmap _ ih =>
    obtain ⟨p, free, heq, hfree, rfl⟩ | ⟨heq, -, -⟩ := kalloc_cases halloc
    · cases heq
      rw [hfree]
      exact (ih.trans (shrinks_uvmMap free _ _ _ _ _ _ _ hmap (List.Sublist.refl free))).cons_cons _
    · cases heq

/-- Each round of `uvm_dealloc` frees one page at most. -/
theorem length_deallocPages (hr : Runs (as.forM (deallocPage pgdir)) s u s') :
    s'.free.length ≤ s.free.length + as.length := by
  refine Nat.le_of_add_le_add_right (b := 0) (hr.forM (I := fun l t =>
    t.free.length + l.length ≤ s.free.length + as.length) (Nat.le_refl _) fun a l t t' ht hround => ?_)
  obtain ⟨e, -, rfl⟩ := runs_deallocPage.mp hround
  rw [List.length_cons] at ht
  split
  case isTrue =>
    show t.free.length + 1 + l.length ≤ _
    omega
  case isFalse => omega

/-! ### What stays mapped -/

/-- Entries have been cleared only. -/
def Cleared (s s' : Sys) : Prop := ∀ t i, pteValid (s'.word t i) → s'.word t i = s.word t i

theorem even_nextFree (l : List Nat) : ¬pteValid (nextFree l) := by
  unfold pteValid
  cases l with
  | nil => decide
  | cons p l =>
    show ¬(0xffff000000000000 + 4096 * p) % 2 = 1
    omega

theorem cleared_deallocPages (hr : Runs (as.forM (deallocPage pgdir)) s u s') : Cleared s s' := by
  refine hr.forM (I := fun _ t => Cleared s t) (fun _ _ _ => rfl) fun a l t t' ht hround => ?_
  obtain ⟨⟨v, j⟩, -, rfl⟩ := runs_deallocPage.mp hround
  split
  case isFalse => exact ht
  case isTrue =>
    intro x i hvalid
    by_cases hhere : x = v ∧ i = j
    · obtain ⟨rfl, rfl⟩ := hhere
      rw [word_unmapped_self] at hvalid
      exact absurd hvalid (by decide)
    unfold Sys.unmapped at hvalid ⊢
    rw [Sys.word_store_ne _ hhere] at hvalid ⊢
    by_cases hfreed : x = pteFrame (t.word v j) ∧ i = 0
    · -- the link of the free page is no valid entry
      obtain ⟨rfl, rfl⟩ := hfreed
      have hlink : pteValid (nextFree t.free) := by simpa [Sys.store] using hvalid
      exact absurd hlink (even_nextFree _)
    · have hsame : ({ t.store (pteFrame (t.word v j)) 0 (nextFree t.free) with
          free := pteFrame (t.word v j) :: t.free } : Sys).word x i = t.word x i :=
        Sys.word_store_ne t hfreed
      rw [hsame] at hvalid ⊢
      exact ht x i hvalid

/-- What is mapped then was mapped before. -/
theorem Cleared.leaf (h : Cleared s s') {e : Nat} (hleaf : leaf s' pgdir va = some e) :
    leaf s pgdir va = some e := by
  have hfollow {is : List Nat} {t q : Nat} (hq : follow s' is t = some q) : follow s is t = some q := by
    induction is generalizing t with
    | nil => exact hq
    | cons i is ih =>
      rw [follow, Option.ite_none_right_eq_some] at hq
      rw [follow, ← h t i hq.1, if_pos hq.1]
      exact ih hq.2
  unfold Core.leaf leafOf at hleaf ⊢
  obtain ⟨t, ht, hentry⟩ := Option.bind_eq_some_iff.mp hleaf
  rw [Option.ite_none_right_eq_some] at hentry
  rw [hfollow ht, Option.bind_some, ← h t _ hentry.1, if_pos hentry.1]
  exact hentry.2

/-! ### The rollback -/

/-- No new page of the addresses from `oldsz` to `newsz` is mapped, the data pages are free again,
and the mappings below `oldsz` are as before. -/
structure RolledBack (s : Sys) (pgdir oldsz newsz : Nat) (data : List Nat) (s' : Sys) : Prop where
  unmapped : ∀ va, roundUp oldsz pageSize ≤ va → va < newsz →
    (translate s' pgdir va).isSome = true → (translate s pgdir va).isSome = true
  returned : ∀ p ∈ data, p ∈ s'.free
  kept : ∀ va < oldsz, leaf s' pgdir va = leaf s pgdir va

theorem pagesFrom_split {x y a : Nat} {before after : List Nat} (h : pagesFrom x y = before ++ a :: after) :
    a = x + before.length * pageSize := by
  have hget := congrArg (fun l => l[before.length]?) h
  simp only [pagesFrom, List.getElem?_map, List.getElem?_append_right (Nat.le_refl _), Nat.sub_self,
    List.getElem?_cons_zero, Option.map_eq_some_iff] at hget
  obtain ⟨k, hk, rfl⟩ := hget
  obtain ⟨hlt, hindex⟩ := List.getElem?_eq_some_iff.mp hk
  rw [List.getElem_range] at hindex
  rw [hindex]

theorem uvmDealloc_length {n : Nat} (hr : Runs (uvmDealloc pgdir base oldsz newsz) s n s') :
    s'.free.length ≤ s.free.length + (pagesFrom (roundUp newsz pageSize) oldsz).length := by
  rw [uvmDealloc_eq, runs_ite] at hr
  obtain ⟨-, hr⟩ | ⟨-, hr⟩ := hr
  · obtain ⟨-, rfl⟩ := runs_pure.mp hr
    exact Nat.le_add_right _ _
  · obtain ⟨_, t, hloop, hr⟩ := runs_bind.mp hr
    obtain ⟨-, rfl⟩ := runs_pure.mp hr
    exact length_deallocPages hloop

theorem uvmDealloc_cleared {n : Nat} (hr : Runs (uvmDealloc pgdir base oldsz newsz) s n s') :
    Cleared s s' := by
  rw [uvmDealloc_eq, runs_ite] at hr
  obtain ⟨-, hr⟩ | ⟨-, hr⟩ := hr
  · obtain ⟨-, rfl⟩ := runs_pure.mp hr
    exact fun _ _ _ => rfl
  · obtain ⟨_, t, hloop, hr⟩ := runs_bind.mp hr
    obtain ⟨-, rfl⟩ := runs_pure.mp hr
    exact cleared_deallocPages hloop

/-- When `uvm_alloc` runs out of pages, what it did is undone exactly if it did nothing, as there was no
free page to begin with. -/
theorem uvmAlloc_rolls_back_iff (hnodup : s.free.Nodup)
    (hargs : stksz < uspaceTop ∧ base ≤ oldsz ∧ oldsz ≤ newsz ∧ newsz < uspaceTop - stksz)
    (hr : Runs (uvmAllocLoop pgdir base oldsz (pagesFrom (roundUp oldsz pageSize) newsz)) s false s') :
    Runs (uvmAlloc pgdir base stksz oldsz newsz) s 0 s' ∧
      ∃ data, OutOfPages s pgdir base oldsz (pagesFrom (roundUp oldsz pageSize) newsz) data s' ∧
        (RolledBack s pgdir oldsz newsz data s' ↔ s.free = []) := by
  refine ⟨runs_bind.mpr ⟨(), s, runs_require.mpr ⟨hargs, rfl⟩, runs_bind.mpr ⟨false, s', hr,
    runs_pure.mpr ⟨rfl, rfl⟩⟩⟩, ?_⟩
  obtain ⟨data, hout⟩ := uvmAllocLoop_out hr
  refine ⟨data, hout, ?_⟩
  obtain ⟨before, a, after, s₁, s₂, n, hsplit, hobtains, hnone, hdealloc⟩ := hout
  obtain ⟨_, _, heq, -, -⟩ | ⟨-, hempty, rfl⟩ := kalloc_cases hnone
  · cases heq
  have ha : a = roundUp oldsz pageSize + before.length * 4096 := pagesFrom_split hsplit
  have hround := roundUp_eq oldsz
  have htop : uspaceTop = 2 ^ 48 := rfl
  have hbelow : a < newsz := by
    have hmem : a ∈ pagesFrom (roundUp oldsz pageSize) newsz :=
      hsplit ▸ List.mem_append_right _ List.mem_cons_self
    obtain ⟨-, -, hlt⟩ := mem_pagesFrom.mp hmem
    exact hlt
  have hwrap : (a + 2 ^ 64 - pageSize) % 2 ^ 64 = (a + 2 ^ 64 - 4096) % 2 ^ 64 := rfl
  have hlength := hobtains.length_eq
  constructor
  · intro hback
    by_contra hfree
    -- a first page was found
    have hfirst : before.length ≠ 0 := by
      intro hzero
      obtain rfl := List.eq_nil_of_length_eq_zero hzero
      cases hobtains
      exact hfree hempty
    -- the rollback leaves out the last page, so there are more data pages than free pages
    have hfreed := uvmDealloc_length hdealloc
    have hle := (hobtains.sublist.nodup hnodup).subperm hback.returned |>.length_le
    have hrounds : (pagesFrom (roundUp oldsz pageSize) ((a + 2 ^ 64 - pageSize) % 2 ^ 64)).length =
        before.length - 1 := by
      simp only [pagesFrom, List.length_map, List.length_range]
      show ((a + 2 ^ 64 - 4096) % 2 ^ 64 - roundUp oldsz pageSize + 4096 - 1) / 4096 = _
      omega
    change s'.free.length ≤ s₁.free.length + _ at hfreed
    rw [hempty, List.length_nil, hrounds] at hfreed
    omega
  · intro hfree
    have hnothing : before = [] ∧ data = [] := by
      cases hobtains with
      | nil => exact ⟨rfl, rfl⟩
      | cons halloc _ _ =>
        obtain ⟨_, _, -, hcons, -⟩ | ⟨heq, -, -⟩ := kalloc_cases halloc
        · rw [hfree] at hcons
          cases hcons
        · cases heq
    obtain ⟨rfl, rfl⟩ := hnothing
    cases hobtains
    refine ⟨fun va _ _ hmapped => ?_, nofun, fun va hva => ?_⟩
    · rw [translate_eq_leaf, Option.isSome_map] at hmapped ⊢
      obtain ⟨e, he⟩ := Option.isSome_iff_exists.mp hmapped
      have hbefore := (uvmDealloc_cleared hdealloc).leaf he
      exact Option.isSome_iff_exists.mpr ⟨e, hbefore⟩
    · -- below the first page there is nothing to free
      rw [uvmDealloc_eq, if_pos] at hdealloc
      · obtain ⟨-, rfl⟩ := runs_pure.mp hdealloc
        rfl
      · left
        rw [hwrap, ha, List.length_nil]
        omega

/-- `strayProcess` has no free page. -/
theorem uvmAlloc_rolls_back_iff_empty : ∃ s',
    Runs (uvmAlloc 1 0 0 4096 8192) strayProcess 0 s' ∧
      ∃ data, OutOfPages strayProcess 1 0 4096 (pagesFrom (roundUp 4096 pageSize) 8192) data s' ∧
        (RolledBack strayProcess 1 4096 8192 data s' ↔ strayProcess.free = []) := by
  have hruns : returnsWith (uvmAllocLoop 1 0 4096 (pagesFrom (roundUp 4096 pageSize) 8192)) strayProcess
      (fun b _ => !b) = true := by
    decide +kernel
  obtain ⟨b, s', hr, hb⟩ := runs_of_returnsWith hruns
  obtain rfl : b = false := by simpa using hb
  exact ⟨s', uvmAlloc_rolls_back_iff List.nodup_nil (by decide) hr⟩

/-- Four free pages are enough for the first of two pages: it stays mapped. -/
theorem uvmAlloc_leaves_page :
    ∃ s', Runs (uvmAlloc 1 0 0 0 8192) { strayProcess with free := [2, 3, 4, 5] } 0 s' ∧
      translate { strayProcess with free := [2, 3, 4, 5] } 1 0 = none ∧ translate s' 1 0 = some 2 ∧
      2 ∉ s'.free := by
  have hruns : returnsWith (uvmAlloc 1 0 0 0 8192) { strayProcess with free := [2, 3, 4, 5] }
      (fun n s' => decide (n = 0 ∧ translate s' 1 0 = some 2 ∧ 2 ∉ s'.free)) = true := by
    decide +kernel
  obtain ⟨n, s', hr, hs'⟩ := runs_of_returnsWith hruns
  obtain ⟨rfl, hmapped, hfree⟩ := of_decide_eq_true hs'
  exact ⟨s', hr, by decide +kernel, hmapped, hfree⟩

end FtosFfs.Core
