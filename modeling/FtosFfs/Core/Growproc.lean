import FtosFfs.Core.Rollback
import Mathlib.Algebra.Ring.Int.Defs
import Mathlib.Data.Finset.Card

/-! `growproc`: what a change of the size of a process does to its pages, for every number of free
pages. -/

namespace FtosFfs.Core

open Lib Lib.Exec

variable {s s' : Sys} {r r' : Roles} {p q t l i k va pgdir base oldsz : Nat} {is js ks as : List Nat}
  {seen : List (List Nat)} {alloc : Bool}

/-! ### The tables that are there -/

/-- There is a table at the end of the path, or a page. -/
def Present (s : Sys) (pgdir : Nat) (is : List Nat) : Prop := (follow s is pgdir).isSome = true

instance (s : Sys) (pgdir : Nat) (is : List Nat) : Decidable (Present s pgdir is) :=
  inferInstanceAs (Decidable (_ = _))

/-- A table that has been made is the only new one. -/
theorem Tables.present_linked {free : List Nat} (h : Tables r s) (hp : Pages s)
    (hfree : s.free = p :: free) (hroot : r pgdir = some 0) (his : is.length < 3)
    (ht : follow s is pgdir = some t) (hv : ¬pteValid (s.word t i)) (hjs : js.length ≤ 3) :
    Present (s.linked free p t i) pgdir js ↔ Present s pgdir js ∨ js = is ++ [i] := by
  have hrole : r t = some is.length := by
    have := h.follow_role hroot (by omega) ht
    rwa [Nat.zero_add] at this
  have hw := h.linked hp hfree hrole his hv
  have hmem : p ∈ s.free := hfree ▸ List.mem_cons_self
  have hother {u m : Nat} (hu : r u = some m) : u ≠ p := by
    rintro rfl
    rw [h.apart u hmem] at hu
    cases hu
  have hframe : pteFrame (pte p pteTable) = p := pteFrame_pte (hp.below p (.inl hmem)) (by decide)
  have hnew : follow (s.linked free p t i) (is ++ [i]) pgdir = some p := by
    rw [follow_append, hw.follow h hroot (by omega) ht, Option.bind_some, follow, word_linked_self,
      if_pos (pteValid_table p), follow, hframe]
  constructor
  · intro hpresent
    obtain ⟨q, hq⟩ := Option.isSome_iff_exists.mp hpresent
    have hcases : follow s js pgdir = some q ∨ js = is ++ [i] := by
      clear hpresent
      induction js using List.reverseRecOn generalizing q with
      | nil => exact .inl hq
      | append_singleton js j ih =>
        rw [List.length_append, List.length_singleton] at hjs
        rw [follow_append] at hq
        obtain ⟨u, hu, hq⟩ := Option.bind_eq_some_iff.mp hq
        rw [follow, Option.ite_none_right_eq_some] at hq
        obtain hold | rfl := ih (by omega) u hu
        · have hurole : r u = some js.length := by
            have := h.follow_role hroot (by omega) hold
            rwa [Nat.zero_add] at this
          by_cases hhere : u = t ∧ j = i
          · obtain ⟨rfl, rfl⟩ := hhere
            have hlen : js.length = is.length := Option.some.inj (hurole.symm.trans hrole)
            rw [h.follow_inj hroot (by omega) hlen hold ht]
            exact .inr rfl
          · rw [word_linked, if_neg hhere, if_neg (hother hurole)] at hq
            rw [follow_append, hold, Option.bind_some, follow, if_pos hq.1]
            exact .inl hq.2
        · -- the new table is empty
          obtain rfl : p = u := Option.some.inj (hnew.symm.trans hu)
          rw [word_linked_new s free i j (hother hrole).symm] at hq
          exact absurd hq.1 (by decide)
    exact hcases.imp (fun h => Option.isSome_iff_exists.mpr ⟨q, h⟩) id
  · rintro (hold | rfl)
    · obtain ⟨q, hq⟩ := Option.isSome_iff_exists.mp hold
      exact Option.isSome_iff_exists.mpr ⟨q, hw.follow h hroot (by omega) hq⟩
    · exact Option.isSome_iff_exists.mpr ⟨p, hnew⟩

/-- A walk with enough free pages makes the tables of its path, and no others. -/
theorem Tables.present_walk (h : Tables r s) (hp : Pages s) (hroot : r pgdir = some 0)
    (hlen : is.length + ks.length ≤ 3) (ht : follow s is pgdir = some t)
    (hr : Runs (ks.foldlM (walkStep va true) t) s q s')
    (henough : missing s (ks.map (pteIndex va)) t ≤ s.free.length) (hjs : js.length ≤ 3) :
    Present s' pgdir js ↔ Present s pgdir js ∨
      ∃ n, n ≤ ks.length ∧ js = is ++ (ks.map (pteIndex va)).take n := by
  induction ks generalizing s r t is with
  | nil =>
    obtain ⟨-, rfl⟩ := runs_pure.mp hr
    refine (or_iff_left_of_imp ?_).symm
    rintro ⟨n, -, rfl⟩
    rw [List.map_nil, List.take_nil, List.append_nil]
    exact Option.isSome_iff_exists.mpr ⟨t, ht⟩
  | cons k ks ih =>
    rw [List.length_cons] at hlen
    rw [List.map_cons, missing, List.length_map] at henough
    have hrole : r t = some is.length := by
      have := h.follow_role hroot (by omega) ht
      rwa [Nat.zero_add] at this
    obtain ⟨u, s₁, hstep, hrest⟩ := runs_bind.mp (by rwa [List.foldlM_cons] at hr)
    -- the paths of the walk from the next table on
    have hsplit : (∃ n, n ≤ ks.length + 1 ∧ js = is ++ (pteIndex va k :: ks.map (pteIndex va)).take n) ↔
        js = is ∨ ∃ n, n ≤ ks.length ∧ js = (is ++ [pteIndex va k]) ++ (ks.map (pteIndex va)).take n := by
      constructor
      · rintro ⟨n, hn, rfl⟩
        cases n with
        | zero => exact .inl (List.append_nil is)
        | succ n => exact .inr ⟨n, by omega, by rw [List.take_succ_cons, List.append_assoc]; rfl⟩
      · rintro (rfl | ⟨n, hn, rfl⟩)
        · exact ⟨0, Nat.zero_le _, (List.append_nil js).symm⟩
        · exact ⟨n + 1, by omega, by rw [List.take_succ_cons, List.append_assoc]; rfl⟩
    have hhere : js = is → Present s pgdir js := by
      rintro rfl
      exact Option.isSome_iff_exists.mpr ⟨t, ht⟩
    rw [List.map_cons, List.length_cons, hsplit]
    obtain ⟨hv, rfl, rfl⟩ | ⟨hv, -, p, free, hfree, rfl, rfl⟩ | ⟨hv, hnone, -, -⟩ := walkStep_outcome hstep
    case inl =>
      rw [if_pos hv] at henough
      have hnext : follow s₁ (is ++ [pteIndex va k]) pgdir = some (pteFrame (s₁.word t (pteIndex va k))) := by
        rw [follow_append, ht, Option.bind_some, follow, if_pos hv, follow]
      rw [ih h hp hroot (by rw [List.length_append, List.length_singleton]; omega) hnext hrest henough]
      constructor
      · exact Or.imp id .inr
      · rintro (hold | heq | hnew)
        · exact .inl hold
        · exact .inl (hhere heq)
        · exact .inr hnew
    case inr.inl =>
      rw [if_neg hv] at henough
      have hw := h.linked hp hfree hrole (by omega) hv
      have hframe : pteFrame (pte p pteTable) = p :=
        pteFrame_pte (hp.below p (.inl (hfree ▸ List.mem_cons_self))) (by decide)
      have hnext : follow (s.linked free p t (pteIndex va k)) (is ++ [pteIndex va k]) pgdir =
          some (pteFrame (pte p pteTable)) := by
        rw [follow_append, hw.follow h hroot (by omega) ht, Option.bind_some, follow, word_linked_self,
          if_pos (pteValid_table p), follow]
      have hother : p ≠ t := by
        rintro rfl
        rw [h.apart p (hfree ▸ List.mem_cons_self)] at hrole
        cases hrole
      have hrestEnough : missing (s.linked free p t (pteIndex va k)) (ks.map (pteIndex va))
          (pteFrame (pte p pteTable)) ≤ (s.linked free p t (pteIndex va k)).free.length := by
        rw [hframe, missing_empty (fun j => word_linked_new s free (pteIndex va k) j hother), List.length_map]
        show ks.length ≤ free.length
        rw [hfree, List.length_cons] at henough
        omega
      rw [ih hw.tables (hw.pages hp) (hw.grows pgdir 0 hroot)
        (by rw [List.length_append, List.length_singleton]; omega) hnext hrest hrestEnough,
        h.present_linked hp hfree hroot (by omega) ht hv hjs]
      constructor
      · rintro ((hold | heq) | hnew)
        · exact .inl hold
        · exact .inr (.inr ⟨0, Nat.zero_le _, heq.trans (List.append_nil _).symm⟩)
        · exact .inr (.inr hnew)
      · rintro (hold | heq | hnew)
        · exact .inl (.inl hold)
        · exact .inl (.inl (hhere heq))
        · exact .inr hnew
    case inr.inr =>
      rw [if_neg hv, hnone rfl, List.length_nil] at henough
      omega

/-! ### The pages that a growth needs -/

/-- The paths to the tables of the address, below the first. -/
def tablesOf (va : Nat) : List (List Nat) :=
  [[pteIndex va 3], [pteIndex va 3, pteIndex va 2], [pteIndex va 3, pteIndex va 2, pteIndex va 1]]

/-- The tables of the addresses that are not there. -/
def newTables (s : Sys) (pgdir : Nat) (as : List Nat) : Finset (List Nat) :=
  (as.flatMap tablesOf).toFinset.filter (¬Present s pgdir ·)

/-- How many free pages it takes to map a page at each of the addresses. -/
def pagesNeeded (s : Sys) (pgdir : Nat) (as : List Nat) : Nat := as.length + (newTables s pgdir as).card

theorem card_newTables_one (s : Sys) (pgdir a : Nat) :
    (newTables s pgdir [a]).card = missingTables s pgdir a := by
  have hlist : (([a] : List Nat).flatMap tablesOf).toFinset =
      {[pteIndex a 3], [pteIndex a 3, pteIndex a 2], [pteIndex a 3, pteIndex a 2, pteIndex a 1]} := by
    simp [tablesOf]
  unfold newTables missingTables tablePath Present
  rw [hlist]
  simp only [Finset.filter_insert, Finset.filter_singleton, follow, missing]
  by_cases h3 : pteValid (s.word pgdir (pteIndex a 3))
  · by_cases h2 : pteValid (s.word (pteFrame (s.word pgdir (pteIndex a 3))) (pteIndex a 2))
    · by_cases h1 : pteValid (s.word (pteFrame (s.word (pteFrame (s.word pgdir (pteIndex a 3)))
          (pteIndex a 2))) (pteIndex a 1))
      · simp [h3, h2, h1]
      · simp [h3, h2, h1]
    · simp [h3, h2]
  · simp [h3]

/-- After the tables of an address have been made, those of the others are still needed. -/
theorem card_newTables_cons {a : Nat}
    (h : ∀ js, js.length ≤ 3 → (Present s' pgdir js ↔ Present s pgdir js ∨ js ∈ tablesOf a)) :
    (newTables s pgdir (a :: as)).card = missingTables s pgdir a + (newTables s' pgdir as).card := by
  have hlen {b : Nat} {js : List Nat} (hjs : js ∈ tablesOf b) : js.length ≤ 3 := by
    simp only [tablesOf, List.mem_cons, List.not_mem_nil, or_false] at hjs
    obtain rfl | rfl | rfl := hjs
    · exact show 1 ≤ 3 by decide
    · exact show 2 ≤ 3 by decide
    · exact show 3 ≤ 3 by decide
  have hmem {t : Sys} {as : List Nat} {js : List Nat} :
      js ∈ newTables t pgdir as ↔ (∃ b ∈ as, js ∈ tablesOf b) ∧ ¬Present t pgdir js := by
    rw [newTables, Finset.mem_filter, List.mem_toFinset, List.mem_flatMap]
  have hunion : newTables s pgdir (a :: as) = newTables s pgdir [a] ∪ newTables s' pgdir as := by
    ext js
    rw [Finset.mem_union, hmem, hmem, hmem]
    simp only [List.mem_cons, List.not_mem_nil, or_false, exists_eq_or_imp, exists_eq_left]
    constructor
    · rintro ⟨hin, hnot⟩
      by_cases hhere : js ∈ tablesOf a
      · exact .inl ⟨hhere, hnot⟩
      · obtain ⟨b, hb, hjs⟩ := hin.resolve_left hhere
        exact .inr ⟨⟨b, hb, hjs⟩, fun hp => ((h js (hlen hjs)).mp hp).elim hnot hhere⟩
    · rintro (⟨hhere, hnot⟩ | ⟨⟨b, hb, hjs⟩, hnot⟩)
      · exact ⟨.inl hhere, hnot⟩
      · exact ⟨.inr ⟨b, hb, hjs⟩, fun hp => hnot ((h js (hlen hjs)).mpr (.inl hp))⟩
  have hdisjoint : Disjoint (newTables s pgdir [a]) (newTables s' pgdir as) := by
    rw [Finset.disjoint_left]
    intro js hone hrest
    obtain ⟨⟨b, hb, hjs⟩, -⟩ := hmem.mp hone
    obtain rfl := List.mem_singleton.mp hb
    exact (hmem.mp hrest).2 ((h js (hlen hjs)).mpr (.inr hjs))
  rw [hunion, Finset.card_union_of_disjoint hdisjoint, card_newTables_one]

/-! ### Rounds with enough free pages -/

/-- A walk with enough free pages takes one for each missing table. -/
theorem Tables.walk_enough (h : Tables r s) (hp : Pages s) (ht : r t = some l) (hl : l + ks.length ≤ 3)
    (hr : Runs (ks.foldlM (walkStep va true) t) s q s')
    (henough : missing s (ks.map (pteIndex va)) t ≤ s.free.length) :
    s'.short = s.short ∧ s'.free.length + missing s (ks.map (pteIndex va)) t = s.free.length := by
  induction ks generalizing s r t l with
  | nil =>
    obtain ⟨-, rfl⟩ := runs_pure.mp hr
    exact ⟨rfl, rfl⟩
  | cons k ks ih =>
    rw [List.length_cons] at hl
    rw [List.map_cons, missing, List.length_map] at henough ⊢
    obtain ⟨u, s₁, hstep, hrest⟩ := runs_bind.mp (by rwa [List.foldlM_cons] at hr)
    obtain ⟨hv, rfl, rfl⟩ | ⟨hv, -, p, free, hfree, rfl, rfl⟩ | ⟨hv, hnone, -, -⟩ := walkStep_outcome hstep
    case inl =>
      rw [if_pos hv] at henough ⊢
      exact ih h hp (h.typed t l _ ht (by omega) hv) (by omega) hrest henough
    case inr.inl =>
      rw [if_neg hv, hfree, List.length_cons] at henough ⊢
      have hw := h.linked hp hfree ht (by omega) hv
      have hframe : pteFrame (pte p pteTable) = p :=
        pteFrame_pte (hp.below p (.inl (hfree ▸ List.mem_cons_self))) (by decide)
      have hother : p ≠ t := by
        rintro rfl
        rw [h.apart p (hfree ▸ List.mem_cons_self)] at ht
        cases ht
      have hmissing := missing_empty (fun j => word_linked_new s free (pteIndex va k) j hother)
        (ks.map (pteIndex va))
      rw [List.length_map] at hmissing
      rw [hframe] at hrest
      obtain ⟨hshort, hlength⟩ := ih hw.tables (hw.pages hp) (Function.update_self ..) (by omega) hrest
        (by rw [hmissing]; exact Nat.le_of_succ_le_succ henough)
      rw [hmissing] at hlength
      refine ⟨hshort, ?_⟩
      change s'.free.length + ks.length = free.length at hlength
      omega
    case inr.inr =>
      rw [if_neg hv, hnone rfl, List.length_nil] at henough
      omega

/-- A walk with enough free pages comes to the entry of the address. -/
theorem Tables.pgdirWalk_enough {e : Nat × Nat} (h : Tables r s) (hp : Pages s) (hroot : r pgdir = some 0)
    (hr : Runs (Core.pgdirWalk pgdir va true) s e s') (henough : missingTables s pgdir va ≤ s.free.length) :
    s'.short = s.short ∧ s'.free.length + missingTables s pgdir va = s.free.length ∧
      Inside s' pgdir va e ∧ ∀ js, js.length ≤ 3 →
        (Present s' pgdir js ↔ Present s pgdir js ∨ js ∈ tablesOf va) := by
  obtain ⟨-, hinside⟩ := h.pgdirWalk hp hroot hr
  obtain ⟨t, _, hfold, hr⟩ := runs_bind.mp hr
  obtain ⟨rfl, rfl⟩ := runs_pure.mp hr
  obtain ⟨hshort, hlength⟩ :=
    h.walk_enough hp hroot (show 0 + [3, 2, 1].length ≤ 3 by decide) hfold henough
  refine ⟨hshort, hlength, hinside.mpr (by rw [spare, if_pos rfl]; exact henough), fun js hjs => ?_⟩
  rw [h.present_walk hp hroot (show ([] : List Nat).length + [3, 2, 1].length ≤ 3 by decide) rfl hfold
    henough hjs]
  have hroots : Present s pgdir [] := rfl
  constructor
  · rintro (hold | ⟨n, hn, rfl⟩)
    · exact .inl hold
    · change n ≤ 3 at hn
      obtain rfl | rfl | rfl | rfl : n = 0 ∨ n = 1 ∨ n = 2 ∨ n = 3 := by omega
      · exact .inl hroots
      · exact .inr (List.mem_cons_self ..)
      · exact .inr (List.mem_cons_of_mem _ (List.mem_cons_self ..))
      · exact .inr (List.mem_cons_of_mem _ (List.mem_cons_of_mem _ (List.mem_cons_self ..)))
  · rintro (hold | hnew)
    · exact .inl hold
    · simp only [tablesOf, List.mem_cons, List.not_mem_nil, or_false] at hnew
      obtain rfl | rfl | rfl := hnew
      · exact .inr ⟨1, show 1 ≤ 3 by decide, rfl⟩
      · exact .inr ⟨2, show 2 ≤ 3 by decide, rfl⟩
      · exact .inr ⟨3, show 3 ≤ 3 by decide, rfl⟩

/-- A page has been mapped at the address `a`, with its missing tables. -/
structure MappedAt (s : Sys) (pgdir a : Nat) (s' : Sys) : Prop where
  space : AddressSpace s' pgdir
  taken : s'.free.length + (missingTables s pgdir a + 1) = s.free.length
  present : ∀ js, js.length ≤ 3 → (Present s' pgdir js ↔ Present s pgdir js ∨ js ∈ tablesOf a)
  maps : ∀ is, is.length = 4 → is ≠ pathOf a → follow s' is pgdir = follow s is pgdir

/-- A round of `uvm_alloc` that finds pages for its address and the missing tables. -/
theorem AddressSpace.round {a : Nat} (h : AddressSpace s pgdir) (ha : a % pageSize = 0)
    (henough : missingTables s pgdir a + 1 ≤ s.free.length) :
    ∃ p s₁ s₂, p ∈ s.free ∧ Runs kalloc s (some p) s₁ ∧ Runs (Core.uvmMap pgdir a pageSize p) s₁ () s₂ ∧
      MappedAt s pgdir a s₂ ∧ translate s₂ pgdir a = some p := by
  obtain ⟨p, free, hfree⟩ : ∃ p free, s.free = p :: free := by
    cases hfree : s.free with
    | nil =>
      rw [hfree, List.length_nil] at henough
      omega
    | cons p free => exact ⟨p, free, rfl⟩
  have hmem : p ∈ s.free := hfree ▸ List.mem_cons_self
  have halloc : Runs kalloc s (some p) { s with free } := by
    unfold kalloc
    rw [runs_after (runs_get.mpr ⟨rfl, rfl⟩), hfree]
    exact runs_bind.mpr ⟨⟨⟩, { s with free }, runs_set.mpr rfl, runs_pure.mpr ⟨rfl, rfl⟩⟩
  obtain ⟨s₂, hmap⟩ := uvmMap_returns pgdir a pageSize p { s with free }
  have htail := h.tail hfree
  obtain ⟨r, hspace, hroot⟩ := htail.tables
  obtain ⟨t, i, s₃, hwalk, rfl⟩ := uvmMap_page ha hmap
  have hmissing : missingTables { s with free } pgdir a = missingTables s pgdir a := missing_word (by rfl) _ _
  have hlength : s.free.length = free.length + 1 := by rw [hfree, List.length_cons]
  obtain ⟨hshort, htaken, ⟨hpath, rfl⟩, hpresent⟩ := hspace.toTables.pgdirWalk_enough htail.pages hroot hwalk
    (by rw [hmissing]; show _ ≤ free.length; omega)
  obtain ⟨⟨r', hw⟩, -⟩ := hspace.toTables.pgdirWalk htail.pages hroot hwalk
  have hs : s₃.short = false := hshort.trans h.enough
  have hmaps {is : List Nat} (his : is.length = 4) : follow _ is pgdir = _ :=
    htail.uvmMap ha (h.pages.below p (.inl hmem)) hmap hs his
  have hone : Runs (Core.uvmAllocLoop pgdir 0 0 [a]) s true _ :=
    runs_bind.mpr ⟨some p, _, halloc, runs_bind.mpr ⟨_, _, hmap, runs_pure.mpr ⟨rfl, rfl⟩⟩⟩
  obtain ⟨-, hspace', -⟩ := h.uvmAllocLoop (fun b hb => (List.mem_singleton.mp hb) ▸ ha) hone hs
  refine ⟨p, _, _, hmem, halloc, hmap, ⟨hspace', ?_, fun js hjs => ?_, fun is his hne => ?_⟩, ?_⟩
  · rw [hmissing] at htaken
    change s₃.free.length + missingTables s pgdir a = free.length at htaken
    show s₃.free.length + _ = _
    omega
  · have hroot₃ := hw.grows pgdir 0 hroot
    have ht : r' t = some 3 := hw.tables.follow_role hroot₃
      (show 0 + (tablePath a).length ≤ 3 from le_rfl) hpath
    have hsame : follow (s₃.store t (pteIndex a 0) (pte p pteUserData)) js pgdir = follow s₃ js pgdir := by
      refine hw.tables.follow_congr hroot₃ (by omega) fun u m hu hm => Function.update_of_ne ?_ _ _
      rintro rfl
      obtain rfl : m = 3 := Option.some.inj (hu.symm.trans ht)
      omega
    unfold Present at hpresent ⊢
    rw [hsame, hpresent js hjs, show follow { s with free } js pgdir = follow s js pgdir from
      follow_word (by rfl) js pgdir]
  · rw [hmaps his, if_neg hne]
    exact follow_word (by rfl) is pgdir
  · rw [translate_eq_follow, hmaps rfl, if_pos rfl]

/-- The state after a page has been mapped at each of the addresses. -/
structure MappedAll (s : Sys) (pgdir : Nat) (as : List Nat) (s' : Sys) : Prop where
  space : AddressSpace s' pgdir
  taken : s'.free.length + pagesNeeded s pgdir as = s.free.length
  pages : ∀ a ∈ as, ∃ p ∈ s.free, translate s' pgdir a = some p
  maps : ∀ is, is.length = 4 → (∀ a ∈ as, is ≠ pathOf a) → follow s' is pgdir = follow s is pgdir

/-- The rounds of `uvm_alloc` for which there are enough free pages. -/
theorem AddressSpace.allocRounds (h : AddressSpace s pgdir) (has : ∀ a ∈ as, a % pageSize = 0)
    (hpaths : as.Pairwise (pathOf · ≠ pathOf ·)) (henough : pagesNeeded s pgdir as ≤ s.free.length) :
    ∃ data s', Obtains pgdir as s data s' ∧ MappedAll s pgdir as s' := by
  induction as generalizing s with
  | nil => exact ⟨[], s, .nil, h, rfl, nofun, fun _ _ _ => rfl⟩
  | cons a as ih =>
    obtain ⟨hfirst, hpaths⟩ := List.pairwise_cons.mp hpaths
    have hround : missingTables s pgdir a + 1 ≤ s.free.length := by
      rw [← card_newTables_one]
      refine le_trans ?_ henough
      rw [pagesNeeded, List.length_cons]
      have hsub : newTables s pgdir [a] ⊆ newTables s pgdir (a :: as) := by
        refine Finset.filter_subset_filter _ fun js hjs => ?_
        rw [List.mem_toFinset, List.mem_flatMap] at hjs ⊢
        obtain ⟨b, hb, hjs⟩ := hjs
        obtain rfl := List.mem_singleton.mp hb
        exact ⟨b, List.mem_cons_self, hjs⟩
      have := Finset.card_le_card hsub
      omega
    obtain ⟨p, s₁, s₂, hp, halloc, hmap, hmapped, htrans⟩ := h.round (has a List.mem_cons_self) hround
    have hcard : (newTables s pgdir (a :: as)).card = _ := card_newTables_cons hmapped.present
    have hneeded : pagesNeeded s pgdir (a :: as) = missingTables s pgdir a + 1 + pagesNeeded s₂ pgdir as := by
      rw [pagesNeeded, pagesNeeded, hcard, List.length_cons]
      omega
    have htaken := hmapped.taken
    obtain ⟨data, s', hobtains, hall⟩ := ih hmapped.space (fun b hb => has b (List.mem_cons_of_mem a hb)) hpaths
      (by omega)
    have hrest := hall.taken
    have hsub : s₂.free.Sublist s.free :=
      shrinks_uvmMap s.free _ _ _ _ _ _ _ hmap (shrinks_kalloc s.free _ _ _ halloc (.refl _))
    refine ⟨p :: data, s', .cons halloc hmap hobtains, hall.space, by omega, ?_, ?_⟩
    · intro b hb
      rcases List.mem_cons.mp hb with rfl | hb
      · refine ⟨p, hp, ?_⟩
        rw [translate_eq_follow] at htrans ⊢
        rw [hall.maps _ rfl hfirst, htrans]
      · obtain ⟨q, hq, htq⟩ := hall.pages b hb
        exact ⟨q, hsub.subset hq, htq⟩
    · intro is his hne
      rw [hall.maps is his fun b hb => hne b (List.mem_cons_of_mem a hb),
        hmapped.maps is his (hne a List.mem_cons_self)]

/-- The rounds are the first of the loop. -/
theorem Obtains.runs {data rest : List Nat} {b : Bool} {s₁ : Sys} (h : Obtains pgdir as s data s₁)
    (hr : Runs (uvmAllocLoop pgdir base oldsz rest) s₁ b s') :
    Runs (uvmAllocLoop pgdir base oldsz (as ++ rest)) s b s' := by
  induction h with
  | nil => exact hr
  | cons halloc hmap _ ih =>
    exact runs_bind.mpr ⟨_, _, halloc, runs_bind.mpr ⟨_, _, hmap, ih hr⟩⟩

/-! ### Giving pages back -/

/-- `uvm_dealloc` unmaps the pages from `newsz` to `oldsz`, if there are any. -/
theorem Space.uvmDealloc (h : Space r s) (oldsz newsz : Nat) (hp : Pages s) (hroot : r pgdir = some 0)
    (hthere : ∀ a ∈ pagesFrom (roundUp newsz pageSize) oldsz, missingTables s pgdir a = 0) :
    ∃ s', Runs (Core.uvmDealloc pgdir 0 oldsz newsz) s (throughInt (min newsz oldsz)) s' ∧
      Unmapped s pgdir (pagesFrom (roundUp newsz pageSize) oldsz) s' := by
  rw [uvmDealloc_eq]
  by_cases hrange : newsz ≥ oldsz
  · rw [if_pos (.inl hrange), Nat.min_eq_right hrange]
    have hnone : pagesFrom (roundUp newsz pageSize) oldsz = [] := by
      have hround : newsz ≤ roundUp newsz pageSize := by
        show newsz ≤ newsz + 4096 - 1 - (newsz + 4096 - 1) % 4096
        omega
      unfold pagesFrom
      rw [Nat.sub_eq_zero_of_le (Nat.le_trans hrange hround)]
      rfl
    rw [hnone]
    exact ⟨s, runs_pure.mpr ⟨rfl, rfl⟩,
      ⟨⟨r, h, hroot⟩, hp, fun _ => rfl, fun _ => by simp, fun _ => by simp⟩⟩
  · rw [if_neg (not_or.mpr ⟨hrange, Nat.not_lt_zero _⟩), Nat.min_eq_left (by omega)]
    obtain ⟨s', hr⟩ := deallocPages_returns pgdir (pagesFrom (roundUp newsz pageSize) oldsz) s
    exact ⟨s', runs_bind.mpr ⟨⟨⟩, s', hr, runs_pure.mpr ⟨rfl, rfl⟩⟩, h.deallocPages hp hroot hthere hr⟩

theorem missingTables_of_maps {a : Nat} (h : Maps s pgdir a) : missingTables s pgdir a = 0 := by
  rw [missingTables, missing_eq_zero_iff]
  unfold Maps at h
  rw [pathOf_eq, follow_append] at h
  cases hfollow : follow s (tablePath a) pgdir with
  | none =>
    rw [hfollow] at h
    cases h
  | some t => rfl

theorem maps_iff_leaf : Maps s pgdir va ↔ (leaf s pgdir va).isSome = true := by
  rw [Maps, ← translate_eq_follow, translate_eq_leaf, Option.isSome_map]

/-! ### `growproc` -/

/-- The result, and the size of the process after it; `n` is an `int`. -/
def growproc (pgdir sz : Nat) (n : Int) : Sys.M (Int × Nat) := do
  let newsz := (sz % 2 ^ 32 + (n % 2 ^ 32).toNat) % 2 ^ 32
  if n > 0 then do
    let r ← uvmAlloc pgdir 0 0 (sz % 2 ^ 32) newsz
    if r % 2 ^ 32 = 0 then pure (-1, sz) else pure (0, r % 2 ^ 32)
  else if n < 0 then do
    let r ← uvmDealloc pgdir 0 (sz % 2 ^ 32) newsz
    if r % 2 ^ 32 = 0 then pure (-1, sz) else pure (0, r % 2 ^ 32)
  else pure (0, sz % 2 ^ 32)

/-- A process of size `sz`, with the pages of its heap below a stack of `stksz` bytes. -/
structure UserProcess (s : Sys) (pgdir sz stksz : Nat) : Prop where
  space : AddressSpace s pgdir
  pos : 0 < sz
  small : sz < 2 ^ 31
  fits : roundUp sz pageSize + stksz ≤ uspaceTop
  heap : ∀ va < uspaceTop - stksz, (Maps s pgdir va ↔ va < roundUp sz pageSize)

/-- The process has the new size and its pages, or nothing has changed. -/
def ExactOrNone (s : Sys) (pgdir sz stksz : Nat) (n r : Int) (sz' : Nat) (s' : Sys) : Prop :=
  (r = 0 ∧ (sz' : Int) = sz + n ∧
    ∀ va < uspaceTop - stksz, (Maps s' pgdir va ↔ va < roundUp sz' pageSize)) ∨
  (r = -1 ∧ sz' = sz ∧ ∀ va, leaf s' pgdir va = leaf s pgdir va)

/-- The addresses of the pages by which the process grows. -/
def newPages (sz : Nat) (n : Int) : List Nat := pagesFrom (roundUp sz pageSize) (sz + n.toNat)

/-- The process keeps some of its size, and grows if there is a page for each new page and each table that
it needs, or none at all. -/
def Resizable (s : Sys) (pgdir sz : Nat) (n : Int) : Prop :=
  (n < 0 → -n < sz) ∧ (0 < n → pagesNeeded s pgdir (newPages sz n) ≤ s.free.length ∨ s.free = [])

/-- The free pages run out at a table of one of the addresses. -/
def OutAtTable (s : Sys) (pgdir : Nat) (as : List Nat) : Prop :=
  ∃ before a after, as = before ++ a :: after ∧ pagesNeeded s pgdir before < s.free.length ∧
    s.free.length < pagesNeeded s pgdir (before ++ [a])

theorem pairwise_pagesFrom {a b : Nat} (hb : b ≤ uspaceTop) :
    (pagesFrom a b).Pairwise (pathOf · ≠ pathOf ·) := by
  unfold pagesFrom
  rw [List.pairwise_map]
  refine List.Pairwise.imp_of_mem ?_ List.pairwise_lt_range
  intro k m hk hm hlt heq
  have hbelow {k : Nat} (hk : k ∈ List.range ((b - a + pageSize - 1) / pageSize)) :
      a + k * pageSize < uspaceTop := by
    have hmem : a + k * pageSize ∈ pagesFrom a b := List.mem_map.mpr ⟨k, hk, rfl⟩
    obtain ⟨-, -, hlt⟩ := mem_pagesFrom.mp hmem
    omega
  have hpage := (pathOf_inj (hbelow hk) (hbelow hm)).mp heq
  change (a + k * 4096) / 4096 = (a + m * 4096) / 4096 at hpage
  omega

theorem pagesFrom_before {x y a : Nat} {before after : List Nat} (h : pagesFrom x y = before ++ a :: after) :
    before = pagesFrom x a := by
  have ha := pagesFrom_split h
  have hlen := congrArg List.length h
  have htake := congrArg (List.take before.length) h
  rw [List.take_left] at htake
  rw [← htake]
  unfold pagesFrom at hlen ⊢
  rw [List.length_map, List.length_range, List.length_append, List.length_cons] at hlen
  rw [← List.map_take, List.take_range, hlen, ha]
  congr 2
  show min before.length _ = (x + before.length * 4096 - x + 4096 - 1) / 4096
  omega

/-- The prefix up to which there are enough pages. -/
theorem exists_last_enough {f : List Nat → Nat} {m : Nat} (hzero : f [] ≤ m) (has : m < f as) :
    ∃ before a after, as = before ++ a :: after ∧ f before ≤ m ∧ m < f (before ++ [a]) := by
  induction as using List.reverseRecOn with
  | nil => omega
  | append_singleton as a ih =>
    by_cases hinit : m < f as
    · obtain ⟨before, b, after, rfl, hle, hlt⟩ := ih hinit
      exact ⟨before, b, after ++ [a], by rw [List.append_assoc]; rfl, hle, hlt⟩
    · exact ⟨as, a, [], rfl, by omega, has⟩

theorem throughInt_mod (n : Nat) : throughInt n % 2 ^ 32 = n % 2 ^ 32 := by
  unfold throughInt
  split
  · exact Nat.mod_mod n _
  · omega

section Cases

variable {sz stksz : Nat} {n : Int}

theorem UserProcess.mapped {a : Nat} (h : UserProcess s pgdir sz stksz) (ha : a < sz) :
    missingTables s pgdir a = 0 := by
  have hfits := h.fits
  have hround := roundUp_eq sz
  exact missingTables_of_maps ((h.heap a (by omega)).mpr (by omega))

/-- The process shrinks. -/
theorem UserProcess.shrinks (h : UserProcess s pgdir sz stksz) (hneg : n < 0) (hn : -n < sz) :
    ∃ r sz' s', Runs (growproc pgdir sz n) s (r, sz') s' ∧ ExactOrNone s pgdir sz stksz n r sz' s' := by
  have hsmall := h.small
  obtain ⟨k, hk⟩ : ∃ k : Nat, (k : Int) = sz + n := ⟨(sz + n).toNat, by omega⟩
  have hsize : sz % 2 ^ 32 = sz := by omega
  have hnew : (sz + (n % 2 ^ 32).toNat) % 2 ^ 32 = k := by omega
  obtain ⟨r, hspace, hroot⟩ := h.space.tables
  obtain ⟨s', hdealloc, hun⟩ := hspace.uvmDealloc sz k h.space.pages hroot fun a ha => by
    obtain ⟨_, -, hlt⟩ := mem_pagesFrom.mp ha
    exact h.mapped hlt
  rw [Nat.min_eq_left (by omega)] at hdealloc
  have hresult := throughInt_mod k
  refine ⟨0, k, s', ?_, .inl ⟨rfl, hk, fun va hva => ?_⟩⟩
  · unfold growproc
    rw [hsize, hnew, if_neg (by omega), if_pos hneg]
    refine runs_bind.mpr ⟨_, s', hdealloc, ?_⟩
    rw [hresult, if_neg (by omega), Nat.mod_eq_of_lt (by omega)]
    exact runs_pure.mpr ⟨rfl, rfl⟩
  · have htop : sz ≤ uspaceTop := by
      have htop : uspaceTop = 2 ^ 48 := rfl
      omega
    have hrange := path_pagesFrom (roundUp_mod k) htop (show va < uspaceTop by omega)
    rw [maps_iff_leaf, hun.leaf]
    have hheap := h.heap va hva
    rw [maps_iff_leaf] at hheap
    have hround := roundUp_eq k
    have hround' := roundUp_eq sz
    by_cases hin : roundUp k pageSize ≤ va ∧ va < roundUp sz pageSize
    · rw [if_pos (hrange.mpr hin)]
      exact iff_of_false nofun (by omega)
    · rw [if_neg (mt hrange.mp hin), hheap]
      omega

/-- The process grows. -/
theorem UserProcess.grows (h : UserProcess s pgdir sz stksz) (hpos : 0 < n) (hn : n < 2 ^ 31)
    (henough : pagesNeeded s pgdir (newPages sz n) ≤ s.free.length) :
    ∃ r sz' s', Runs (growproc pgdir sz n) s (r, sz') s' ∧ ExactOrNone s pgdir sz stksz n r sz' s' := by
  have hsmall := h.small
  have htop : uspaceTop = 2 ^ 48 := rfl
  have hsize : sz % 2 ^ 32 = sz := by omega
  have hnew : (sz + (n % 2 ^ 32).toNat) % 2 ^ 32 = sz + n.toNat := by omega
  obtain ⟨data, s', hobtains, hall⟩ := h.space.allocRounds (pagesFrom_aligned (roundUp_mod sz))
    (pairwise_pagesFrom (show sz + n.toNat ≤ uspaceTop by omega)) henough
  have hloop : Runs (uvmAllocLoop pgdir 0 sz (newPages sz n ++ [])) s true s' :=
    hobtains.runs (runs_pure.mpr ⟨rfl, rfl⟩)
  rw [List.append_nil] at hloop
  have hs := hall.space.enough
  have halloc : Runs (Core.uvmAlloc pgdir 0 0 sz (sz + n.toNat)) s (throughInt (sz + n.toNat)) s' := by
    refine runs_bind.mpr ⟨⟨⟩, s, runs_require.mpr ⟨⟨by decide, by omega, by omega, by omega⟩, rfl⟩,
      runs_bind.mpr ⟨true, s', hloop, runs_pure.mpr ⟨rfl, rfl⟩⟩⟩
  obtain ⟨-, -, -, hmaps⟩ := h.space.uvmAlloc halloc hs
  have hresult := throughInt_mod (sz + n.toNat)
  refine ⟨0, sz + n.toNat, s', ?_, .inl ⟨rfl, by omega, fun va hva => ?_⟩⟩
  · unfold growproc
    rw [hsize, hnew, if_pos hpos]
    refine runs_bind.mpr ⟨_, s', halloc, ?_⟩
    rw [hresult, if_neg (by omega), Nat.mod_eq_of_lt (by omega)]
    exact runs_pure.mpr ⟨rfl, rfl⟩
  · have hround := roundUp_eq sz
    have hround' := roundUp_eq (sz + n.toNat)
    rw [hmaps va (by omega), h.heap va hva]
    omega

/-- A growth for which `uvm_alloc` runs out of pages at a page. -/
theorem growproc_out {before after : List Nat} {a : Nat} {data : List Nat} {s₁ : Sys} (hsz : 0 < sz)
    (hsmall : sz < 2 ^ 31) (hpos : 0 < n) (hn : n < 2 ^ 31) (has : newPages sz n = before ++ a :: after)
    (hobtains : Obtains pgdir before s data s₁) (hfree : s₁.free = [])
    (hdealloc : ∃ k, Runs (uvmDealloc pgdir 0 (a - pageSize) sz) { s₁ with short := true } k s') :
    Runs (growproc pgdir sz n) s (-1, sz) s' := by
  have htop : uspaceTop = 2 ^ 48 := rfl
  have hsize : sz % 2 ^ 32 = sz := by omega
  have hnew : (sz + (n % 2 ^ 32).toNat) % 2 ^ 32 = sz + n.toNat := by omega
  have hround := roundUp_eq sz
  have hbelow : a < sz + n.toNat ∧ roundUp sz pageSize ≤ a := by
    have hmem : a ∈ pagesFrom (roundUp sz pageSize) (sz + n.toNat) :=
      show a ∈ newPages sz n from has ▸ List.mem_append_right _ List.mem_cons_self
    obtain ⟨j, rfl, hlt⟩ := mem_pagesFrom.mp hmem
    exact ⟨hlt, Nat.le_add_right _ _⟩
  obtain ⟨k, hdealloc⟩ := hdealloc
  have hnone : Runs kalloc s₁ none { s₁ with short := true } := by
    unfold kalloc
    rw [runs_after (runs_get.mpr ⟨rfl, rfl⟩), hfree]
    exact runs_bind.mpr ⟨⟨⟩, _, runs_set.mpr rfl, runs_pure.mpr ⟨rfl, rfl⟩⟩
  have hwrap : (a + 2 ^ 64 - pageSize) % 2 ^ 64 = a - pageSize := by
    show (a + 2 ^ 64 - 4096) % 2 ^ 64 = a - 4096
    omega
  rw [← hwrap] at hdealloc
  have hloop : Runs (uvmAllocLoop pgdir 0 sz (newPages sz n)) s false s' := by
    rw [has]
    exact hobtains.runs (runs_bind.mpr ⟨none, _, hnone, runs_bind.mpr ⟨k, s', hdealloc,
      runs_pure.mpr ⟨rfl, rfl⟩⟩⟩)
  unfold growproc
  rw [hsize, hnew, if_pos hpos]
  refine runs_bind.mpr ⟨0, s', ?_, runs_pure.mpr ⟨rfl, rfl⟩⟩
  exact runs_bind.mpr ⟨⟨⟩, s, runs_require.mpr ⟨⟨by decide, by omega, by omega, by omega⟩, rfl⟩,
    runs_bind.mpr ⟨false, s', hloop, runs_pure.mpr ⟨rfl, rfl⟩⟩⟩

/-- Without free pages a process that needs one does not grow, and stays as it is. -/
theorem UserProcess.stays (h : UserProcess s pgdir sz stksz) (hpos : 0 < n) (hn : n < 2 ^ 31)
    (hfree : s.free = []) {a : Nat} {after : List Nat} (has : newPages sz n = a :: after) :
    ∃ r sz' s', Runs (growproc pgdir sz n) s (r, sz') s' ∧ ExactOrNone s pgdir sz stksz n r sz' s' := by
  have ha : a = roundUp sz pageSize + ([] : List Nat).length * pageSize :=
    pagesFrom_split (show pagesFrom _ _ = [] ++ a :: after from has)
  have hround := roundUp_eq sz
  change a = roundUp sz pageSize + 0 * 4096 at ha
  refine ⟨-1, sz, { s with short := true }, ?_, .inr ⟨rfl, rfl, fun va => leafOf_word rfl _ _ _⟩⟩
  refine growproc_out h.pos h.small hpos hn (show newPages sz n = [] ++ a :: after from has) .nil hfree
    ⟨throughInt (a - pageSize), ?_⟩
  rw [uvmDealloc_eq, if_pos]
  · exact runs_pure.mpr ⟨rfl, rfl⟩
  · left
    show sz ≥ a - 4096
    omega

/-- A process that gives up its whole size keeps the size and loses its pages. -/
theorem UserProcess.empties (h : UserProcess s pgdir sz stksz) (hn : n = -sz) :
    ∃ s', Runs (growproc pgdir sz n) s (-1, sz) s' ∧ leaf s' pgdir 0 ≠ leaf s pgdir 0 := by
  have hpos := h.pos
  have hsmall := h.small
  have hsize : sz % 2 ^ 32 = sz := by omega
  have hnew : (sz + (n % 2 ^ 32).toNat) % 2 ^ 32 = 0 := by omega
  obtain ⟨r, hspace, hroot⟩ := h.space.tables
  obtain ⟨s', hdealloc, hun⟩ := hspace.uvmDealloc sz 0 h.space.pages hroot fun a ha => by
    obtain ⟨_, -, hlt⟩ := mem_pagesFrom.mp ha
    exact h.mapped hlt
  rw [Nat.zero_min] at hdealloc
  refine ⟨s', ?_, fun hsame => ?_⟩
  · unfold growproc
    rw [hsize, hnew, if_neg (by omega), if_pos (by omega)]
    exact runs_bind.mpr ⟨_, s', hdealloc, runs_pure.mpr ⟨rfl, rfl⟩⟩
  · have hround := roundUp_eq sz
    have hfits := h.fits
    have hmapped := maps_iff_leaf.mp ((h.heap 0 (by omega)).mpr (by omega))
    rw [← hsame, hun.leaf, if_pos] at hmapped
    · cases hmapped
    · exact ⟨0, mem_pagesFrom.mpr ⟨0, rfl, hpos⟩, rfl⟩

/-- A process that gives up more than its size is told that it has. -/
theorem growproc_past_zero (hpos : 0 < sz) (hsmall : sz < 2 ^ 31) (hn : -n > sz) (hlow : -2 ^ 31 ≤ n) :
    Runs (growproc pgdir sz n) s (0, sz) s := by
  have hsize : sz % 2 ^ 32 = sz := by omega
  have hbig : sz ≤ (sz + (n % 2 ^ 32).toNat) % 2 ^ 32 := by omega
  have hresult := throughInt_mod sz
  unfold growproc
  rw [hsize, if_neg (by omega), if_pos (by omega)]
  refine runs_bind.mpr ⟨throughInt sz, s, ?_, ?_⟩
  · rw [uvmDealloc_eq, if_pos (.inl hbig)]
    exact runs_pure.mpr ⟨rfl, rfl⟩
  · rw [hresult, hsize, if_neg (by omega)]
    exact runs_pure.mpr ⟨rfl, rfl⟩

/-- A process for which the free pages run out at a page keeps the last page that was mapped. -/
theorem UserProcess.keeps_page (h : UserProcess s pgdir sz stksz) (hpos : 0 < n) (hn : n < 2 ^ 31)
    (hfree : s.free ≠ []) {before after : List Nat} {a : Nat} (has : newPages sz n = before ++ a :: after)
    (hneeded : pagesNeeded s pgdir before = s.free.length) :
    ∃ s', Runs (growproc pgdir sz n) s (-1, sz) s' ∧ ∃ va, leaf s' pgdir va ≠ leaf s pgdir va := by
  have hsmall := h.small
  have htop : uspaceTop = 2 ^ 48 := rfl
  have hsplit : pagesFrom (roundUp sz pageSize) (sz + n.toNat) = before ++ a :: after := has
  have ha := pagesFrom_split hsplit
  have hlt : a < sz + n.toNat := by
    obtain ⟨_, -, hlt⟩ := mem_pagesFrom.mp (hsplit ▸ List.mem_append_right before List.mem_cons_self)
    exact hlt
  obtain rfl := pagesFrom_before hsplit
  have hne : pagesFrom (roundUp sz pageSize) a ≠ [] := by
    intro hnil
    rw [hnil] at hneeded
    exact hfree (List.eq_nil_of_length_eq_zero hneeded.symm)
  obtain ⟨data, s₁, hobtains, hall⟩ := h.space.allocRounds
    (pagesFrom_aligned (roundUp_mod sz)) (pairwise_pagesFrom (by omega)) hneeded.le
  have htaken := hall.taken
  have hempty : s₁.free = [] := List.eq_nil_of_length_eq_zero (by omega)
  -- the last page that was mapped
  have hlast : a - pageSize ∈ pagesFrom (roundUp sz pageSize) a := by
    have hlen := List.length_pos_iff.mpr hne
    change a = roundUp sz pageSize + (pagesFrom (roundUp sz pageSize) a).length * 4096 at ha
    refine mem_pagesFrom.mpr ⟨(pagesFrom (roundUp sz pageSize) a).length - 1, ?_, ?_⟩
    · show a - 4096 = roundUp sz pageSize + ((pagesFrom (roundUp sz pageSize) a).length - 1) * 4096
      omega
    · show a - 4096 < a
      omega
  obtain ⟨p, hp, htrans⟩ := hall.pages _ hlast
  obtain ⟨r, hspace, hroot⟩ := hall.space.tables
  have hspace₂ : Space r { s₁ with short := true } := hspace.of_words (fun _ _ _ _ => rfl) hspace.apart
  have hpages := hall.space.pages
  obtain ⟨s', hdealloc, hun⟩ := hspace₂.uvmDealloc (a - pageSize) sz
    ⟨hpages.free, hpages.arena, hpages.disjoint, hpages.below⟩ hroot fun b hb => by
    obtain ⟨k, hk, hltb⟩ := mem_pagesFrom.mp hb
    obtain ⟨q, -, hq⟩ := hall.pages b (mem_pagesFrom.mpr ⟨k, hk, by omega⟩)
    exact (missing_word (by rfl) _ _).trans (missingTables_of_maps (maps_iff_translate.mpr ⟨q, hq⟩))
  refine ⟨s', growproc_out h.pos hsmall hpos hn has hobtains hempty ⟨_, hdealloc⟩, a - pageSize,
    fun hsame => ?_⟩
  have hkept : leaf s' pgdir (a - pageSize) = leaf s₁ pgdir (a - pageSize) := by
    rw [hun.leaf, if_neg]
    · exact leafOf_word (by rfl) _ _ _
    · rintro ⟨b, hb, hpath⟩
      obtain ⟨k, hk, hltb⟩ := mem_pagesFrom.mp hb
      obtain ⟨j, hj, hltj⟩ := mem_pagesFrom.mp hlast
      have hpage := (pathOf_inj (by omega) (by omega)).mp hpath
      have hround := roundUp_eq sz
      change b = roundUp sz pageSize + k * 4096 at hk
      change a - pageSize = roundUp sz pageSize + j * 4096 at hj
      change (a - pageSize) / 4096 = b / 4096 at hpage
      omega
  have hold : translate s pgdir (a - pageSize) = some p := by
    rw [translate_eq_leaf, ← hsame, hkept, ← translate_eq_leaf]
    exact htrans
  obtain ⟨r₀, hspace₀, hroot₀⟩ := h.space.tables
  have hrole := hspace₀.translate hroot₀ hold
  rw [hspace₀.apart p (.inl hp)] at hrole
  cases hrole

/-- `growproc` is exact or has no effect if the process keeps some of its size, and there is a page for each
new page and table or none at all. Otherwise it is neither, unless the pages run out at a table. -/
theorem growproc_exact_iff (h : UserProcess s pgdir sz stksz) (hlow : -2 ^ 31 ≤ n) (hhigh : n < 2 ^ 31) :
    (Resizable s pgdir sz n →
      ∃ r sz' s', Runs (growproc pgdir sz n) s (r, sz') s' ∧ ExactOrNone s pgdir sz stksz n r sz' s') ∧
    ((∃ r sz' s', Runs (growproc pgdir sz n) s (r, sz') s' ∧ ExactOrNone s pgdir sz stksz n r sz' s') →
      Resizable s pgdir sz n ∨ OutAtTable s pgdir (newPages sz n)) := by
  have hpos := h.pos
  have hsmall := h.small
  constructor
  · rintro ⟨hneg, hgrow⟩
    rcases lt_trichotomy n 0 with hn | rfl | hn
    · exact h.shrinks hn (hneg hn)
    · refine ⟨0, sz, s, ?_, .inl ⟨rfl, (Int.add_zero _).symm, h.heap⟩⟩
      unfold growproc
      rw [if_neg (by decide), if_neg (by decide), Nat.mod_eq_of_lt (by omega)]
      exact runs_pure.mpr ⟨rfl, rfl⟩
    · obtain henough | hfree := hgrow hn
      · exact h.grows hn hhigh henough
      · cases has : newPages sz n with
        | nil => exact h.grows hn hhigh (by rw [has]; exact Nat.zero_le _)
        | cons a after => exact h.stays hn hhigh hfree has
  · rintro ⟨r, sz', s', hr, hexact⟩
    rcases lt_trichotomy n 0 with hn | rfl | hn
    · refine .inl ⟨fun _ => ?_, fun hn' => absurd hn' (by omega)⟩
      by_contra hall
      rcases eq_or_lt_of_le (not_lt.mp hall) with hzero | hpast
      · -- the whole size
        obtain ⟨t, ht, hlost⟩ := h.empties (n := n) (by omega)
        obtain ⟨heq, rfl⟩ := hr.unique ht
        cases heq
        obtain ⟨habs, -⟩ | ⟨-, -, hsame⟩ := hexact
        · cases habs
        · exact hlost (hsame 0)
      · obtain ⟨heq, rfl⟩ := hr.unique (growproc_past_zero hpos hsmall hpast hlow)
        cases heq
        obtain ⟨-, hsize, -⟩ | ⟨habs, -⟩ := hexact
        · omega
        · cases habs
    · exact .inl ⟨fun hn => absurd hn (by decide), fun hn => absurd hn (by decide)⟩
    · by_cases hres : pagesNeeded s pgdir (newPages sz n) ≤ s.free.length ∨ s.free = []
      · exact .inl ⟨fun hn' => absurd hn' (by omega), fun _ => hres⟩
      · rw [not_or] at hres
        obtain ⟨before, a, after, has, hle, hlt⟩ := exists_last_enough (f := pagesNeeded s pgdir)
          (Nat.zero_le s.free.length) (show s.free.length < pagesNeeded s pgdir (newPages sz n) by omega)
        rcases eq_or_lt_of_le hle with heq | hout
        · -- the pages run out at a page
          obtain ⟨t, ht, va, hlost⟩ := h.keeps_page hn hhigh hres.2 has heq
          obtain ⟨heq, rfl⟩ := hr.unique ht
          cases heq
          obtain ⟨habs, -⟩ | ⟨-, -, hsame⟩ := hexact
          · cases habs
          · exact absurd (hsame va) hlost
        · exact .inr ⟨before, a, after, has, hout, hlt⟩

end Cases

/-- The first process: a page at the address 0, behind tables on the pages from 1 on, and two free pages. -/
def initProcess : Sys where
  kernel := alone 1 fun _ => ⟨false, 0, none⟩
  pgdir _ _ := some 1
  kstack _ _ := none
  free := [6, 7]
  word p i := if i = 0 ∧ 1 ≤ p ∧ p < 5 then pte (p + 1) pteUserData else 0
  arena := []
  short := false

theorem initProcess_word (h : pteValid (initProcess.word p i)) :
    i = 0 ∧ 1 ≤ p ∧ p < 5 ∧ pteFrame (initProcess.word p i) = p + 1 := by
  have hword : initProcess.word p i = if i = 0 ∧ 1 ≤ p ∧ p < 5 then pte (p + 1) pteUserData else 0 := rfl
  rw [hword] at h ⊢
  by_cases hin : i = 0 ∧ 1 ≤ p ∧ p < 5
  · rw [if_pos hin]
    exact ⟨hin.1, hin.2.1, hin.2.2, pteFrame_pte (show p + 1 < 0x3F000 by omega) (by decide)⟩
  · rw [if_neg hin] at h
    exact absurd h (by decide)

theorem initProcess_space : AddressSpace initProcess 1 := by
  have hrole {p l : Nat} (h : (if 1 ≤ p ∧ p < 6 then some (p - 1) else none) = some l) :
      1 ≤ p ∧ p < 6 ∧ p - 1 = l := by
    rw [Option.ite_none_right_eq_some] at h
    exact ⟨h.1.1, h.1.2, Option.some.inj h.2⟩
  refine ⟨⟨by decide, List.nodup_nil, nofun, fun p hp => ?_⟩,
    ⟨fun p => if 1 ≤ p ∧ p < 6 then some (p - 1) else none, ?_, rfl⟩, rfl⟩
  · have hbelow : ∀ p ∈ [6, 7], p < physPages := by decide
    exact hbelow p (hp.resolve_right nofun)
  constructor
  · intro p hp
    have hfree : ∀ p ∈ [6, 7], (if 1 ≤ p ∧ p < 6 then some (p - 1) else none) = none := by decide
    exact hfree p (hp.resolve_right nofun)
  · intro p l hp
    have hin := hrole hp
    show p < 0x3F000
    omega
  · intro t l i ht hl hv
    have hin := hrole ht
    obtain ⟨-, hone, hfive, hframe⟩ := initProcess_word hv
    rw [hframe, if_pos ⟨by omega, by omega⟩]
    congr 1
    omega
  · rintro t i t' i' q ⟨-, hv, hq⟩ ⟨-, hv', hq'⟩
    obtain ⟨rfl, -, -, hframe⟩ := initProcess_word hv
    obtain ⟨rfl, -, -, hframe'⟩ := initProcess_word hv'
    exact ⟨by omega, rfl⟩

theorem initProcess_process : UserProcess initProcess 1 4096 0 := by
  refine ⟨initProcess_space, by decide, by decide, by decide, fun va hva => ?_⟩
  have hpath : Maps initProcess 1 va ↔ pathOf va = pathOf 0 := by
    constructor
    · intro hmaps
      obtain ⟨q, hq⟩ := Option.isSome_iff_exists.mp hmaps
      unfold pathOf at hq ⊢
      simp only [follow, Option.ite_none_right_eq_some] at hq
      obtain ⟨h3, h2, h1, h0, -⟩ := hq
      rw [(initProcess_word h3).1, (initProcess_word h2).1, (initProcess_word h1).1, (initProcess_word h0).1]
      rfl
    · intro heq
      unfold Maps
      rw [heq]
      decide +kernel
  have hround : roundUp 4096 pageSize = 4096 := by decide
  rw [hpath, pathOf_inj hva (by decide), hround]
  show va / 4096 = 0 / 4096 ↔ va < 4096
  omega

/-- `initProcess` grows by a page. -/
theorem growproc_exact_iff_page : ∃ r sz' s', Runs (growproc 1 4096 4096) initProcess (r, sz') s' ∧
    ExactOrNone initProcess 1 4096 0 4096 r sz' s' :=
  (growproc_exact_iff initProcess_process (by decide) (by decide)).1
    ⟨fun h => absurd h (by decide), fun _ => .inl (by decide +kernel)⟩

/-- A shrink of `initProcess` to nothing takes its page away and fails. -/
theorem growproc_loses_page : UserProcess initProcess 1 4096 0 ∧
    ¬∃ r sz' s', Runs (growproc 1 4096 (-4096)) initProcess (r, sz') s' ∧
      ExactOrNone initProcess 1 4096 0 (-4096) r sz' s' := by
  refine ⟨initProcess_process, ?_⟩
  rintro ⟨r, sz', s', hr, hexact⟩
  obtain ⟨t, ht, hlost⟩ := initProcess_process.empties (n := -4096) rfl
  obtain ⟨heq, rfl⟩ := hr.unique ht
  cases heq
  obtain ⟨habs, -⟩ | ⟨-, -, hsame⟩ := hexact
  · cases habs
  · exact hlost (hsame 0)

end FtosFfs.Core
