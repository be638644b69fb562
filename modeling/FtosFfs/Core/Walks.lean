import FtosFfs.Core.Pid
import FtosFfs.Core.Translate

/-! Walks through the tables of a process, with free pages for the missing tables or without them:
when `pgdir_walk` stays inside the tables, and which pages `uvm_dealloc` frees. -/

namespace FtosFfs.Core

open Lib Lib.Exec

variable {s s' : Sys} {r r' : Roles} {p q t l k va pgdir : Nat} {is ks : List Nat} {alloc : Bool}

/-- The pages with roles from 0 to 3 are tables in a tree: they lead from level to level, no two
entries above the last level to one table, and none of them is free. -/
structure Tables (r : Roles) (s : Sys) : Prop where
  apart : ∀ p ∈ s.free, r p = none
  typed : ∀ t l i, r t = some l → l < 3 → pteValid (s.word t i) →
    r (pteFrame (s.word t i)) = some (l + 1)
  inj : ∀ t l i t' l' i', r t = some l → l < 3 → r t' = some l' → l' < 3 →
    pteValid (s.word t i) → pteValid (s.word t' i') →
    pteFrame (s.word t i) = pteFrame (s.word t' i') → t = t' ∧ i = i'

theorem Space.toTables (h : Space r s) : Tables r s := by
  constructor
  · exact fun p hp => h.apart p (.inl hp)
  · exact fun t l i ht hl hv => h.typed t l i ht (by omega) hv
  · intro t l i t' l' i' ht hl ht' hl' hv hv' heq
    exact h.inj t i t' i' _ ⟨⟨l, ht, by omega⟩, hv, rfl⟩ ⟨⟨l', ht', by omega⟩, hv', heq.symm⟩

/-- A path of tables leads from level to level. -/
theorem Tables.follow_role (h : Tables r s) (ht : r t = some l) (hl : l + is.length ≤ 3)
    (hq : follow s is t = some q) : r q = some (l + is.length) := by
  induction is generalizing t l with
  | nil =>
    cases hq
    exact ht
  | cons i is ih =>
    rw [List.length_cons] at hl ⊢
    rw [follow, Option.ite_none_right_eq_some] at hq
    rw [ih (h.typed t l i ht (by omega) hq.1) (by omega) hq.2, Nat.add_right_comm, Nat.add_assoc]

/-- The entry of the last table on a path. -/
def leafOf (s : Sys) (is : List Nat) (j t : Nat) : Option Nat :=
  (follow s is t).bind fun u => if pteValid (s.word u j) then some (s.word u j) else none

/-- The path of the address to its last table. -/
def tablePath (va : Nat) : List Nat := [pteIndex va 3, pteIndex va 2, pteIndex va 1]

theorem tablePath_le (va : Nat) : 0 + (tablePath va).length ≤ 4 := show 0 + 3 ≤ 4 by decide

theorem pathOf_eq (va : Nat) : pathOf va = tablePath va ++ [pteIndex va 0] := rfl

/-- The entry with which the processor maps the address. -/
def leaf (s : Sys) (pgdir va : Nat) : Option Nat := leafOf s (tablePath va) (pteIndex va 0) pgdir

theorem leafOf_cons (s : Sys) (i : Nat) (is : List Nat) (j t : Nat) :
    leafOf s (i :: is) j t =
      if pteValid (s.word t i) then leafOf s is j (pteFrame (s.word t i)) else none := by
  unfold leafOf
  rw [follow]
  split
  · rfl
  · rfl

theorem translate_eq_leaf (s : Sys) (pgdir va : Nat) :
    translate s pgdir va = (leaf s pgdir va).map pteFrame := by
  rw [translate_eq_follow, pathOf_eq, follow_append]
  unfold leaf leafOf
  cases follow s (tablePath va) pgdir with
  | none => rfl
  | some u =>
    rw [Option.bind_some, Option.bind_some, follow]
    split
    · rfl
    · rfl

/-! ### One step -/

/-- The state after a table has been made of the first free page. -/
def Sys.linked (s : Sys) (free : List Nat) (p t i : Nat) : Sys :=
  ({ s with free }.fill p fun _ => 0).store t i (pte p pteTable)

/-- A step finds the next table, or makes it, or goes where the invalid entry leads. -/
theorem walkStep_outcome (hr : Runs (walkStep va alloc t k) s q s') :
    (pteValid (s.word t (pteIndex va k)) ∧ s' = s ∧ q = pteFrame (s.word t (pteIndex va k))) ∨
    (¬pteValid (s.word t (pteIndex va k)) ∧ alloc = true ∧ ∃ p free, s.free = p :: free ∧
      s' = s.linked free p t (pteIndex va k) ∧ q = pteFrame (pte p pteTable)) ∨
    (¬pteValid (s.word t (pteIndex va k)) ∧ (alloc = true → s.free = []) ∧
      s' = { s with short := s.short || alloc } ∧ q = pteFrame (s.word t (pteIndex va k))) := by
  obtain ⟨_, _, hget, hr⟩ := runs_bind.mp hr
  obtain ⟨rfl, rfl⟩ := runs_get.mp hget
  obtain ⟨_, s₁, hwhen, hr⟩ := runs_bind.mp hr
  obtain ⟨_, _, hget, hr⟩ := runs_bind.mp hr
  obtain ⟨rfl, rfl⟩ := runs_get.mp hget
  obtain ⟨rfl, rfl⟩ := runs_pure.mp hr
  rw [runs_when] at hwhen
  obtain ⟨⟨hv, halloc⟩, hwhen⟩ | ⟨hnot, rfl⟩ := hwhen
  · obtain ⟨o, s₂, hinit, hstore⟩ := runs_bind.mp hwhen
    obtain ⟨p, free, rfl, hfree, rfl⟩ | ⟨rfl, hfree, rfl⟩ := pgdirInit_cases hinit
    · obtain rfl := runs_modify.mp hstore
      refine .inr (.inl ⟨hv, halloc, p, free, hfree, rfl, ?_⟩)
      rw [Sys.word_store_self]
    · obtain ⟨-, rfl⟩ := runs_pure.mp hstore
      refine .inr (.inr ⟨hv, fun _ => hfree, ?_, rfl⟩)
      rw [halloc, Bool.or_true]
  · by_cases hv : pteValid (s.word t (pteIndex va k))
    · exact .inl ⟨hv, rfl, rfl⟩
    · have halloc : alloc = false := by
        cases alloc with
        | false => rfl
        | true => exact absurd ⟨hv, rfl⟩ hnot
      refine .inr (.inr ⟨hv, fun h => ?_, ?_, rfl⟩)
      · rw [halloc] at h
        cases h
      · rw [halloc, Bool.or_false]

/-! ### A whole walk -/

/-- The entries of the tables that are not valid are zero. -/
def Zeroed (r : Roles) (s : Sys) : Prop :=
  ∀ t l i, r t = some l → l < 4 → ¬pteValid (s.word t i) → s.word t i = 0

/-- The tables after a walk: some have been made of free pages, the entries of the others that are
valid have stayed, and no page is mapped differently. -/
structure Walked (r : Roles) (s : Sys) (r' : Roles) (s' : Sys) : Prop where
  tables : Tables r' s'
  pages : Pages s → Pages s'
  free : s'.free.Sublist s.free
  grows : ∀ p l, r p = some l → r' p = some l
  words : ∀ p, r' p = none → s'.word p = s.word p
  keeps : ∀ u m i, r u = some m → m < 3 → pteValid (s.word u i) → s'.word u i = s.word u i
  leaves : ∀ is j u m, r u = some m → m + is.length = 3 → leafOf s' is j u = leafOf s is j u
  taken : ∀ p, r p = none → r' p ≠ none → p ∈ s.free
  zeroed : Zeroed r s → Zeroed r' s'

theorem leafOf_word (hw : s'.word = s.word) (is : List Nat) (j t : Nat) :
    leafOf s' is j t = leafOf s is j t := by
  unfold leafOf
  rw [follow_word hw, hw]

/-- Nothing has been written, and no page has been taken. -/
theorem Walked.still (h : Tables r s) (hf : s'.free = s.free) (ha : s'.arena = s.arena)
    (hw : s'.word = s.word) : Walked r s r s' := by
  constructor
  · exact ⟨hf ▸ h.apart, hw ▸ h.typed, hw ▸ h.inj⟩
  · intro hp
    exact ⟨hf ▸ hp.free, ha ▸ hp.arena, by rw [hf, ha]; exact hp.disjoint, by rw [hf, ha]; exact hp.below⟩
  · rw [hf]
  · exact fun _ _ => id
  · exact fun p _ => congrFun hw p
  · exact fun u m i _ _ _ => by rw [hw]
  · exact fun is j u m _ _ => leafOf_word hw is j u
  · exact fun _ hp hne => absurd hp hne
  · unfold Zeroed
    rw [hw]
    exact id

theorem Walked.refl (h : Tables r s) : Walked r s r s := .still h rfl rfl rfl

theorem Walked.trans {r₁ : Roles} {s₁ : Sys} (h : Walked r s r₁ s₁) (h' : Walked r₁ s₁ r' s') :
    Walked r s r' s' := by
  constructor
  · exact h'.tables
  · exact fun hp => h'.pages (h.pages hp)
  · exact h'.free.trans h.free
  · exact fun p l hp => h'.grows p l (h.grows p l hp)
  · intro p hp
    have hp₁ : r₁ p = none := by
      by_contra hne
      obtain ⟨l, hl⟩ := Option.ne_none_iff_exists'.mp hne
      rw [h'.grows p l hl] at hp
      cases hp
    rw [h'.words p hp, h.words p hp₁]
  · intro u m i hu hm hv
    have hkeep := h.keeps u m i hu hm hv
    rw [h'.keeps u m i (h.grows u m hu) hm (hkeep ▸ hv), hkeep]
  · exact fun is j u m hu hm => (h'.leaves is j u m (h.grows u m hu) hm).trans (h.leaves is j u m hu hm)
  · intro p hp hne
    by_cases hp₁ : r₁ p = none
    · exact h.free.subset (h'.taken p hp₁ hne)
    · exact h.taken p hp hp₁
  · exact fun hz => h'.zeroed (h.zeroed hz)

/-- Valid entries lead on as before. -/
theorem Walked.follow (hw : Walked r s r' s') (h : Tables r s) (ht : r t = some l)
    (hl : l + is.length ≤ 3) (hq : follow s is t = some q) : follow s' is t = some q := by
  induction is generalizing t l with
  | nil => exact hq
  | cons i is ih =>
    rw [List.length_cons] at hl
    rw [Core.follow, Option.ite_none_right_eq_some] at hq
    rw [Core.follow, hw.keeps t l i ht (by omega) hq.1, if_pos hq.1]
    exact ih (h.typed t l i ht (by omega) hq.1) (by omega) hq.2

theorem word_linked (s : Sys) (free : List Nat) (p t i u j : Nat) :
    (s.linked free p t i).word u j =
      if u = t ∧ j = i then pte p pteTable else if u = p then 0 else s.word u j := by
  unfold Sys.linked
  split
  case isTrue h =>
    obtain ⟨rfl, rfl⟩ := h
    exact Sys.word_store_self ..
  case isFalse h =>
    rw [Sys.word_store_ne _ h]
    show Function.update s.word p _ u j = _
    by_cases hup : u = p
    · rw [if_pos hup, hup, Function.update_self]
    · rw [if_neg hup, Function.update_of_ne hup]

theorem word_linked_self (s : Sys) (free : List Nat) (p t i : Nat) :
    (s.linked free p t i).word t i = pte p pteTable := Sys.word_store_self ..

theorem word_linked_new (s : Sys) (free : List Nat) (i j : Nat) (h : p ≠ t) :
    (s.linked free p t i).word p j = 0 := by
  rw [word_linked, if_neg fun h' => h h'.1, if_pos rfl]

theorem pteValid_table (p : Nat) : pteValid (pte p pteTable) := by
  unfold pteValid pte
  show (4096 * p + 3) % 2 = 1
  omega

theorem Pages.rest {free : List Nat} (h : Pages s) (hfree : s.free = p :: free) (hf : s'.free = free)
    (ha : s'.arena = s.arena) : Pages s' := by
  refine h.sublist ?_ ha
  rw [hf, hfree]
  exact List.sublist_cons_self p free

/-- A table that has been made is empty, and in the tree. -/
theorem Tables.linked {free : List Nat} {i : Nat} (h : Tables r s) (hp : Pages s)
    (hfree : s.free = p :: free) (ht : r t = some l) (hl : l < 3) (hv : ¬pteValid (s.word t i)) :
    Walked r s (Function.update r p (some (l + 1))) (s.linked free p t i) := by
  have hmem : p ∈ s.free := hfree ▸ List.mem_cons_self
  have hnone : r p = none := h.apart p hmem
  have hne {u m : Nat} (hu : r u = some m) : u ≠ p := by
    rintro rfl
    rw [hnone] at hu
    cases hu
  have hframe : pteFrame (pte p pteTable) = p := pteFrame_pte (hp.below p (.inl hmem)) (by decide)
  have hword := word_linked s free p t i
  have hnew := word_linked_self s free p t i
  have hkept {u m j : Nat} (hu : r u = some m) (hthere : ¬(u = t ∧ j = i)) :
      (s.linked free p t i).word u j = s.word u j := by
    rw [hword, if_neg hthere, if_neg (hne hu)]
  -- an entry of the tree is the new one or one from before
  have hold {u m j : Nat} (hu : Function.update r p (some (l + 1)) u = some m)
      (hvu : pteValid ((s.linked free p t i).word u j)) :
      (u = t ∧ j = i ∧ pteFrame ((s.linked free p t i).word u j) = p ∧ m = l) ∨
      (¬(u = t ∧ j = i) ∧ r u = some m ∧ pteValid (s.word u j) ∧
        (s.linked free p t i).word u j = s.word u j) := by
    rw [hword] at hvu ⊢
    by_cases hhere : u = t ∧ j = i
    · obtain ⟨rfl, rfl⟩ := hhere
      rw [Function.update_of_ne (hne ht), ht] at hu
      rw [if_pos ⟨rfl, rfl⟩, hframe]
      exact .inl ⟨rfl, rfl, rfl, (Option.some.inj hu).symm⟩
    · rw [if_neg hhere] at hvu ⊢
      by_cases hup : u = p
      · rw [if_pos hup] at hvu
        exact absurd hvu (by decide)
      · rw [if_neg hup] at hvu ⊢
        rw [Function.update_of_ne hup] at hu
        exact .inr ⟨hhere, hu, hvu, rfl⟩
  have hfresh {u m j : Nat} (hu : r u = some m) (hm : m < 3) (hvu : pteValid (s.word u j)) :
      pteFrame (s.word u j) ≠ p := by
    intro heq
    have htyped := h.typed u m j hu hm hvu
    rw [heq, hnone] at htyped
    cases htyped
  constructor
  · constructor
    · intro q hq
      have hqp : q ≠ p := by
        rintro rfl
        exact (List.nodup_cons.mp (hfree ▸ hp.free)).1 hq
      rw [Function.update_of_ne hqp]
      exact h.apart q (hfree ▸ List.mem_cons_of_mem p hq)
    · intro u m j hu hm hvu
      obtain ⟨-, -, heq, rfl⟩ | ⟨-, hu', hvu', heq⟩ := hold hu hvu
      · rw [heq, Function.update_self]
      · rw [heq, Function.update_of_ne (hfresh hu' hm hvu')]
        exact h.typed u m j hu' hm hvu'
    · intro u m j u' m' j' hu hm hu' hm' hvu hvu' heq
      obtain ⟨rfl, rfl, h1, -⟩ | ⟨-, h1, h1', he⟩ := hold hu hvu
      · obtain ⟨rfl, rfl, -, -⟩ | ⟨-, h2, h2', he'⟩ := hold hu' hvu'
        · exact ⟨rfl, rfl⟩
        · rw [h1, he'] at heq
          exact absurd heq.symm (hfresh h2 hm' h2')
      · obtain ⟨rfl, rfl, h2, -⟩ | ⟨-, h2, h2', he'⟩ := hold hu' hvu'
        · rw [h2, he] at heq
          exact absurd heq (hfresh h1 hm h1')
        · rw [he, he'] at heq
          exact h.inj u m j u' m' j' h1 hm h2 hm' h1' h2' heq
  · exact fun hp => hp.rest hfree rfl rfl
  · show free.Sublist s.free
    rw [hfree]
    exact List.sublist_cons_self p free
  · intro u m hu
    rwa [Function.update_of_ne (hne hu)]
  · intro u hu
    funext j
    have hup : u ≠ p := by
      rintro rfl
      rw [Function.update_self] at hu
      cases hu
    rw [Function.update_of_ne hup] at hu
    have hut : u ≠ t := by
      rintro rfl
      rw [ht] at hu
      cases hu
    rw [hword, if_neg (fun h => hut h.1), if_neg hup]
  · intro u m j hu hm hvu
    apply hkept hu
    rintro ⟨rfl, rfl⟩
    exact hv hvu
  · -- a path through the new table comes to no entry
    intro is j
    induction is with
    | nil =>
      intro u m hu hm
      have hut : u ≠ t := by
        rintro rfl
        obtain rfl : m = l := Option.some.inj (hu.symm.trans ht)
        rw [List.length_nil] at hm
        omega
      unfold leafOf
      rw [Core.follow, Core.follow, Option.bind_some, Option.bind_some, hkept hu fun h => hut h.1]
    | cons a is ih =>
      intro u m hu hm
      rw [List.length_cons] at hm
      rw [leafOf_cons, leafOf_cons]
      by_cases hhere : u = t ∧ a = i
      · obtain ⟨rfl, rfl⟩ := hhere
        rw [hnew, if_pos (pteValid_table p), if_neg hv, hframe]
        have hempty (b : Nat) := word_linked_new s free a b (hne ht).symm
        cases is with
        | nil =>
          unfold leafOf
          rw [Core.follow, Option.bind_some, hempty, if_neg (by decide)]
        | cons b is => rw [leafOf_cons, hempty, if_neg (by decide)]
      · rw [hkept hu hhere]
        split
        case isFalse => rfl
        case isTrue hvu => exact ih _ _ (h.typed u m a hu (by omega) hvu) (by omega)
  · intro u hu hne'
    by_contra hfree'
    have hup : u ≠ p := by
      rintro rfl
      exact hfree' hmem
    rw [Function.update_of_ne hup] at hne'
    exact hne' hu
  · intro hz u m j hu hm hvu
    by_cases hhere : u = t ∧ j = i
    · obtain ⟨rfl, rfl⟩ := hhere
      rw [hnew] at hvu
      exact absurd (pteValid_table p) hvu
    · by_cases hup : u = p
      · rw [hword, if_neg hhere, if_pos hup]
      · rw [Function.update_of_ne hup] at hu
        rw [hkept hu hhere] at hvu ⊢
        exact hz u m j hu hm hvu

/-- How many tables are missing on the path from table `t` on. -/
def missing (s : Sys) : List Nat → Nat → Nat
  | [], _ => 0
  | i :: is, t => if pteValid (s.word t i) then missing s is (pteFrame (s.word t i)) else is.length + 1

theorem missing_word (hw : s'.word = s.word) (is : List Nat) (t : Nat) : missing s' is t = missing s is t := by
  induction is generalizing t with
  | nil => rfl
  | cons i is ih => rw [missing, missing, hw, ih]

theorem missing_eq_zero_iff (s : Sys) (is : List Nat) (t : Nat) :
    missing s is t = 0 ↔ (follow s is t).isSome = true := by
  induction is generalizing t with
  | nil => exact iff_of_true rfl rfl
  | cons i is ih =>
    rw [missing, follow]
    split
    case isTrue => exact ih _
    case isFalse => exact iff_of_false (Nat.succ_ne_zero _) Bool.false_ne_true

/-- All tables below an empty one are missing. -/
theorem missing_empty (h : ∀ j, s.word t j = 0) (is : List Nat) : missing s is t = is.length := by
  cases is with
  | nil => rfl
  | cons i is => rw [missing, h, if_neg (by decide), List.length_cons]

/-- Without free pages a walk writes nothing. -/
theorem walk_lost (hfree : alloc = true → s.free = [])
    (hr : Runs (ks.foldlM (walkStep va alloc) t) s q s') :
    s'.free = s.free ∧ s'.arena = s.arena ∧ s'.word = s.word := by
  induction ks generalizing t s with
  | nil =>
    obtain ⟨-, rfl⟩ := runs_pure.mp hr
    exact ⟨rfl, rfl, rfl⟩
  | cons k ks ih =>
    obtain ⟨u, s₁, hstep, hrest⟩ := runs_bind.mp (by rwa [List.foldlM_cons] at hr)
    obtain ⟨-, rfl, -⟩ | ⟨-, halloc, p, free, hcons, -⟩ | ⟨-, -, rfl, -⟩ := walkStep_outcome hstep
    · exact ih hfree hrest
    · rw [hfree halloc] at hcons
      cases hcons
    · exact ih (s := { s with short := s.short || alloc }) hfree hrest

/-- The free pages that a walk can make tables of. -/
def spare (s : Sys) (alloc : Bool) : Nat := if alloc then s.free.length else 0

/-- A walk keeps the tables, and comes to the last table of its path exactly if there are free pages
for the missing tables. -/
theorem Tables.walk (h : Tables r s) (hp : Pages s) (ht : r t = some l) (hl : l + ks.length ≤ 3)
    (hr : Runs (ks.foldlM (walkStep va alloc) t) s q s') :
    (∃ r', Walked r s r' s') ∧
      (follow s' (ks.map (pteIndex va)) t = some q ↔ missing s (ks.map (pteIndex va)) t ≤ spare s alloc) ∧
      (alloc = true → s'.short = false → missing s (ks.map (pteIndex va)) t ≤ spare s alloc) := by
  induction ks generalizing s r t l with
  | nil =>
    obtain ⟨rfl, rfl⟩ := runs_pure.mp hr
    exact ⟨⟨r, .refl h⟩, iff_of_true rfl (Nat.zero_le _), fun _ _ => Nat.zero_le _⟩
  | cons k ks ih =>
    rw [List.length_cons] at hl
    rw [List.map_cons, missing, List.length_map]
    obtain ⟨u, s₁, hstep, hr⟩ := runs_bind.mp (by rwa [List.foldlM_cons] at hr)
    obtain ⟨hv, rfl, rfl⟩ | ⟨hv, rfl, p, free, hfree, rfl, rfl⟩ | ⟨hv, hnone, rfl, rfl⟩ :=
      walkStep_outcome hstep
    case inl =>
      obtain ⟨⟨r', hw⟩, hiff, henough⟩ := ih h hp (h.typed t l _ ht (by omega) hv) (by omega) hr
      rw [Core.follow, hw.keeps t l _ ht (by omega) hv, if_pos hv, if_pos hv]
      exact ⟨⟨r', hw⟩, hiff, henough⟩
    case inr.inl =>
      have hmade := h.linked hp hfree ht (by omega) hv
      have hframe : pteFrame (pte p pteTable) = p :=
        pteFrame_pte (hp.below p (.inl (hfree ▸ List.mem_cons_self))) (by decide)
      have hnew := word_linked_self s free p t (pteIndex va k)
      have hrole : Function.update r p (some (l + 1)) (pteFrame (pte p pteTable)) = some (l + 1) := by
        rw [hframe, Function.update_self]
      have hroot := hmade.grows t l ht
      obtain ⟨⟨r', hw⟩, hiff, henough⟩ := ih hmade.tables (hmade.pages hp) hrole (by omega) hr
      have hkeep := hw.keeps t l (pteIndex va k) hroot (by omega) (hnew ▸ pteValid_table p)
      have hother : p ≠ t := by
        rintro rfl
        rw [h.apart p (hfree ▸ List.mem_cons_self)] at ht
        cases ht
      have hmissing := missing_empty (fun j => word_linked_new s free (pteIndex va k) j hother)
        (ks.map (pteIndex va))
      rw [List.length_map] at hmissing
      have hspare : spare s true = spare (s.linked free p t (pteIndex va k)) true + 1 := by
        unfold spare
        rw [if_pos rfl, if_pos rfl, hfree]
        rfl
      rw [hframe, hmissing] at hiff henough
      rw [Core.follow, hkeep, hnew, if_pos (pteValid_table p), hframe, if_neg hv, hspare,
        Nat.add_le_add_iff_right]
      exact ⟨⟨r', hmade.trans hw⟩, hiff, henough⟩
    case inr.inr =>
      -- there is no free page any more, so nothing is written
      obtain ⟨hf, ha, hword⟩ := walk_lost (s := { s with short := s.short || alloc }) hnone hr
      rw [Core.follow, hword, if_neg hv, if_neg hv]
      refine ⟨⟨r, .still h hf ha hword⟩, iff_of_false (by simp) ?_, fun halloc hs => ?_⟩
      · unfold spare
        split
        case isTrue halloc =>
          rw [hnone halloc, List.length_nil]
          omega
        case isFalse => omega
      · -- that a page was missing is not forgotten
        have hshort : (s.short || alloc) = false :=
          not_short (.foldlM (stays_walkStep loose_short va alloc) ks _) hr hs
        rw [halloc, Bool.or_true] at hshort
        cases hshort

/-- How many tables of the address are missing. -/
def missingTables (s : Sys) (pgdir va : Nat) : Nat := missing s (tablePath va) pgdir

/-- The entry is that of the address, in a last table to which valid entries lead from `pgdir`. -/
def Inside (s : Sys) (pgdir va : Nat) (e : Nat × Nat) : Prop :=
  follow s (tablePath va) pgdir = some e.1 ∧ e.2 = pteIndex va 0

instance (s : Sys) (pgdir va : Nat) (e : Nat × Nat) : Decidable (Inside s pgdir va e) :=
  inferInstanceAs (Decidable (_ ∧ _))

theorem Tables.pgdirWalk {e : Nat × Nat} (h : Tables r s) (hp : Pages s) (hroot : r pgdir = some 0)
    (hr : Runs (pgdirWalk pgdir va alloc) s e s') :
    (∃ r', Walked r s r' s') ∧ (Inside s' pgdir va e ↔ missingTables s pgdir va ≤ spare s alloc) := by
  obtain ⟨t, _, hfold, hr⟩ := runs_bind.mp hr
  obtain ⟨rfl, rfl⟩ := runs_pure.mp hr
  obtain ⟨hw, hiff, -⟩ := h.walk hp hroot (show 0 + [3, 2, 1].length ≤ 3 by decide) hfold
  exact ⟨hw, (and_iff_left rfl).trans hiff⟩

/-- A walk that misses no page comes to the entry of the address. -/
theorem Tables.pgdirWalk_inside {e : Nat × Nat} (h : Tables r s) (hp : Pages s) (hroot : r pgdir = some 0)
    (hr : Runs (Core.pgdirWalk pgdir va true) s e s') (hs : s'.short = false) : Inside s' pgdir va e := by
  refine (h.pgdirWalk hp hroot hr).2.mpr ?_
  obtain ⟨t, _, hfold, hr⟩ := runs_bind.mp hr
  obtain ⟨rfl, rfl⟩ := runs_pure.mp hr
  exact (h.walk hp hroot (show 0 + [3, 2, 1].length ≤ 3 by decide) hfold).2.2 rfl hs

/-- A walk that makes no tables goes where the entry leads, valid or not. -/
theorem walkStep_find (hr : Runs (walkStep va false t k) s q s') :
    q = pteFrame (s.word t (pteIndex va k)) ∧ s' = s := by
  obtain ⟨-, rfl, rfl⟩ | ⟨-, halloc, -⟩ | ⟨-, -, rfl, rfl⟩ := walkStep_outcome hr
  · exact ⟨rfl, rfl⟩
  · cases halloc
  · rw [Bool.or_false]
    exact ⟨rfl, rfl⟩

/-- A walk that makes no tables changes nothing. -/
theorem pgdirWalk_find {e : Nat × Nat} (hr : Runs (pgdirWalk pgdir va false) s e s') : s' = s := by
  have hsame {ks : List Nat} {t q : Nat} {s s' : Sys} (hr : Runs (ks.foldlM (walkStep va false) t) s q s') :
      s' = s := by
    induction ks generalizing t s with
    | nil => exact (runs_pure.mp hr).2.symm
    | cons k ks ih =>
      obtain ⟨u, s₁, hstep, hrest⟩ := runs_bind.mp (by rwa [List.foldlM_cons] at hr)
      obtain ⟨-, rfl⟩ := walkStep_find hstep
      exact ih hrest
  obtain ⟨t, s₁, hfold, hr⟩ := runs_bind.mp hr
  obtain ⟨-, rfl⟩ := runs_pure.mp hr
  exact hsame hfold

/-! ### Unmapping -/

/-- The state after the page `q` has been freed and its entry cleared. -/
def Sys.unmapped (s : Sys) (t i q : Nat) : Sys :=
  Sys.store { s.store q 0 (nextFree s.free) with free := q :: s.free } t i 0

theorem word_unmapped (s : Sys) {t i q u j : Nat} (hut : ¬(u = t ∧ j = i)) (huq : u ≠ q) :
    (s.unmapped t i q).word u j = s.word u j := by
  unfold Sys.unmapped
  rw [Sys.word_store_ne _ hut]
  exact Sys.word_store_ne s fun h => huq h.1

theorem word_unmapped_self (s : Sys) (t i q : Nat) : (s.unmapped t i q).word t i = 0 :=
  Sys.word_store_self ..

section Unmap

variable {i : Nat}

theorem Space.unmapped (h : Space r s) (ht : r t = some 3) (hv : pteValid (s.word t i))
    (hq : pteFrame (s.word t i) = q) : Space (Function.update r q none) (s.unmapped t i q) := by
  have hlead : Leads r s t i q := ⟨⟨3, ht, by omega⟩, hv, hq⟩
  have hold {u m j : Nat} (hu : Function.update r q none u = some m)
    (hvu : pteValid ((s.unmapped t i q).word u j)) :
      r u = some m ∧ ¬(u = t ∧ j = i) ∧ (s.unmapped t i q).word u j = s.word u j := by
    have huq : u ≠ q := by
      rintro rfl
      rw [Function.update_self] at hu
      cases hu
    have hne : ¬(u = t ∧ j = i) := by
      rintro ⟨rfl, rfl⟩
      rw [word_unmapped_self] at hvu
      cases hvu
    rw [Function.update_of_ne huq] at hu
    exact ⟨hu, hne, word_unmapped s hne huq⟩
  constructor
  · intro p hp
    by_cases hpq : p = q
    · rw [hpq, Function.update_self]
    · rw [Function.update_of_ne hpq]
      exact h.apart p (hp.imp (fun hmem => (List.mem_cons.mp hmem).resolve_left hpq) id)
  · intro p l hp
    by_cases hpq : p = q
    · rw [hpq, Function.update_self] at hp
      cases hp
    · rw [Function.update_of_ne hpq] at hp
      exact h.below p l hp
  · intro u m j hu hm hvu
    obtain ⟨hu', hne, hword⟩ := hold hu hvu
    rw [hword] at hvu ⊢
    rw [Function.update_of_ne]
    · exact h.typed u m j hu' hm hvu
    · intro heq
      exact hne (h.inj u j t i q ⟨⟨m, hu', hm⟩, hvu, heq⟩ hlead)
  · rintro u j u' j' x ⟨⟨m, hu, hm⟩, hvu, hx⟩ ⟨⟨m', hu', hm'⟩, hvu', hx'⟩
    obtain ⟨h1, -, hword⟩ := hold hu hvu
    obtain ⟨h2, -, hword'⟩ := hold hu' hvu'
    rw [hword] at hvu hx
    rw [hword'] at hvu' hx'
    exact h.inj u j u' j' x ⟨⟨m, h1, hm⟩, hvu, hx⟩ ⟨⟨m', h2, hm'⟩, hvu', hx'⟩

theorem Space.pages_unmapped (h : Space r s) (hp : Pages s) (hq : r q = some l) (t i : Nat) :
    Pages (s.unmapped t i q) := by
  have hout : q ∉ s.free ∧ q ∉ s.arena := by
    constructor
    · intro hmem
      rw [h.apart q (.inl hmem)] at hq
      cases hq
    · intro hmem
      rw [h.apart q (.inr hmem)] at hq
      cases hq
  constructor
  · exact List.nodup_cons.mpr ⟨hout.1, hp.free⟩
  · exact hp.arena
  · intro p hpa hpf
    rcases List.mem_cons.mp hpf with rfl | hpf
    · exact hout.2 hpa
    · exact hp.disjoint p hpa hpf
  · rintro p (hpf | hpa)
    · rcases List.mem_cons.mp hpf with rfl | hpf
      · exact h.below p l hq
      · exact hp.below p (.inl hpf)
    · exact hp.below p (.inr hpa)

/-- The tables above the last level are as before. -/
theorem Space.follow_unmapped (h : Space r s) (hroot : r pgdir = some 0) (ht : r t = some 3)
    (hq : r q = some 4) (his : is.length ≤ 3) :
    follow (s.unmapped t i q) is pgdir = follow s is pgdir := by
  refine h.follow_congr hroot (by omega) fun u m hu hm => ?_
  have hut : u ≠ t := by
    rintro rfl
    obtain rfl : m = 3 := Option.some.inj (hu.symm.trans ht)
    omega
  have huq : u ≠ q := by
    rintro rfl
    obtain rfl : m = 4 := Option.some.inj (hu.symm.trans hq)
    omega
  funext j
  exact word_unmapped s (fun h => hut h.1) huq

/-- Exactly the addresses of the cleared entry are not mapped any more. -/
theorem Space.leaf_unmapped {x : Nat} (h : Space r s) (hroot : r pgdir = some 0)
    (hwalk : follow s (tablePath va) pgdir = some t) (hq : r q = some 4) :
    leaf (s.unmapped t (pteIndex va 0) q) pgdir x = if pathOf x = pathOf va then none else leaf s pgdir x := by
  have ht : r t = some 3 := h.follow_role hroot (tablePath_le va) hwalk
  unfold leaf leafOf
  rw [h.follow_unmapped hroot ht hq (show (tablePath x).length ≤ 3 from Nat.le_refl 3)]
  cases hx : follow s (tablePath x) pgdir with
  | none =>
    split
    · rfl
    · rfl
  | some u =>
    rw [Option.bind_some, Option.bind_some]
    have hu : r u = some 3 := h.follow_role hroot (tablePath_le x) hx
    by_cases hhere : u = t ∧ pteIndex x 0 = pteIndex va 0
    · obtain ⟨rfl, hi⟩ := hhere
      have hsame : tablePath x = tablePath va := h.follow_inj hroot (tablePath_le x) rfl hx hwalk
      rw [hi, word_unmapped_self, if_neg (by decide), if_pos]
      rw [pathOf_eq, pathOf_eq, hsame, hi]
    · have huq : u ≠ q := by
        rintro rfl
        rw [hu] at hq
        cases hq
      have hne : pathOf x ≠ pathOf va := by
        intro heq
        rw [pathOf_eq, pathOf_eq] at heq
        obtain ⟨hpath, hi⟩ := List.append_inj heq rfl
        rw [hpath, hwalk] at hx
        exact hhere ⟨(Option.some.inj hx).symm, (List.cons.inj hi).1⟩
      rw [if_neg hne, word_unmapped s hhere huq]

end Unmap

/-! ### `uvm_dealloc` -/

theorem walkStep_returns (va t k : Nat) (alloc : Bool) (s : Sys) :
    ∃ q s', Runs (walkStep va alloc t k) s q s' := by
  have hget (s : Sys) : Runs (get : Sys.M Sys) s s s := runs_get.mpr ⟨rfl, rfl⟩
  unfold walkStep
  simp only [runs_after (hget _)]
  by_cases hmake : ¬pteValid (s.word t (pteIndex va k)) ∧ alloc
  · have hinit : ∃ o s₁, Runs pgdirInit s o s₁ := by
      unfold pgdirInit kalloc
      cases hfree : s.free with
      | nil => exact ⟨none, { s with short := true }, by simp [runs_after (hget s), hfree]⟩
      | cons p free =>
        exact ⟨some p, { s with free }.fill p fun _ => 0, by simp [runs_after (hget s), hfree]⟩
    obtain ⟨o, s₁, hinit⟩ := hinit
    cases o with
    | none =>
      exact ⟨_, _, runs_bind.mpr ⟨(), s₁, runs_when.mpr (.inl ⟨hmake, runs_bind.mpr ⟨_, _, hinit,
        runs_pure.mpr ⟨rfl, rfl⟩⟩⟩), runs_bind.mpr ⟨_, _, hget s₁, runs_pure.mpr ⟨rfl, rfl⟩⟩⟩⟩
    | some p =>
      exact ⟨_, _, runs_bind.mpr ⟨(), _, runs_when.mpr (.inl ⟨hmake, runs_bind.mpr ⟨_, _, hinit,
        runs_modify.mpr rfl⟩⟩), runs_bind.mpr ⟨_, _, hget _, runs_pure.mpr ⟨rfl, rfl⟩⟩⟩⟩
  · exact ⟨_, _, runs_bind.mpr ⟨(), s, runs_when.mpr (.inr ⟨hmake, rfl⟩),
      runs_bind.mpr ⟨_, _, hget s, runs_pure.mpr ⟨rfl, rfl⟩⟩⟩⟩

theorem pgdirWalk_returns (pgdir va : Nat) (alloc : Bool) (s : Sys) :
    ∃ e s', Runs (pgdirWalk pgdir va alloc) s e s' := by
  have hfold (ks : List Nat) (t : Nat) (s : Sys) : ∃ q s', Runs (ks.foldlM (walkStep va alloc) t) s q s' := by
    induction ks generalizing t s with
    | nil => exact ⟨t, s, runs_pure.mpr ⟨rfl, rfl⟩⟩
    | cons k ks ih =>
      obtain ⟨u, s₁, hstep⟩ := walkStep_returns va t k alloc s
      obtain ⟨q, s', hrest⟩ := ih u s₁
      refine ⟨q, s', ?_⟩
      rw [List.foldlM_cons]
      exact runs_bind.mpr ⟨u, s₁, hstep, hrest⟩
  obtain ⟨q, s', hr⟩ := hfold [3, 2, 1] pgdir s
  exact ⟨_, s', runs_bind.mpr ⟨q, s', hr, runs_pure.mpr ⟨rfl, rfl⟩⟩⟩

/-- The round of `uvm_dealloc` for the address `a`. -/
def deallocPage (pgdir a : Nat) : Sys.M Unit := do
  let (table, i) ← pgdirWalk pgdir a false
  let s ← get
  when (pteValid (s.word table i)) do
    kfree (pteFrame (s.word table i))
    modify fun s => s.store table i 0

theorem uvmDealloc_eq (pgdir base oldsz newsz : Nat) :
    uvmDealloc pgdir base oldsz newsz =
      if newsz ≥ oldsz ∨ newsz < base then pure (throughInt oldsz)
      else (pagesFrom (roundUp newsz pageSize) oldsz).forM (deallocPage pgdir) >>= fun _ =>
        pure (throughInt newsz) := rfl

/-- A round clears the entry that the walk comes to, if it is valid. -/
theorem runs_deallocPage {a : Nat} {u : Unit} :
    Runs (deallocPage pgdir a) s u s' ↔ ∃ e, Runs (pgdirWalk pgdir a false) s e s ∧
      s' = if pteValid (s.word e.1 e.2) then s.unmapped e.1 e.2 (pteFrame (s.word e.1 e.2)) else s := by
  have hround (t i : Nat) : Runs (do
      let s ← get
      when (pteValid (s.word t i)) do
        kfree (pteFrame (s.word t i))
        modify fun s => s.store t i 0 : Sys.M Unit) s u s' ↔
      s' = if pteValid (s.word t i) then s.unmapped t i (pteFrame (s.word t i)) else s := by
    rw [runs_after (runs_get.mpr ⟨rfl, rfl⟩), runs_when]
    by_cases hv : pteValid (s.word t i)
    · rw [if_pos hv]
      constructor
      · rintro (⟨-, hr⟩ | ⟨hno, -⟩)
        · obtain ⟨_, _, hfree, hclear⟩ := runs_bind.mp hr
          obtain rfl := runs_modify.mp hfree
          exact runs_modify.mp hclear
        · exact absurd hv hno
      · rintro rfl
        exact .inl ⟨hv, runs_bind.mpr ⟨⟨⟩, _, runs_modify.mpr rfl, runs_modify.mpr rfl⟩⟩
    · rw [if_neg hv]
      constructor
      · rintro (⟨hyes, -⟩ | ⟨-, rfl⟩)
        · exact absurd hyes hv
        · rfl
      · rintro rfl
        exact .inr ⟨hv, rfl⟩
  constructor
  · intro hr
    obtain ⟨⟨t, i⟩, s₁, hwalk, hrest⟩ := runs_bind.mp hr
    obtain rfl := pgdirWalk_find hwalk
    exact ⟨(t, i), hwalk, (hround t i).mp hrest⟩
  · rintro ⟨⟨t, i⟩, hwalk, hs'⟩
    exact runs_bind.mpr ⟨(t, i), s, hwalk, (hround t i).mpr hs'⟩

theorem deallocPages_returns (pgdir : Nat) (as : List Nat) (s : Sys) :
    ∃ s', Runs (as.forM (deallocPage pgdir)) s ⟨⟩ s' := by
  obtain ⟨s', hr, -⟩ := returns_forM (f := deallocPage pgdir) (I := fun _ _ => True) (l := as) (s := s) trivial
    fun a l t _ => by
      obtain ⟨e, t', hwalk⟩ := pgdirWalk_returns pgdir a false t
      obtain rfl := pgdirWalk_find hwalk
      exact ⟨_, runs_deallocPage.mpr ⟨e, hwalk, rfl⟩, trivial⟩
  exact ⟨s', hr⟩

/-- The state after the pages of the addresses `as` have been unmapped and freed. -/
structure Unmapped (s : Sys) (pgdir : Nat) (as : List Nat) (s' : Sys) : Prop where
  tables : ∃ r, Space r s' ∧ r pgdir = some 0
  pages : Pages s'
  upper : ∀ va, follow s' (tablePath va) pgdir = follow s (tablePath va) pgdir
  leaf : ∀ x, leaf s' pgdir x = if ∃ a ∈ as, pathOf x = pathOf a then none else leaf s pgdir x
  free : ∀ p, p ∈ s'.free ↔ p ∈ s.free ∨ ∃ a ∈ as, translate s pgdir a = some p

/-- The leaf of an address whose tables are there. -/
theorem leaf_of_follow (h : follow s (tablePath va) pgdir = some t) :
    leaf s pgdir va =
      if pteValid (s.word t (pteIndex va 0)) then some (s.word t (pteIndex va 0)) else none := by
  unfold leaf leafOf
  rw [h, Option.bind_some]

theorem leaf_congr {x : Nat} (h : pathOf x = pathOf va) (s : Sys) (pgdir : Nat) :
    leaf s pgdir x = leaf s pgdir va := by
  rw [pathOf_eq, pathOf_eq] at h
  obtain ⟨hpath, hi⟩ := List.append_inj h rfl
  unfold leaf
  rw [hpath, (List.cons.inj hi).1]

theorem Unmapped.round {as : List Nat} {a : Nat} {u : Unit} {s₁ : Sys} (h : Unmapped s pgdir as s₁)
    (hthere : missingTables s pgdir a = 0) (hr : Runs (deallocPage pgdir a) s₁ u s') :
    Unmapped s pgdir (as ++ [a]) s' := by
  obtain ⟨r, hspace, hroot⟩ := h.tables
  obtain ⟨⟨t, i⟩, hwalk, hs'⟩ := runs_deallocPage.mp hr
  obtain ⟨-, hinside⟩ := hspace.toTables.pgdirWalk h.pages hroot hwalk
  have hthere₁ : missingTables s₁ pgdir a = 0 := by
    rw [missingTables, missing_eq_zero_iff, h.upper, ← missing_eq_zero_iff]
    exact hthere
  obtain ⟨hpath, hi⟩ := hinside.mpr (hthere₁ ▸ Nat.zero_le _)
  subst hi
  have ht : r t = some 3 := hspace.follow_role hroot (tablePath_le a) hpath
  have hsplit (x : Nat) : (∃ b ∈ as ++ [a], pathOf x = pathOf b) ↔
      (∃ b ∈ as, pathOf x = pathOf b) ∨ pathOf x = pathOf a := by
    simp only [List.mem_append, List.mem_singleton, or_and_right, exists_or, exists_eq_left]
  have hleaf := leaf_of_follow hpath
  by_cases hv : pteValid (s₁.word t (pteIndex a 0))
  · rw [if_pos hv] at hs' hleaf
    subst hs'
    have hq := hspace.typed t 3 _ ht (by decide) hv
    have hroot' : Function.update r (pteFrame (s₁.word t (pteIndex a 0))) none pgdir = some 0 := by
      rw [Function.update_of_ne, hroot]
      intro heq
      rw [← heq, hroot] at hq
      cases hq
    refine ⟨⟨_, hspace.unmapped ht hv rfl, hroot'⟩, hspace.pages_unmapped h.pages hq t _, fun va => ?_,
      fun x => ?_, fun p => ?_⟩
    · rw [hspace.follow_unmapped hroot ht hq (show (tablePath va).length ≤ 3 from Nat.le_refl 3), h.upper]
    · rw [hspace.leaf_unmapped hroot hpath hq, h.leaf]
      by_cases hxa : pathOf x = pathOf a
      · rw [if_pos hxa, if_pos ((hsplit x).mpr (.inr hxa))]
      · rw [if_neg hxa]
        refine if_congr ?_ rfl rfl
        rw [hsplit]
        exact (or_iff_left hxa).symm
    · have hnew : translate s pgdir a = some (pteFrame (s₁.word t (pteIndex a 0))) := by
        rw [h.leaf a] at hleaf
        split at hleaf
        case isTrue => cases hleaf
        case isFalse => rw [translate_eq_leaf, hleaf, Option.map_some]
      show p ∈ _ :: s₁.free ↔ _
      rw [List.mem_cons, h.free]
      simp only [List.mem_append, List.mem_singleton, or_and_right, exists_or, exists_eq_left, hnew,
        Option.some.injEq]
      rw [or_comm, or_assoc, eq_comm]
  · rw [if_neg hv] at hs' hleaf
    subst hs'
    refine ⟨h.tables, h.pages, h.upper, fun x => ?_, fun p => ?_⟩
    · by_cases hxa : pathOf x = pathOf a
      · rw [if_pos ((hsplit x).mpr (.inr hxa)), leaf_congr hxa, hleaf]
      · rw [h.leaf]
        refine if_congr ?_ rfl rfl
        rw [hsplit]
        exact (or_iff_left hxa).symm
    · rw [h.free]
      simp only [List.mem_append, List.mem_singleton, or_and_right, exists_or, exists_eq_left]
      constructor
      · exact fun hp => hp.imp id .inl
      · rintro (hp | hp | hp)
        · exact .inl hp
        · exact .inr hp
        · -- the page of an address that was unmapped before
          rw [h.leaf a] at hleaf
          split at hleaf
          case isTrue hex =>
            obtain ⟨b, hb, hab⟩ := hex
            refine .inr ⟨b, hb, ?_⟩
            rw [translate_eq_leaf, ← leaf_congr hab, ← translate_eq_leaf]
            exact hp
          case isFalse =>
            rw [translate_eq_leaf, hleaf] at hp
            cases hp

theorem Space.deallocPages {as : List Nat} {u : PUnit} (h : Space r s) (hp : Pages s)
    (hroot : r pgdir = some 0) (hthere : ∀ a ∈ as, missingTables s pgdir a = 0)
    (hr : Runs (as.forM (deallocPage pgdir)) s u s') : Unmapped s pgdir as s' := by
  have hstart : Unmapped s pgdir [] s :=
    ⟨⟨r, h, hroot⟩, hp, fun _ => rfl, fun _ => by simp, fun _ => by simp⟩
  obtain ⟨as', rfl, hdone⟩ := hr.forM (I := fun l t => ∃ done, as = done ++ l ∧ Unmapped s pgdir done t)
    ⟨[], rfl, hstart⟩ fun a l t t' ⟨done, heq, ht⟩ hround =>
      ⟨done ++ [a], by rw [heq, List.append_assoc]; rfl,
        ht.round (hthere a (heq ▸ List.mem_append_right _ List.mem_cons_self)) hround⟩
  rwa [List.append_nil]

/-! ### Walks that leave the tables -/

/-- Every entry of page 0, taken for a table, leads to page 0. -/
def Loops (s : Sys) : Prop := ∀ i, pteValid (s.word 0 i) ∧ pteFrame (s.word 0 i) = 0

theorem Loops.stays (h : Loops s) (hr : Runs (ks.foldlM (walkStep va false) 0) s q s') : q = 0 := by
  induction ks generalizing s with
  | nil => exact (runs_pure.mp hr).1.symm
  | cons k ks ih =>
    obtain ⟨u, s₁, hstep, hrest⟩ := runs_bind.mp (by rwa [List.foldlM_cons] at hr)
    obtain ⟨rfl, rfl⟩ := walkStep_find hstep
    rw [(h _).2] at hrest
    exact ih h hrest

/-- The state after entries of last tables have been cleared, and pages of data written to. -/
structure OnlyCleared (r : Roles) (s s' : Sys) : Prop where
  upper : ∀ u, (∀ l, r u = some l → l < 3) → s'.word u = s.word u
  last : ∀ u i, r u = some 3 → s'.word u i = s.word u i ∨ s'.word u i = 0

theorem OnlyCleared.refl (r : Roles) (s : Sys) : OnlyCleared r s s := ⟨fun _ _ => rfl, fun _ _ _ => .inl rfl⟩

/-- A walk along missing tables ends in page 0. -/
theorem OnlyCleared.walk {s₁ : Sys} (hc : OnlyCleared r s s₁) (h : Space r s) (hz : Zeroed r s)
    (hout : r 0 = none)
    (hloop : Loops s) (ht : r t = some l) (hl : l + ks.length ≤ 3)
    (hr : Runs (ks.foldlM (walkStep va false) t) s₁ q s') :
    follow s (ks.map (pteIndex va)) t = some q ∨ missing s (ks.map (pteIndex va)) t ≠ 0 ∧ q = 0 := by
  induction ks generalizing t l with
  | nil =>
    obtain ⟨rfl, -⟩ := runs_pure.mp hr
    exact .inl rfl
  | cons k ks ih =>
    rw [List.length_cons] at hl
    obtain ⟨u, s₂, hstep, hrest⟩ := runs_bind.mp (by rwa [List.foldlM_cons] at hr)
    obtain ⟨rfl, rfl⟩ := walkStep_find hstep
    have hlevel : ∀ m, r t = some m → m < 3 := by
      intro m hm
      obtain rfl : l = m := Option.some.inj (ht.symm.trans hm)
      omega
    rw [hc.upper t hlevel] at hrest
    rw [List.map_cons, follow, missing]
    by_cases hv : pteValid (s.word t (pteIndex va k))
    · rw [if_pos hv, if_pos hv]
      exact ih (h.typed t l _ ht (by omega) hv) (by omega) hrest
    · rw [if_neg hv, if_neg hv]
      rw [hz t l _ ht (by omega) hv] at hrest
      have hloop₂ : Loops s₂ := by
        have hzero : s₂.word 0 = s.word 0 := hc.upper 0 fun m hm => by
          rw [hout] at hm
          cases hm
        intro i
        rw [hzero]
        exact hloop i
      exact .inr ⟨Nat.succ_ne_zero _, hloop₂.stays hrest⟩

/-- A round frees page 0 if a table is missing; else it clears an entry of a last table. -/
theorem OnlyCleared.round {a : Nat} {u : Unit} {s₁ : Sys} (hc : OnlyCleared r s s₁) (h : Space r s)
    (hz : Zeroed r s)
    (hroot : r pgdir = some 0) (hout : r 0 = none) (hloop : Loops s) (hr : Runs (deallocPage pgdir a) s₁ u s') :
    0 ∈ s'.free ∨ missingTables s pgdir a = 0 ∧ OnlyCleared r s s' := by
  obtain ⟨⟨t, i⟩, hwalk, hs'⟩ := runs_deallocPage.mp hr
  obtain ⟨_, _, hfold, hpair⟩ := runs_bind.mp hwalk
  obtain ⟨heq, -⟩ := runs_pure.mp hpair
  obtain ⟨rfl, rfl⟩ := Prod.mk.inj heq.symm
  obtain hpath | ⟨-, rfl⟩ := hc.walk h hz hout hloop hroot (show 0 + [3, 2, 1].length ≤ 3 by decide) hfold
  · have ht : r t = some 3 := h.follow_role hroot (tablePath_le a) hpath
    refine .inr ⟨(missing_eq_zero_iff s _ _).mpr (Option.isSome_of_eq_some hpath), ?_⟩
    by_cases hv : pteValid (s₁.word t (pteIndex a 0))
    · have hsame : s₁.word t (pteIndex a 0) = s.word t (pteIndex a 0) := by
        refine (hc.last t _ ht).resolve_right fun hzero => ?_
        rw [hzero] at hv
        cases hv
      rw [if_pos hv, hsame] at hs'
      rw [hsame] at hv
      have hq := h.typed t 3 _ ht (by decide) hv
      subst hs'
      constructor
      · intro u hu
        have hut : u ≠ t := by
          rintro rfl
          exact absurd (hu 3 ht) (by decide)
        have huq : u ≠ pteFrame (s.word t (pteIndex a 0)) := by
          rintro rfl
          exact absurd (hu 4 hq) (by decide)
        rw [← hc.upper u hu]
        funext j
        exact word_unmapped s₁ (fun heq => hut heq.1) huq
      · intro u j hu
        by_cases hhere : u = t ∧ j = pteIndex a 0
        · obtain ⟨rfl, rfl⟩ := hhere
          exact .inr (word_unmapped_self ..)
        · rw [word_unmapped s₁ hhere]
          · exact hc.last u j hu
          · rintro rfl
            exact absurd (hu.symm.trans hq) (by decide)
    · rw [if_neg hv] at hs'
      exact hs' ▸ hc
  · -- the walk has come to page 0, whose entries are valid ones for page 0
    have hzero : s₁.word 0 = s.word 0 := hc.upper 0 fun m hm => by
      rw [hout] at hm
      cases hm
    obtain ⟨hv, hframe⟩ := hloop (pteIndex a 0)
    rw [← hzero] at hv hframe
    rw [if_pos hv, hframe] at hs'
    subst hs'
    exact .inl List.mem_cons_self

/-- A round takes no page from the free ones. -/
theorem deallocPage_free {a : Nat} {u : Unit} (hr : Runs (deallocPage pgdir a) s u s') (hp : p ∈ s.free) :
    p ∈ s'.free := by
  obtain ⟨e, -, rfl⟩ := runs_deallocPage.mp hr
  split
  case isTrue => exact List.mem_cons_of_mem _ hp
  case isFalse => exact hp

theorem Space.deallocPages_stray {as : List Nat} {u : PUnit} (h : Space r s) (hz : Zeroed r s)
    (hroot : r pgdir = some 0) (hout : r 0 = none) (hloop : Loops s)
    (hr : Runs (as.forM (deallocPage pgdir)) s u s') : 0 ∈ s'.free ∨ ∀ a ∈ as, missingTables s pgdir a = 0 := by
  have hdone := hr.forM (I := fun l t => 0 ∈ t.free ∨
      ∃ done, as = done ++ l ∧ OnlyCleared r s t ∧ ∀ a ∈ done, missingTables s pgdir a = 0)
    (.inr ⟨[], rfl, .refl r s, fun _ ha => absurd ha List.not_mem_nil⟩) fun a l t t' ht hround => by
      obtain hfreed | ⟨done, rfl, hc, hthere⟩ := ht
      · exact .inl (deallocPage_free hround hfreed)
      · refine (hc.round h hz hroot hout hloop hround).imp id fun ⟨ha, hc'⟩ =>
          ⟨done ++ [a], by rw [List.append_assoc]; rfl, hc', fun b hb => ?_⟩
        rcases List.mem_append.mp hb with hb | hb
        · exact hthere b hb
        · exact List.mem_singleton.mp hb ▸ ha
  refine hdone.imp id ?_
  rintro ⟨done, rfl, -, hthere⟩
  rwa [List.append_nil]

/-- `uvm_dealloc` returns, and has freed only pages that were mapped. -/
def FreesMapped (s : Sys) (pgdir base oldsz newsz : Nat) : Prop :=
  ∃ n s', Runs (uvmDealloc pgdir base oldsz newsz) s n s' ∧
    ∀ p ∈ s'.free, p ∈ s.free ∨ ∃ a, translate s pgdir a = some p

/-- No table is missing for an address that `uvm_dealloc` comes to, if it does not return at once. -/
def NoneMissing (s : Sys) (pgdir base oldsz newsz : Nat) : Prop :=
  base ≤ newsz → newsz < oldsz → ∀ a ∈ pagesFrom (roundUp newsz pageSize) oldsz, missingTables s pgdir a = 0

/-- The tables and the free pages are the same; the other pages hold anything. -/
structure SameTables (r : Roles) (s s' : Sys) : Prop where
  free : s'.free = s.free
  arena : s'.arena = s.arena
  words : ∀ t l, r t = some l → l < 4 → s'.word t = s.word t

theorem Space.freesMapped {base oldsz newsz : Nat} (h : Space r s) (hp : Pages s) (hroot : r pgdir = some 0)
    (hthere : NoneMissing s pgdir base oldsz newsz) : FreesMapped s pgdir base oldsz newsz := by
  unfold FreesMapped
  rw [uvmDealloc_eq]
  by_cases hrange : newsz ≥ oldsz ∨ newsz < base
  · rw [if_pos hrange]
    exact ⟨_, s, runs_pure.mpr ⟨rfl, rfl⟩, fun p hp => .inl hp⟩
  · rw [if_neg hrange]
    rw [not_or, Nat.not_le, Nat.not_lt] at hrange
    obtain ⟨s', hr⟩ := deallocPages_returns pgdir (pagesFrom (roundUp newsz pageSize) oldsz) s
    refine ⟨_, s', runs_bind.mpr ⟨⟨⟩, s', hr, runs_pure.mpr ⟨rfl, rfl⟩⟩, fun p hpfree => ?_⟩
    refine (((h.deallocPages hp hroot (hthere hrange.2 hrange.1) hr).free p).mp hpfree).imp id ?_
    rintro ⟨a, -, ha⟩
    exact ⟨a, ha⟩

theorem SameTables.space (hs : SameTables r s s') (h : Space r s) : Space r s' :=
  h.of_words hs.words (by rw [hs.free, hs.arena]; exact h.apart)

theorem SameTables.missing (hs : SameTables r s s') (h : Space r s) (ht : r t = some l)
    (hl : l + is.length ≤ 3) :
    Core.missing s' is t = Core.missing s is t := by
  induction is generalizing t l with
  | nil => rfl
  | cons i is ih =>
    rw [List.length_cons] at hl
    rw [Core.missing, Core.missing, hs.words t l ht (by omega)]
    split
    case isTrue hv => exact ih (h.typed t l i ht (by omega) hv) (by omega)
    case isFalse => rfl

theorem SameTables.noneMissing {base oldsz newsz : Nat} (hs : SameTables r s s') (h : Space r s)
    (hroot : r pgdir = some 0) :
    NoneMissing s' pgdir base oldsz newsz ↔ NoneMissing s pgdir base oldsz newsz := by
  have hsame (a : Nat) : missingTables s' pgdir a = missingTables s pgdir a :=
    hs.missing h hroot (show 0 + [3, 2, 1].length ≤ 3 by decide)
  unfold NoneMissing
  simp only [hsame]

/-- No address is mapped to a page outside the address space. -/
theorem Space.translate_role (h : Space r s) (hroot : r pgdir = some 0)
    (hq : Core.translate s pgdir va = some q) : r q = some 4 := by
  rw [translate_eq_follow] at hq
  exact h.follow_role hroot (show 0 + (pathOf va).length ≤ 4 from Nat.le_refl 4) hq

/-- If `uvm_dealloc` frees mapped pages only whatever the other pages hold, no table is missing: a walk
past a missing table comes to page 0, and goes on there. -/
theorem Space.noneMissing {base oldsz newsz : Nat} (h : Space r s) (hz : Zeroed r s)
    (hroot : r pgdir = some 0) (hout : r 0 = none) (hfree : 0 ∉ s.free)
    (hall : ∀ s', SameTables r s s' → FreesMapped s' pgdir base oldsz newsz) :
    NoneMissing s pgdir base oldsz newsz := by
  intro hbase hrange
  have hword {t l : Nat} (ht : r t = some l) : (s.fill 0 fun _ => 1).word t = s.word t := by
    refine Function.update_of_ne ?_ _ _
    rintro rfl
    rw [hout] at ht
    cases ht
  have hsame : SameTables r s (s.fill 0 fun _ => 1) := ⟨rfl, rfl, fun t l ht _ => hword ht⟩
  have hloop : Loops (s.fill 0 fun _ => 1) := by
    intro i
    have hone : (s.fill 0 fun _ => 1).word 0 i = 1 := rfl
    rw [hone]
    exact ⟨rfl, rfl⟩
  have hzero : Zeroed r (s.fill 0 fun _ => 1) := by
    intro t l i ht hl hv
    rw [hword ht] at hv ⊢
    exact hz t l i ht hl hv
  obtain ⟨n, s', hr, hmapped⟩ := hall _ hsame
  rw [uvmDealloc_eq, if_neg (by omega)] at hr
  obtain ⟨_, s₁, hloopRuns, hret⟩ := runs_bind.mp hr
  obtain ⟨-, rfl⟩ := runs_pure.mp hret
  obtain hstray | hthere := (hsame.space h).deallocPages_stray hzero hroot hout hloop hloopRuns
  · obtain hold | ⟨a, ha⟩ := hmapped 0 hstray
    · exact absurd hold hfree
    · have hrole := (hsame.space h).translate_role hroot ha
      rw [hout] at hrole
      cases hrole
  · exact ((hsame.noneMissing h hroot).mp fun _ _ => hthere) hbase hrange

/-- A walk comes to the entry of the address exactly if there are free pages for the missing tables.
Where no table is missing `uvm_dealloc` frees pages that are mapped only; and it does so whatever the
pages outside the tables hold exactly then, for page 0 is one of them and no free page. -/
theorem pgdirWalk_inside_iff (h : Space r s) (hp : Pages s) (hroot : r pgdir = some 0) :
    (∀ va alloc, ∃ e s', Runs (pgdirWalk pgdir va alloc) s e s' ∧
      (Inside s' pgdir va e ↔ missingTables s pgdir va ≤ spare s alloc)) ∧
    (∀ base oldsz newsz, NoneMissing s pgdir base oldsz newsz → FreesMapped s pgdir base oldsz newsz) ∧
    (Zeroed r s → r 0 = none → 0 ∉ s.free → ∀ base oldsz newsz,
      ((∀ s', SameTables r s s' → FreesMapped s' pgdir base oldsz newsz) ↔
        NoneMissing s pgdir base oldsz newsz)) := by
  refine ⟨fun va alloc => ?_, fun base oldsz newsz => h.freesMapped hp hroot,
    fun hz hout hfree base oldsz newsz => ⟨h.noneMissing hz hroot hout hfree, fun hthere s' hs => ?_⟩⟩
  · obtain ⟨e, s', hr⟩ := pgdirWalk_returns pgdir va alloc s
    exact ⟨e, s', hr, (h.toTables.pgdirWalk hp hroot hr).2⟩
  · have hp' : Pages s' := hp.sublist (by rw [hs.free]) hs.arena
    exact (hs.space h).freesMapped hp' hroot ((hs.noneMissing h hroot).mpr hthere)

/-- A process with one page and the tables for it, and three free pages. -/
def pageProcess : Sys where
  kernel := alone 1 fun _ => ⟨false, 0, none⟩
  pgdir _ _ := some 4
  kstack _ _ := none
  free := [1, 2, 3]
  word p i := if i = 0 ∧ 4 ≤ p ∧ p < 8 then pte (p + 1) pteTable else 0
  arena := []
  short := false

/-- The root of `pageProcess` is page 4, its page is page 8. -/
def pageRoles : Roles := fun p => if 4 ≤ p ∧ p ≤ 8 then some (p - 4) else none

theorem pageRoles_eq {p l : Nat} : pageRoles p = some l ↔ p = l + 4 ∧ l ≤ 4 := by
  unfold pageRoles
  rw [Option.ite_none_right_eq_some, Option.some.injEq]
  omega

theorem pageProcess_word {i : Nat} (hv : pteValid (pageProcess.word t i)) :
    i = 0 ∧ pteFrame (pageProcess.word t i) = t + 1 := by
  have hword : pageProcess.word t i = if i = 0 ∧ 4 ≤ t ∧ t < 8 then pte (t + 1) pteTable else 0 := rfl
  rw [hword] at hv ⊢
  split at hv
  case isTrue hi =>
    refine ⟨hi.1, ?_⟩
    rw [if_pos hi]
    exact pteFrame_pte (Nat.lt_of_le_of_lt (show t + 1 ≤ 8 by omega) (by decide)) (by decide)
  case isFalse => exact absurd hv (by decide)

theorem pageProcess_space : Space pageRoles pageProcess := by
  constructor
  case apart =>
    intro p hp
    simp only [pageProcess, List.mem_cons, List.not_mem_nil, or_false] at hp
    exact if_neg (by omega)
  case below =>
    intro p l hp
    rw [pageRoles_eq] at hp
    exact Nat.lt_of_le_of_lt (show p ≤ 8 by omega) (by decide)
  case typed =>
    intro t l i ht hl hv
    rw [pageRoles_eq] at ht
    rw [(pageProcess_word hv).2, pageRoles_eq]
    omega
  case inj =>
    rintro t i t' i' q ⟨-, hv, hq⟩ ⟨-, hv', hq'⟩
    obtain ⟨hi, hf⟩ := pageProcess_word hv
    obtain ⟨hi', hf'⟩ := pageProcess_word hv'
    omega

theorem pageProcess_pages : Pages pageProcess where
  free := by decide
  arena := List.nodup_nil
  disjoint _ hp := absurd hp List.not_mem_nil
  below p hp := by
    simp only [pageProcess, List.mem_cons, List.not_mem_nil, or_false] at hp
    exact Nat.lt_of_le_of_lt (show p ≤ 3 by omega) (by decide)

theorem pageProcess_zeroed : Zeroed pageRoles pageProcess := by
  intro t l i _ _ hv
  have hword : pageProcess.word t i = if i = 0 ∧ 4 ≤ t ∧ t < 8 then pte (t + 1) pteTable else 0 := rfl
  rw [hword] at hv ⊢
  split at hv
  case isTrue => exact absurd (pteValid_table _) hv
  case isFalse hi => exact if_neg hi

/-- In `pageProcess` the tables of the first page are there, and one is missing for the addresses from
`0x200000` on. -/
theorem pgdirWalk_inside_iff_page :
    (∀ va alloc, ∃ e s', Runs (pgdirWalk 4 va alloc) pageProcess e s' ∧
      (Inside s' 4 va e ↔ missingTables pageProcess 4 va ≤ spare pageProcess alloc)) ∧
    (missingTables pageProcess 4 0 = 0 ∧ missingTables pageProcess 4 0x200000 = 1) ∧
    FreesMapped pageProcess 4 0 4096 0 ∧
    ¬∀ s', SameTables pageRoles pageProcess s' → FreesMapped s' 4 0 0x200001 0 := by
  have hmissing : missingTables pageProcess 4 0 = 0 ∧ missingTables pageProcess 4 0x200000 = 1 := by
    decide +kernel
  obtain ⟨hwalk, hmapped, hiff⟩ := pgdirWalk_inside_iff pageProcess_space pageProcess_pages
    (show pageRoles 4 = some 0 from rfl)
  refine ⟨hwalk, hmissing, hmapped 0 4096 0 fun _ _ a ha => ?_, fun hall => ?_⟩
  · obtain ⟨k, rfl, hk⟩ := mem_pagesFrom.mp ha
    obtain rfl : k = 0 := by
      have hk' : 0 + k * 4096 < 4096 := hk
      omega
    exact hmissing.1
  · have hthere := (hiff pageProcess_zeroed rfl (by decide) 0 0x200001 0).mp hall (Nat.le_refl 0) (by decide)
      0x200000 (mem_pagesFrom.mpr ⟨512, rfl, by decide⟩)
    rw [hmissing.2] at hthere
    cases hthere

/-- An empty table on page 1, with page 0 full of words that are valid entries for page 0. -/
def strayProcess : Sys where
  kernel := alone 1 fun _ => ⟨false, 0, none⟩
  pgdir _ _ := some 1
  kstack _ _ := none
  free := []
  word p _ := if p = 0 then 1 else 0
  arena := []
  short := false

theorem strayProcess_space : Space (Function.update (fun _ => none) 1 (some 0)) strayProcess := by
  have hempty (i : Nat) : ¬pteValid (strayProcess.word 1 i) := show ¬pteValid 0 by decide
  exact ((space_empty strayProcess).add rfl nofun nofun (by decide) fun _ => hempty).1

theorem strayProcess_pages : Pages strayProcess :=
  ⟨List.nodup_nil, List.nodup_nil, nofun, fun _ hp => hp.elim nofun nofun⟩

/-- The walk goes on in page 0, and `uvm_dealloc` frees page 0. -/
theorem uvmDealloc_frees_unmapped :
    Space (Function.update (fun _ => none) 1 (some 0)) strayProcess ∧ Pages strayProcess ∧
      (∃ e s', Runs (pgdirWalk 1 0 false) strayProcess e s' ∧ ¬Inside s' 1 0 e) ∧
      ∃ n s', Runs (uvmDealloc 1 0 4096 0) strayProcess n s' ∧
        0 ∈ s'.free ∧ 0 ∉ strayProcess.free ∧ ∀ a, translate strayProcess 1 a = none := by
  have hwalk : returnsWith (pgdirWalk 1 0 false) strayProcess
    (fun e s' => !decide (Inside s' 1 0 e)) = true := by
    decide +kernel
  have hdealloc : returnsWith (uvmDealloc 1 0 4096 0) strayProcess
    (fun _ s' => decide (0 ∈ s'.free)) = true := by
    decide +kernel
  refine ⟨strayProcess_space, strayProcess_pages, ?_, ?_⟩
  · obtain ⟨e, s', hr, hout⟩ := runs_of_returnsWith hwalk
    exact ⟨e, s', hr, by simpa using hout⟩
  · obtain ⟨n, s', hr, hfree⟩ := runs_of_returnsWith hdealloc
    refine ⟨n, s', hr, by simpa using hfree, by decide, fun a => ?_⟩
    have hempty : strayProcess.word 1 (pteIndex a 3) = 0 := rfl
    rw [translate_eq_leaf, leaf, tablePath, leafOf_cons, hempty, if_neg (by decide)]
    rfl

end FtosFfs.Core
