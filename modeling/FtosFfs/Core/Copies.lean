import FtosFfs.Core.Leak
import FtosFfs.Core.Walks

/-! `uvm_copy` and `vm_free`: the copy of an address space has the same shape on pages of its own, and
the end of an address space gives back its pages, each once. -/

namespace FtosFfs.Core

open Lib Lib.Exec

variable {s s' a a' : Sys} {r : Roles} {p q t l d new pgdir : Nat} {w w' v : Nat → Nat → Nat} {is : List Nat}
  {copy : Nat → Sys.M (Option Nat)} {x : Nat → Sys.M Unit}

/-! ### The pages of an address space -/

/-- The pages that the page `t` leads to through `d` levels of tables, `t` first. -/
def pagesOf (w : Nat → Nat → Nat) : Nat → Nat → List Nat
  | 0, t => [t]
  | d + 1, t => t :: (List.range 512).flatMap fun i =>
    if pteValid (w t i) then pagesOf w d (pteFrame (w t i)) else []

/-- The pages to which entry `i` of the table `t` leads. -/
def entryPages (w : Nat → Nat → Nat) (d t i : Nat) : List Nat :=
  if pteValid (w t i) then pagesOf w d (pteFrame (w t i)) else []

theorem pagesOf_succ (w : Nat → Nat → Nat) (d t : Nat) :
    pagesOf w (d + 1) t = t :: (List.range 512).flatMap (entryPages w d t) := rfl

theorem self_mem_pagesOf (w : Nat → Nat → Nat) (d t : Nat) : t ∈ pagesOf w d t := by
  cases d with
  | zero => exact List.mem_singleton_self t
  | succ d => exact List.mem_cons_self

theorem mem_pagesOf : q ∈ pagesOf w d t ↔ Under w d t q := by
  induction d generalizing t with
  | zero => exact List.mem_singleton
  | succ d ih =>
    rw [pagesOf_succ, List.mem_cons, List.mem_flatMap]
    refine or_congr Iff.rfl (exists_congr fun i => ?_)
    rw [List.mem_range, entryPages]
    refine and_congr Iff.rfl ?_
    split
    case isTrue hv => exact (ih).trans (and_iff_right hv).symm
    case isFalse hv => exact iff_of_false List.not_mem_nil fun h => hv h.1

/-- The pages depend on the memory of the tables among them only. -/
theorem pagesOf_congr (h : ∀ q ∈ pagesOf w d t, w' q = w q) : pagesOf w' d t = pagesOf w d t := by
  induction d generalizing t with
  | zero => rfl
  | succ d ih =>
    rw [pagesOf_succ] at h
    rw [pagesOf_succ, pagesOf_succ]
    refine congrArg (t :: ·) (List.flatMap_congr fun i hi => ?_)
    unfold entryPages
    rw [h t List.mem_cons_self]
    split
    case isFalse => rfl
    case isTrue hv =>
      refine ih fun q hq => h q (List.mem_cons_of_mem _ (List.mem_flatMap.mpr ⟨i, hi, ?_⟩))
      rwa [entryPages, if_pos hv]

/-- The pages of an address space are different pages. -/
theorem Space.nodup_pagesOf (h : Space r s) (ht : r t = some l) (hd : l + d = 4) :
    (pagesOf s.word d t).Nodup := by
  induction d generalizing t l with
  | zero => exact List.nodup_singleton t
  | succ d ih =>
    have hchild {i q : Nat} (hq : q ∈ entryPages s.word d t i) :
        pteValid (s.word t i) ∧ Under s.word d (pteFrame (s.word t i)) q := by
      unfold entryPages at hq
      split at hq
      case isTrue hv => exact ⟨hv, mem_pagesOf.mp hq⟩
      case isFalse => cases hq
    rw [pagesOf_succ, List.nodup_cons, List.nodup_flatMap]
    refine ⟨fun hmem => ?_, fun i _ => ?_, ?_⟩
    · obtain ⟨i, -, hq⟩ := List.mem_flatMap.mp hmem
      obtain ⟨hv, hunder⟩ := hchild hq
      obtain ⟨m, hm, hle, -⟩ := h.under_role (h.typed t l i ht (by omega) hv) (by omega) hunder
      obtain rfl : l = m := Option.some.inj (ht.symm.trans hm)
      omega
    · unfold entryPages
      split
      case isTrue hv => exact ih (h.typed t l i ht (by omega) hv) (by omega)
      case isFalse => exact List.nodup_nil
    · refine List.nodup_range.imp fun {i j} hij q hi hj => hij ?_
      obtain ⟨hv, hunder⟩ := hchild hi
      obtain ⟨hv', hunder'⟩ := hchild hj
      have hsame := h.under_unique (h.typed t l i ht (by omega) hv) (h.typed t l j ht (by omega) hv')
        (by omega) hunder hunder'
      exact (h.inj t i t j _ ⟨⟨l, ht, by omega⟩, hv, rfl⟩ ⟨⟨l, ht, by omega⟩, hv', hsame.symm⟩).2

/-- The pages of an address space are not free. -/
theorem Space.pagesOf_apart (h : Space r s) (ht : r t = some l) (hd : l + d = 4)
    (hq : q ∈ pagesOf s.word d t) : q ∉ s.free := by
  intro hfree
  obtain ⟨m, hm, -⟩ := h.under_role ht hd (mem_pagesOf.mp hq)
  rw [h.apart q (.inl hfree)] at hm
  cases hm

/-! ### Trees of one shape -/

/-- The page `t'` leads to pages in the memory `w'` as `t` does in `w`: with the same valid entries and
flags, and the same contents of the pages of data. -/
def SameTree (w w' : Nat → Nat → Nat) : Nat → Nat → Nat → Prop
  | 0, t, t' => w' t' = w t
  | d + 1, t, t' => ∀ i < 512, (pteValid (w' t' i) ↔ pteValid (w t i)) ∧
    (pteValid (w t i) → pteFlags (w' t' i) = pteFlags (w t i) ∧
      SameTree w w' d (pteFrame (w t i)) (pteFrame (w' t' i)))

theorem SameTree.congr (h : SameTree w w' d t q) (hv : ∀ p ∈ pagesOf w' d q, v p = w' p) :
    SameTree w v d t q := by
  induction d generalizing t q with
  | zero => exact (hv q (List.mem_singleton_self q)).trans h
  | succ d ih =>
    rw [pagesOf_succ] at hv
    intro i hi
    rw [hv q List.mem_cons_self]
    obtain ⟨hiff, hsame⟩ := h i hi
    refine ⟨hiff, fun hvalid => ⟨(hsame hvalid).1, ih (hsame hvalid).2 fun p hp => ?_⟩⟩
    refine hv p (List.mem_cons_of_mem _ (List.mem_flatMap.mpr ⟨i, List.mem_range.mpr hi, ?_⟩))
    rwa [entryPages, if_pos (hiff.mpr hvalid)]

/-- What the processor sees at the address: the flags and the contents of its page. -/
def view (s : Sys) (pgdir va : Nat) : Option (Nat × (Nat → Nat)) :=
  (leaf s pgdir va).map fun e => (pteFlags e, s.word (pteFrame e))

theorem pteIndex_lt (va k : Nat) : pteIndex va k < 512 := Nat.mod_lt _ (by decide)

/-- Trees of one shape map the same addresses to pages with the same flags and contents. -/
theorem SameTree.view (h : SameTree s.word s'.word 4 pgdir new) (va : Nat) :
    view s' new va = view s pgdir va := by
  have hstep {is : List Nat} {d j t t' : Nat} (his : ∀ i ∈ is, i < 512) (hj : j < 512)
      (hd : is.length + 1 = d) (htree : SameTree s.word s'.word d t t') :
      (leafOf s' is j t').map (fun e => (pteFlags e, s'.word (pteFrame e))) =
        (leafOf s is j t).map fun e => (pteFlags e, s.word (pteFrame e)) := by
    induction is generalizing d t t' with
    | nil =>
      subst hd
      obtain ⟨hiff, hsame⟩ := htree j hj
      unfold leafOf
      rw [follow, follow, Option.bind_some, Option.bind_some]
      by_cases hv : pteValid (s.word t j)
      · rw [if_pos hv, if_pos (hiff.mpr hv), Option.map_some, Option.map_some, (hsame hv).1]
        have hpage : s'.word (pteFrame (s'.word t' j)) = s.word (pteFrame (s.word t j)) := (hsame hv).2
        rw [hpage]
      · rw [if_neg hv, if_neg fun hv' => hv (hiff.mp hv')]
        rfl
    | cons i is ih =>
      subst hd
      obtain ⟨hiff, hsame⟩ := htree i (his i List.mem_cons_self)
      rw [leafOf_cons, leafOf_cons]
      by_cases hv : pteValid (s.word t i)
      · rw [if_pos hv, if_pos (hiff.mpr hv)]
        exact ih (fun k hk => his k (List.mem_cons_of_mem _ hk)) rfl (hsame hv).2
      · rw [if_neg hv, if_neg fun hv' => hv (hiff.mp hv')]
        rfl
  have hindices : ∀ i ∈ tablePath va, i < 512 := by
    intro i hi
    simp only [tablePath, List.mem_cons, List.not_mem_nil, or_false] at hi
    rcases hi with rfl | rfl | rfl
    · exact pteIndex_lt va 3
    · exact pteIndex_lt va 2
    · exact pteIndex_lt va 1
  exact hstep hindices (pteIndex_lt va 0) rfl h

/-! ### Copying -/

/-- Only the free pages and the words of memory have changed. -/
def OnlyPages (s s' : Sys) : Prop := s' = { s with free := s'.free, word := s'.word }

theorem OnlyPages.trans (h : OnlyPages s a) (h' : OnlyPages a s') : OnlyPages s s' := by
  unfold OnlyPages at h h' ⊢
  rw [h', h]

/-- The state after a copy of the page `t`: the copy is on the first free pages. -/
structure CopiedTree (w : Nat → Nat → Nat) (d t : Nat) (a : Sys) (new : Nat) (a' : Sys) : Prop where
  taken : a.free = pagesOf a'.word d new ++ a'.free
  same : SameTree w a'.word d t new
  length : (pagesOf a'.word d new).length = (pagesOf w d t).length
  words : ∀ q ∉ a.free, a'.word q = a.word q
  only : OnlyPages a a'

/-- The computation copies the tree of its argument in the memory `w`, if there are free pages. -/
def CopiesTree (w : Nat → Nat → Nat) (copy : Nat → Sys.M (Option Nat)) (d : Nat) : Prop :=
  ∀ t a, Pages a → (∀ q ∈ pagesOf w d t, q ∉ a.free ∧ a.word q = w q) →
    (pagesOf w d t).length ≤ a.free.length → ∃ new a', Runs (copy t) a (some new) a' ∧ CopiedTree w d t a new a'

theorem copiesTree_page (w : Nat → Nat → Nat) : CopiesTree w copyPage 0 := by
  intro t a hp hkept henough
  obtain ⟨hfree, hword⟩ := hkept t (List.mem_singleton_self t)
  obtain ⟨p, free, hcons⟩ : ∃ p free, a.free = p :: free := by
    cases hf : a.free with
    | nil =>
      rw [hf] at henough
      exact absurd henough (by simp [pagesOf])
    | cons p free => exact ⟨p, free, rfl⟩
  refine ⟨p, { a with free }.fill p (a.word t), ?_, ?_⟩
  · exact runs_bind.mpr ⟨some p, _, runs_kalloc hcons, runs_bind.mpr ⟨⟨⟩, _, runs_modify.mpr rfl,
      runs_pure.mpr ⟨rfl, rfl⟩⟩⟩
  · constructor
    · exact hcons
    · show Function.update a.word p (a.word t) p = w t
      rw [Function.update_self, hword]
    · rfl
    · intro q hq
      refine Function.update_of_ne ?_ _ _
      rintro rfl
      exact hq (hcons ▸ List.mem_cons_self)
    · rfl

/-- The round of `recur_uvm_copy` for entry `i`. -/
def copyEntry (copy : Nat → Sys.M (Option Nat)) (newpgdir : Option Nat) (pgdir i : Nat) : Sys.M Unit := do
  let s ← get
  when (pteValid (s.word pgdir i)) do
    let page ← copy (pteFrame (s.word pgdir i))
    match newpgdir with
    | none => throw .null
    | some new => modify fun t => t.store new i (pteOf page (pteFlags (s.word pgdir i)))

theorem copyTable_eq (copy : Nat → Sys.M (Option Nat)) (pgdir : Nat) :
    copyTable copy pgdir = pgdirInit >>= fun newpgdir =>
      (List.range 512).forM (copyEntry copy newpgdir pgdir) >>= fun _ => pure newpgdir := rfl

/-- The rounds of a copy for the entries `is`. -/
structure CopiedEntries (w : Nat → Nat → Nat) (d t new : Nat) (is : List Nat) (a a' : Sys) : Prop where
  taken : a.free = is.flatMap (entryPages a'.word d new) ++ a'.free
  same : ∀ i ∈ is, (pteValid (a'.word new i) ↔ pteValid (w t i)) ∧
    (pteValid (w t i) → pteFlags (a'.word new i) = pteFlags (w t i) ∧
      SameTree w a'.word d (pteFrame (w t i)) (pteFrame (a'.word new i)))
  length : (is.flatMap (entryPages a'.word d new)).length = (is.flatMap (entryPages w d t)).length
  others : ∀ i ∉ is, a'.word new i = a.word new i
  words : ∀ q ∉ a.free, q ≠ new → a'.word q = a.word q
  only : OnlyPages a a'

theorem pte_flags {e : Nat} (hp : p < physPages) (hv : pteValid e) :
    pteValid (pte p (pteFlags e)) ∧ pteFlags (pte p (pteFlags e)) = pteFlags e ∧
      pteFrame (pte p (pteFlags e)) = p := by
  refine ⟨?_, ?_, pteFrame_pte hp (Nat.mod_lt _ (by decide))⟩
  · change e % 2 = 1 at hv
    show (4096 * p + e % 4096) % 2 = 1
    omega
  · show (4096 * p + e % 4096) % 4096 = e % 4096
    omega

theorem runs_copyEntry {u : PUnit} {o : Option Nat} {i : Nat} (hv : pteValid (a.word t i))
    (hr : Runs (copy (pteFrame (a.word t i))) a o s) :
    Runs (copyEntry copy (some new) t i) a u a' ↔ a' = s.store new i (pteOf o (pteFlags (a.word t i))) := by
  unfold copyEntry
  rw [runs_after (runs_get.mpr ⟨rfl, rfl⟩), runs_when, or_iff_left fun h => h.1 hv, and_iff_right hv,
    runs_after hr, runs_modify]

theorem runs_copyEntry_invalid {u : PUnit} {o : Option Nat} {i : Nat} (hv : ¬pteValid (a.word t i)) :
    Runs (copyEntry copy o t i) a u a' ↔ a' = a := by
  unfold copyEntry
  rw [runs_after (runs_get.mpr ⟨rfl, rfl⟩), runs_when, or_iff_right fun h => hv h.1, and_iff_right hv,
    eq_comm]

theorem CopiesTree.entries (h : CopiesTree w copy d) (his : is.Nodup) (hp : Pages a) (hnew : new ∉ a.free)
    (ht : t ∉ a.free ∧ t ≠ new ∧ a.word t = w t)
    (hkept : ∀ i ∈ is, ∀ q ∈ entryPages w d t i, q ∉ a.free ∧ q ≠ new ∧ a.word q = w q)
    (hempty : ∀ i ∈ is, ¬pteValid (a.word new i))
    (henough : (is.flatMap (entryPages w d t)).length ≤ a.free.length) :
    ∃ a', Runs (is.forM (copyEntry copy (some new) t)) a ⟨⟩ a' ∧ CopiedEntries w d t new is a a' := by
  induction is generalizing a with
  | nil =>
    have hlength : (([] : List Nat).flatMap (entryPages a.word d new)).length =
        (([] : List Nat).flatMap (entryPages w d t)).length := by rw [List.flatMap_nil, List.flatMap_nil]
    exact ⟨a, runs_pure.mpr ⟨rfl, rfl⟩, ⟨rfl, nofun, hlength, fun _ _ => rfl, fun _ _ _ => rfl, rfl⟩⟩
  | cons i is ih =>
    obtain ⟨hi, his⟩ := List.nodup_cons.mp his
    rw [List.flatMap_cons, List.length_append] at henough
    have hkeptRest (j : Nat) (hj : j ∈ is) := hkept j (List.mem_cons_of_mem _ hj)
    have hemptyRest (j : Nat) (hj : j ∈ is) := hempty j (List.mem_cons_of_mem _ hj)
    by_cases hv : pteValid (w t i)
    · have hentry : entryPages w d t i = pagesOf w d (pteFrame (w t i)) := if_pos hv
      rw [hentry] at henough
      have hkepti := hkept i List.mem_cons_self
      rw [hentry] at hkepti
      obtain ⟨child, a₁, hcopy, hdone⟩ := h (pteFrame (w t i)) a hp
        (fun q hq => ⟨(hkepti q hq).1, (hkepti q hq).2.2⟩) (by omega)
      -- the child is on pages that were free
      have hnodup := hp.free
      rw [hdone.taken, List.nodup_append'] at hnodup
      obtain ⟨-, -, hdisjoint⟩ := hnodup
      have hchild {q : Nat} (hq : q ∈ pagesOf a₁.word d child) : q ∈ a.free :=
        hdone.taken ▸ List.mem_append_left _ hq
      have hsub : a₁.free.Sublist a.free := hdone.taken ▸ List.sublist_append_right _ _
      have hbelow : child < physPages := hp.below child (.inl (hchild (self_mem_pagesOf _ d child)))
      let a₂ := a₁.store new i (pteOf (some child) (pteFlags (w t i)))
      have hword {q : Nat} (hq : q ≠ new) : a₂.word q = a₁.word q := Function.update_of_ne hq _ _
      have hother {j : Nat} (hj : j ≠ i) : a₂.word new j = a.word new j := by
        rw [Sys.word_store_ne a₁ fun hji => hj hji.2, hdone.words new hnew]
      have harena : a₁.arena = a.arena := by rw [hdone.only]
      have hp₂ : Pages a₂ := hp.sublist hsub harena
      have hold {q : Nat} (hq : q ∉ a.free) (hne : q ≠ new) : a₂.word q = a.word q := by
        rw [hword hne, hdone.words q hq]
      obtain ⟨a', hrest, hrounds⟩ := ih his hp₂ (fun hmem => hnew (hsub.subset hmem))
        ⟨fun hmem => ht.1 (hsub.subset hmem), ht.2.1, (hold ht.1 ht.2.1).trans ht.2.2⟩
        (fun j hj q hq => by
          obtain ⟨hfree, hne, hsame⟩ := hkeptRest j hj q hq
          exact ⟨fun hmem => hfree (hsub.subset hmem), hne, (hold hfree hne).trans hsame⟩)
        (fun j hj => by
          have hji : j ≠ i := by
            rintro rfl
            exact hi hj
          rw [hother hji]
          exact hemptyRest j hj)
        (by
          have hlength := congrArg List.length hdone.taken
          rw [List.length_append, hdone.length] at hlength
          show _ ≤ a₁.free.length
          omega)
      have hround : Runs (copyEntry copy (some new) t i) a ⟨⟩ a₂ :=
        (runs_copyEntry (by rwa [ht.2.2]) (by rwa [ht.2.2])).mpr (by rw [ht.2.2])
      -- the rounds for the other entries leave the child alone
      have hstays (q : Nat) (hq : q ∈ pagesOf a₁.word d child) : a'.word q = a₁.word q := by
        have hne : q ≠ new := by
          rintro rfl
          exact hnew (hchild hq)
        rw [hrounds.words q (fun hmem => hdisjoint hq hmem) hne, hword hne]
      have hnewEntry : a'.word new i = pte child (pteFlags (w t i)) := by
        rw [hrounds.others i hi]
        exact Sys.word_store_self ..
      obtain ⟨hvalid, hflags, hframe⟩ := pte_flags hbelow hv
      have hpages : entryPages a'.word d new i = pagesOf a₁.word d child := by
        rw [entryPages, hnewEntry, if_pos hvalid, hframe]
        exact pagesOf_congr hstays
      refine ⟨a', runs_bind.mpr ⟨⟨⟩, a₂, hround, hrest⟩, ?_⟩
      constructor
      · rw [List.flatMap_cons, hpages, List.append_assoc, ← hrounds.taken]
        exact hdone.taken
      · intro j hj
        rcases List.mem_cons.mp hj with rfl | hj
        · rw [hnewEntry, hframe]
          exact ⟨iff_of_true hvalid hv, fun _ => ⟨hflags, hdone.same.congr hstays⟩⟩
        · exact hrounds.same j hj
      · rw [List.flatMap_cons, List.flatMap_cons, List.length_append, List.length_append, hpages, hentry,
          hdone.length, hrounds.length]
      · intro j hj
        rw [List.mem_cons, not_or] at hj
        rw [hrounds.others j hj.2, hother hj.1]
      · intro q hq hne
        rw [hrounds.words q (fun hmem => hq (hsub.subset hmem)) hne, hold hq hne]
      · exact hdone.only.trans (show OnlyPages a₁ a₂ from rfl) |>.trans hrounds.only
    · have hentry : entryPages w d t i = [] := if_neg hv
      rw [hentry, List.length_nil, Nat.zero_add] at henough
      obtain ⟨a', hrest, hrounds⟩ := ih his hp hnew ht hkeptRest hemptyRest henough
      have hround : Runs (copyEntry copy (some new) t i) a ⟨⟩ a :=
        (runs_copyEntry_invalid (by rwa [ht.2.2])).mpr rfl
      have hinvalid : ¬pteValid (a'.word new i) := by
        rw [hrounds.others i hi]
        exact hempty i List.mem_cons_self
      have hpages : entryPages a'.word d new i = [] := if_neg hinvalid
      refine ⟨a', runs_bind.mpr ⟨⟨⟩, a, hround, hrest⟩, ?_⟩
      constructor
      · rw [List.flatMap_cons, hpages]
        exact hrounds.taken
      · intro j hj
        rcases List.mem_cons.mp hj with rfl | hj
        · exact ⟨iff_of_false hinvalid hv, fun hvalid => absurd hvalid hv⟩
        · exact hrounds.same j hj
      · rw [List.flatMap_cons, List.flatMap_cons, hpages, hentry]
        exact hrounds.length
      · intro j hj
        exact hrounds.others j fun hmem => hj (List.mem_cons_of_mem _ hmem)
      · exact hrounds.words
      · exact hrounds.only

theorem CopiesTree.table (h : CopiesTree w copy d) : CopiesTree w (copyTable copy) (d + 1) := by
  intro t a hp hkept henough
  rw [pagesOf_succ, List.length_cons] at henough
  obtain ⟨new, free, hcons⟩ : ∃ p free, a.free = p :: free := by
    cases hf : a.free with
    | nil =>
      rw [hf] at henough
      exact absurd henough (by simp)
    | cons p free => exact ⟨p, free, rfl⟩
  let a₁ := ({ a with free } : Sys).fill new fun _ => 0
  have hmem : new ∈ a.free := hcons ▸ List.mem_cons_self
  have hnew : new ∉ free := (List.nodup_cons.mp (hcons ▸ hp.free)).1
  have hword {q : Nat} (hq : q ≠ new) : a₁.word q = a.word q := Function.update_of_ne hq _ _
  have hrest {q : Nat} (hq : q ∉ a.free) : q ∉ free ∧ q ≠ new := by
    rw [hcons, List.mem_cons, not_or] at hq
    exact hq.symm
  -- what is copied is neither free nor the new table
  have hsource {q : Nat} (hq : q ∈ pagesOf w (d + 1) t) : q ∉ free ∧ q ≠ new ∧ a₁.word q = w q := by
    obtain ⟨hfree, hsame⟩ := hkept q hq
    obtain ⟨hqfree, hne⟩ := hrest hfree
    exact ⟨hqfree, hne, (hword hne).trans hsame⟩
  have hzero (i : Nat) : a₁.word new i = 0 := by
    show Function.update a.word new (fun _ => 0) new i = 0
    rw [Function.update_self]
  obtain ⟨a', hloop, hdone⟩ := h.entries (a := a₁) List.nodup_range (hp.rest hcons rfl rfl) hnew
    (hsource (self_mem_pagesOf w (d + 1) t))
    (fun i hi q hq => hsource (List.mem_cons_of_mem _ (List.mem_flatMap.mpr ⟨i, hi, hq⟩)))
    (fun i _ => by
      rw [hzero]
      decide)
    (by
      rw [hcons, List.length_cons] at henough
      show _ ≤ free.length
      omega)
  refine ⟨new, a', ?_, ?_⟩
  · rw [copyTable_eq]
    exact runs_bind.mpr ⟨some new, a₁, runs_pgdirInit hcons, runs_bind.mpr ⟨⟨⟩, a', hloop,
      runs_pure.mpr ⟨rfl, rfl⟩⟩⟩
  · constructor
    · rw [hcons, pagesOf_succ]
      exact congrArg (new :: ·) hdone.taken
    · exact fun i hi => hdone.same i (List.mem_range.mpr hi)
    · rw [pagesOf_succ, pagesOf_succ, List.length_cons, List.length_cons, hdone.length]
    · intro q hq
      obtain ⟨hqfree, hne⟩ := hrest hq
      rw [hdone.words q hqfree hne, hword hne]
    · exact (show OnlyPages a a₁ from rfl).trans hdone.only

theorem copiesTree_recur (w : Nat → Nat → Nat) (depth : Nat) :
    CopiesTree w (recurUvmCopy depth) (depth + 1) := by
  induction depth with
  | zero => exact (copiesTree_page w).table
  | succ depth ih => exact ih.table

/-! ### Giving back -/

/-- The computation frees the pages of the tree of its argument, each once. -/
def FreesTree (w : Nat → Nat → Nat) (x : Nat → Sys.M Unit) (d : Nat) : Prop :=
  ∀ t a, (pagesOf w d t).Nodup → (∀ q ∈ pagesOf w d t, a.word q = w q) →
    ∃ a' pages, Runs (x t) a () a' ∧ a'.free = pages ++ a.free ∧ pages.Perm (pagesOf w d t) ∧
      ∀ q ∉ pagesOf w d t, a'.word q = a.word q

theorem freesTree_kfree (w : Nat → Nat → Nat) : FreesTree w kfree 0 := by
  intro t a _ _
  refine ⟨_, [t], runs_modify.mpr rfl, rfl, List.Perm.refl _, fun q hq => ?_⟩
  exact Function.update_of_ne (fun h => hq (List.mem_singleton.mpr h)) _ _

theorem FreesTree.entries (h : FreesTree w x d) (hnodup : (is.flatMap (entryPages w d t)).Nodup)
    (ht : t ∉ is.flatMap (entryPages w d t)) (hword : a.word t = w t)
    (hkept : ∀ q ∈ is.flatMap (entryPages w d t), a.word q = w q) :
    ∃ a' pages, Runs (is.forM fun i => do
        let s ← get
        when (pteValid (s.word t i)) (x (pteFrame (s.word t i)))) a ⟨⟩ a' ∧
      a'.free = pages ++ a.free ∧ pages.Perm (is.flatMap (entryPages w d t)) ∧
      ∀ q ∉ is.flatMap (entryPages w d t), a'.word q = a.word q := by
  induction is generalizing a with
  | nil => exact ⟨a, [], runs_pure.mpr ⟨rfl, rfl⟩, rfl, List.Perm.refl _, fun _ _ => rfl⟩
  | cons i is ih =>
    rw [List.flatMap_cons, List.nodup_append'] at hnodup
    obtain ⟨hfirst, hrest, hdisjoint⟩ := hnodup
    rw [List.flatMap_cons, List.mem_append, not_or] at ht
    simp only [List.flatMap_cons, List.mem_append] at hkept ⊢
    -- the round for the entry
    obtain ⟨a₁, pages, hround, hfree, hperm, hothers⟩ : ∃ a₁ pages, Runs (do
          let s ← get
          when (pteValid (s.word t i)) (x (pteFrame (s.word t i)))) a () a₁ ∧
        a₁.free = pages ++ a.free ∧ pages.Perm (entryPages w d t i) ∧
        ∀ q ∉ entryPages w d t i, a₁.word q = a.word q := by
      by_cases hv : pteValid (w t i)
      · rw [entryPages, if_pos hv] at hfirst hkept ⊢
        obtain ⟨a₁, pages, hr, hfree, hperm, hothers⟩ :=
          h (pteFrame (w t i)) a hfirst fun q hq => hkept q (.inl hq)
        refine ⟨a₁, pages, runs_bind.mpr ⟨a, a, runs_get.mpr ⟨rfl, rfl⟩, ?_⟩, hfree, hperm, hothers⟩
        rw [hword]
        exact runs_when.mpr (.inl ⟨hv, hr⟩)
      · rw [entryPages, if_neg hv]
        refine ⟨a, [], runs_bind.mpr ⟨a, a, runs_get.mpr ⟨rfl, rfl⟩, ?_⟩, rfl, List.Perm.refl _, fun _ _ => rfl⟩
        rw [hword]
        exact runs_when.mpr (.inr ⟨hv, rfl⟩)
    obtain ⟨a', more, hloop, hfree', hperm', hothers'⟩ := ih hrest ht.2 ((hothers t ht.1).trans hword)
      fun q hq => (hothers q fun hq' => hdisjoint hq' hq).trans (hkept q (.inr hq))
    refine ⟨a', more ++ pages, runs_bind.mpr ⟨⟨⟩, a₁, hround, hloop⟩, ?_, ?_, fun q hq => ?_⟩
    · rw [hfree', hfree, List.append_assoc]
    · exact (List.perm_append_comm).trans (hperm.append hperm')
    · rw [not_or] at hq
      rw [hothers' q hq.2, hothers q hq.1]

theorem FreesTree.table (h : FreesTree w x d) : FreesTree w (freeTable x) (d + 1) := by
  intro t a hnodup hkept
  rw [pagesOf_succ] at hnodup hkept
  obtain ⟨ht, hentries⟩ := List.nodup_cons.mp hnodup
  obtain ⟨a', pages, hloop, hfree, hperm, hothers⟩ := h.entries hentries ht (hkept t List.mem_cons_self)
    fun q hq => hkept q (List.mem_cons_of_mem _ hq)
  refine ⟨_, t :: pages, runs_bind.mpr ⟨⟨⟩, a', hloop, runs_modify.mpr rfl⟩, ?_, ?_, fun q hq => ?_⟩
  · exact congrArg (t :: ·) hfree
  · rw [pagesOf_succ]
    exact hperm.cons t
  · rw [pagesOf_succ, List.mem_cons, not_or] at hq
    exact (Function.update_of_ne hq.1 _ _).trans (hothers q hq.2)

theorem freesTree_recur (w : Nat → Nat → Nat) (depth : Nat) :
    FreesTree w (recurVmFree depth) (depth + 1) := by
  induction depth with
  | zero => exact (freesTree_kfree w).table
  | succ depth ih => exact ih.table

/-- The copy of an address space maps the same addresses to pages with the same flags and contents, on
pages that were free, and leaves the original as it is; `vm_free` gives back exactly the pages of an
address space, so that after that of the copy the same pages are free as before. -/
theorem uvmCopy_isolated (h : Space r s) (hp : Pages s) (hroot : r pgdir = some 0)
    (henough : (pagesOf s.word 4 pgdir).length ≤ s.free.length) :
    (∃ new s', Runs (uvmCopy pgdir) s (some new) s' ∧
      (∀ va, view s' new va = view s pgdir va) ∧
      (∀ q ∈ pagesOf s'.word 4 new, q ∈ s.free ∧ q ∉ pagesOf s.word 4 pgdir) ∧
      (∀ q ∉ s.free, s'.word q = s.word q) ∧
      ∃ s'', Runs (vmFree new) s' () s'' ∧ s''.free.Perm s.free) ∧
    ∃ s' pages, Runs (vmFree pgdir) s () s' ∧ s'.free = pages ++ s.free ∧ pages.Nodup ∧
      ∀ q, q ∈ pages ↔ q ∈ pagesOf s.word 4 pgdir := by
  have hapart {q : Nat} (hq : q ∈ pagesOf s.word 4 pgdir) : q ∉ s.free := h.pagesOf_apart hroot rfl hq
  have hnodup := h.nodup_pagesOf (d := 4) hroot rfl
  constructor
  · obtain ⟨new, s', hr, hdone⟩ := copiesTree_recur s.word 3 pgdir s hp (fun q hq => ⟨hapart hq, rfl⟩) henough
    have hnew {q : Nat} (hq : q ∈ pagesOf s'.word 4 new) : q ∈ s.free :=
      hdone.taken ▸ List.mem_append_left _ hq
    have hdifferent : (pagesOf s'.word 4 new).Nodup := by
      have hfree := hp.free
      rw [hdone.taken] at hfree
      exact (List.nodup_append'.mp hfree).1
    obtain ⟨s'', pages, hfree, heq, hperm, -⟩ := freesTree_recur s'.word 3 new s' hdifferent fun _ _ => rfl
    refine ⟨new, s', hr, hdone.same.view, fun q hq => ⟨hnew hq, fun hq' => hapart hq' (hnew hq)⟩,
      hdone.words, s'', hfree, ?_⟩
    rw [heq, hdone.taken]
    exact hperm.append_right _
  · obtain ⟨s', pages, hr, hfree, hperm, -⟩ := freesTree_recur s.word 3 pgdir s hnodup fun _ _ => rfl
    exact ⟨s', pages, hr, hfree, hperm.nodup_iff.mpr hnodup, fun q => hperm.mem_iff⟩

/-- A process with an empty table and 16 free pages. -/
def roomyProcess : Sys := { strayProcess with free := (List.range 16).map (· + 2) }

theorem roomyProcess_space : AddressSpace roomyProcess 1 := by
  have hempty (i : Nat) : ¬pteValid (roomyProcess.word 1 i) := show ¬pteValid 0 by decide
  have hspace := ((space_empty roomyProcess).add (p := 1) (l := 0) rfl (by decide) nofun (by decide)
    fun _ => hempty).1
  refine ⟨⟨by decide, List.nodup_nil, nofun, fun p hp => ?_⟩, ⟨_, hspace, Function.update_self ..⟩, rfl⟩
  have hbelow : ∀ p ∈ roomyProcess.free, p < physPages := by decide
  exact hbelow p (hp.resolve_right nofun)

/-- The address space of `roomyProcess` after `uvm_alloc` of a page. -/
theorem uvmCopy_isolated_page : ∃ s, (translate s 1 0).isSome = true ∧
    (∃ new s', Runs (uvmCopy 1) s (some new) s' ∧
      (∀ va, view s' new va = view s 1 va) ∧
      (∀ q ∈ pagesOf s'.word 4 new, q ∈ s.free ∧ q ∉ pagesOf s.word 4 1) ∧
      (∀ q ∉ s.free, s'.word q = s.word q) ∧
      ∃ s'', Runs (vmFree new) s' () s'' ∧ s''.free.Perm s.free) ∧
    ∃ s' pages, Runs (vmFree 1) s () s' ∧ s'.free = pages ++ s.free ∧ pages.Nodup ∧
      ∀ q, q ∈ pages ↔ q ∈ pagesOf s.word 4 1 := by
  have hruns : returnsWith (uvmAlloc 1 0 0 0 4096) roomyProcess (fun _ s => !s.short && decide
      ((translate s 1 0).isSome = true ∧ (pagesOf s.word 4 1).length ≤ s.free.length)) = true := by
    decide +kernel
  obtain ⟨n, s, hr, hs⟩ := runs_of_returnsWith hruns
  rw [Bool.and_eq_true, Bool.not_eq_true', decide_eq_true_iff] at hs
  obtain ⟨-, -, hspace, -⟩ := roomyProcess_space.uvmAlloc hr hs.1
  obtain ⟨r, htables, hroot⟩ := hspace.tables
  exact ⟨s, hs.2.1, uvmCopy_isolated htables hspace.pages hroot hs.2.2⟩

end FtosFfs.Core
