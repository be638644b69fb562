import FtosFfs.Core.Execve
import Mathlib.Data.List.Nodup

/-! Address spaces: the pages that the tables of a process lead to, each by one entry only, and how
the operations on tables take free pages into them and give them back. -/

namespace FtosFfs.Core

open Lib Lib.Exec

variable {s s' : Sys} {p q t i l : Nat}

/-- What the pages of an address space are for: the tables by their level, from 0 to 3, and 4 for
the pages of data. -/
abbrev Roles : Type := Nat → Option Nat

variable {r r' : Roles}

/-- The free pages and the pages of the arenas are different pages below `phystop`. -/
structure Pages (s : Sys) : Prop where
  free : s.free.Nodup
  arena : s.arena.Nodup
  disjoint : ∀ p ∈ s.arena, p ∉ s.free
  below : ∀ p, p ∈ s.free ∨ p ∈ s.arena → p < physPages

/-- Entry `i` of the table `t` leads to the page `q`. -/
def Leads (r : Roles) (s : Sys) (t i q : Nat) : Prop :=
  (∃ l, r t = some l ∧ l < 4) ∧ pteValid (s.word t i) ∧ pteFrame (s.word t i) = q

/-- The pages with roles are an address space: no page of it is free, its tables lead from level to
level, and no two entries to one page. -/
structure Space (r : Roles) (s : Sys) : Prop where
  apart : ∀ p, p ∈ s.free ∨ p ∈ s.arena → r p = none
  below : ∀ p l, r p = some l → p < physPages
  typed : ∀ t l i, r t = some l → l < 4 → pteValid (s.word t i) →
    r (pteFrame (s.word t i)) = some (l + 1)
  inj : ∀ t i t' i' q, Leads r s t i q → Leads r s t' i' q → t = t' ∧ i = i'

/-- The parts of the state that are not memory. -/
def SameProcs (s s' : Sys) : Prop :=
  s'.kernel = s.kernel ∧ s'.pgdir = s.pgdir ∧ s'.kstack = s.kstack

/-- The address space has taken free pages and written to its own pages only. -/
structure Works (r : Roles) (s : Sys) (r' : Roles) (s' : Sys) : Prop where
  free : s'.free.Sublist s.free
  arena : s'.arena = s.arena
  grows : ∀ p l, r p = some l → r' p = some l
  taken : ∀ p, r p = none → r' p ≠ none → p ∈ s.free
  words : ∀ p, r' p = none → s'.word p = s.word p
  refs : ∀ t i q, Leads r' s' t i q → r q ≠ none → ∃ t0 i0, Leads r s t0 i0 q

theorem Works.refl (r : Roles) (s : Sys) : Works r s r s :=
  ⟨List.Sublist.refl _, rfl, fun _ _ => id, fun _ h h' => absurd h h', fun _ _ => rfl,
    fun t i _ h _ => ⟨t, i, h⟩⟩

theorem Works.trans {r1 r2 r3 : Roles} {s1 s2 s3 : Sys} (h : Works r1 s1 r2 s2)
    (h' : Works r2 s2 r3 s3) : Works r1 s1 r3 s3 := by
  refine ⟨h'.free.trans h.free, h'.arena.trans h.arena,
    fun p l hp => h'.grows p l (h.grows p l hp), fun p hp hp3 => ?_, fun p hp => ?_,
    fun t i q hq hne => ?_⟩
  · by_cases hp2 : r2 p = none
    · exact h.free.subset (h'.taken p hp2 hp3)
    · exact h.taken p hp hp2
  · have hp2 : r2 p = none := by
      by_contra hne
      obtain ⟨l, hl⟩ := Option.ne_none_iff_exists'.mp hne
      rw [h'.grows p l hl] at hp
      cases hp
    rw [h'.words p hp, h.words p hp2]
  · obtain ⟨l, hl⟩ := Option.ne_none_iff_exists'.mp hne
    obtain ⟨t2, i2, h2⟩ := h'.refs t i q hq (by rw [h.grows q l hl]; simp)
    exact h.refs t2 i2 q h2 hne

theorem Pages.sublist (h : Pages s) (hf : s'.free.Sublist s.free) (ha : s'.arena = s.arena) : Pages s' := by
  refine ⟨hf.nodup h.free, ha ▸ h.arena, fun p hpa hpf => ?_, fun p hp => ?_⟩
  · exact h.disjoint p (ha ▸ hpa) (hf.subset hpf)
  · exact h.below p (hp.imp (fun hpf => hf.subset hpf) fun hpa => ha ▸ hpa)

theorem Works.pages (h : Works r s r' s') (hp : Pages s) : Pages s' := hp.sublist h.free h.arena

/-- A page that is neither free nor of the address space stays so. -/
theorem Works.outside (h : Works r s r' s') (hr : r p = none) (hf : p ∉ s.free) :
    r' p = none ∧ p ∉ s'.free ∧ s'.word p = s.word p := by
  have hr' : r' p = none := by
    by_contra hne
    exact hf (h.taken p hr hne)
  exact ⟨hr', fun hp => hf (h.free.subset hp), h.words p hr'⟩

theorem pteFrame_pte {flags : Nat} (hp : p < physPages) (hf : flags < pageSize) :
    pteFrame (pte p flags) = p := by
  unfold pteFrame pte
  simp only [physPages, pageSize] at *
  omega

/-- A page that no entry leads to. -/
def Unled (r : Roles) (s : Sys) (q : Nat) : Prop := ∀ t i, ¬Leads r s t i q

/-- A page without a role is one that no entry leads to. -/
theorem Space.unled (h : Space r s) (hq : r q = none) : Unled r s q := by
  rintro t i ⟨⟨l, hl, hl4⟩, hv, rfl⟩
  rw [h.typed t l i hl hl4 hv] at hq
  cases hq

/-- A page from outside gets a role; as a table it is empty. -/
theorem Space.add (h : Space r s) (hp : r p = none) (hf : p ∉ s.free) (ha : p ∉ s.arena)
    (hb : p < physPages) (hzero : l < 4 → ∀ i, ¬pteValid (s.word p i)) :
    Space (Function.update r p (some l)) s ∧
      ∀ t i q, Leads (Function.update r p (some l)) s t i q → Leads r s t i q := by
  have hlead (t i q : Nat) (hq : Leads (Function.update r p (some l)) s t i q) :
      Leads r s t i q := by
    obtain ⟨⟨m, hm, hm4⟩, hv, he⟩ := hq
    by_cases htp : t = p
    · subst htp
      obtain rfl : l = m := by simpa using hm
      exact absurd hv (hzero hm4 i)
    · rw [Function.update_of_ne htp] at hm
      exact ⟨⟨m, hm, hm4⟩, hv, he⟩
  refine ⟨⟨fun a hpool => ?_, fun a m hm => ?_, fun a m i hm hm4 hv => ?_,
    fun a i a' i' q hq hq' => h.inj a i a' i' q (hlead a i q hq) (hlead a' i' q hq')⟩, hlead⟩
  · have hne : a ≠ p := by
      rintro rfl
      exact hpool.elim hf ha
    rw [Function.update_of_ne hne]
    exact h.apart a hpool
  · by_cases hap : a = p
    · exact hap ▸ hb
    · rw [Function.update_of_ne hap] at hm
      exact h.below a m hm
  · obtain ⟨⟨m', hm', hm4'⟩, -, -⟩ := hlead a i _ ⟨⟨m, hm, hm4⟩, hv, rfl⟩
    have hap : a ≠ p := by
      rintro rfl
      rw [hp] at hm'
      cases hm'
    rw [Function.update_of_ne hap] at hm
    have htyped := h.typed a m i hm hm4 hv
    rw [Function.update_of_ne, htyped]
    intro he
    rw [he, hp] at htyped
    cases htyped

/-- An entry is set to a page that no entry leads to. -/
theorem Space.link (i flags : Nat) (h : Space r s) (ht : r t = some l)
    (hq : r q = some (l + 1)) (hfree : Unled r s q) (hfl : flags < pageSize) :
    Space r (s.store t i (pte q flags)) ∧
      ∀ a b x, Leads r (s.store t i (pte q flags)) a b x → Leads r s a b x ∨ x = q := by
  have hframe := pteFrame_pte (h.below q _ hq) hfl
  have hword (a b : Nat) (hne : ¬(a = t ∧ b = i)) :
      (s.store t i (pte q flags)).word a b = s.word a b := by
    by_cases ha : a = t
    · subst ha
      have hb : b ≠ i := fun hb => hne ⟨rfl, hb⟩
      simp [Sys.store, hb]
    · simp [Sys.store, ha]
  have hnew : (s.store t i (pte q flags)).word t i = pte q flags := by simp [Sys.store]
  have hlead (a b x : Nat) (hx : Leads r (s.store t i (pte q flags)) a b x) :
      (¬(a = t ∧ b = i) ∧ Leads r s a b x) ∨ ((a = t ∧ b = i) ∧ x = q) := by
    by_cases hab : a = t ∧ b = i
    · obtain ⟨rfl, rfl⟩ := hab
      refine .inr ⟨⟨rfl, rfl⟩, ?_⟩
      rw [← hx.2.2, hnew, hframe]
    · refine .inl ⟨hab, hx.1, ?_⟩
      rw [← hword a b hab]
      exact hx.2
  refine ⟨⟨h.apart, h.below, fun a m b hm hm4 hv => ?_, fun a b a' b' x hx hx' => ?_⟩,
    fun a b x hx => (hlead a b x hx).imp And.right And.right⟩
  · by_cases hab : a = t ∧ b = i
    · obtain ⟨rfl, rfl⟩ := hab
      rw [hnew, hframe, hq]
      rw [ht] at hm
      cases hm
      rfl
    · rw [hword a b hab] at hv ⊢
      exact h.typed a m b hm hm4 hv
  · obtain ⟨-, h1⟩ | ⟨h1, rfl⟩ := hlead a b x hx
    · obtain ⟨-, h2⟩ | ⟨h2, rfl⟩ := hlead a' b' x hx'
      · exact h.inj a b a' b' x h1 h2
      · exact absurd h1 (hfree a b)
    · obtain ⟨-, h2⟩ | ⟨h2, -⟩ := hlead a' b' x hx'
      · exact absurd h2 (hfree a' b')
      · exact ⟨h1.1.trans h2.1.symm, h1.2.trans h2.2.symm⟩

/-- What lies outside the address space, or is data, does not matter to it. -/
theorem Space.of_words (h : Space r s) (hw : ∀ t l, r t = some l → l < 4 → s'.word t = s.word t)
    (hpool : ∀ p, p ∈ s'.free ∨ p ∈ s'.arena → r p = none) : Space r s' := by
  have hlead (t i q : Nat) (hq : Leads r s' t i q) : Leads r s t i q := by
    obtain ⟨⟨l, hl, hl4⟩, hv⟩ := hq
    refine ⟨⟨l, hl, hl4⟩, ?_⟩
    rwa [hw t l hl hl4] at hv
  refine ⟨hpool, h.below, fun t l i hl hl4 hv => ?_, fun t i t' i' q hq hq' =>
    h.inj t i t' i' q (hlead t i q hq) (hlead t' i' q hq')⟩
  rw [hw t l hl hl4] at hv ⊢
  exact h.typed t l i hl hl4 hv

theorem space_empty (s : Sys) : Space (fun _ => none) s := by
  constructor
  · exact fun _ _ => rfl
  · intro p l hp
    cases hp
  · intro t l i ht
    cases ht
  · rintro t i t' i' q ⟨⟨l, hl, -⟩, -⟩
    cases hl

/-! ### Taking pages -/

section Take

variable {B : Sys → Prop} {a : Option Nat}

/-- What no operation on memory changes, apart from the flag that a page was missing. -/
def Loose (B : Sys → Prop) : Prop :=
  ∀ (s : Sys) free word arena short, (s.short = true → short = true) → B s →
    B { s with free, word, arena, short }

theorem loose_short : Loose fun s => s.short = true := fun _ _ _ _ _ h hs => h hs

/-- No page was missing before the computation if none is after it. -/
theorem not_short {α : Type} {x : Sys.M α} {b : α} (hx : Stays (fun s => s.short = true) x)
    (h : Runs x s b s') (hs : s'.short = false) : s.short = false := by
  by_contra hne
  have hs' : s'.short = true := hx s b s' h (by simpa using hne)
  rw [hs] at hs'
  cases hs'

theorem loose_sameProcs (s : Sys) : Loose (SameProcs s) := fun _ _ _ _ _ _ h => h

theorem stays_store (hB : Loose B) (p i v : Nat) :
    Stays B (modify fun s => s.store p i v : Sys.M Unit) :=
  .modify fun s hs => hB s s.free _ s.arena s.short id hs

theorem stays_fill (hB : Loose B) (p : Nat) (f : Sys → Nat → Nat) :
    Stays B (modify fun s => s.fill p (f s) : Sys.M Unit) :=
  .modify fun s hs => hB s s.free _ s.arena s.short id hs

theorem stays_kalloc (hB : Loose B) : Stays B kalloc := by
  intro s a s' h hs
  unfold kalloc at h
  obtain ⟨t, _, ht, h⟩ := runs_bind.mp h
  obtain ⟨rfl, rfl⟩ := runs_get.mp ht
  split at h
  · obtain ⟨_, _, h1, h2⟩ := runs_bind.mp h
    obtain rfl := runs_set.mp h1
    obtain ⟨-, rfl⟩ := runs_pure.mp h2
    exact hB s s.free s.word s.arena true (fun _ => rfl) hs
  · rename_i free _
    obtain ⟨_, _, h1, h2⟩ := runs_bind.mp h
    obtain rfl := runs_set.mp h1
    obtain ⟨-, rfl⟩ := runs_pure.mp h2
    exact hB s free s.word s.arena s.short id hs

theorem stays_kfree (hB : Loose B) (p : Nat) : Stays B (kfree p) :=
  .modify fun s hs => hB s _ _ s.arena s.short id hs

theorem stays_pgdirInit (hB : Loose B) : Stays B pgdirInit := by
  refine (stays_kalloc hB).bind fun o => ?_
  cases o with
  | none => exact .pure none
  | some p => exact (stays_fill hB p _).bind fun _ => .pure _

theorem stays_walkStep (hB : Loose B) (va : Nat) (alloc : Bool) (table k : Nat) :
    Stays B (walkStep va alloc table k) := by
  refine Stays.get.bind fun s => Stays.bind (.when ?_) fun _ => Stays.get.bind fun _ => .pure _
  refine (stays_pgdirInit hB).bind fun o => ?_
  cases o with
  | none => exact .pure _
  | some p => exact stays_store hB _ _ _

theorem stays_pgdirWalk (hB : Loose B) (pgdir va : Nat) (alloc : Bool) :
    Stays B (pgdirWalk pgdir va alloc) :=
  (Stays.foldlM (fun t k => stays_walkStep hB va alloc t k) _ _).bind fun _ => .pure _

/-- `kalloc` takes the first free page, if there is one. -/
theorem kalloc_cases (hr : Runs kalloc s a s') :
    (∃ p free, a = some p ∧ s.free = p :: free ∧ s' = { s with free }) ∨
      (a = none ∧ s.free = [] ∧ s' = { s with short := true }) := by
  obtain ⟨_, _, hget, hr⟩ := runs_bind.mp hr
  obtain ⟨rfl, rfl⟩ := runs_get.mp hget
  split at hr
  case h_1 hfree =>
    obtain ⟨_, _, hset, hr⟩ := runs_bind.mp hr
    obtain rfl := runs_set.mp hset
    obtain ⟨rfl, rfl⟩ := runs_pure.mp hr
    exact .inr ⟨rfl, hfree, rfl⟩
  case h_2 p free hfree =>
    obtain ⟨_, _, hset, hr⟩ := runs_bind.mp hr
    obtain rfl := runs_set.mp hset
    obtain ⟨rfl, rfl⟩ := runs_pure.mp hr
    exact .inl ⟨p, free, rfl, hfree, rfl⟩

theorem pgdirInit_cases (hr : Runs pgdirInit s a s') :
    (∃ p free, a = some p ∧ s.free = p :: free ∧ s' = { s with free }.fill p fun _ => 0) ∨
      (a = none ∧ s.free = [] ∧ s' = { s with short := true }) := by
  obtain ⟨o, s₁, halloc, hr⟩ := runs_bind.mp hr
  obtain ⟨p, free, rfl, hfree, rfl⟩ | ⟨rfl, hfree, rfl⟩ := kalloc_cases halloc
  · obtain ⟨_, _, hfill, hr⟩ := runs_bind.mp hr
    obtain rfl := runs_modify.mp hfill
    obtain ⟨rfl, rfl⟩ := runs_pure.mp hr
    exact .inl ⟨p, free, rfl, hfree, rfl⟩
  · obtain ⟨rfl, rfl⟩ := runs_pure.mp hr
    exact .inr ⟨rfl, hfree, rfl⟩

/-- The page that `kalloc` finds. -/
theorem kalloc_takes (h : Runs kalloc s a s') (hs : s'.short = false) :
    ∃ p free, a = some p ∧ s.free = p :: free ∧ s' = { s with free } := by
  obtain hfound | ⟨-, -, rfl⟩ := kalloc_cases h
  · exact hfound
  · cases hs

theorem pgdirInit_takes (h : Runs pgdirInit s a s') (hs : s'.short = false) :
    ∃ p free, a = some p ∧ s.free = p :: free ∧ s' = { s with free }.fill p fun _ => 0 := by
  obtain hfound | ⟨-, -, rfl⟩ := pgdirInit_cases h
  · exact hfound
  · cases hs

/-- The first free page gets a role in the address space; as a table it is empty. -/
theorem Space.take {free : List Nat} {f : Nat → Nat} (hp : Pages s) (h : Space r s)
    (hfree : s.free = p :: free) (hzero : l < 4 → ∀ i, ¬pteValid (f i)) :
    Space (Function.update r p (some l)) ({ s with free }.fill p f) ∧
      Works r s (Function.update r p (some l)) ({ s with free }.fill p f) ∧ r p = none ∧
      Unled (Function.update r p (some l)) ({ s with free }.fill p f) p := by
  have hmem : p ∈ s.free := by simp [hfree]
  have hrole : r p = none := h.apart p (.inl hmem)
  have hsub : ∀ a, a ∈ free → a ∈ s.free := by
    intro a ha
    rw [hfree]
    exact List.mem_cons_of_mem p ha
  have hnot : p ∉ free := by
    have := hp.free
    rw [hfree] at this
    exact (List.nodup_cons.mp this).1
  have harena : p ∉ s.arena := fun ha => hp.disjoint p ha hmem
  have h1 : Space r ({ s with free }.fill p f) := by
    refine h.of_words (fun t l ht _ => ?_) fun a ha => h.apart a (ha.imp (hsub a) id)
    have hne : t ≠ p := by
      rintro rfl
      rw [hrole] at ht
      cases ht
    exact Function.update_of_ne hne _ _
  obtain ⟨h2, hlead⟩ := h1.add (l := l) hrole hnot harena (hp.below p (.inl hmem))
    (by simpa [Sys.fill] using hzero)
  have hword (a : Nat) (ha : a ≠ p) : ({ s with free }.fill p f).word a = s.word a :=
    Function.update_of_ne ha _ _
  have hback (t i q : Nat) (hq : Leads r ({ s with free }.fill p f) t i q) : Leads r s t i q := by
    obtain ⟨⟨m, hm, hm4⟩, hv⟩ := hq
    have hne : t ≠ p := by
      rintro rfl
      rw [hrole] at hm
      cases hm
    rw [hword t hne] at hv
    exact ⟨⟨m, hm, hm4⟩, hv⟩
  refine ⟨h2, ⟨?_, rfl, fun a m ha => ?_, fun a ha hne => ?_, fun a ha => ?_, fun t i q hq _ =>
    ⟨t, i, hback t i q (hlead t i q hq)⟩⟩, hrole,
    fun t i hq => h.unled hrole t i (hback t i p (hlead t i p hq))⟩
  · show free.Sublist s.free
    rw [hfree]
    exact List.sublist_cons_self p free
  · have hne : a ≠ p := by
      rintro rfl
      rw [hrole] at ha
      cases ha
    rwa [Function.update_of_ne hne]
  · by_cases hap : a = p
    · exact hap ▸ hmem
    · rw [Function.update_of_ne hap] at hne
      exact absurd ha hne
  · refine hword a ?_
    rintro rfl
    rw [Function.update_self] at ha
    cases ha

/-- The space of a page that was taken, after it was linked. -/
theorem Works.link {r2 : Roles} {s2 : Sys} {v : Nat} (h : Works r s r2 s2) (ht : r2 t = some l)
    (hq : r q = none)
    (hlead : ∀ a b x, Leads r2 (s2.store t i v) a b x → Leads r2 s2 a b x ∨ x = q) :
    Works r s r2 (s2.store t i v) := by
  refine ⟨h.free, h.arena, h.grows, h.taken, fun p hp => ?_, fun a b x hx hne => ?_⟩
  · have hpt : p ≠ t := by
      rintro rfl
      rw [ht] at hp
      cases hp
    rw [← h.words p hp]
    exact Function.update_of_ne hpt _ _
  · obtain hx | rfl := hlead a b x hx
    · exact h.refs a b x hx hne
    · exact absurd hq hne

end Take

/-! ### Walking and mapping -/

section Map

variable {B : Sys → Prop} {va k pgdir : Nat}

/-- The address space after an operation that has taken pages. -/
structure Grown (r : Roles) (s : Sys) (r' : Roles) (s' : Sys) : Prop where
  space : Space r' s'
  works : Works r s r' s'

theorem Grown.refl (h : Space r s) : Grown r s r s := ⟨h, .refl r s⟩

theorem Grown.trans {r1 r2 : Roles} {s1 s2 : Sys} (h : Grown r s r1 s1)
    (h' : Grown r1 s1 r2 s2) : Grown r s r2 s2 := ⟨h'.space, h.works.trans h'.works⟩

theorem Grown.pages (h : Grown r s r' s') (hp : Pages s) : Pages s' := h.works.pages hp

/-- The table below, which the walk makes if there is none. -/
theorem walkStep_grows {table : Nat} (hp : Pages s) (h : Space r s) (ht : r table = some l)
    (hl : l < 3) (hr : Runs (walkStep va true table k) s t s') (hs : s'.short = false) :
    ∃ r', Grown r s r' s' ∧ r' t = some (l + 1) := by
  unfold walkStep at hr
  obtain ⟨_, _, h1, hr⟩ := runs_bind.mp hr
  obtain ⟨rfl, rfl⟩ := runs_get.mp h1
  obtain ⟨_, s1, h1, hr⟩ := runs_bind.mp hr
  obtain ⟨_, _, h2, hr⟩ := runs_bind.mp hr
  obtain ⟨rfl, rfl⟩ := runs_get.mp h2
  obtain ⟨rfl, rfl⟩ := runs_pure.mp hr
  rw [runs_when] at h1
  obtain ⟨⟨hv, -⟩, h1⟩ | ⟨hv, rfl⟩ := h1
  · obtain ⟨o, s2, h2, h3⟩ := runs_bind.mp h1
    have hs2 : s2.short = false := by
      cases o with
      | none =>
        obtain ⟨-, rfl⟩ := runs_pure.mp h3
        exact hs
      | some p =>
        obtain rfl := runs_modify.mp h3
        exact hs
    obtain ⟨p, free, rfl, hfree, rfl⟩ := pgdirInit_takes h2 hs2
    obtain rfl := runs_modify.mp h3
    obtain ⟨hspace, hworks, hnone, hunled⟩ :=
      h.take (l := l + 1) (f := fun _ => 0) hp hfree (by simp [pteValid])
    have ht' := hworks.grows table l ht
    have hq : Function.update r p (some (l + 1)) p = some (l + 1) := by simp
    obtain ⟨hspace', hlead⟩ := hspace.link (pteIndex va k) pteTable ht' hq hunled
      (by decide)
    refine ⟨_, ⟨hspace', hworks.link ht' hnone hlead⟩, ?_⟩
    have hword : ((({ s with free }.fill p fun _ => 0).store table (pteIndex va k)
        (pte p pteTable)).word table (pteIndex va k)) = pte p pteTable := by simp [Sys.store]
    rw [hword, pteFrame_pte (hspace.below p _ hq) (by decide), hq]
  · have hv : pteValid (s.word table (pteIndex va k)) := by simpa using hv
    exact ⟨r, .refl h, h.typed table l _ ht (by omega) hv⟩

theorem pgdirWalk_grows {i : Nat} (hp : Pages s) (h : Space r s) (ht : r pgdir = some 0)
    (hr : Runs (pgdirWalk pgdir va true) s (t, i) s') (hs : s'.short = false) :
    ∃ r', Grown r s r' s' ∧ r' t = some 3 := by
  unfold pgdirWalk at hr
  obtain ⟨t3, _, hfold, h0⟩ := runs_bind.mp hr
  obtain ⟨h0, rfl⟩ := runs_pure.mp h0
  cases h0
  simp only [List.foldlM_cons, List.foldlM_nil] at hfold
  obtain ⟨t1, s1, h1, hr⟩ := runs_bind.mp hfold
  obtain ⟨t2, s2, h2, hr⟩ := runs_bind.mp hr
  obtain ⟨_, _, h3, hr⟩ := runs_bind.mp hr
  obtain ⟨rfl, rfl⟩ := runs_pure.mp hr
  have hs2 := not_short (stays_walkStep loose_short va true t2 1) h3 hs
  have hs1 := not_short (stays_walkStep loose_short va true t1 2) h2 hs2
  obtain ⟨r1, g1, ht1⟩ := walkStep_grows hp h ht (by omega) h1 hs1
  obtain ⟨r2, g2, ht2⟩ := walkStep_grows (g1.pages hp) g1.space ht1 (by omega) h2 hs2
  obtain ⟨r3, g3, ht3⟩ :=
    walkStep_grows (g2.pages (g1.pages hp)) g2.space ht2 (by omega) h3 hs
  exact ⟨r3, (g1.trans g2).trans g3, ht3⟩

theorem pagesFrom_page (a : Nat) : pagesFrom a (a + pageSize) = [a] := by
  unfold pagesFrom
  rw [show a + pageSize - a + pageSize - 1 = 8191 by simp [pageSize]]
  show [a + 0 * pageSize] = [a]
  rw [Nat.zero_mul, Nat.add_zero]

theorem stays_uvmMap (hB : Loose B) (va sz pa : Nat) : Stays B (uvmMap pgdir va sz pa) :=
  .forM (fun ptr => (stays_pgdirWalk hB pgdir ptr true).bind fun _ => stays_store hB _ _ _) _

/-- `uvm_map` of one page that has a role and that no entry leads to. -/
theorem uvmMap_grows {u : Unit} (hp : Pages s) (h : Space r s) (ht : r pgdir = some 0)
    (hva : va % pageSize = 0) (hq : r q = some 4) (hunled : Unled r s q)
    (hr : Runs (uvmMap pgdir va pageSize q) s u s') (hs : s'.short = false) :
    ∃ r', Space r' s' ∧ ∀ r0 s0, r0 q = none → Works r0 s0 r s → Works r0 s0 r' s' := by
  have hdown : roundDown va pageSize = va := by simp [roundDown, hva]
  unfold uvmMap at hr
  rw [hdown, pagesFrom_page] at hr
  obtain ⟨_, s1, h1, h2⟩ :=
    runs_bind.mp (show Runs (_ >>= fun _ => pure ⟨⟩) s u s' from hr)
  obtain ⟨-, rfl⟩ := runs_pure.mp h2
  obtain ⟨⟨t, i⟩, s2, h3, h4⟩ := runs_bind.mp h1
  obtain rfl := runs_modify.mp h4
  obtain ⟨r', g, ht'⟩ := pgdirWalk_grows hp h ht h3 hs
  have hq' := g.works.grows q 4 hq
  have hunled' : Unled r' s2 q := by
    intro a b hab
    obtain ⟨t0, i0, h0⟩ := g.works.refs a b q hab (by rw [hq]; simp)
    exact hunled t0 i0 h0
  have hpage : q + (va - va) / pageSize = q := by simp
  simp only [hpage]
  obtain ⟨hspace, hlead⟩ := g.space.link i pteUserData ht' hq' hunled' (by decide)
  exact ⟨r', hspace, fun r0 s0 h0 hw => (hw.trans g.works).link ht' h0 hlead⟩

theorem stays_uvmDealloc (hB : Loose B) (base oldsz newsz : Nat) :
    Stays B (uvmDealloc pgdir base oldsz newsz) := by
  refine .ite (.pure _) (.bind (.forM (fun a => ?_) _) fun _ => .pure _)
  refine (stays_pgdirWalk hB pgdir a false).bind fun _ => Stays.get.bind fun _ => .when ?_
  exact (stays_kfree hB _).bind fun _ => stays_store hB _ _ _

theorem stays_uvmAllocLoop (hB : Loose B) (base oldsz : Nat) (l : List Nat) :
    Stays B (uvmAllocLoop pgdir base oldsz l) := by
  induction l with
  | nil => exact .pure true
  | cons a l ih =>
    refine (stays_kalloc hB).bind fun o => ?_
    cases o with
    | none => exact (stays_uvmDealloc hB base _ oldsz).bind fun _ => .pure _
    | some p => exact (stays_uvmMap hB a pageSize p).bind fun _ => ih

theorem uvmAllocLoop_grows {base oldsz : Nat} {as : List Nat} {b : Bool} (hp : Pages s)
    (h : Space r s) (ht : r pgdir = some 0) (has : ∀ a ∈ as, a % pageSize = 0)
    (hr : Runs (uvmAllocLoop pgdir base oldsz as) s b s') (hs : s'.short = false) :
    ∃ r', Grown r s r' s' := by
  induction as generalizing s r with
  | nil =>
    obtain ⟨-, rfl⟩ := runs_pure.mp hr
    exact ⟨r, .refl h⟩
  | cons a as ih =>
    obtain ⟨o, s1, h1, h2⟩ := runs_bind.mp hr
    have hs1 : s1.short = false := by
      refine not_short ?_ h2 hs
      cases o with
      | none => exact (stays_uvmDealloc loose_short base _ oldsz).bind fun _ => .pure _
      | some p =>
        exact (stays_uvmMap loose_short a pageSize p).bind fun _ =>
          stays_uvmAllocLoop loose_short base oldsz as
    obtain ⟨p, free, rfl, hfree, rfl⟩ := kalloc_takes h1 hs1
    obtain ⟨_, s2, h3, h4⟩ := runs_bind.mp h2
    have hs2 := not_short (stays_uvmAllocLoop loose_short base oldsz as) h4 hs
    have hsame : { s with free }.fill p (s.word p) = { s with free } := by
      simp [Sys.fill]
    obtain ⟨hspace, hworks, hnone, hunled⟩ :=
      h.take (l := 4) (f := s.word p) hp hfree (by omega)
    rw [hsame] at hspace hworks hunled
    obtain ⟨r2, hspace2, hworks2⟩ := uvmMap_grows (hworks.pages hp) hspace
      (hworks.grows pgdir 0 ht) (has a (by simp)) (by simp) hunled h3 hs2
    have g2 : Grown r s r2 s2 := ⟨hspace2, hworks2 r s hnone hworks⟩
    obtain ⟨r3, g3⟩ := ih (g2.pages hp) g2.space (g2.works.grows pgdir 0 ht)
      (fun a ha => has a (by simp [ha])) h4
    exact ⟨r3, g2.trans g3⟩

theorem stays_uvmAlloc (hB : Loose B) (base stksz oldsz newsz : Nat) :
    Stays B (uvmAlloc pgdir base stksz oldsz newsz) :=
  (Stays.require _ _).bind fun _ => (stays_uvmAllocLoop hB base oldsz _).bind fun _ =>
    .ite (.pure _) (.pure _)

theorem pagesFrom_aligned {a b : Nat} (ha : a % pageSize = 0) :
    ∀ x ∈ pagesFrom a b, x % pageSize = 0 := by
  intro x hx
  obtain ⟨k, -, rfl⟩ := List.mem_map.mp hx
  rw [Nat.add_mul_mod_self_right]
  exact ha

theorem roundDown_mod (a b : Nat) : roundDown a b % b = 0 := by
  unfold roundDown
  rw [← Nat.div_add_mod a b, Nat.mul_add_mod]
  simp

theorem uvmAlloc_grows {base stksz oldsz newsz n : Nat} (hp : Pages s) (h : Space r s)
    (ht : r pgdir = some 0) (hr : Runs (uvmAlloc pgdir base stksz oldsz newsz) s n s')
    (hs : s'.short = false) : ∃ r', Grown r s r' s' := by
  unfold uvmAlloc at hr
  obtain ⟨_, _, h1, hr⟩ := runs_bind.mp hr
  obtain ⟨-, rfl⟩ := runs_require.mp h1
  obtain ⟨b, s1, h2, hr⟩ := runs_bind.mp hr
  obtain rfl : s1 = s' := by
    rw [runs_ite] at hr
    obtain ⟨-, hr⟩ | ⟨-, hr⟩ := hr <;> exact (runs_pure.mp hr).2
  exact uvmAllocLoop_grows hp h ht (pagesFrom_aligned (roundDown_mod _ _)) h2 hs

/-- A page of data is written. -/
theorem Grown.fill (g : Grown r s r' s') (hq : r' q = some 4) (f : Nat → Nat) :
    Grown r s r' (s'.fill q f) := by
  have hword (a l : Nat) (ha : r' a = some l) (hl : l < 4) : (s'.fill q f).word a = s'.word a := by
    refine Function.update_of_ne ?_ _ _
    rintro rfl
    rw [hq] at ha
    cases ha
    omega
  refine ⟨g.space.of_words hword g.space.apart, ⟨g.works.free, g.works.arena, g.works.grows,
    g.works.taken, fun a ha => ?_, fun a b x hx hne => ?_⟩⟩
  · rw [← g.works.words a ha]
    refine Function.update_of_ne ?_ _ _
    rintro rfl
    rw [hq] at ha
    cases ha
  · obtain ⟨⟨l, hl, hl4⟩, hv⟩ := hx
    rw [hword a l hl hl4] at hv
    exact g.works.refs a b x ⟨⟨l, hl, hl4⟩, hv⟩ hne

theorem stays_copyoutPage (hB : Loose B) (va : Nat) : Stays B (copyoutPage pgdir va) := by
  refine (stays_pgdirWalk hB pgdir va true).bind fun x => Stays.get.bind fun s =>
    .ite (.pure _) ((stays_kalloc hB).bind fun o => ?_)
  cases o with
  | none => exact .pure none
  | some p => exact (stays_store hB _ _ _).bind fun _ => .pure _

theorem copyoutPage_grows {o : Option Nat} (hp : Pages s) (h : Space r s) (ht : r pgdir = some 0)
    (hr : Runs (copyoutPage pgdir va) s o s') (hs : s'.short = false) :
    ∃ p r', o = some p ∧ Grown r s r' s' ∧ r' p = some 4 := by
  obtain ⟨⟨t, i⟩, s1, h1, hr⟩ := runs_bind.mp hr
  obtain ⟨_, _, h2, hr⟩ := runs_bind.mp hr
  obtain ⟨rfl, rfl⟩ := runs_get.mp h2
  have hs1 : s1.short = false := by
    refine not_short (.ite (.pure _) ((stays_kalloc loose_short).bind fun o => ?_)) hr hs
    cases o with
    | none => exact .pure none
    | some p => exact (stays_store loose_short _ _ _).bind fun _ => .pure _
  obtain ⟨r1, g1, ht1⟩ := pgdirWalk_grows hp h ht h1 hs1
  rw [runs_ite] at hr
  obtain ⟨hv, hr⟩ | ⟨-, hr⟩ := hr
  · obtain ⟨rfl, rfl⟩ := runs_pure.mp hr
    exact ⟨_, r1, rfl, g1, g1.space.typed t 3 i ht1 (by omega) hv⟩
  · obtain ⟨o, s2, h2, h3⟩ := runs_bind.mp hr
    have hs2 : s2.short = false := by
      refine not_short ?_ h3 hs
      cases o with
      | none => exact .pure none
      | some p => exact (stays_store loose_short _ _ _).bind fun _ => .pure _
    obtain ⟨p, free, rfl, hfree, rfl⟩ := kalloc_takes h2 hs2
    obtain ⟨_, _, h4, h5⟩ := runs_bind.mp h3
    obtain rfl := runs_modify.mp h4
    obtain ⟨rfl, rfl⟩ := runs_pure.mp h5
    have hsame : { s1 with free }.fill p (s1.word p) = { s1 with free } := by simp [Sys.fill]
    obtain ⟨hspace, hworks, hnone, hunled⟩ :=
      g1.space.take (l := 4) (f := s1.word p) (g1.pages hp) hfree (by omega)
    rw [hsame] at hspace hworks hunled
    have hq : Function.update r1 p (some 4) p = some 4 := by simp
    have ht2 := hworks.grows t 3 ht1
    obtain ⟨hspace', hlead⟩ :=
      hspace.link i pteUserData ht2 hq hunled (by decide)
    exact ⟨p, _, rfl, ⟨hspace', g1.works.trans (hworks.link ht2 hnone hlead)⟩, hq⟩

theorem stays_copyoutLoop (hB : Loose B) (data : Nat → Nat → Nat) (fuel va len : Nat) :
    Stays B (copyoutLoop pgdir data fuel va len) := by
  induction fuel generalizing va len with
  | zero => exact .pure true
  | succ fuel ih =>
    refine .ite (.pure true) ((stays_copyoutPage hB va).bind fun page => ?_)
    cases page with
    | none => exact .pure false
    | some p => exact (stays_fill hB p fun _ => data va).bind fun _ => ih _ _

theorem copyoutLoop_grows {data : Nat → Nat → Nat} {fuel len : Nat} {b : Bool} (hp : Pages s)
    (h : Space r s) (ht : r pgdir = some 0) (hr : Runs (copyoutLoop pgdir data fuel va len) s b s')
    (hs : s'.short = false) : ∃ r', Grown r s r' s' := by
  induction fuel generalizing s r va len with
  | zero =>
    obtain ⟨-, rfl⟩ := runs_pure.mp hr
    exact ⟨r, .refl h⟩
  | succ fuel ih =>
    rw [copyoutLoop, runs_ite] at hr
    obtain ⟨-, hr⟩ | ⟨-, hr⟩ := hr
    · obtain ⟨-, rfl⟩ := runs_pure.mp hr
      exact ⟨r, .refl h⟩
    obtain ⟨page, s1, h1, hr⟩ := runs_bind.mp hr
    have hs1 : s1.short = false := by
      refine not_short ?_ hr hs
      cases page with
      | none => exact .pure false
      | some p =>
        exact (stays_fill loose_short p fun _ => data va).bind fun _ =>
          stays_copyoutLoop loose_short data fuel _ _
    obtain ⟨p, r1, rfl, g1, hp1⟩ := copyoutPage_grows hp h ht h1 hs1
    obtain ⟨_, _, h2, h3⟩ := runs_bind.mp hr
    obtain rfl := runs_modify.mp h2
    have g2 := g1.fill hp1 (data va)
    obtain ⟨r3, g3⟩ := ih (g2.pages hp) g2.space (g2.works.grows pgdir 0 ht) h3
    exact ⟨r3, g2.trans g3⟩

theorem stays_copyout (hB : Loose B) (va len : Nat) (data : Nat → Nat → Nat) :
    Stays B (copyout pgdir va len data) :=
  .ite (.pure false) (stays_copyoutLoop hB data len va len)

theorem copyout_grows {data : Nat → Nat → Nat} {len : Nat} {b : Bool} (hp : Pages s)
    (h : Space r s) (ht : r pgdir = some 0) (hr : Runs (copyout pgdir va len data) s b s')
    (hs : s'.short = false) : ∃ r', Grown r s r' s' := by
  rw [copyout, runs_ite] at hr
  obtain ⟨-, hr⟩ | ⟨-, hr⟩ := hr
  · obtain ⟨-, rfl⟩ := runs_pure.mp hr
    exact ⟨r, .refl h⟩
  · exact copyoutLoop_grows hp h ht hr hs

/-- The processor finds pages of data. -/
theorem Space.translate (h : Space r s) (ht : r pgdir = some 0)
    (hq : Core.translate s pgdir va = some q) : r q = some 4 := by
  have step {t l k u : Nat} (hl : r t = some l) (hl4 : l < 4)
      (hu : (if pteValid (s.word t (pteIndex va k)) then
        some (pteFrame (s.word t (pteIndex va k))) else none) = some u) : r u = some (l + 1) := by
    rw [Option.ite_none_right_eq_some] at hu
    obtain ⟨hv, hu⟩ := hu
    cases hu
    exact h.typed t l _ hl hl4 hv
  simp only [Core.translate, List.foldlM_cons, List.foldlM_nil, Option.bind_eq_bind,
    Option.bind_eq_some_iff] at hq
  obtain ⟨t1, h1, t2, h2, t3, h3, t4, h4, hq⟩ := hq
  cases hq
  exact step (step (step (step ht (by omega) h1) (by omega) h2) (by omega) h3) (by omega) h4

theorem stays_userWrite (hB : Loose B) (va len : Nat) (data : Nat → Nat → Nat) :
    Stays B (userWrite pgdir va len data) := by
  refine .forM (fun a => Stays.get.bind fun s => ?_) _
  split
  · exact .throw _
  · exact stays_fill hB _ _

theorem userWrite_grows {data : Nat → Nat → Nat} {len : Nat} {u : Unit} (h : Space r s)
    (ht : r pgdir = some 0) (hr : Runs (userWrite pgdir va len data) s u s') : Grown r s r s' := by
  refine hr.forM (I := fun _ t => Grown r s r t) (.refl h) fun a _ t t' g ha => ?_
  obtain ⟨_, _, h1, h2⟩ := runs_bind.mp ha
  obtain ⟨rfl, rfl⟩ := runs_get.mp h1
  split at h2
  · exact absurd h2 runs_throw
  · rename_i q hq
    obtain rfl := runs_modify.mp h2
    exact g.fill (g.space.translate ht hq) _

end Map

/-! ### Copying -/

section Copy

variable {B : Sys → Prop} {copy : Nat → Sys.M (Option Nat)}

/-- The copies are address spaces of their own, on pages that were free, with a root of level `l`
that no entry leads to. -/
def Copies (copy : Nat → Sys.M (Option Nat)) (l : Nat) : Prop :=
  ∀ q r s o s', Pages s → Space r s → Runs (copy q) s o s' → s'.short = false →
    ∃ p r', o = some p ∧ Grown r s r' s' ∧ r p = none ∧ r' p = some l ∧ Unled r' s' p

theorem stays_copyPage (hB : Loose B) (page : Nat) : Stays B (copyPage page) := by
  refine (stays_kalloc hB).bind fun o => ?_
  cases o with
  | none => exact .throw _
  | some p => exact (stays_fill hB p fun s => s.word page).bind fun _ => .pure _

theorem copies_page : Copies copyPage 4 := by
  intro q r s o s' hp h hr hs
  obtain ⟨o', s1, h1, h2⟩ := runs_bind.mp hr
  cases o' with
  | none => exact absurd h2 runs_throw
  | some p =>
    obtain ⟨_, _, h3, h4⟩ := runs_bind.mp h2
    obtain rfl := runs_modify.mp h3
    obtain ⟨rfl, rfl⟩ := runs_pure.mp h4
    obtain ⟨p', free, hp', hfree, rfl⟩ := kalloc_takes h1 hs
    cases hp'
    obtain ⟨hspace, hworks, hnone, hunled⟩ := h.take (l := 4) (f := s.word q) hp hfree (by omega)
    exact ⟨p, _, rfl, ⟨hspace, hworks⟩, hnone, by simp, hunled⟩

/-- The body of the loop of `copyTable`. -/
theorem stays_copyEntry (hB : Loose B) (hc : ∀ q, Stays B (copy q)) (newpgdir : Option Nat)
    (pgdir i : Nat) : Stays B (do
      let s ← get
      when (pteValid (s.word pgdir i)) do
        let page ← copy (pteFrame (s.word pgdir i))
        match newpgdir with
        | none => throw .null
        | some new => modify fun t => t.store new i (pteOf page (pteFlags (s.word pgdir i))) : Sys.M Unit) := by
  refine Stays.get.bind fun s => .when ((hc _).bind fun o => ?_)
  cases newpgdir with
  | none => exact .throw _
  | some new => exact stays_store hB _ _ _

theorem stays_copyTable (hB : Loose B) (hc : ∀ q, Stays B (copy q)) (pgdir : Nat) :
    Stays B (copyTable copy pgdir) :=
  (stays_pgdirInit hB).bind fun new =>
    (Stays.forM (stays_copyEntry hB hc new pgdir) _).bind fun _ => .pure _

theorem copies_table {l : Nat} (hB : ∀ q, Stays (fun s => s.short = true) (copy q))
    (hc : Copies copy (l + 1)) : Copies (copyTable copy) l := by
  intro pgdir r s o s' hp h hr hs
  obtain ⟨newpgdir, s1, h1, hr⟩ := runs_bind.mp hr
  obtain ⟨_, s2, hloop, h2⟩ := runs_bind.mp hr
  obtain ⟨rfl, rfl⟩ := runs_pure.mp h2
  have hs1 := not_short (Stays.forM (stays_copyEntry loose_short hB newpgdir pgdir) _) hloop hs
  obtain ⟨new, free, rfl, hfree, rfl⟩ := pgdirInit_takes h1 hs1
  obtain ⟨hspace, hworks, hnone, hunled⟩ :=
    h.take (l := l) (f := fun _ => 0) hp hfree (by simp [pteValid])
  -- each round links one copy into the new table
  have hI := hloop.forM (I := fun _ t => t.short = false →
    ∃ r', Grown r s r' t ∧ r' new = some l ∧ Unled r' t new)
    (fun _ => ⟨_, ⟨hspace, hworks⟩, by simp, hunled⟩) fun i _ t t' ht hstep ht' => ?_
  · obtain ⟨r', g, hnew, hun⟩ := hI hs
    exact ⟨new, r', rfl, g, hnone, hnew, hun⟩
  · obtain ⟨r1, g1, hnew, hun⟩ := ht (not_short
      (stays_copyEntry loose_short hB (some new) pgdir i) hstep ht')
    obtain ⟨_, _, h3, hstep⟩ := runs_bind.mp hstep
    obtain ⟨rfl, rfl⟩ := runs_get.mp h3
    rw [runs_when] at hstep
    obtain ⟨-, hstep⟩ | ⟨-, rfl⟩ := hstep
    · obtain ⟨o, t1, h4, h5⟩ := runs_bind.mp hstep
      obtain rfl := runs_modify.mp h5
      obtain ⟨page, r2, rfl, g2, hpnone, hprole, hpun⟩ :=
        hc _ r1 _ _ t1 (g1.pages hp) g1.space h4 ht'
      have hnew2 := g2.works.grows new l hnew
      have hflags : pteFlags (t.word pgdir i) < pageSize :=
        Nat.mod_lt _ (by decide)
      obtain ⟨hspace2, hlead⟩ := g2.space.link i _ hnew2 hprole hpun hflags
      have hnoneR : r page = none := by
        by_contra hne
        obtain ⟨m, hm⟩ := Option.ne_none_iff_exists'.mp hne
        rw [g1.works.grows page m hm] at hpnone
        cases hpnone
      refine ⟨r2, ⟨hspace2, (g1.works.trans g2.works).link hnew2 hnoneR hlead⟩, hnew2, ?_⟩
      intro a b hab
      obtain hab | rfl := hlead a b new hab
      · obtain ⟨a0, b0, h0⟩ := g2.works.refs a b new hab (by rw [hnew]; simp)
        exact hun a0 b0 h0
      · rw [hnew2] at hprole
        simp at hprole
    · exact ⟨r1, g1, hnew, hun⟩

theorem stays_recurUvmCopy (hB : Loose B) (depth pgdir : Nat) :
    Stays B (recurUvmCopy depth pgdir) := by
  induction depth generalizing pgdir with
  | zero => exact stays_copyTable hB (stays_copyPage hB) pgdir
  | succ depth ih => exact stays_copyTable hB ih pgdir

theorem copies_recur (depth : Nat) (hd : depth < 4) : Copies (recurUvmCopy depth) (3 - depth) := by
  induction depth with
  | zero => exact copies_table (stays_copyPage loose_short) copies_page
  | succ depth ih =>
    have hl : 3 - depth = 3 - (depth + 1) + 1 := by omega
    exact copies_table (stays_recurUvmCopy loose_short depth) (hl ▸ ih (by omega))

end Copy

end FtosFfs.Core
