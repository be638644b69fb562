import FtosFfs.Core.Growproc
import FtosFfs.Core.Copies
import FtosFfs.Core.Wait
import FtosFfs.Core.Leak

/-! Owners of pages: an operation on an address space touches its own pages and the free ones, so that the
pages of many address spaces and kernel stacks stay apart. -/

namespace FtosFfs.Core

open Lib Lib.Exec

variable {s s' s₁ : Sys} {r r' r₁ : Roles} {R R' R₁ : Nat → Roles} {p q t u l pgdir : Nat}

/-! ### Owners of pages -/

/-- What an operation does to pages, it does to those of its address space and of the pools. -/
structure Confined (r : Roles) (s : Sys) (r' : Roles) (s' : Sys) : Prop where
  space : Space r' s'
  pages : Pages s'
  pool : ∀ p, p ∈ s'.free ∨ p ∈ s'.arena → p ∈ s.free ∨ p ∈ s.arena ∨ r p ≠ none
  roles : ∀ p, r' p ≠ none → p ∈ s.free ∨ p ∈ s.arena ∨ r p ≠ none
  words : ∀ p, p ∉ s.free → p ∉ s.arena → r p = none → s'.word p = s.word p

theorem Confined.refl (h : Space r s) (hp : Pages s) : Confined r s r s := by
  refine ⟨h, hp, fun p hpool => ?_, fun p hne => .inr (.inr hne), fun _ _ _ _ => rfl⟩
  rcases hpool with hf | ha
  · exact .inl hf
  · exact .inr (.inl ha)

theorem Confined.trans (h : Confined r s r₁ s₁) (h' : Confined r₁ s₁ r' s') : Confined r s r' s' := by
  have hback (p : Nat) (hp : p ∈ s₁.free ∨ p ∈ s₁.arena ∨ r₁ p ≠ none) :
      p ∈ s.free ∨ p ∈ s.arena ∨ r p ≠ none := by
    rcases hp with hf | ha | hr
    · exact h.pool p (.inl hf)
    · exact h.pool p (.inr ha)
    · exact h.roles p hr
  refine ⟨h'.space, h'.pages, fun p hp => hback p (h'.pool p hp), fun p hp => hback p (h'.roles p hp),
    fun p hf ha hr => ?_⟩
  have hout : ¬(p ∈ s₁.free ∨ p ∈ s₁.arena ∨ r₁ p ≠ none) := by
    intro hp
    rcases hback p hp with hf' | ha' | hr'
    · exact hf hf'
    · exact ha ha'
    · exact hr' hr
  simp only [not_or, not_not] at hout
  rw [h'.words p hout.1 hout.2.1 hout.2.2, h.words p hf ha hr]

theorem Grown.confined (g : Grown r s r' s') (hp : Pages s) : Confined r s r' s' := by
  refine ⟨g.space, g.pages hp, fun p hpool => ?_, fun p hr' => ?_, fun p hf _ hr => ?_⟩
  · rcases hpool with hf | ha
    · exact .inl (g.works.free.subset hf)
    · exact .inr (.inl (g.works.arena ▸ ha))
  · by_cases hr : r p = none
    · exact .inl (g.works.taken p hr hr')
    · exact .inr (.inr hr)
  · exact (g.works.outside hr hf).2.2

theorem Shuffles.confined (h : Shuffles s s') (hr : Space r s) : Confined r s r s' := by
  refine ⟨h.space hr, h.pages, fun p hp => ?_, fun p hne => .inr (.inr hne), fun p hf ha _ => h.words p hf ha⟩
  rcases h.pool p hp with hf | ha
  · exact .inl hf
  · exact .inr (.inl ha)

/-- A change of the process table. -/
theorem Confined.congr (h : Confined r s r' s₁) (hf : s'.free = s₁.free) (ha : s'.arena = s₁.arena)
    (hw : s'.word = s₁.word) : Confined r s r' s' := by
  refine ⟨h.space.congr hf ha hw, h.pages.congr hf ha, ?_, h.roles, ?_⟩
  · rw [hf, ha]
    exact h.pool
  · rw [hw]
    exact h.words

/-- `vm_free` gives back the pages of an address space. -/
theorem vmFree_confined {v : Unit} (hp : Pages s) (h : Space r s) (ht : r t = some 0)
    (hr : Runs (vmFree t) s v s') : Confined r s (fun _ => none) s' := by
  obtain ⟨pages, word, rfl, hnodup, hrole, hword⟩ := vmFree_releases h ht hr
  have hnot (p : Nat) (hp : p ∈ pages) : p ∉ s.free ∧ p ∉ s.arena :=
    ⟨fun hf => hrole p hp (h.apart p (.inl hf)), fun ha => hrole p hp (h.apart p (.inr ha))⟩
  refine ⟨space_empty _, ⟨?_, hp.arena, fun p hpa hpf => ?_, fun p hpool => ?_⟩, fun p hpool => ?_,
    fun p hne => absurd rfl hne, fun p _ _ hr => hword p hr⟩
  · exact List.nodup_append'.mpr ⟨hnodup, hp.free, fun p hp hf => (hnot p hp).1 hf⟩
  · rcases List.mem_append.mp hpf with hpage | hf
    · exact (hnot p hpage).2 hpa
    · exact hp.disjoint p hpa hf
  · rcases hpool with hpf | ha
    · rcases List.mem_append.mp hpf with hpage | hf
      · obtain ⟨l, hl⟩ := Option.ne_none_iff_exists'.mp (hrole p hpage)
        exact h.below p l hl
      · exact hp.below p (.inl hf)
    · exact hp.below p (.inr ha)
  · rcases hpool with hpf | ha
    · rcases List.mem_append.mp hpf with hpage | hf
      · exact .inr (.inr (hrole p hpage))
      · exact .inl hf
    · exact .inr (.inl ha)

/-- The roles of one page alone. -/
def only (p l : Nat) : Roles := Function.update (fun _ => none) p (some l)

theorem only_self (p l : Nat) : only p l p = some l := Function.update_self ..

theorem only_ne (h : q ≠ p) (l : Nat) : only p l q = none := Function.update_of_ne h ..

theorem space_page (hf : p ∉ s.free) (ha : p ∉ s.arena) (hb : p < physPages) : Space (only p 4) s :=
  ((space_empty s).add rfl hf ha hb (by simp)).1

/-- A page for a kernel stack. -/
theorem kalloc_confined {free : List Nat} (hp : Pages s) (hfree : s.free = p :: free) :
    Confined (fun _ => none) s (only p 4) { s with free } := by
  have htail : Pages { s with free } ∧ p < physPages ∧ p ∉ free ∧ p ∉ s.arena := hp.tail hfree rfl rfl
  obtain ⟨hpages, hb, hf, ha⟩ := htail
  refine ⟨space_page hf ha hb, hpages, fun q hq => ?_, fun q hq => ?_, fun _ _ _ _ => rfl⟩
  · rcases hq with hq | hq
    · exact .inl (by rw [hfree]; exact List.mem_cons_of_mem _ hq)
    · exact .inr (.inl hq)
  · by_cases hqp : q = p
    · exact .inl (by rw [hqp, hfree]; exact List.mem_cons_self)
    · exact absurd (only_ne hqp 4) hq

/-- The page of a kernel stack is given back. -/
theorem kfree_confined {v : Unit} (hp : Pages s) (h : Space (only p 4) s) (hr : Runs (kfree p) s v s') :
    Confined (only p 4) s (fun _ => none) s' := by
  obtain rfl := runs_modify.mp hr
  have hself := only_self p 4
  have hfree : p ∉ s.free := by
    intro hf
    rw [h.apart p (.inl hf)] at hself
    cases hself
  have harena : p ∉ s.arena := by
    intro ha
    rw [h.apart p (.inr ha)] at hself
    cases hself
  refine ⟨space_empty _, ⟨List.nodup_cons.mpr ⟨hfree, hp.free⟩, hp.arena, fun q hqa hqf => ?_, fun q hq => ?_⟩,
    fun q hq => ?_, fun q hne => absurd rfl hne, fun q _ _ hq => ?_⟩
  · rcases List.mem_cons.mp hqf with rfl | hqf
    · exact harena hqa
    · exact hp.disjoint q hqa hqf
  · rcases hq with hqf | hqa
    · rcases List.mem_cons.mp hqf with rfl | hqf
      · exact h.below q 4 hself
      · exact hp.below q (.inl hqf)
    · exact hp.below q (.inr hqa)
  · rcases hq with hqf | hqa
    · rcases List.mem_cons.mp hqf with rfl | hqf
      · exact .inr (.inr (by rw [hself]; simp))
      · exact .inl hqf
    · exact .inr (.inl hqa)
  · refine Function.update_of_ne ?_ _ _
    rintro rfl
    rw [hself] at hq
    cases hq

/-- Every page has at most one owner: the address spaces under the page tables `t` with the roles `R t`, and
the kernel stacks. -/
structure Isolated (R : Nat → Roles) (s : Sys) : Prop where
  pages : Pages s
  space : ∀ t, Space (R t) s
  root : ∀ t p, R t p ≠ none → R t t ≠ none
  apart : ∀ t u p, R t p ≠ none → R u p ≠ none → t = u

/-- An owner acts within its pages and the pools. -/
theorem Isolated.confined (h : Isolated R s) (hc : Confined (R t) s r' s') (hroot : ∀ p, r' p ≠ none →
    r' t ≠ none) :
    Isolated (Function.update R t r') s' := by
  have hout {u p : Nat} (hu : u ≠ t) (hp : R u p ≠ none) : p ∉ s.free ∧ p ∉ s.arena ∧ R t p = none := by
    refine ⟨fun hf => hp ((h.space u).apart p (.inl hf)), fun ha => hp ((h.space u).apart p (.inr ha)), ?_⟩
    by_contra hne
    exact hu (h.apart u t p hp hne)
  have hother {u p : Nat} (hu : u ≠ t) (hp : R u p ≠ none) : r' p = none := by
    by_contra hne
    obtain ⟨hf, ha, hr⟩ := hout hu hp
    rcases hc.roles p hne with hf' | ha' | hr'
    · exact hf hf'
    · exact ha ha'
    · exact hr' hr
  refine ⟨hc.pages, fun u => ?_, fun u p hp => ?_, fun u v p hu hv => ?_⟩
  · by_cases hu : u = t
    · rw [hu, Function.update_self]
      exact hc.space
    · rw [Function.update_of_ne hu]
      refine (h.space u).of_words (fun a m ha _ => ?_) fun p hp => ?_
      · obtain ⟨hf, harena, hr⟩ := hout hu (p := a) (by rw [ha]; simp)
        exact hc.words a hf harena hr
      · by_contra hne
        obtain ⟨hf, ha, hr⟩ := hout hu hne
        rcases hc.pool p hp with hf' | ha' | hr'
        · exact hf hf'
        · exact ha ha'
        · exact hr' hr
  · by_cases hu : u = t
    · rw [hu, Function.update_self] at hp ⊢
      exact hroot p hp
    · rw [Function.update_of_ne hu] at hp ⊢
      exact h.root u p hp
  · by_cases hut : u = t
    · by_cases hvt : v = t
      · rw [hut, hvt]
      · rw [hut, Function.update_self] at hu
        rw [Function.update_of_ne hvt] at hv
        exact absurd (hother hvt hv) hu
    · rw [Function.update_of_ne hut] at hu
      by_cases hvt : v = t
      · rw [hvt, Function.update_self] at hv
        exact absurd (hother hut hu) hv
      · rw [Function.update_of_ne hvt] at hv
        exact h.apart u v p hu hv

/-- A page that is not owned owns no other. -/
theorem Isolated.fresh (h : Isolated R s) (ht : R t t = none) : R t = fun _ => none := by
  funext p
  by_contra hne
  exact h.root t p hne ht

/-- A new owner takes its pages from the pools. -/
theorem Isolated.take (h : Isolated R s) (hc : Confined (fun _ => none) s r' s') (ht : t ∈ s.free)
    (hroot : r' t ≠ none) : Isolated (Function.update R t r') s' := by
  have hfresh := h.fresh ((h.space t).apart t (.inl ht))
  exact h.confined (hfresh ▸ hc) fun _ _ => hroot

/-- Nothing is written to the pages of another owner. -/
theorem Isolated.others (h : Isolated R s) (hc : Confined (R t) s r' s') (hu : u ≠ t) (hp : R u p ≠ none) :
    s'.word p = s.word p := by
  refine hc.words p (fun hf => hp ((h.space u).apart p (.inl hf))) (fun ha =>
    hp ((h.space u).apart p (.inr ha))) ?_
  by_contra hne
  exact hu (h.apart u t p hp hne)

theorem Isolated.congr (h : Isolated R s) (hf : s'.free = s.free) (ha : s'.arena = s.arena)
    (hw : s'.word = s.word) :
    Isolated R s' :=
  ⟨h.pages.congr hf ha, fun t => (h.space t).congr hf ha hw, h.root, h.apart⟩

/-- The owners in `A` have acted, and the others are as they were. -/
structure Acts (A : Nat → Prop) (R : Nat → Roles) (s : Sys) (R' : Nat → Roles) (s' : Sys) : Prop where
  isolated : Isolated R' s'
  keeps : ∀ u, ¬A u → R' u = R u ∧ ∀ p, R u p ≠ none → s'.word p = s.word p

section Acts

variable {A B : Nat → Prop}

theorem Acts.trans (h : Acts A R s R₁ s₁) (h' : Acts B R₁ s₁ R' s') : Acts (fun u => A u ∨ B u) R s R' s' := by
  refine ⟨h'.isolated, fun u hu => ?_⟩
  rw [not_or] at hu
  obtain ⟨hroles, hwords⟩ := h.keeps u hu.1
  obtain ⟨hroles', hwords'⟩ := h'.keeps u hu.2
  refine ⟨hroles'.trans hroles, fun p hp => ?_⟩
  rw [hwords' p (by rwa [hroles]), hwords p hp]

/-- A change of the process table. -/
theorem Acts.congr (h : Acts A R s R' s₁) (hf : s'.free = s₁.free) (ha : s'.arena = s₁.arena)
    (hw : s'.word = s₁.word) : Acts A R s R' s' := by
  refine ⟨h.isolated.congr hf ha hw, fun u hu => ?_⟩
  rw [hw]
  exact h.keeps u hu

theorem Acts.of_word (h : Acts A R s₁ R' s') (hw : s₁.word = s.word) : Acts A R s R' s' := by
  refine ⟨h.isolated, fun u hu => ?_⟩
  rw [← hw]
  exact h.keeps u hu

theorem Isolated.none_acts (h : Isolated R s) (hf : s'.free = s.free) (ha : s'.arena = s.arena)
    (hw : s'.word = s.word) : Acts (fun _ => False) R s R s' :=
  ⟨h.congr hf ha hw, fun u _ => ⟨rfl, fun p _ => by rw [hw]⟩⟩

theorem Isolated.acts (h : Isolated R s) (hc : Confined (R t) s r' s') (hroot : ∀ p, r' p ≠ none →
    r' t ≠ none) :
    Acts (· = t) R s (Function.update R t r') s' :=
  ⟨h.confined hc hroot, fun _ hu => ⟨Function.update_of_ne hu .., fun _ hp => h.others hc hu hp⟩⟩

theorem Isolated.takes (h : Isolated R s) (hc : Confined (fun _ => none) s r' s') (ht : t ∈ s.free)
    (hroot : ∀ p, r' p ≠ none → r' t ≠ none) : Acts (· = t) R s (Function.update R t r') s' := by
  have hfresh := h.fresh ((h.space t).apart t (.inl ht))
  exact h.acts (hfresh ▸ hc) hroot

/-- Calls of the file system use no page that is owned. -/
theorem Isolated.shuffles (h : Isolated R s) (hsh : Shuffles s s') : Acts (fun _ => False) R s R s' := by
  refine ⟨⟨hsh.pages, fun t => hsh.space (h.space t), h.root, h.apart⟩, fun u _ => ⟨rfl, fun p hp => ?_⟩⟩
  exact hsh.words p (fun hf => hp ((h.space u).apart p (.inl hf))) fun ha => hp ((h.space u).apart p (.inr ha))

end Acts

/-! ### The calls of a process -/

/-- `uvm_dealloc` of pages whose tables are there. -/
theorem deallocPages_confined {as : List Nat} {v : PUnit} (h : Space r s) (hp : Pages s)
    (hroot : r pgdir = some 0)
    (hthere : ∀ a ∈ as, missingTables s pgdir a = 0) (hr : Runs (as.forM (deallocPage pgdir)) s v s') :
    ∃ r', Confined r s r' s' ∧ r' pgdir = some 0 := by
  have hrun := hr.forM (I := fun l s₁ => (∃ r₁, Confined r s r₁ s₁ ∧ r₁ pgdir = some 0) ∧ (∀ a ∈ l, a ∈ as) ∧
    ∀ va, follow s₁ (tablePath va) pgdir = follow s (tablePath va) pgdir)
    ⟨⟨r, .refl h hp, hroot⟩, fun _ => id, fun _ => rfl⟩ fun a l s₁ s₂ hinv hround => ?_
  · exact hrun.1
  obtain ⟨⟨r₁, hc, hroot₁⟩, hmem, hupper⟩ := hinv
  have hthere₁ : missingTables s₁ pgdir a = 0 := by
    rw [missingTables, missing_eq_zero_iff, hupper, ← missing_eq_zero_iff]
    exact hthere a (hmem a List.mem_cons_self)
  obtain ⟨⟨t, i⟩, hwalk, hs₂⟩ := runs_deallocPage.mp hround
  obtain ⟨-, hinside⟩ := hc.space.toTables.pgdirWalk hc.pages hroot₁ hwalk
  obtain ⟨hpath, hi⟩ := hinside.mpr (hthere₁ ▸ Nat.zero_le _)
  subst hi
  have ht : r₁ t = some 3 := hc.space.follow_role hroot₁ (tablePath_le a) hpath
  have hmem' : ∀ b ∈ l, b ∈ as := fun b hb => hmem b (List.mem_cons_of_mem _ hb)
  by_cases hv : pteValid (s₁.word t (pteIndex a 0))
  · rw [if_pos hv] at hs₂
    subst hs₂
    have hq := hc.space.typed t 3 _ ht (by decide) hv
    have hround : Confined r₁ s₁ (Function.update r₁ (pteFrame (s₁.word t (pteIndex a 0))) none)
        (s₁.unmapped t (pteIndex a 0) (pteFrame (s₁.word t (pteIndex a 0)))) := by
      refine ⟨hc.space.unmapped ht hv rfl, hc.space.pages_unmapped hc.pages hq t _, fun p hpool => ?_,
        fun p hne => ?_, fun p _ _ hnone => ?_⟩
      · rcases hpool with hf | ha
        · rcases List.mem_cons.mp hf with rfl | hf
          · exact .inr (.inr (by rw [hq]; simp))
          · exact .inl hf
        · exact .inr (.inl ha)
      · refine .inr (.inr fun hnone => hne ?_)
        by_cases hpq : p = pteFrame (s₁.word t (pteIndex a 0))
        · rw [hpq, Function.update_self]
        · rw [Function.update_of_ne hpq, hnone]
      · have hpt : p ≠ t := by
          rintro rfl
          rw [ht] at hnone
          cases hnone
        have hpq : p ≠ pteFrame (s₁.word t (pteIndex a 0)) := by
          rintro rfl
          rw [hq] at hnone
          cases hnone
        funext j
        exact word_unmapped s₁ (fun hj => hpt hj.1) hpq
    refine ⟨⟨_, hc.trans hround, ?_⟩, hmem', fun va => ?_⟩
    · rw [Function.update_of_ne, hroot₁]
      intro heq
      rw [← heq, hroot₁] at hq
      cases hq
    · rw [hc.space.follow_unmapped hroot₁ ht hq (show (tablePath va).length ≤ 3 from Nat.le_refl 3), hupper]
  · rw [if_neg hv] at hs₂
    subst hs₂
    exact ⟨⟨r₁, hc, hroot₁⟩, hmem', hupper⟩

/-- The size that `growproc` asks for, as `u32`. -/
def newSize (sz : Nat) (n : Int) : Nat := (sz % 2 ^ 32 + (n % 2 ^ 32).toNat) % 2 ^ 32

theorem growproc_confined {sz : Nat} {n : Int} {x : Int × Nat} (hp : Pages s) (h : Space r s)
    (hroot : r pgdir = some 0) (hr : Runs (growproc pgdir sz n) s x s') (hs : s'.short = false)
    (hthere : n < 0 → ∀ a ∈ pagesFrom (roundUp (newSize sz n) pageSize) (sz % 2 ^ 32),
      missingTables s pgdir a = 0) :
    ∃ r', Confined r s r' s' ∧ r' pgdir = some 0 := by
  have hdone {y : Nat} {s₁ : Sys} (hend : Runs (if y % 2 ^ 32 = 0 then pure (-1, sz) else
      pure (0, y % 2 ^ 32) : Sys.M (Int × Nat)) s₁ x s') : s₁ = s' := by
    rw [runs_ite] at hend
    obtain ⟨-, hend⟩ | ⟨-, hend⟩ := hend
    · exact (runs_pure.mp hend).2
    · exact (runs_pure.mp hend).2
  unfold growproc at hr
  dsimp only at hr
  obtain ⟨-, hr⟩ | ⟨hpos, hr⟩ := runs_ite.mp hr
  · obtain ⟨y, s₁, halloc, hend⟩ := runs_bind.mp hr
    obtain rfl := hdone hend
    obtain ⟨r', g⟩ := uvmAlloc_grows hp h hroot halloc hs
    exact ⟨r', g.confined hp, g.works.grows pgdir 0 hroot⟩
  obtain ⟨hneg, hr⟩ | ⟨-, hr⟩ := runs_ite.mp hr
  · obtain ⟨y, s₁, hdealloc, hend⟩ := runs_bind.mp hr
    obtain rfl := hdone hend
    rw [uvmDealloc_eq, runs_ite] at hdealloc
    obtain ⟨-, hdealloc⟩ | ⟨-, hdealloc⟩ := hdealloc
    · obtain ⟨-, rfl⟩ := runs_pure.mp hdealloc
      exact ⟨r, .refl h hp, hroot⟩
    · obtain ⟨_, s₂, hpages, hend⟩ := runs_bind.mp hdealloc
      obtain ⟨-, rfl⟩ := runs_pure.mp hend
      exact deallocPages_confined h hp hroot (hthere hneg) hpages
  · obtain ⟨-, rfl⟩ := runs_pure.mp hr
    exact ⟨r, .refl h hp, hroot⟩

section Calls

variable {A : Nat → Prop} {T : Tree} {c d : Nat} {i j : Slot} {k : Kernel} {B : Sys → Prop}

/-- `alloc_proc` takes two pages, one for an empty table and one for a stack. -/
theorem allocProcPages_acts {stack : Nat} (h : Isolated R s) (hr : Runs (allocProcPages T c) s (j, stack) s')
    (hs : s'.short = false) : ∃ lost k R', Acts (fun u => u = lost ∨ u = stack) R s R' s' ∧
      lost ∈ s.free ∧ stack ∈ s.free ∧ R' lost = only lost 0 ∧ R' stack = only stack 4 ∧
      allocProc T s.kernel c = some (j, k) ∧ s'.kernel = k ∧ s'.pgdir = (s.setPgdir c j (some lost)).pgdir ∧
      s'.kstack = (s.setKstack c j (some stack)).kstack := by
  obtain ⟨_, _, h1, hr⟩ := runs_bind.mp hr
  obtain ⟨rfl, rfl⟩ := runs_get.mp h1
  split at hr
  case h_1 => exact absurd hr runs_throw
  case h_2 j' k hk =>
    obtain ⟨_, _, h2, hr⟩ := runs_bind.mp hr
    obtain rfl := runs_modify.mp h2
    obtain ⟨dir, s₁, h3, hr⟩ := runs_bind.mp hr
    obtain ⟨_, _, h4, hr⟩ := runs_bind.mp hr
    obtain rfl := runs_modify.mp h4
    obtain ⟨o, s₂, h5, hr⟩ := runs_bind.mp hr
    cases o with
    | none => exact absurd hr runs_throw
    | some stack' =>
      obtain ⟨_, _, h6, h7⟩ := runs_bind.mp hr
      obtain rfl := runs_modify.mp h6
      obtain ⟨heq, rfl⟩ := runs_pure.mp h7
      obtain ⟨rfl, rfl⟩ := Prod.mk.inj heq
      obtain ⟨stack, rest, heq, hrest, rfl⟩ := kalloc_takes h5 hs
      obtain rfl := Option.some.inj heq
      have hs₁ : (s₁.setPgdir c j' dir).short = false := not_short (stays_kalloc loose_short) h5 hs
      obtain ⟨lost, free, rfl, hfree, rfl⟩ := pgdirInit_takes h3 hs₁
      have hisolated : Isolated R (s.setKernel k) := h.congr rfl rfl rfl
      -- first the table, then the stack
      obtain ⟨hspace, hworks, -, -⟩ :=
        (space_empty (s.setKernel k)).take (l := 0) (f := fun _ => 0) hisolated.pages hfree (by simp [pteValid])
      have hlost : lost ∈ s.free := by
        rw [show s.free = lost :: free from hfree]
        exact List.mem_cons_self
      have htable := hisolated.takes (Grown.confined ⟨hspace, hworks⟩ hisolated.pages) hlost
        fun _ _ => by simp
      have hrest' : free = stack' :: rest := hrest
      have hne : stack' ≠ lost := by
        rintro rfl
        have hnodup := h.pages.free
        rw [show s.free = stack' :: free from hfree, hrest'] at hnodup
        simp at hnodup
      have hstack := htable.isolated.takes (kalloc_confined htable.isolated.pages hrest)
        (by rw [show _ = free from rfl, hrest']; exact List.mem_cons_self) fun _ _ => by simp [only_self]
      refine ⟨lost, k, _, ((htable.trans hstack).of_word (s := s) rfl).congr rfl rfl rfl, hlost, ?_, ?_, ?_,
        hk, rfl, rfl, rfl⟩
      · rw [show s.free = lost :: free from hfree, hrest']
        simp
      · rw [Function.update_of_ne hne.symm, Function.update_self]
        rfl
      · rw [Function.update_self]

/-- `uvm_copy` takes the pages of the copy. -/
theorem uvmCopy_acts {parent : Nat} {o : Option Nat} (h : Isolated R s) (hr : Runs (uvmCopy parent) s o s')
    (hs : s'.short = false) : ∃ copy R', o = some copy ∧ Acts (· = copy) R s R' s' ∧ copy ∈ s.free ∧
      R' copy copy = some 0 := by
  obtain ⟨copy, r, rfl, g, -, hroot, -⟩ :=
    copies_recur 3 (by omega) parent _ s _ s' h.pages (space_empty s) hr hs
  have hfree : copy ∈ s.free := g.works.taken copy rfl (by rw [hroot]; simp)
  refine ⟨copy, _, rfl, h.takes (g.confined h.pages) hfree fun _ _ => by rw [hroot]; simp, hfree, ?_⟩
  rw [Function.update_self]
  exact hroot

/-! ### `execve` -/

/-- The address space under `pgdir` is being built from free pages, or a page was missing. -/
def Builds (s₀ : Sys) (pgdir : Nat) (s : Sys) : Prop :=
  s.short = true ∨ ∃ r, Confined (fun _ => none) s₀ r s ∧ r pgdir = some 0

theorem stays_builds {α : Type} {s₀ : Sys} {x : Sys.M α} (hx : Stays (fun s => s.short = true) x)
    (hstep : ∀ r s a s', Pages s → Space r s → r pgdir = some 0 → Runs x s a s' → s'.short = false →
      ∃ r', Confined r s r' s' ∧ r' pgdir = some 0) : Stays (Builds s₀ pgdir) x := by
  intro s a s' hr hb
  cases hshort : s'.short with
  | true => exact .inl hshort
  | false =>
    rcases hb with hs | ⟨r, hc, hroot⟩
    · rw [not_short hx hr hshort] at hs
      cases hs
    · obtain ⟨r', hc', hroot'⟩ := hstep r s a s' hc.pages hc.space hroot hr hshort
      exact .inr ⟨r', hc.trans hc', hroot'⟩

theorem building_builds (s₀ : Sys) (pgdir : Nat) : Building (Builds s₀ pgdir) pgdir where
  uvmAlloc base stksz oldsz newsz := by
    refine stays_builds (stays_uvmAlloc loose_short base stksz oldsz newsz) fun r s a s' hp h ht hr hs => ?_
    obtain ⟨r', g⟩ := uvmAlloc_grows hp h ht hr hs
    exact ⟨r', g.confined hp, g.works.grows pgdir 0 ht⟩
  copyout va len data := by
    refine stays_builds (stays_copyout loose_short va len data) fun r s a s' hp h ht hr hs => ?_
    obtain ⟨r', g⟩ := copyout_grows hp h ht hr hs
    exact ⟨r', g.confined hp, g.works.grows pgdir 0 ht⟩
  userWrite va len data := by
    refine stays_builds (stays_userWrite loose_short va len data) fun r s a s' hp h ht hr hs => ?_
    exact ⟨r, (userWrite_grows h ht hr).confined hp, ht⟩
  fileSystem ops := by
    refine stays_builds (stays_fileSystem loose_short ops) fun r s a s' hp h ht hr hs => ?_
    exact ⟨r, (fileSystem_shuffles hp hr hs).confined h, ht⟩
  setPgdir d i p := by
    refine stays_builds ((building_short pgdir).setPgdir d i p) fun r s a s' hp h ht hr hs => ?_
    obtain rfl := runs_modify.mp hr
    exact ⟨r, (Confined.refl h hp).congr rfl rfl rfl, ht⟩

theorem stays_loadSegments (hB : Loose B) (e : ExecCall) (is : List Nat) (first : Bool) (sz base : Nat) :
    Stays B (loadSegments pgdir e is first sz base) := by
  induction is generalizing first sz base with
  | nil => exact .pure true
  | cons i is ih =>
    refine (stays_fileSystem hB _).bind fun _ => .ite (ih _ _ _) (.ite (.pure _) (.ite (.pure _)
      (.ite (.pure _) ((stays_uvmAlloc hB _ _ _ _).bind fun _ => .ite (.pure _) ?_))))
    exact (stays_fileSystem hB _).bind fun _ => (stays_userWrite hB _ _ _).bind fun _ =>
      (stays_userWrite hB _ _ _).bind fun _ => ih _ _ _

theorem stays_pushStrings (hB : Loose B) (data : Nat → Nat → Nat) (l : List (Option Nat)) (sp : Nat) :
    Stays B (pushStrings pgdir data l sp) := by
  induction l generalizing sp with
  | nil => exact .pure _
  | cons len l ih =>
    cases len with
    | none => exact .pure none
    | some len => exact (stays_copyout hB _ _ _).bind fun _ => .ite (ih _) (.pure none)

theorem stays_pushStack (hB : Loose B) (e : ExecCall) : Stays B (pushStack pgdir e) := by
  refine (stays_pushStrings hB _ _ _).bind fun sp => ?_
  cases sp with
  | none => exact .pure false
  | some sp =>
    refine (stays_pushStrings hB _ _ _).bind fun sp => ?_
    cases sp with
    | none => exact .pure false
    | some sp =>
      exact (stays_copyout hB _ _ _).bind fun _ => .ite ((stays_userWrite hB _ _ _).bind fun _ =>
        (stays_copyout hB _ _ _).bind fun _ => .ite ((Stays.require _ _).bind fun _ => .pure true)
          (.pure false)) (.pure false)

/-- `execve` changes the page table of its own process at most. -/
theorem stays_execve_procs (hB : Loose B) (hset : ∀ s p, B s → B (s.setPgdir c j p)) (e : ExecCall) :
    Stays B (execve c j e) := by
  have hpgdir (p : Option Nat) : Stays B (modify fun s => s.setPgdir c j p : Sys.M Unit) :=
    .modify fun s hs => hset s p hs
  refine .ite (.pure _) (Stays.get.bind fun s => (stays_pgdirInit hB).bind fun new => ?_)
  cases new with
  | none => exact (hpgdir _).bind fun _ => .pure _
  | some pgdir =>
    refine Stays.bind ?_ fun x => .ite ((hpgdir _).bind fun _ => .pure _) ((stays_vmFree hB pgdir).bind fun _ =>
      (Stays.when (stays_fileSystem hB _)).bind fun _ => (hpgdir _).bind fun _ => .pure _)
    refine Stays.bind ?_ fun _ => .ite ((stays_pushStack hB e).bind fun _ => .pure _) (.pure _)
    exact (stays_fileSystem hB _).bind fun _ => .ite (.pure _) (.ite (.pure _) ((hpgdir _).bind fun _ =>
      (stays_loadSegments hB e _ _ _ _).bind fun _ => .ite ((stays_fileSystem hB _).bind fun _ => .pure _)
        (.pure _)))

/-- A call of `execve` takes the pages of a new address space, which it gives back if it fails. -/
theorem execve_acts {b : Bool} {e : ExecCall} (h : Isolated R s) (hr : Runs (execve c j e) s b s')
    (hs : s'.short = false) : ∃ A R', Acts A R s R' s' ∧ (∀ u, A u → u ∈ s.free) ∧
      (s'.pgdir c j = s.pgdir c j ∨ ∃ t, A t ∧ R' t t = some 0 ∧ s'.pgdir c j = some t) := by
  rw [execve, runs_ite] at hr
  obtain ⟨-, hr⟩ | ⟨-, hr⟩ := hr
  · obtain ⟨-, rfl⟩ := runs_pure.mp hr
    exact ⟨_, R, h.none_acts rfl rfl rfl, fun _ => False.elim, .inl rfl⟩
  obtain ⟨_, _, h1, hr⟩ := runs_bind.mp hr
  obtain ⟨rfl, rfl⟩ := runs_get.mp h1
  obtain ⟨new, s₁, h1, hr⟩ := runs_bind.mp hr
  cases new with
  | none =>
    obtain ⟨_, _, h2, h3⟩ := runs_bind.mp hr
    obtain rfl := runs_modify.mp h2
    obtain ⟨-, rfl⟩ := runs_pure.mp h3
    obtain ⟨p, free, hp, -⟩ := pgdirInit_takes h1 hs
    cases hp
  | some pgdir =>
    obtain ⟨⟨loaded, opened⟩, s₂, h2, hend⟩ := runs_bind.mp hr
    have hs₂ := not_short (execEnd_short c j pgdir (s.pgdir c j) e loaded opened) hend hs
    have hs₁ := not_short ((building_short pgdir).execLoad c j e) h2 hs₂
    obtain ⟨p, free, hp, hfree, rfl⟩ := pgdirInit_takes h1 hs₁
    obtain rfl := Option.some.inj hp
    have hmem : pgdir ∈ s.free := by
      rw [hfree]
      exact List.mem_cons_self
    obtain ⟨hspace, hworks, -, -⟩ :=
      (space_empty s).take (l := 0) (f := fun _ => 0) h.pages hfree (by simp [pteValid])
    have hstart : Builds s pgdir ({ s with free }.fill pgdir fun _ => 0) :=
      .inr ⟨_, Grown.confined ⟨hspace, hworks⟩ h.pages, by simp⟩
    obtain ⟨r, hc, hroot⟩ :=
      ((building_builds s pgdir).execLoad c j e _ _ s₂ h2 hstart).resolve_left (by rw [hs₂]; decide)
    obtain ⟨-, hend⟩ | ⟨-, hend⟩ := runs_ite.mp hend
    · obtain ⟨_, _, h3, h4⟩ := runs_bind.mp hend
      obtain rfl := runs_modify.mp h3
      obtain ⟨-, rfl⟩ := runs_pure.mp h4
      refine ⟨_, _, (h.takes hc hmem fun _ _ => by rw [hroot]; simp).congr rfl rfl rfl,
        fun u hu => hu ▸ hmem, .inr ⟨pgdir, rfl, ?_, setPgdir_self ..⟩⟩
      rw [Function.update_self]
      exact hroot
    · obtain ⟨_, s₃, h3, hend⟩ := runs_bind.mp hend
      obtain ⟨_, s₄, h4, hend⟩ := runs_bind.mp hend
      obtain ⟨_, _, h5, h6⟩ := runs_bind.mp hend
      obtain rfl := runs_modify.mp h5
      obtain ⟨-, rfl⟩ := runs_pure.mp h6
      have hback := hc.trans (vmFree_confined hc.pages hc.space hroot h3)
      have hlast : Confined (fun _ => none) s (fun _ => none) s₄ := by
        rw [runs_when] at h4
        obtain ⟨-, h4⟩ | ⟨-, rfl⟩ := h4
        · exact hback.trans ((fileSystem_shuffles hback.pages h4 hs).confined hback.space)
        · exact hback
      exact ⟨_, _, (h.takes hlast hmem fun p hp => absurd rfl hp).congr rfl rfl rfl,
        fun u hu => hu ▸ hmem, .inl (setPgdir_self ..)⟩

end Calls

end FtosFfs.Core
