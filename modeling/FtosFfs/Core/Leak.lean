import FtosFfs.Core.Pid
import FtosFfs.Core.Space

/-! The pages of a process after its end: `vm_free` gives back the pages that the tables lead to,
each once, and the table that `alloc_proc` made for the child of a fork is not among them. -/

namespace FtosFfs.Core

open Lib Lib.Exec

variable {s s' : Sys} {r r' : Roles} {p q t l d : Nat} {u : Unit}

/-! ### Giving pages back -/

section Release

/-- The pages under a page, through `d` levels of tables, in the memory `w`. -/
def Under (w : Nat → Nat → Nat) : Nat → Nat → Nat → Prop
  | 0, t, q => q = t
  | d + 1, t, q => q = t ∨ ∃ i < 512, pteValid (w t i) ∧ Under w d (pteFrame (w t i)) q

/-- The pages under a table have higher levels. -/
theorem Space.under_role (h : Space r s) (ht : r t = some l) (hd : l + d = 4)
    (hq : Under s.word d t q) : ∃ m, r q = some m ∧ l ≤ m ∧ (m = l → q = t) := by
  induction d generalizing t l with
  | zero =>
    obtain rfl : q = t := hq
    exact ⟨l, ht, le_rfl, fun _ => rfl⟩
  | succ d ih =>
    obtain rfl | ⟨i, -, hv, hq⟩ := hq
    · exact ⟨l, ht, le_rfl, fun _ => rfl⟩
    · obtain ⟨m, hm, hle, -⟩ := ih (h.typed t l i ht (by omega) hv) (by omega) hq
      exact ⟨m, hm, by omega, fun he => by omega⟩

/-- A page is under one table of a level only. -/
theorem Space.under_unique (h : Space r s) {t' : Nat} (ht : r t = some l) (ht' : r t' = some l)
    (hd : l + d = 4) (hq : Under s.word d t q) (hq' : Under s.word d t' q) : t = t' := by
  induction d generalizing t t' l with
  | zero =>
    obtain rfl : q = t := hq
    exact hq'
  | succ d ih =>
    have hup {a i : Nat} (ha : r a = some l) (hv : pteValid (s.word a i))
        (hu : Under s.word d (pteFrame (s.word a i)) q) : r q ≠ some l := by
      obtain ⟨m, hm, hle, -⟩ := h.under_role (h.typed a l i ha (by omega) hv) (by omega) hu
      rw [hm]
      intro he
      cases he
      omega
    obtain rfl | ⟨i, -, hv, hu⟩ := hq
    · obtain rfl | ⟨i', -, hv', hu'⟩ := hq'
      · rfl
      · exact absurd ht (hup ht' hv' hu')
    · obtain rfl | ⟨i', -, hv', hu'⟩ := hq'
      · exact absurd ht' (hup ht hv hu)
      · have hsame := ih (h.typed t l i ht (by omega) hv) (h.typed t' l i' ht' (by omega) hv')
          (by omega) hu hu'
        exact (h.inj t i t' i' _ ⟨⟨l, ht, by omega⟩, hv, rfl⟩
          ⟨⟨l, ht', by omega⟩, hv', hsame.symm⟩).1

/-- The computation frees the pages under its argument, each once, and writes to no other page. -/
def Releases (r : Roles) (w : Nat → Nat → Nat) (x : Nat → Sys.M Unit) (d : Nat) : Prop :=
  ∀ t s s', r t = some (4 - d) → (∀ q, Under w d t q → s.word q = w q) → Runs (x t) s () s' →
    ∃ pages word, s' = { s with free := pages ++ s.free, word } ∧ pages.Nodup ∧
      (∀ q, q ∈ pages ↔ Under w d t q) ∧ ∀ q, q ∉ pages → word q = s.word q

theorem releases_kfree (r : Roles) (w : Nat → Nat → Nat) : Releases r w kfree 0 := by
  intro t s s' _ _ hr
  obtain rfl := runs_modify.mp hr
  refine ⟨[t], (s.store t 0 (nextFree s.free)).word, rfl, List.nodup_singleton t, by simp [Under],
    fun q hq => ?_⟩
  have hne : q ≠ t := by simpa using hq
  exact Function.update_of_ne hne _ _

/-- The loop over the entries of a table. -/
theorem releases_entries (h : Space r s) {x : Nat → Sys.M Unit} (hd : d < 4)
    (hx : Releases r s.word x d) (ht : r t = some (3 - d)) (is : List Nat) (his : is.Nodup)
    {a a' : Sys} (hword : a.word t = s.word t)
    (hkept : ∀ i ∈ is, pteValid (s.word t i) → ∀ q, Under s.word d (pteFrame (s.word t i)) q →
      a.word q = s.word q)
    (hr : Runs (is.forM fun i => do
      let s ← get
      when (pteValid (s.word t i)) (x (pteFrame (s.word t i)))) a u a') :
    ∃ pages word, a' = { a with free := pages ++ a.free, word } ∧ pages.Nodup ∧
      (∀ q, q ∈ pages ↔ ∃ i ∈ is, pteValid (s.word t i) ∧
        Under s.word d (pteFrame (s.word t i)) q) ∧ ∀ q, q ∉ pages → word q = a.word q := by
  have htyped (i : Nat) (hv : pteValid (s.word t i)) : r (pteFrame (s.word t i)) = some (4 - d) := by
    rw [h.typed t (3 - d) i ht (by omega) hv, show 3 - d + 1 = 4 - d by omega]
  induction is generalizing a with
  | nil =>
    obtain ⟨-, rfl⟩ := runs_pure.mp (show Runs (pure ⟨⟩) a u a' from hr)
    exact ⟨[], a.word, rfl, List.nodup_nil, by simp, fun _ _ => rfl⟩
  | cons i is ih =>
    obtain ⟨hi, his⟩ := List.nodup_cons.mp his
    obtain ⟨_, b, hb, hr⟩ := runs_bind.mp (show Runs (_ >>= fun _ => is.forM _) a u a' from hr)
    obtain ⟨_, _, hg, hb⟩ := runs_bind.mp hb
    obtain ⟨rfl, rfl⟩ := runs_get.mp hg
    rw [hword, runs_when] at hb
    obtain ⟨hv, hb⟩ | ⟨hv, rfl⟩ := hb
    · obtain ⟨p1, w1, rfl, hn1, hm1, ho1⟩ := hx _ a b (htyped i hv) (hkept i (by simp) hv) hb
      -- neither the table nor what its other entries lead to is among these pages
      have hself : t ∉ p1 := by
        intro htm
        obtain ⟨m, hm, hle, -⟩ := h.under_role (htyped i hv) (by omega) ((hm1 t).mp htm)
        rw [ht] at hm
        cases hm
        omega
      have hother (j : Nat) (hj : j ∈ is) (hvj : pteValid (s.word t j)) (q : Nat)
          (hq : Under s.word d (pteFrame (s.word t j)) q) : q ∉ p1 := by
        intro hqm
        have hsame := h.under_unique (htyped i hv) (htyped j hvj) (by omega) ((hm1 q).mp hqm) hq
        obtain ⟨-, rfl⟩ := h.inj t i t j _ ⟨⟨_, ht, by omega⟩, hv, rfl⟩
          ⟨⟨_, ht, by omega⟩, hvj, hsame.symm⟩
        exact hi hj
      obtain ⟨p2, w2, rfl, hn2, hm2, ho2⟩ := ih his (a := { a with free := p1 ++ a.free, word := w1 })
        ((ho1 t hself).trans hword)
        (fun j hj hvj q hq => (ho1 q (hother j hj hvj q hq)).trans
          (hkept j (by simp [hj]) hvj q hq)) hr
      refine ⟨p2 ++ p1, w2, by simp [List.append_assoc], ?_, fun q => ?_, fun q hq => ?_⟩
      · refine List.nodup_append'.mpr ⟨hn2, hn1, fun q hq2 hq1 => ?_⟩
        obtain ⟨j, hj, hvj, hu⟩ := (hm2 q).mp hq2
        exact hother j hj hvj q hu hq1
      · rw [List.mem_append, hm2, hm1]
        constructor
        · rintro (⟨j, hj, hu⟩ | hu)
          · exact ⟨j, by simp [hj], hu⟩
          · exact ⟨i, by simp, hv, hu⟩
        · rintro ⟨j, hj, hvj, hu⟩
          obtain rfl | hj := List.mem_cons.mp hj
          · exact .inr hu
          · exact .inl ⟨j, hj, hvj, hu⟩
      · rw [List.mem_append, not_or] at hq
        exact (ho2 q hq.1).trans (ho1 q hq.2)
    · obtain ⟨p2, w2, he, hn2, hm2, ho2⟩ := ih his hword
        (fun j hj hvj q hq => hkept j (by simp [hj]) hvj q hq) hr
      refine ⟨p2, w2, he, hn2, fun q => ?_, ho2⟩
      rw [hm2]
      constructor
      · rintro ⟨j, hj, hu⟩
        exact ⟨j, by simp [hj], hu⟩
      · rintro ⟨j, hj, hvj, hu⟩
        obtain rfl | hj := List.mem_cons.mp hj
        · exact absurd hvj hv
        · exact ⟨j, hj, hvj, hu⟩

theorem releases_table (h : Space r s) {x : Nat → Sys.M Unit} (hd : d < 4)
    (hx : Releases r s.word x d) : Releases r s.word (freeTable x) (d + 1) := by
  intro t a a' ht hkept hr
  rw [show 4 - (d + 1) = 3 - d by omega] at ht
  unfold freeTable at hr
  have his : ∀ i, i ∈ List.range 512 ↔ i < 512 := fun i => List.mem_range
  have hnd : (List.range 512).Nodup := List.nodup_range
  generalize List.range 512 = is at hr his hnd
  obtain ⟨_, b, hloop, hfree⟩ := runs_bind.mp hr
  have hunder {i : Nat} (hi : i ∈ is) {q : Nat} (hv : pteValid (s.word t i))
      (hq : Under s.word d (pteFrame (s.word t i)) q) : Under s.word (d + 1) t q :=
    .inr ⟨i, (his i).mp hi, hv, hq⟩
  obtain ⟨p1, w1, rfl, hn1, hm1, ho1⟩ := releases_entries h hd hx ht is hnd (hkept t (.inl rfl))
    (fun i hi hv q hq => hkept q (hunder hi hv hq)) hloop
  obtain rfl := runs_modify.mp hfree
  have hself : t ∉ p1 := by
    intro htm
    obtain ⟨i, hi, hv, hu⟩ := (hm1 t).mp htm
    obtain ⟨m, hm, hle, -⟩ := h.under_role (h.typed t (3 - d) i ht (by omega) hv) (by omega) hu
    rw [ht] at hm
    cases hm
    omega
  refine ⟨t :: p1, _, rfl, List.nodup_cons.mpr ⟨hself, hn1⟩, fun q => ?_, fun q hq => ?_⟩
  · rw [List.mem_cons, hm1]
    constructor
    · rintro (rfl | ⟨i, hi, hv, hu⟩)
      · exact .inl rfl
      · exact hunder hi hv hu
    · rintro (rfl | ⟨i, hi, hv, hu⟩)
      · exact .inl rfl
      · exact .inr ⟨i, (his i).mpr hi, hv, hu⟩
  · rw [List.mem_cons, not_or] at hq
    exact (Function.update_of_ne hq.1 _ _).trans (ho1 q hq.2)

theorem releases_recur (h : Space r s) (depth : Nat) (hd : depth < 4) :
    Releases r s.word (recurVmFree depth) (depth + 1) := by
  induction depth with
  | zero => exact releases_table h (by omega) (releases_kfree r s.word)
  | succ depth ih => exact releases_table h (by omega) (ih (by omega))

/-- `vm_free` of an address space: pages of the space become free, each once, and nothing else
changes. -/
theorem vmFree_releases (h : Space r s) (ht : r t = some 0) (hr : Runs (vmFree t) s u s') :
    ∃ pages word, s' = { s with free := pages ++ s.free, word } ∧ pages.Nodup ∧
      (∀ q ∈ pages, r q ≠ none) ∧ ∀ q, r q = none → word q = s.word q := by
  obtain ⟨pages, word, he, hn, hm, ho⟩ :=
    releases_recur h 3 (by omega) t s s' ht (fun _ _ => rfl) hr
  have hrole : ∀ q ∈ pages, r q ≠ none := by
    intro q hq
    obtain ⟨m, hm, -⟩ := h.under_role ht rfl ((hm q).mp hq)
    rw [hm]
    simp
  exact ⟨pages, word, he, hn, hrole, fun q hq => ho q fun hqm => hrole q hqm hq⟩

end Release

/-! ### The pages of the file system -/

section Arena

theorem Space.congr (h : Space r s) (hf : s'.free = s.free) (ha : s'.arena = s.arena)
    (hw : s'.word = s.word) : Space r s' :=
  h.of_words (fun t _ _ _ => congrFun hw t) fun p hp => h.apart p (by rwa [hf, ha] at hp)

theorem Pages.congr (h : Pages s) (hf : s'.free = s.free) (ha : s'.arena = s.arena) : Pages s' := by
  constructor
  · exact hf ▸ h.free
  · exact ha ▸ h.arena
  · rw [hf, ha]
    exact h.disjoint
  · rw [hf, ha]
    exact h.below

/-- Pages have moved between the free list and the arenas, and no other page was written. -/
structure Shuffles (s s' : Sys) : Prop where
  pages : Pages s'
  pool : ∀ p, p ∈ s'.free ∨ p ∈ s'.arena → p ∈ s.free ∨ p ∈ s.arena
  words : ∀ p, p ∉ s.free → p ∉ s.arena → s'.word p = s.word p

theorem Shuffles.refl (h : Pages s) : Shuffles s s := ⟨h, fun _ => id, fun _ _ _ => rfl⟩

theorem Shuffles.trans {s1 s2 s3 : Sys} (h : Shuffles s1 s2) (h' : Shuffles s2 s3) :
    Shuffles s1 s3 := by
  refine ⟨h'.pages, fun p hp => h.pool p (h'.pool p hp), fun p hf ha => ?_⟩
  have hout : ¬(p ∈ s2.free ∨ p ∈ s2.arena) := fun hp => (h.pool p hp).elim hf ha
  rw [not_or] at hout
  rw [h'.words p hout.1 hout.2, h.words p hf ha]

theorem Shuffles.space (h : Shuffles s s') (hr : Space r s) : Space r s' := by
  refine hr.of_words (fun t l ht _ => ?_) fun p hp => hr.apart p (h.pool p hp)
  have hout : ¬(t ∈ s.free ∨ t ∈ s.arena) := by
    intro hp
    rw [hr.apart t hp] at ht
    cases ht
  rw [not_or] at hout
  exact h.words t hout.1 hout.2

theorem arenaOp_shuffles {op : ArenaOp} (hp : Pages s) (hr : Runs (arenaOp op) s u s')
    (hs : s'.short = false) : Shuffles s s' := by
  cases op with
  | take =>
    obtain ⟨o, s1, h1, h2⟩ := runs_bind.mp hr
    cases o with
    | none => exact absurd h2 runs_throw
    | some p =>
      obtain rfl := runs_modify.mp h2
      obtain ⟨p', free, hp', hfree, rfl⟩ := kalloc_takes h1 hs
      cases hp'
      have hnd := hp.free
      rw [hfree, List.nodup_cons] at hnd
      have hmem : p ∈ s.free := by simp [hfree]
      have hsub (q : Nat) (hq : q ∈ free) : q ∈ s.free := by
        rw [hfree]
        exact List.mem_cons_of_mem p hq
      refine ⟨⟨hnd.2, List.nodup_cons.mpr ⟨fun ha => hp.disjoint p ha hmem, hp.arena⟩,
        fun q hq hqf => ?_, fun q hq => ?_⟩, fun q hq => ?_, fun _ _ _ => rfl⟩
      · obtain rfl | hq := List.mem_cons.mp hq
        · exact hnd.1 hqf
        · exact hp.disjoint q hq (hsub q hqf)
      all_goals
        obtain hq | hq := hq
        · first | exact hp.below q (.inl (hsub q hq)) | exact .inl (hsub q hq)
        · obtain rfl | hq := List.mem_cons.mp hq
          · first | exact hp.below q (.inl hmem) | exact .inl hmem
          · first | exact hp.below q (.inr hq) | exact .inr hq
  | write p data =>
    obtain ⟨_, _, h1, h2⟩ := runs_bind.mp hr
    obtain ⟨rfl, rfl⟩ := runs_get.mp h1
    obtain ⟨_, _, h3, h4⟩ := runs_bind.mp h2
    obtain ⟨hmem, rfl⟩ := runs_require.mp h3
    obtain rfl := runs_modify.mp h4
    refine ⟨hp.congr rfl rfl, fun _ => id, fun q _ ha => ?_⟩
    refine Function.update_of_ne ?_ _ _
    rintro rfl
    exact ha hmem
  | give p =>
    obtain ⟨_, _, h1, h2⟩ := runs_bind.mp hr
    obtain ⟨rfl, rfl⟩ := runs_get.mp h1
    obtain ⟨_, _, h3, h4⟩ := runs_bind.mp h2
    obtain ⟨hmem, rfl⟩ := runs_require.mp h3
    obtain ⟨_, _, h5, h6⟩ := runs_bind.mp h4
    obtain rfl := runs_modify.mp h5
    obtain rfl := runs_modify.mp h6
    have hrest (q : Nat) (hq : q ∈ s.arena.erase p) : q ∈ s.arena ∧ q ≠ p :=
      ⟨List.mem_of_mem_erase hq, fun he => (hp.arena.not_mem_erase (he ▸ hq : p ∈ _))⟩
    refine ⟨⟨List.nodup_cons.mpr ⟨hp.disjoint p hmem, hp.free⟩, hp.arena.erase p,
      fun q hq hqf => ?_, fun q hq => ?_⟩, fun q hq => ?_, fun q hqf hqa => ?_⟩
    · obtain ⟨hqa, hne⟩ := hrest q hq
      obtain rfl | hqf := List.mem_cons.mp hqf
      · exact hne rfl
      · exact hp.disjoint q hqa hqf
    · obtain hq | hq := hq
      · obtain rfl | hq := List.mem_cons.mp hq
        · exact hp.below q (.inr hmem)
        · exact hp.below q (.inl hq)
      · exact hp.below q (.inr (hrest q hq).1)
    · obtain hq | hq := hq
      · obtain rfl | hq := List.mem_cons.mp hq
        · exact .inr hmem
        · exact .inl hq
      · exact .inr (hrest q hq).1
    · refine Function.update_of_ne ?_ _ _
      rintro rfl
      exact hqa hmem

theorem stays_arenaOp {B : Sys → Prop} (hB : Loose B) (op : ArenaOp) : Stays B (arenaOp op) := by
  cases op with
  | take =>
    refine (stays_kalloc hB).bind fun o => ?_
    cases o with
    | none => exact .throw _
    | some p => exact .modify fun s hs => hB s s.free s.word _ s.short id hs
  | write p data =>
    exact Stays.get.bind fun s => (Stays.require _ _).bind fun _ => stays_fill hB p fun _ => data
  | give p =>
    refine Stays.get.bind fun s => (Stays.require _ _).bind fun _ => Stays.bind ?_ fun _ =>
      stays_kfree hB p
    exact .modify fun s hs => hB s s.free s.word _ s.short id hs

theorem stays_fileSystem {B : Sys → Prop} (hB : Loose B) (ops : List ArenaOp) :
    Stays B (fileSystem ops) :=
  .forM (stays_arenaOp hB) ops

theorem fileSystem_shuffles {ops : List ArenaOp} (hp : Pages s)
    (hr : Runs (fileSystem ops) s u s') (hs : s'.short = false) : Shuffles s s' := by
  refine hr.forM (I := fun _ t => t.short = false → Shuffles s t) (fun _ => .refl hp)
    (fun op _ t t' ht hstep ht' => ?_) hs
  have h := ht (not_short (stays_arenaOp loose_short op) hstep ht')
  exact h.trans (arenaOp_shuffles h.pages hstep ht')

end Arena

/-! ### A new program -/

section Execve

variable {lost stack c pgdir : Nat} {j : Slot} {o : Roles}

/-- While `execve` builds the address space `r`, the address space `o` is as it was, and the page
that is lost and the kernel stack belong to neither and are not free. -/
structure Loading (lost stack c : Nat) (j : Slot) (o r : Roles) (s : Sys) : Prop where
  pages : Pages s
  old : Space o s
  new : Space r s
  disjoint : ∀ p, o p ≠ none → r p = none
  aside : ∀ p, p = lost ∨ p = stack → o p = none ∧ r p = none ∧ p ∉ s.free ∧ p ∉ s.arena
  kstack : s.kstack c j = some stack

theorem Loading.grown (h : Loading lost stack c j o r s) (g : Grown r s r' s')
    (hprocs : SameProcs s s') : Loading lost stack c j o r' s' := by
  have hout (p : Nat) (hp : o p ≠ none) : r' p = none ∧ p ∉ s'.free ∧ s'.word p = s.word p :=
    g.works.outside (h.disjoint p hp) fun hf => hp (h.old.apart p (.inl hf))
  refine ⟨g.pages h.pages, h.old.of_words (fun t l ht _ => (hout t (by rw [ht]; simp)).2.2) ?_,
    g.space, fun p hp => (hout p hp).1, fun p hp => ?_, hprocs.2.2 ▸ h.kstack⟩
  · rintro p (hf | ha)
    · exact h.old.apart p (.inl (g.works.free.subset hf))
    · exact h.old.apart p (.inr (g.works.arena ▸ ha))
  · obtain ⟨ho, hr, hf, ha⟩ := h.aside p hp
    obtain ⟨hr', hf', -⟩ := g.works.outside hr hf
    exact ⟨ho, hr', hf', g.works.arena ▸ ha⟩

theorem Loading.shuffle (h : Loading lost stack c j o r s) (hsh : Shuffles s s')
    (hprocs : SameProcs s s') : Loading lost stack c j o r s' := by
  refine ⟨hsh.pages, hsh.space h.old, hsh.space h.new, h.disjoint, fun p hp => ?_,
    hprocs.2.2 ▸ h.kstack⟩
  obtain ⟨ho, hr, hf, ha⟩ := h.aside p hp
  have hout : ¬(p ∈ s'.free ∨ p ∈ s'.arena) := fun hin => (hsh.pool p hin).elim hf ha
  exact ⟨ho, hr, not_or.mp hout⟩

/-- The address space under `pgdir` is being built, or a page was missing. -/
def Loads (lost stack c : Nat) (j : Slot) (o : Roles) (pgdir : Nat) (s : Sys) : Prop :=
  s.short = true ∨ ∃ r, Loading lost stack c j o r s ∧ r pgdir = some 0

/-- An operation keeps the building going if it does when no page is missing. -/
theorem stays_loads {α : Type} {x : Sys.M α} (hx : ∀ B, Loose B → Stays B x)
    (hstep : ∀ r s a s', Pages s → Space r s → r pgdir = some 0 → Runs x s a s' →
      s'.short = false → ∃ r', Grown r s r' s') : Stays (Loads lost stack c j o pgdir) x := by
  intro s a s' hr hl
  cases hshort : s'.short with
  | true => exact .inl hshort
  | false =>
    obtain hs | ⟨r, h, ht⟩ := hl
    · rw [not_short (hx _ loose_short) hr hshort] at hs
      cases hs
    · obtain ⟨r', g⟩ := hstep r s a s' h.pages h.new ht hr hshort
      have hprocs := hx _ (loose_sameProcs s) s a s' hr ⟨rfl, rfl, rfl⟩
      exact .inr ⟨r', h.grown g hprocs, g.works.grows pgdir 0 ht⟩

/-- What the steps of `execve` on the new address space keep. -/
structure Building (B : Sys → Prop) (pgdir : Nat) : Prop where
  uvmAlloc : ∀ base stksz oldsz newsz, Stays B (uvmAlloc pgdir base stksz oldsz newsz)
  copyout : ∀ va len data, Stays B (copyout pgdir va len data)
  userWrite : ∀ va len data, Stays B (userWrite pgdir va len data)
  fileSystem : ∀ ops, Stays B (fileSystem ops)
  setPgdir : ∀ d i p, Stays B (modify fun s => s.setPgdir d i p : Sys.M Unit)

theorem building_short (pgdir : Nat) : Building (fun s => s.short = true) pgdir where
  uvmAlloc := stays_uvmAlloc loose_short
  copyout := stays_copyout loose_short
  userWrite := stays_userWrite loose_short
  fileSystem := stays_fileSystem loose_short
  setPgdir _ _ _ := .modify fun _ => id

theorem building_loads : Building (Loads lost stack c j o pgdir) pgdir where
  uvmAlloc base stksz oldsz newsz :=
    stays_loads (fun _ hB => stays_uvmAlloc hB base stksz oldsz newsz)
      fun _ _ _ _ hp h ht hr hs => uvmAlloc_grows hp h ht hr hs
  copyout va len data :=
    stays_loads (fun _ hB => stays_copyout hB va len data)
      fun _ _ _ _ hp h ht hr hs => copyout_grows hp h ht hr hs
  userWrite va len data :=
    stays_loads (fun _ hB => stays_userWrite hB va len data)
      fun r _ _ _ _ h ht hr _ => ⟨r, userWrite_grows h ht hr⟩
  fileSystem ops := by
    intro s a s' hr hl
    cases hshort : s'.short with
    | true => exact .inl hshort
    | false =>
      obtain hs | ⟨r, h, ht⟩ := hl
      · rw [not_short (stays_fileSystem loose_short ops) hr hshort] at hs
        cases hs
      · have hprocs := stays_fileSystem (loose_sameProcs s) ops s a s' hr ⟨rfl, rfl, rfl⟩
        exact .inr ⟨r, h.shuffle (fileSystem_shuffles h.pages hr hshort) hprocs, ht⟩
  setPgdir d i p := by
    refine .modify fun s hs => hs.imp id ?_
    rintro ⟨r, h, ht⟩
    exact ⟨r, ⟨h.pages.congr rfl rfl, h.old.congr rfl rfl rfl, h.new.congr rfl rfl rfl, h.disjoint,
      h.aside, h.kstack⟩, ht⟩

variable {B : Sys → Prop}

theorem Building.loadSegments (h : Building B pgdir) (e : ExecCall) (is : List Nat) (first : Bool)
    (sz base : Nat) : Stays B (loadSegments pgdir e is first sz base) := by
  induction is generalizing first sz base with
  | nil => exact .pure true
  | cons i is ih =>
    refine (h.fileSystem _).bind fun _ => .ite (ih _ _ _) (.ite (.pure _) (.ite (.pure _)
      (.ite (.pure _) ((h.uvmAlloc _ _ _ _).bind fun _ => .ite (.pure _) ?_))))
    exact (h.fileSystem _).bind fun _ => (h.userWrite _ _ _).bind fun _ =>
      (h.userWrite _ _ _).bind fun _ => ih _ _ _

theorem Building.pushStrings (h : Building B pgdir) (data : Nat → Nat → Nat)
    (l : List (Option Nat)) (sp : Nat) : Stays B (pushStrings pgdir data l sp) := by
  induction l generalizing sp with
  | nil => exact .pure _
  | cons len l ih =>
    cases len with
    | none => exact .pure none
    | some len => exact (h.copyout _ _ _).bind fun _ => .ite (ih _) (.pure none)

theorem Building.pushStack (h : Building B pgdir) (e : ExecCall) :
    Stays B (pushStack pgdir e) := by
  refine (h.pushStrings _ _ _).bind fun sp => ?_
  cases sp with
  | none => exact .pure false
  | some sp =>
    refine (h.pushStrings _ _ _).bind fun sp => ?_
    cases sp with
    | none => exact .pure false
    | some sp =>
      exact (h.copyout _ _ _).bind fun _ => .ite ((h.userWrite _ _ _).bind fun _ =>
        (h.copyout _ _ _).bind fun _ => .ite ((Stays.require _ _).bind fun _ => .pure true)
          (.pure false)) (.pure false)

theorem Building.execSegments (h : Building B pgdir) (d : Nat) (i : Slot) (e : ExecCall) :
    Stays B (execSegments d i pgdir e) :=
  (h.fileSystem _).bind fun _ => .ite (.pure _) (.ite (.pure _)
    ((h.setPgdir d i _).bind fun _ => (h.loadSegments e _ _ _ _).bind fun _ =>
      .ite ((h.fileSystem _).bind fun _ => .pure _) (.pure _)))

theorem Building.execLoad (h : Building B pgdir) (d : Nat) (i : Slot) (e : ExecCall) :
    Stays B (execLoad d i pgdir e) :=
  (h.execSegments d i e).bind fun _ => .ite ((h.pushStack e).bind fun _ => .pure _) (.pure _)

/-- An address space and a kernel stack, with the page that is lost outside of both and not
free. -/
structure Resident (lost stack c : Nat) (j : Slot) (o : Roles) (s : Sys) : Prop where
  pages : Pages s
  space : Space o s
  aside : ∀ p, p = lost ∨ p = stack → o p = none ∧ p ∉ s.free ∧ p ∉ s.arena
  kstack : s.kstack c j = some stack

theorem Resident.shuffle (h : Resident lost stack c j o s) (hsh : Shuffles s s')
    (hk : s'.kstack = s.kstack) : Resident lost stack c j o s' := by
  refine ⟨hsh.pages, hsh.space h.space, fun p hp => ?_, hk ▸ h.kstack⟩
  obtain ⟨ho, hf, ha⟩ := h.aside p hp
  have hout : ¬(p ∈ s'.free ∨ p ∈ s'.arena) := fun hin => (hsh.pool p hin).elim hf ha
  exact ⟨ho, not_or.mp hout⟩

theorem Resident.congr (h : Resident lost stack c j o s) (hf : s'.free = s.free)
    (ha : s'.arena = s.arena) (hw : s'.word = s.word) (hk : s'.kstack = s.kstack) :
    Resident lost stack c j o s' :=
  ⟨h.pages.congr hf ha, h.space.congr hf ha hw, by rw [hf, ha]; exact h.aside, hk ▸ h.kstack⟩

/-- The memory of a process: the address space under its `pgdir` and its kernel stack. -/
structure Child (lost stack c : Nat) (j : Slot) (o : Roles) (pgdir : Nat) (s : Sys) : Prop
    extends Resident lost stack c j o s where
  root : o pgdir = some 0
  pgdir_eq : s.pgdir c j = some pgdir

/-- The pages of the new address space are given back. -/
theorem Loading.release (h : Loading lost stack c j o r s) (ht : r pgdir = some 0)
    (hr : Runs (vmFree pgdir) s u s') : Resident lost stack c j o s' := by
  obtain ⟨pages, word, rfl, hn, hrole, hword⟩ := vmFree_releases h.new ht hr
  have hnot (p : Nat) (hp : p ∈ pages) : p ∉ s.free ∧ p ∉ s.arena :=
    ⟨fun hf => hrole p hp (h.new.apart p (.inl hf)), fun ha => hrole p hp (h.new.apart p (.inr ha))⟩
  have hold (p : Nat) (hp : p ∈ pages) : o p = none := by
    by_contra hne
    exact hrole p hp (h.disjoint p hne)
  refine ⟨⟨?_, h.pages.arena, fun p hpa hpf => ?_, fun p hp => ?_⟩,
    h.old.of_words (fun t l hl _ => hword t (h.disjoint t (by rw [hl]; simp))) fun p hp => ?_,
    fun p hp => ?_, h.kstack⟩
  · exact List.nodup_append'.mpr ⟨hn, h.pages.free, fun p hp hf => (hnot p hp).1 hf⟩
  · obtain hp | hf := List.mem_append.mp hpf
    · exact (hnot p hp).2 hpa
    · exact h.pages.disjoint p hpa hf
  · obtain hp | ha := hp
    · obtain hp | hf := List.mem_append.mp hp
      · obtain ⟨l, hl⟩ := Option.ne_none_iff_exists'.mp (hrole p hp)
        exact h.new.below p l hl
      · exact h.pages.below p (.inl hf)
    · exact h.pages.below p (.inr ha)
  · obtain hp | ha := hp
    · obtain hp | hf := List.mem_append.mp hp
      · exact hold p hp
      · exact h.old.apart p (.inl hf)
    · exact h.old.apart p (.inr ha)
  · obtain ⟨ho, hr, hf, ha⟩ := h.aside p hp
    refine ⟨ho, fun hpf => ?_, ha⟩
    obtain hp | hpf := List.mem_append.mp hpf
    · exact hrole p hp hr
    · exact hf hpf

theorem Child.start (h : Child lost stack c j o pgdir s) {new : Nat} {free : List Nat}
    (hfree : s.free = new :: free) :
    Loading lost stack c j o (Function.update (fun _ => none) new (some 0))
      ({ s with free }.fill new fun _ => 0) := by
  obtain ⟨hspace, hworks, -, -⟩ :=
    (space_empty s).take (l := 0) (f := fun _ => 0) h.pages hfree (by simp [pteValid])
  have hstart : Loading lost stack c j o (fun _ => none) s :=
    ⟨h.pages, h.space, space_empty s, fun _ _ => rfl,
      fun p hp => ⟨(h.aside p hp).1, rfl, (h.aside p hp).2⟩, h.kstack⟩
  exact hstart.grown ⟨hspace, hworks⟩ ⟨rfl, rfl, rfl⟩

theorem stays_freeTable {x : Nat → Sys.M Unit} (hB : Loose B) (hx : ∀ q, Stays B (x q)) (t : Nat) :
    Stays B (freeTable x t) :=
  (Stays.forM (fun _ => Stays.get.bind fun _ => .when (hx _)) _).bind fun _ => stays_kfree hB t

theorem stays_vmFree (hB : Loose B) (t : Nat) : Stays B (vmFree t) := by
  have h (depth : Nat) : ∀ q, Stays B (recurVmFree depth q) := by
    induction depth with
    | zero => exact stays_freeTable hB (stays_kfree hB)
    | succ depth ih => exact stays_freeTable hB ih
  exact h 3 t

theorem setPgdir_self (s : Sys) (c : Nat) (j : Slot) (p : Option Nat) :
    (s.setPgdir c j p).pgdir c j = p := if_pos ⟨rfl, rfl⟩

/-- The memory of a process, or a page was missing. -/
def Alive (lost stack c : Nat) (j : Slot) (s : Sys) : Prop :=
  s.short = true ∨ ∃ o pgdir, Child lost stack c j o pgdir s

theorem alive_fileSystem (ops : List ArenaOp) :
    Stays (Alive lost stack c j) (fileSystem ops) := by
  intro s a s' hr hl
  cases hshort : s'.short with
  | true => exact .inl hshort
  | false =>
    obtain hs | ⟨o, pgdir, h⟩ := hl
    · rw [not_short (stays_fileSystem loose_short ops) hr hshort] at hs
      cases hs
    · have hsh := fileSystem_shuffles h.pages hr hshort
      have hprocs := stays_fileSystem (loose_sameProcs s) ops s a s' hr ⟨rfl, rfl, rfl⟩
      exact .inr ⟨o, pgdir, ⟨h.shuffle hsh hprocs.2.2, h.root, hprocs.2.1 ▸ h.pgdir_eq⟩⟩

/-- The end of `execve` keeps the flag that a page was missing. -/
theorem execEnd_short (c : Nat) (j : Slot) (pgdir : Nat) (oldpgdir : Option Nat) (e : ExecCall)
    (loaded opened : Bool) : Stays (fun s => s.short = true) (if loaded then do
        modify fun s => s.setPgdir c j (some pgdir)
        pure true
      else do
        vmFree pgdir
        when opened (fileSystem (e.ops (2 * e.phnum + 1)))
        modify fun s => s.setPgdir c j oldpgdir
        pure false : Sys.M Bool) :=
  .ite (((building_short pgdir).setPgdir _ _ _).bind fun _ => .pure _)
    ((stays_vmFree loose_short pgdir).bind fun _ =>
      (Stays.when ((building_short pgdir).fileSystem _)).bind fun _ =>
        ((building_short pgdir).setPgdir _ _ _).bind fun _ => .pure _)

theorem stays_execve (c : Nat) (j : Slot) (e : ExecCall) :
    Stays (fun s => s.short = true) (execve c j e) := by
  refine .ite (.pure _) (Stays.get.bind fun s => (stays_pgdirInit loose_short).bind fun new => ?_)
  cases new with
  | none => exact ((building_short 0).setPgdir _ _ _).bind fun _ => .pure _
  | some pgdir =>
    exact ((building_short pgdir).execLoad c j e).bind fun x => execEnd_short c j pgdir _ e x.1 x.2

theorem stays_exit (c : Nat) (j : Slot) (ops : List ArenaOp) :
    Stays (fun s => s.short = true) (exit c j ops) :=
  (stays_fileSystem loose_short ops).bind fun _ => .modify fun _ => id

theorem stays_wait (c : Nat) (i : Slot) : Stays (fun s => s.short = true) (wait c i) := by
  refine Stays.get.bind fun s => Stays.bind (.modify fun _ => id) fun _ => ?_
  split
  · split
    · exact (stays_vmFree loose_short _).bind fun _ => (stays_kfree loose_short _).bind
        fun _ => .pure _
    · exact .throw _
  · exact .pure none

/-- A call of `execve` that has its pages leaves the process with an address space of its own: the
new one, or the old one with the pages of the new one given back. -/
theorem alive_execve (e : ExecCall) : Stays (Alive lost stack c j) (execve c j e) := by
  intro s b s' hr hl
  cases hshort : s'.short with
  | true => exact .inl hshort
  | false => ?_
  rw [execve, runs_ite] at hr
  obtain ⟨-, hr⟩ | ⟨-, hr⟩ := hr
  · obtain ⟨-, rfl⟩ := runs_pure.mp hr
    exact hl
  obtain ⟨_, _, h1, hr⟩ := runs_bind.mp hr
  obtain ⟨rfl, rfl⟩ := runs_get.mp h1
  obtain ⟨new, s1, h1, hr⟩ := runs_bind.mp hr
  cases new with
  | none =>
    obtain ⟨_, _, h2, h3⟩ := runs_bind.mp hr
    obtain rfl := runs_modify.mp h2
    obtain ⟨-, rfl⟩ := runs_pure.mp h3
    obtain ⟨p, free, hp, -⟩ := pgdirInit_takes h1 hshort
    cases hp
  | some pgdir =>
    obtain ⟨⟨loaded, opened⟩, s2, h2, hend⟩ := runs_bind.mp hr
    have hs2 := not_short (execEnd_short c j pgdir (s.pgdir c j) e loaded opened) hend hshort
    have hs1 := not_short ((building_short pgdir).execLoad c j e) h2 hs2
    have hs := not_short (stays_pgdirInit loose_short) h1 hs1
    obtain ⟨o, old, h⟩ := hl.resolve_left (by rw [hs]; decide)
    obtain ⟨p, free, hp, hfree, rfl⟩ := pgdirInit_takes h1 hs1
    cases hp
    have hstart : Loads lost stack c j o pgdir ({ s with free }.fill pgdir fun _ => 0) :=
      .inr ⟨_, h.start hfree, by simp⟩
    obtain ⟨r, hload, ht⟩ :=
      (building_loads.execLoad c j e _ _ s2 h2 hstart).resolve_left (by rw [hs2]; decide)
    obtain ⟨-, hend⟩ | ⟨-, hend⟩ := runs_ite.mp hend
    · obtain ⟨_, _, h3, h4⟩ := runs_bind.mp hend
      obtain rfl := runs_modify.mp h3
      obtain ⟨-, rfl⟩ := runs_pure.mp h4
      have hres : Resident lost stack c j r s2 :=
        ⟨hload.pages, hload.new, fun p hp => (hload.aside p hp).2, hload.kstack⟩
      exact .inr ⟨r, pgdir, ⟨hres.congr rfl rfl rfl rfl, ht, setPgdir_self _ _ _ _⟩⟩
    · obtain ⟨_, s3, h3, hend⟩ := runs_bind.mp hend
      obtain ⟨_, s4, h4, hend⟩ := runs_bind.mp hend
      obtain ⟨_, _, h5, h6⟩ := runs_bind.mp hend
      obtain rfl := runs_modify.mp h5
      obtain ⟨-, rfl⟩ := runs_pure.mp h6
      have hres := hload.release ht h3
      have hres4 : Resident lost stack c j o s4 := by
        rw [runs_when] at h4
        obtain ⟨-, h4⟩ | ⟨-, rfl⟩ := h4
        · have hprocs := stays_fileSystem (loose_sameProcs s3) _ s3 _ s4 h4 ⟨rfl, rfl, rfl⟩
          exact hres.shuffle (fileSystem_shuffles hres.pages h4 hshort) hprocs.2.2
        · exact hres
      refine .inr ⟨o, old, ⟨hres4.congr rfl rfl rfl rfl, h.root, ?_⟩⟩
      rw [setPgdir_self]
      exact h.pgdir_eq

end Execve

/-! ### From fork to wait -/

section Cycle

variable {T : Tree} {lost stack c : Nat} {i j : Slot} {o : Roles}

/-- The first free page is taken. -/
theorem Pages.tail (h : Pages s) {free : List Nat} (hfree : s.free = p :: free)
    (hf : s'.free = free) (ha : s'.arena = s.arena) :
    Pages s' ∧ p < physPages ∧ p ∉ s'.free ∧ p ∉ s'.arena := by
  have hmem : p ∈ s.free := hfree ▸ List.mem_cons_self
  subst hf
  refine ⟨h.sublist ?_ ha, h.below p (.inl hmem), ?_, ?_⟩
  · rw [hfree]
    exact List.sublist_cons_self p _
  · exact (List.nodup_cons.mp (hfree ▸ h.free)).1
  · rw [ha]
    exact fun hpa => h.disjoint p hpa hmem

/-- `alloc_proc` takes two pages, the first as a table. -/
theorem allocProcPages_takes {x : Slot × Nat} (hr : Runs (allocProcPages T c) s x s') :
    ∃ lost free, s.free = lost :: x.2 :: free ∧ s'.free = free ∧ s'.arena = s.arena ∧
      s'.kstack c x.1 = some x.2 := by
  obtain ⟨_, _, h1, hr⟩ := runs_bind.mp hr
  obtain ⟨rfl, rfl⟩ := runs_get.mp h1
  split at hr
  · exact absurd hr runs_throw
  · rename_i j kernel halloc
    obtain ⟨_, _, h2, hr⟩ := runs_bind.mp hr
    obtain rfl := runs_modify.mp h2
    obtain ⟨dir, s1, h3, hr⟩ := runs_bind.mp hr
    obtain ⟨_, _, h4, hr⟩ := runs_bind.mp hr
    obtain rfl := runs_modify.mp h4
    obtain ⟨o, s2, h5, hr⟩ := runs_bind.mp hr
    obtain ⟨stack, free, rfl, hfree, rfl⟩ | ⟨rfl, -, -⟩ := kalloc_cases h5
    · obtain ⟨_, _, h6, h7⟩ := runs_bind.mp hr
      obtain rfl := runs_modify.mp h6
      obtain ⟨rfl, rfl⟩ := runs_pure.mp h7
      obtain ⟨lost, free', rfl, hfree', rfl⟩ | ⟨-, hempty, rfl⟩ := pgdirInit_cases h3
      · refine ⟨lost, free, ?_, rfl, rfl, if_pos ⟨rfl, rfl⟩⟩
        rw [show s.free = lost :: free' from hfree']
        rw [show free' = stack :: free from hfree]
      · -- without a page for the table there is none for the stack
        exact absurd (hempty.symm.trans hfree) (List.cons_ne_nil _ _).symm
    · exact absurd hr runs_throw

/-- The child of a fork has a copy of the address space, and the page that `alloc_proc` took for its
table is neither free nor part of the copy. -/
theorem fork_child (hp : Pages s) (hr : Runs (fork T c i) s (some j) s') (hs : s'.short = false) :
    ∃ lost stack o pgdir, lost ∈ s.free ∧ lost ≠ stack ∧ Child lost stack c j o pgdir s' := by
  obtain ⟨⟨k, stack⟩, s1, h1, hr⟩ := runs_bind.mp hr
  obtain ⟨_, _, h2, hr⟩ := runs_bind.mp hr
  obtain ⟨rfl, rfl⟩ := runs_get.mp h2
  split at hr
  · exact absurd hr runs_throw
  rename_i parent hparent
  obtain ⟨copy, s2, h3, hr⟩ := runs_bind.mp hr
  obtain ⟨_, _, h4, hr⟩ := runs_bind.mp hr
  obtain rfl := runs_modify.mp h4
  cases copy with
  | none =>
    obtain ⟨_, _, -, hr⟩ := runs_bind.mp hr
    obtain ⟨_, _, -, hr⟩ := runs_bind.mp hr
    obtain ⟨he, -⟩ := runs_pure.mp hr
    cases he
  | some pgdir =>
    obtain ⟨_, _, h5, hr⟩ := runs_bind.mp hr
    obtain rfl := runs_modify.mp h5
    obtain ⟨he, rfl⟩ := runs_pure.mp hr
    cases he
    have hs1 := not_short (stays_recurUvmCopy loose_short 3 parent) h3 hs
    obtain ⟨lost, free, hfree, hfree1, harena1, hstack1⟩ := allocProcPages_takes h1
    have hmid : Pages { s with free := stack :: free } ∧ lost < physPages ∧
        lost ∉ stack :: free ∧ lost ∉ s.arena := hp.tail hfree rfl rfl
    obtain ⟨hpages1, -, hstackfree, hstackarena⟩ :
        Pages s1 ∧ stack < physPages ∧ stack ∉ s1.free ∧ stack ∉ s1.arena :=
      hmid.1.tail rfl hfree1 harena1
    have hlost := hmid.2.2.1
    rw [List.mem_cons, not_or] at hlost
    obtain ⟨p, o, hp', g, -, hroot, -⟩ :=
      copies_recur 3 (by omega) parent _ s1 _ s2 hpages1 (space_empty s1) h3 hs
    cases hp'
    have hprocs := stays_recurUvmCopy (loose_sameProcs s1) 3 parent s1 _ s2 h3 ⟨rfl, rfl, rfl⟩
    refine ⟨lost, stack, o, pgdir, by simp [hfree], hlost.1, ⟨⟨(g.pages hpages1).congr rfl rfl,
      g.space.congr rfl rfl rfl, fun q hq => ?_, ?_⟩, hroot, setPgdir_self _ _ _ _⟩⟩
    · have hout : q ∉ s1.free ∧ q ∉ s1.arena := by
        obtain rfl | rfl := hq
        · rw [hfree1, harena1]
          exact ⟨hlost.2, hmid.2.2.2⟩
        · exact ⟨hstackfree, hstackarena⟩
      obtain ⟨ho, hf, -⟩ := g.works.outside (p := q) rfl hout.1
      exact ⟨ho, hf, g.works.arena.symm ▸ hout.2⟩
    · show s2.kstack c j = some stack
      rw [hprocs.2.2]
      exact hstack1

theorem alive_exit (ops : List ArenaOp) :
    Stays (Alive lost stack c j) (exit c j ops) := by
  refine (alive_fileSystem ops).bind fun _ => .modify fun s hs => hs.imp id ?_
  rintro ⟨o, pgdir, h⟩
  exact ⟨o, pgdir, ⟨h.congr rfl rfl rfl rfl, h.root, h.pgdir_eq⟩⟩

/-- `wait` frees the address space of the child and its kernel stack. -/
theorem wait_frees (h : Alive lost stack c j s) (hne : lost ≠ stack)
    (hr : Runs (wait c i) s (some j) s') (hs : s'.short = false) : lost ∉ s'.free := by
  obtain ⟨_, _, h1, hr⟩ := runs_bind.mp hr
  obtain ⟨rfl, rfl⟩ := runs_get.mp h1
  obtain ⟨_, _, h2, hr⟩ := runs_bind.mp hr
  obtain rfl := runs_modify.mp h2
  split at hr
  · split at hr
    · rename_i k _ pgdir stack' hpgdir hkstack
      obtain ⟨_, s1, h3, hr⟩ := runs_bind.mp hr
      obtain ⟨_, _, h4, hr⟩ := runs_bind.mp hr
      obtain rfl := runs_modify.mp h4
      obtain ⟨he, rfl⟩ := runs_pure.mp hr
      cases he
      have hs0 := not_short (stays_vmFree loose_short pgdir) h3 hs
      obtain ⟨o, pgdir', hchild⟩ := h.resolve_left (by
        rw [show s.short = false from hs0]
        decide)
      obtain rfl : pgdir = pgdir' := by
        rw [hchild.pgdir_eq] at hpgdir
        exact (Option.some.inj hpgdir).symm
      obtain rfl : stack = stack' := by
        rw [hchild.kstack] at hkstack
        exact Option.some.inj hkstack
      have hspace : Space o (s.setKernel (s.kernel.onCont c (·.wait i))) :=
        hchild.space.congr rfl rfl rfl
      obtain ⟨pages, word, rfl, -, hrole, -⟩ := vmFree_releases hspace hchild.root h3
      obtain ⟨ho, hf, -⟩ := hchild.aside lost (.inl rfl)
      intro hmem
      obtain hmem | hmem := List.mem_cons.mp hmem
      · exact hne hmem
      obtain hmem | hmem := List.mem_append.mp hmem
      · exact hrole lost hmem ho
      · exact hf hmem
    · exact absurd hr runs_throw
  · obtain ⟨he, -⟩ := runs_pure.mp hr
    cases he

/-- A page is free before the fork and not after the wait. -/
theorem cycle_loses {calls : List ExecCall} {ops : List ArenaOp} (hp : Pages s)
    (hc : Cycle T c i calls ops s s') (hs : s'.short = false) : ∃ p ∈ s.free, p ∉ s'.free := by
  obtain ⟨j, s1, s2, s3, h1, h2, h3, h4⟩ := hc
  have hs3 := not_short (stays_wait c i) h4 hs
  have hs2 := not_short (stays_exit c j ops) h3 hs3
  have hs1 :=
    not_short (Stays.forM (fun e => (stays_execve c j e).bind fun _ => .pure _) calls) h2 hs2
  obtain ⟨lost, stack, o, pgdir, hmem, hne, hchild⟩ := fork_child hp h1 hs1
  have ha1 : Alive lost stack c j s1 := .inr ⟨o, pgdir, hchild⟩
  have ha2 := Stays.forM (fun e => (alive_execve e).bind fun _ => .pure _) calls s1 _ s2 h2 ha1
  have ha3 := alive_exit ops s2 _ s3 h3 ha2
  exact ⟨lost, hmem, wait_frees ha3 hne h4 hs⟩

/-- No cycle of a fork, calls of `execve`, an exit and a wait, for any address space, any table of
processes and any programs, leaves the same pages free. -/
theorem cycle_leaks {calls : List ExecCall} {ops : List ArenaOp} (hp : Pages s)
    (hc : Cycle T c i calls ops s s') (hs : s'.short = false) :
    {p | p ∈ s'.free} ≠ {p | p ∈ s.free} := by
  obtain ⟨p, hmem, hnot⟩ := cycle_loses hp hc hs
  intro he
  exact hnot (he.symm ▸ hmem : p ∈ {p | p ∈ s'.free})

end Cycle

/-! ### A process without memory of its own -/

section Empty

/-- A table without valid entries. -/
def EmptyTable (s : Sys) (t : Nat) : Prop := ∀ i, ¬pteValid (s.word t i)

theorem runs_entries_empty {f : Sys → Nat → Sys.M Unit} (h : EmptyTable s t) (is : List Nat) :
    Runs (is.forM fun i => do
      let s ← get
      when (pteValid (s.word t i)) (f s i)) s ⟨⟩ s := by
  induction is with
  | nil => exact runs_pure.mpr ⟨rfl, rfl⟩
  | cons i is ih =>
    refine runs_bind.mpr ⟨⟨⟩, s, ?_, ih⟩
    exact runs_bind.mpr ⟨s, s, runs_get.mpr ⟨rfl, rfl⟩, runs_when.mpr (.inr ⟨h i, rfl⟩)⟩

theorem runs_kalloc {free : List Nat} (hfree : s.free = p :: free) :
    Runs kalloc s (some p) { s with free } := by
  refine runs_bind.mpr ⟨s, s, runs_get.mpr ⟨rfl, rfl⟩, ?_⟩
  simp only [hfree]
  exact runs_bind.mpr ⟨⟨⟩, _, runs_set.mpr rfl, runs_pure.mpr ⟨rfl, rfl⟩⟩

theorem runs_pgdirInit {free : List Nat} (hfree : s.free = p :: free) :
    Runs pgdirInit s (some p) ({ s with free }.fill p fun _ => 0) :=
  runs_bind.mpr ⟨some p, _, runs_kalloc hfree, runs_bind.mpr ⟨⟨⟩, _, runs_modify.mpr rfl,
    runs_pure.mpr ⟨rfl, rfl⟩⟩⟩

/-- `alloc_proc` with two free pages. -/
theorem runs_allocProcPages {k : Kernel} {lost stack : Nat} {free : List Nat}
    (halloc : allocProc T s.kernel c = some (j, k)) (hfree : s.free = lost :: stack :: free) :
    Runs (allocProcPages T c) s (j, stack)
      ({ (({ s.setKernel k with free := stack :: free } : Sys).fill lost fun _ => 0).setPgdir c j (some lost)
        with free }.setKstack c j (some stack)) := by
  refine runs_bind.mpr ⟨s, s, runs_get.mpr ⟨rfl, rfl⟩, ?_⟩
  rw [halloc]
  exact runs_bind.mpr ⟨⟨⟩, _, runs_modify.mpr rfl, runs_bind.mpr ⟨some lost, _, runs_pgdirInit hfree,
    runs_bind.mpr ⟨⟨⟩, _, runs_modify.mpr rfl, runs_bind.mpr ⟨some stack, _, runs_kalloc rfl,
      runs_bind.mpr ⟨⟨⟩, _, runs_modify.mpr rfl, runs_pure.mpr ⟨rfl, rfl⟩⟩⟩⟩⟩⟩

/-- The copy of an empty table is an empty table. -/
theorem runs_copyTable_empty {copy : Nat → Sys.M (Option Nat)} {free : List Nat}
    (hfree : s.free = p :: free) (h : EmptyTable s t) :
    Runs (copyTable copy t) s (some p) ({ s with free }.fill p fun _ => 0) := by
  refine runs_bind.mpr ⟨some p, _, runs_pgdirInit hfree, runs_bind.mpr ⟨⟨⟩, _,
    runs_entries_empty ?_ _, runs_pure.mpr ⟨rfl, rfl⟩⟩⟩
  intro i
  by_cases htp : t = p
  · subst htp
    simp [Sys.fill, pteValid]
  · simpa [Sys.fill, htp] using h i

theorem runs_freeTable_empty {x : Nat → Sys.M Unit} (h : EmptyTable s t) :
    Runs (freeTable x t) s () { s.store t 0 (nextFree s.free) with free := t :: s.free } :=
  runs_bind.mpr ⟨⟨⟩, s, runs_entries_empty h _, runs_modify.mpr rfl⟩

/-- A process without memory, and four free pages. -/
def poorProcess : Sys where
  kernel := alone 1 fun _ => ⟨false, 0, none⟩
  pgdir _ _ := some 0
  kstack _ _ := none
  free := [1, 2, 3, 4]
  word _ _ := 0
  arena := []
  short := false

theorem poorProcess_pages : Pages poorProcess := by
  refine ⟨by decide, List.nodup_nil, by simp [poorProcess], ?_⟩
  intro p hp
  simp only [poorProcess, List.mem_cons, List.not_mem_nil, or_false] at hp
  unfold physPages
  omega

/-- `fork` of the process: the child is in the second slot, its table is the third free page, and
the first one is in no list. -/
theorem poorProcess_fork {k1 : Kernel}
    (halloc : allocProc flatTree poorProcess.kernel 0 = some (1, k1)) :
    ∃ s1, Runs (fork flatTree 0 0) poorProcess (some 1) s1 ∧ s1.free = [4] ∧ s1.arena = [] ∧
      s1.short = false ∧ s1.pgdir 0 1 = some 3 ∧ s1.kstack 0 1 = some 2 ∧ EmptyTable s1 3 ∧
      s1.kernel = k1.setProc 0 1 { (k1 0).ptable 1 with parent := some 0, state := .runnable } := by
  let a1 : Sys := { poorProcess.setKernel k1 with free := [2, 3, 4] }.fill 1 fun _ => 0
  let a2 : Sys := { a1.setPgdir 0 1 (some 1) with free := [3, 4] }.setKstack 0 1 (some 2)
  let a3 : Sys := { a2 with free := [4] }.fill 3 fun _ => 0
  have hpages : Runs (allocProcPages flatTree 0) poorProcess (1, 2) a2 := runs_allocProcPages halloc rfl
  have hempty : EmptyTable a2 0 := by
    intro i
    simp [a2, a1, poorProcess, Sys.fill, Sys.setKernel, Sys.setPgdir, Sys.setKstack, pteValid]
  have hcopy : Runs (uvmCopy 0) a2 (some 3) a3 := runs_copyTable_empty rfl hempty
  refine ⟨_, runs_bind.mpr ⟨(1, 2), a2, hpages, runs_bind.mpr ⟨a2, a2, runs_get.mpr ⟨rfl, rfl⟩,
    runs_bind.mpr ⟨some 3, a3, hcopy, runs_bind.mpr ⟨⟨⟩, _, runs_modify.mpr rfl,
      runs_bind.mpr ⟨⟨⟩, _, runs_modify.mpr rfl, runs_pure.mpr ⟨rfl, rfl⟩⟩⟩⟩⟩⟩, rfl, rfl, rfl, rfl,
    rfl, ?_, rfl⟩
  intro i
  simp [a3, Sys.fill, Sys.setPgdir, Sys.setKernel, pteValid]

/-- The child exits at once, and the process waits for it. -/
theorem poorProcess_cycle : ∃ s', Cycle flatTree 0 0 [] [] poorProcess s' ∧ s'.short = false ∧
    s'.free = [2, 3, 4] := by
  have hfree : (poorProcess.kernel 0).freeSlot = some 1 := rfl
  obtain ⟨k1, halloc, hscan⟩ : ∃ k1, allocProc flatTree poorProcess.kernel 0 = some (1, k1) ∧
      (((k1.setProc 0 1 { (k1 0).ptable 1 with parent := some 0, state := .runnable }).onCont 0
        (·.exit 1)) 0).scan 0 = .zombie 1 :=
    ⟨_, allocProc_rooted hfree rfl (by decide), by decide +kernel⟩
  obtain ⟨s1, hfork, hf, -, hshort, hpgdir, hkstack, hempty, hk⟩ := poorProcess_fork halloc
  let s3 : Sys := s1.setKernel (s1.kernel.onCont 0 (·.exit 1))
  let s4 : Sys := s3.setKernel (s3.kernel.onCont 0 (·.wait 0))
  let s5 : Sys := { s4.store 3 0 (nextFree s4.free) with free := 3 :: s4.free }
  let s6 : Sys := { s5.store 2 0 (nextFree s5.free) with free := 2 :: s5.free }
  have hexit : Runs (exit 0 1 []) s1 () s3 :=
    runs_bind.mpr ⟨⟨⟩, s1, runs_pure.mpr ⟨rfl, rfl⟩, runs_modify.mpr rfl⟩
  have hwait : Runs (wait 0 0) s3 (some 1) s6 := by
    refine runs_bind.mpr ⟨s3, s3, runs_get.mpr ⟨rfl, rfl⟩, runs_bind.mpr ⟨⟨⟩, s4,
      runs_modify.mpr rfl, ?_⟩⟩
    rw [show (s3.kernel 0).scan 0 = .zombie 1 by rw [← hscan, ← hk]; rfl]
    have hpgdir' : s3.pgdir 0 1 = s1.pgdir 0 1 := rfl
    have hkstack' : s3.kstack 0 1 = s1.kstack 0 1 := rfl
    simp only [hpgdir', hkstack', hpgdir, hkstack]
    exact runs_bind.mpr ⟨⟨⟩, s5, runs_freeTable_empty hempty, runs_bind.mpr ⟨⟨⟩, s6,
      runs_modify.mpr rfl, runs_pure.mpr ⟨rfl, rfl⟩⟩⟩
  refine ⟨s6, ⟨1, s1, s1, s3, hfork, runs_pure.mpr ⟨rfl, rfl⟩, hexit, hwait⟩, hshort, ?_⟩
  show 2 :: 3 :: s1.free = _
  rw [hf]

/-- The first free page is not free after the cycle. -/
theorem cycle_leaks_first : ∃ s', Cycle flatTree 0 0 [] [] poorProcess s' ∧
    {p | p ∈ s'.free} ≠ {p | p ∈ poorProcess.free} := by
  obtain ⟨s', hc, hs, -⟩ := poorProcess_cycle
  exact ⟨s', hc, cycle_leaks poorProcess_pages hc hs⟩

/-- A fork, an exit and a wait with four free pages, of which three are free again. -/
theorem cycle_four_three : ∃ s s', Pages s ∧ Cycle flatTree 0 0 [] [] s s' ∧ s'.short = false ∧
    s.free = [1, 2, 3, 4] ∧ s'.free = [2, 3, 4] := by
  obtain ⟨s', hc, hs, hf⟩ := poorProcess_cycle
  exact ⟨poorProcess, s', poorProcess_pages, hc, hs, rfl, hf⟩

end Empty

end FtosFfs.Core
