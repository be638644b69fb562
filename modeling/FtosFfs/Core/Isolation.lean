import FtosFfs.Core.Owners

/-! The memory of all processes over whole runs: every page of a process belongs to it alone, and no call of
another process writes to it. -/

namespace FtosFfs.Core

open Lib Lib.Exec

variable {s s' s₁ : Sys} {r r' : Roles} {R R' R₁ : Nat → Roles} {q t u pgdir : Nat} {A : Nat → Prop} {T : Tree}
  {c d : Nat} {i j : Slot} {k : Kernel} {B : Sys → Prop}

/-! ### Processes -/

/-- The slot has a process. -/
def InUse (s : Sys) (c : Nat) (i : Slot) : Prop := (s.kernel.procs c i).state ≠ .unused

/-- Every process has a page table and a kernel stack of its own. -/
structure Owned (R : Nat → Roles) (s : Sys) : Prop extends Isolated R s where
  pgdir : ∀ c i, InUse s c i → ∃ t, s.pgdir c i = some t ∧ R t t = some 0
  kstack : ∀ c i, InUse s c i → ∃ k, s.kstack c i = some k ∧ R k = only k 4
  pgdirs : ∀ c i d j t, InUse s c i → InUse s d j → s.pgdir c i = some t → s.pgdir d j = some t → d = c ∧ j = i
  kstacks : ∀ c i d j t, InUse s c i → InUse s d j → s.kstack c i = some t → s.kstack d j = some t → d = c ∧
    j = i

theorem Owned.pgdir_role (h : Owned R s) (hi : InUse s c i) (ht : s.pgdir c i = some t) : R t t = some 0 := by
  obtain ⟨u, hu, hrole⟩ := h.pgdir c i hi
  obtain rfl : t = u := Option.some.inj (ht.symm.trans hu)
  exact hrole

theorem Owned.kstack_role (h : Owned R s) (hi : InUse s c i) (ht : s.kstack c i = some t) : R t = only t 4 := by
  obtain ⟨u, hu, hrole⟩ := h.kstack c i hi
  obtain rfl : t = u := Option.some.inj (ht.symm.trans hu)
  exact hrole

/-- A page of a process is not free. -/
theorem Owned.not_free (h : Owned R s) (hi : InUse s c i) (ht : s.pgdir c i = some t ∨ s.kstack c i = some t) :
    t ∉ s.free := by
  intro hf
  have hnone := (h.space t).apart t (.inl hf)
  rcases ht with ht | ht
  · rw [h.pgdir_role hi ht] at hnone
    cases hnone
  · rw [h.kstack_role hi ht, only_self] at hnone
    cases hnone

/-- A page table is not a kernel stack. -/
theorem Owned.pgdir_ne_kstack (h : Owned R s) (hi : InUse s c i) (hj : InUse s d j)
    (ht : s.pgdir c i = some t) :
    s.kstack d j ≠ some t := by
  intro hk
  have hrole := h.pgdir_role hi ht
  rw [h.kstack_role hj hk, only_self] at hrole
  cases hrole

/-- The slot has a process that has not exited. -/
def Lives (s : Sys) (c : Nat) (i : Slot) : Prop :=
  (s.kernel.procs c i).state ≠ .unused ∧ (s.kernel.procs c i).state ≠ .zombie

/-- After a call every page has one owner, and the processes that live, but for those in `By`, have the memory
that they had. -/
structure Outcome (By : Nat → Slot → Prop) (R : Nat → Roles) (s : Sys) (R' : Nat → Roles) (s' : Sys) :
    Prop where
  owned : Owned R' s'
  spared : ∀ d j, Lives s d j → ¬By d j → Lives s' d j ∧ s'.pgdir d j = s.pgdir d j ∧
    ∀ t, s.pgdir d j = some t → R' t = R t ∧ ∀ p, R t p ≠ none → s'.word p = s.word p

theorem Outcome.trans {By By' : Nat → Slot → Prop} (h : Outcome By R s R₁ s₁) (h' : Outcome By' R₁ s₁ R' s') :
    Outcome (fun d j => By d j ∨ By' d j) R s R' s' := by
  refine ⟨h'.owned, fun d j hl hby => ?_⟩
  rw [not_or] at hby
  obtain ⟨hl₁, hp₁, hkeep₁⟩ := h.spared d j hl hby.1
  obtain ⟨hl₂, hp₂, hkeep₂⟩ := h'.spared d j hl₁ hby.2
  refine ⟨hl₂, hp₂.trans hp₁, fun t ht => ?_⟩
  obtain ⟨hr₁, hw₁⟩ := hkeep₁ t ht
  obtain ⟨hr₂, hw₂⟩ := hkeep₂ t (hp₁.trans ht)
  refine ⟨hr₂.trans hr₁, fun p hp => ?_⟩
  rw [hw₂ p (by rwa [hr₁]), hw₁ p hp]

/-- Fewer processes are said to have the memory that they had. -/
theorem Outcome.mono {By By' : Nat → Slot → Prop} (h : Outcome By R s R' s')
    (hby : ∀ d j, Lives s d j → By d j → By' d j) : Outcome By' R s R' s' :=
  ⟨h.owned, fun d j hl hnot => h.spared d j hl fun hb => hnot (hby d j hl hb)⟩

/-- The process of slot `j` has changed, and the other processes are as they were. -/
theorem Owned.of_acts (h : Owned R s) (ha : Acts A R s R' s')
    (hrest : ∀ d i, ¬(d = c ∧ i = j) → InUse s' d i →
      InUse s d i ∧ s'.pgdir d i = s.pgdir d i ∧ s'.kstack d i = s.kstack d i)
    (hA : ∀ d i, ¬(d = c ∧ i = j) → InUse s d i → ∀ t, s.pgdir d i = some t ∨ s.kstack d i = some t → ¬A t)
    (hself : InUse s' c j → ∃ t k, s'.pgdir c j = some t ∧ R' t t = some 0 ∧ s'.kstack c j = some k ∧
      R' k = only k 4 ∧ ∀ d i, ¬(d = c ∧ i = j) → InUse s d i → s.pgdir d i ≠ some t ∧ s.kstack d i ≠ some k) :
    Owned R' s' := by
  have hother {d : Nat} {i : Slot} (hne : ¬(d = c ∧ i = j)) (hi : InUse s' d i) : (∃ t, s'.pgdir d i = some t ∧
      s.pgdir d i = some t ∧ R' t t = some 0) ∧ ∃ k, s'.kstack d i = some k ∧ s.kstack d i = some k ∧
      R' k = only k 4 := by
    obtain ⟨hold, hpgdir, hkstack⟩ := hrest d i hne hi
    obtain ⟨t, ht, hrole⟩ := h.pgdir d i hold
    obtain ⟨k, hk, hstack⟩ := h.kstack d i hold
    obtain ⟨hkeep, -⟩ := ha.keeps t (hA d i hne hold t (.inl ht))
    obtain ⟨hkeep', -⟩ := ha.keeps k (hA d i hne hold k (.inr hk))
    exact ⟨⟨t, hpgdir.trans ht, ht, hkeep ▸ hrole⟩, k, hkstack.trans hk, hk, hkeep' ▸ hstack⟩
  have hdiffer {d : Nat} {i : Slot} {t k : Nat} (hne : ¬(d = c ∧ i = j)) (hj : InUse s' c j)
    (hi : InUse s' d i) :
      (s'.pgdir c j = some t → s'.pgdir d i ≠ some t) ∧ (s'.kstack c j = some k → s'.kstack d i ≠ some k) := by
    obtain ⟨t', k', ht', -, hk', -, hapart⟩ := hself hj
    obtain ⟨hold, hpgdir, hkstack⟩ := hrest d i hne hi
    rw [ht', hk', hpgdir, hkstack]
    exact ⟨fun heq => heq ▸ (hapart d i hne hold).1, fun heq => heq ▸ (hapart d i hne hold).2⟩
  refine { ha.isolated with
    pgdir := fun d i hi => ?_, kstack := fun d i hi => ?_, pgdirs := fun d i d' i' t hi hi' ht ht' => ?_
    kstacks := fun d i d' i' t hi hi' ht ht' => ?_ }
  · by_cases hself' : d = c ∧ i = j
    · obtain ⟨rfl, rfl⟩ := hself'
      obtain ⟨t, -, ht, hrole, -⟩ := hself hi
      exact ⟨t, ht, hrole⟩
    · obtain ⟨⟨t, ht, -, hrole⟩, -⟩ := hother hself' hi
      exact ⟨t, ht, hrole⟩
  · by_cases hself' : d = c ∧ i = j
    · obtain ⟨rfl, rfl⟩ := hself'
      obtain ⟨-, k, -, -, hk, hrole, -⟩ := hself hi
      exact ⟨k, hk, hrole⟩
    · obtain ⟨-, k, hk, -, hrole⟩ := hother hself' hi
      exact ⟨k, hk, hrole⟩
  · by_cases h₁ : d = c ∧ i = j
    · by_cases h₂ : d' = c ∧ i' = j
      · exact ⟨h₂.1.trans h₁.1.symm, h₂.2.trans h₁.2.symm⟩
      · obtain ⟨rfl, rfl⟩ := h₁
        exact absurd ht' ((hdiffer (k := 0) h₂ hi hi').1 ht)
    · by_cases h₂ : d' = c ∧ i' = j
      · obtain ⟨rfl, rfl⟩ := h₂
        exact absurd ht ((hdiffer (k := 0) h₁ hi' hi).1 ht')
      · obtain ⟨hold, hpgdir, -⟩ := hrest d i h₁ hi
        obtain ⟨hold', hpgdir', -⟩ := hrest d' i' h₂ hi'
        exact h.pgdirs d i d' i' t hold hold' (hpgdir ▸ ht) (hpgdir' ▸ ht')
  · by_cases h₁ : d = c ∧ i = j
    · by_cases h₂ : d' = c ∧ i' = j
      · exact ⟨h₂.1.trans h₁.1.symm, h₂.2.trans h₁.2.symm⟩
      · obtain ⟨rfl, rfl⟩ := h₁
        exact absurd ht' ((hdiffer (t := 0) h₂ hi hi').2 ht)
    · by_cases h₂ : d' = c ∧ i' = j
      · obtain ⟨rfl, rfl⟩ := h₂
        exact absurd ht ((hdiffer (t := 0) h₁ hi' hi).2 ht')
      · obtain ⟨hold, -, hkstack⟩ := hrest d i h₁ hi
        obtain ⟨hold', -, hkstack'⟩ := hrest d' i' h₂ hi'
        exact h.kstacks d i d' i' t hold hold' (hkstack ▸ ht) (hkstack' ▸ ht')

/-- What a process has, no other process has. -/
theorem Owned.alone {k : Nat} (h : Owned R s) (hj : InUse s c j) (ht : s.pgdir c j = some t)
    (hk : s.kstack c j = some k) (d : Nat) (i : Slot) (hne : ¬(d = c ∧ i = j)) (hi : InUse s d i) :
    s.pgdir d i ≠ some t ∧ s.kstack d i ≠ some k :=
  ⟨fun ht' => hne (h.pgdirs c j d i t hj hi ht ht'), fun hk' => hne (h.kstacks c j d i k hj hi hk hk')⟩

/-- The process of slot `j` has changed, within the owners in `A`. -/
theorem Owned.outcome (h : Owned R s) (ha : Acts A R s R' s')
    (hrest : ∀ d i, ¬(d = c ∧ i = j) → (InUse s' d i → InUse s d i) ∧ (Lives s d i → Lives s' d i) ∧
      s'.pgdir d i = s.pgdir d i ∧ s'.kstack d i = s.kstack d i)
    (hA : ∀ d i, ¬(d = c ∧ i = j) → InUse s d i → ∀ t, s.pgdir d i = some t ∨ s.kstack d i = some t → ¬A t)
    (hself : InUse s' c j → ∃ t k, s'.pgdir c j = some t ∧ R' t t = some 0 ∧ s'.kstack c j = some k ∧
      R' k = only k 4 ∧ ∀ d i, ¬(d = c ∧ i = j) → InUse s d i → s.pgdir d i ≠ some t ∧ s.kstack d i ≠ some k) :
    Outcome (fun d i => d = c ∧ i = j) R s R' s' := by
  refine ⟨h.of_acts ha (fun d i hne hi => ?_) hA hself, fun d i hl hne => ?_⟩
  · obtain ⟨huse, -, hpgdir, hkstack⟩ := hrest d i hne
    exact ⟨huse hi, hpgdir, hkstack⟩
  · obtain ⟨-, hlives, hpgdir, -⟩ := hrest d i hne
    exact ⟨hlives hl, hpgdir, fun t ht => ha.keeps t (hA d i hne hl.1 t (.inl ht))⟩

/-- No owner has acted, and no process has come or gone. -/
theorem Owned.still (h : Owned R s) (ha : Acts (fun _ => False) R s R' s')
    (huse : ∀ d i, (InUse s' d i → InUse s d i) ∧ (Lives s d i → Lives s' d i))
    (hpgdir : s'.pgdir = s.pgdir) (hkstack : s'.kstack = s.kstack) :
    Outcome (fun _ _ => False) R s R' s' := by
  have hslot (d : Nat) (i : Slot) : Outcome (fun d' i' => d' = d ∧ i' = i) R s R' s' := by
    refine h.outcome ha (fun d' i' _ => ⟨(huse d' i').1, (huse d' i').2, by rw [hpgdir], by rw [hkstack]⟩)
      (fun _ _ _ _ _ _ => id) fun hi => ?_
    have hold := (huse d i).1 hi
    obtain ⟨t, ht, hrole⟩ := h.pgdir d i hold
    obtain ⟨k, hk, hstack⟩ := h.kstack d i hold
    rw [hpgdir, hkstack]
    refine ⟨t, k, ht, ?_, hk, ?_, h.alone hold ht hk⟩
    · rw [(ha.keeps t id).1, hrole]
    · rw [(ha.keeps k id).1, hstack]
  refine ⟨(hslot 0 0).owned, fun d i hl _ => ?_⟩
  exact ⟨(huse d i).2 hl, by rw [hpgdir], fun t _ => ha.keeps t id⟩

/-- The process of slot `j` acts within its address space. -/
theorem Owned.own (h : Owned R s) (hj : InUse s c j) (ht : s.pgdir c j = some t) (hc : Confined (R t) s r' s')
    (hroot : r' t = some 0) (hprocs : ∀ d i, ¬(d = c ∧ i = j) → s'.kernel.procs d i = s.kernel.procs d i)
    (hpgdir : s'.pgdir = s.pgdir) (hkstack : s'.kstack = s.kstack) :
    Outcome (fun d i => d = c ∧ i = j) R s (Function.update R t r') s' := by
  obtain ⟨k, hk, hstack⟩ := h.kstack c j hj
  refine h.outcome (h.acts hc fun _ _ => by rw [hroot]; simp)
    (fun d i hne => ?_) (fun d i hne hi u hu heq => ?_)
    fun _ => ⟨t, k, by rw [hpgdir, ht], ?_, by rw [hkstack, hk], ?_, h.alone hj ht hk⟩
  · unfold InUse Lives
    rw [hprocs d i hne, hpgdir, hkstack]
    exact ⟨id, id, rfl, rfl⟩
  · subst heq
    rcases hu with hu | hu
    · exact hne (h.pgdirs c j d i _ hj hi ht hu)
    · exact h.pgdir_ne_kstack hj hi ht hu
  · rw [Function.update_self, hroot]
  · rw [Function.update_of_ne, hstack]
    rintro rfl
    exact h.pgdir_ne_kstack hj hj ht hk

/-! ### The calls -/

/-- `spawn_init_process` and `idle_init`: a process whose first page holds `code`. -/
def spawn (T : Tree) (c : Nat) (code : Nat → Nat) : Sys.M Unit := do
  let (j, _) ← allocProcPages T c
  match ← kalloc with
  | none => throw .panic
  | some page => do
    modify fun s => s.fill page fun _ => 0
    let s ← get
    match s.pgdir c j with
    | none => throw .null
    | some pgdir => do
      uvmMap pgdir 0 pageSize page
      modify fun s => s.fill page code
      modify fun s => s.setKernel (s.kernel.setProc c j { (s.kernel c).ptable j with state := .runnable })

/-- `alloc_proc` makes a process with an empty page table. -/
theorem Owned.allocProcPages {stack : Nat} (h : Owned R s) (hr : Runs (allocProcPages T c) s (j, stack) s')
    (hs : s'.short = false) : ∃ lost R', Outcome (fun d i => d = c ∧ i = j) R s R' s' ∧
      (s.kernel.procs c j).state = .unused ∧ InUse s' c j ∧ s'.pgdir c j = some lost ∧ s'.kstack c j =
        some stack ∧
      lost ∈ s.free ∧ R' lost = only lost 0 ∧ R' stack = only stack 4 := by
  obtain ⟨lost, k, R', ha, hlost, hstack, hrole, hstackrole, halloc, rfl, hpgdir, hkstack⟩ :=
    allocProcPages_acts h.toIsolated hr hs
  obtain ⟨hfree, n, hprocs⟩ := allocProc_procs halloc
  have hself : s'.pgdir c j = some lost ∧ s'.kstack c j = some stack := by
    rw [hpgdir, hkstack]
    exact ⟨if_pos ⟨rfl, rfl⟩, if_pos ⟨rfl, rfl⟩⟩
  have hother (d : Nat) (i : Slot) (hne : ¬(d = c ∧ i = j)) : s'.kernel.procs d i = s.kernel.procs d i := by
    rw [hprocs, upd_other hne]
  have hin : InUse s' c j := by
    unfold InUse
    rw [hprocs, upd, if_pos ⟨rfl, rfl⟩]
    simp
  refine ⟨lost, R', ?_, unused_of_freeSlot hfree, hin, hself.1, hself.2, hlost, hrole, hstackrole⟩
  refine h.outcome ha (fun d i hne => ⟨fun hi => ?_, fun hl => ?_, ?_, ?_⟩) (fun d i _ hi u hu heq => ?_)
    fun _ => ⟨lost, stack, hself.1, by rw [hrole, only_self], hself.2, hstackrole, fun d i _ hi => ⟨?_, ?_⟩⟩
  · unfold InUse at *
    rwa [hother d i hne] at hi
  · unfold Lives at *
    rwa [hother d i hne]
  · rw [hpgdir]
    exact if_neg hne
  · rw [hkstack]
    exact if_neg hne
  · rcases heq with rfl | rfl
    · exact h.not_free hi hu hlost
    · exact h.not_free hi hu hstack
  · intro heq
    exact h.not_free hi (.inl heq) hlost
  · intro heq
    exact h.not_free hi (.inr heq) hstack

/-- `uvm_map` of a page that was free. -/
theorem mapPage_grows {va : Nat} {free : List Nat} {f : Nat → Nat} {v : Unit} (hp : Pages s) (h : Space r s)
    (hroot : r pgdir = some 0) (hfree : s.free = q :: free) (hva : va % pageSize = 0)
    (hr : Runs (uvmMap pgdir va pageSize q) ({ s with free }.fill q f) v s') (hs : s'.short = false) :
    ∃ r', Grown r s r' s' ∧ r' q = some 4 := by
  obtain ⟨hspace, hworks, hnone, hunled⟩ := h.take (l := 4) (f := f) hp hfree (by omega)
  unfold uvmMap at hr
  rw [show roundDown va pageSize = va by simp [roundDown, hva], pagesFrom_page] at hr
  obtain ⟨_, s₁, h1, h2⟩ := runs_bind.mp (show Runs (_ >>= fun _ => pure ⟨⟩) _ v s' from hr)
  obtain ⟨-, rfl⟩ := runs_pure.mp h2
  obtain ⟨⟨t, i⟩, s₂, h3, h4⟩ := runs_bind.mp h1
  obtain rfl := runs_modify.mp h4
  obtain ⟨r', g, ht⟩ := pgdirWalk_grows (hworks.pages hp) hspace (hworks.grows pgdir 0 hroot) h3 hs
  have hq := g.works.grows q 4 (Function.update_self ..)
  have hunled' : Unled r' s₂ q := by
    intro a b hab
    obtain ⟨t₀, i₀, h₀⟩ := g.works.refs a b q hab (by rw [Function.update_self]; simp)
    exact hunled t₀ i₀ h₀
  simp only [show q + (va - va) / pageSize = q by simp]
  obtain ⟨hlinked, hlead⟩ := g.space.link i pteUserData ht hq hunled' (by decide)
  exact ⟨r', ⟨hlinked, (hworks.trans g.works).link ht hnone hlead⟩, hq⟩

theorem Owned.spawn {code : Nat → Nat} {v : Unit} (h : Owned R s) (hr : Runs (spawn T c code) s v s')
    (hs : s'.short = false) : ∃ R', Outcome (fun _ _ => False) R s R' s' := by
  obtain ⟨⟨j, stack⟩, s₁, h1, hr⟩ := runs_bind.mp hr
  obtain ⟨o, s₂, h2, hr⟩ := runs_bind.mp hr
  cases o with
  | none => exact absurd hr runs_throw
  | some page =>
    obtain ⟨_, _, h3, hr⟩ := runs_bind.mp hr
    obtain rfl := runs_modify.mp h3
    obtain ⟨_, _, h4, hr⟩ := runs_bind.mp hr
    obtain ⟨rfl, rfl⟩ := runs_get.mp h4
    split at hr
    case h_1 => exact absurd hr runs_throw
    case h_2 pgdir hpgdir =>
      obtain ⟨_, s₃, h5, hr⟩ := runs_bind.mp hr
      obtain ⟨_, _, h6, hr⟩ := runs_bind.mp hr
      obtain rfl := runs_modify.mp h6
      obtain rfl := runs_modify.mp hr
      have hs₂ := not_short (stays_uvmMap loose_short 0 pageSize page) h5 hs
      have hs₁ := not_short (stays_kalloc loose_short) h2 hs₂
      obtain ⟨lost, R₁, hout, hunused, hin, hlost, -, -, hrole, -⟩ := h.allocProcPages h1 hs₁
      obtain ⟨page', free, heq, hfree, rfl⟩ := kalloc_takes h2 hs₂
      obtain rfl := Option.some.inj heq
      obtain rfl : pgdir = lost := Option.some.inj (hpgdir.symm.trans hlost)
      have hroot : R₁ pgdir pgdir = some 0 := by rw [hrole, only_self]
      obtain ⟨r', g, hpage⟩ := mapPage_grows hout.owned.pages (hout.owned.space pgdir) hroot hfree
        (by decide) h5 hs
      have hprocs := stays_uvmMap (loose_sameProcs s₁) 0 pageSize page _ _ s₃ h5 ⟨rfl, rfl, rfl⟩
      have hc : Confined (R₁ pgdir) s₁ r' (s₃.fill page code) := (g.fill hpage code).confined hout.owned.pages
      have hc' : Confined (R₁ pgdir) s₁ r' ((s₃.fill page code).setKernel (s₃.kernel.setProc c j
        { (s₃.kernel c).ptable j with state := .runnable })) := hc.congr rfl rfl rfl
      have hown := hout.owned.own hin hlost hc'
        (g.works.grows pgdir 0 hroot) (fun d i hne => ?_) hprocs.2.1 hprocs.2.2
      · refine ⟨_, (hout.trans hown).mono fun d i hl hby => ?_⟩
        -- the slot had no process
        obtain ⟨rfl, rfl⟩ := hby.elim id id
        exact hl.1 hunused
      · show (Kernel.setProc _ c j _).procs d i = _
        rw [procs_setProc, upd_other hne, hprocs.1]

/-- The child gets an address space of its own, and the page of its first table has no owner that lives. -/
theorem Owned.fork {o : Option Slot} (h : Owned R s) (hr : Runs (fork T c i) s o s') (hs : s'.short = false) :
    ∃ R', Outcome (fun _ _ => False) R s R' s' := by
  obtain ⟨⟨j, stack⟩, s₁, h1, hr⟩ := runs_bind.mp hr
  obtain ⟨_, _, h2, hr⟩ := runs_bind.mp hr
  obtain ⟨rfl, rfl⟩ := runs_get.mp h2
  split at hr
  case h_1 => exact absurd hr runs_throw
  case h_2 parent hparent =>
    obtain ⟨copy, s₂, h3, hr⟩ := runs_bind.mp hr
    obtain ⟨_, _, h4, hr⟩ := runs_bind.mp hr
    obtain rfl := runs_modify.mp h4
    have hshort : s₂.short = false := by
      cases copy with
      | none =>
        obtain ⟨_, s₃, h5, hr⟩ := runs_bind.mp hr
        obtain ⟨_, _, h6, h7⟩ := runs_bind.mp hr
        obtain rfl := runs_modify.mp h6
        obtain ⟨-, rfl⟩ := runs_pure.mp h7
        have hback : (s₂.setPgdir c j none).short = false := not_short (stays_kfree loose_short stack) h5 hs
        exact hback
      | some copy =>
        obtain ⟨_, _, h5, h6⟩ := runs_bind.mp hr
        obtain rfl := runs_modify.mp h5
        obtain ⟨-, rfl⟩ := runs_pure.mp h6
        exact hs
    have hs₁ := not_short (stays_recurUvmCopy loose_short 3 parent) h3 hshort
    obtain ⟨lost, R₁, hout, hunused, hin, hlost, hstack, -, -, hstackrole⟩ := h.allocProcPages h1 hs₁
    obtain ⟨new, R₂, rfl, ha, hnew, hroot⟩ := uvmCopy_acts hout.owned.toIsolated h3 hshort
    obtain ⟨_, _, h5, h6⟩ := runs_bind.mp hr
    obtain rfl := runs_modify.mp h5
    obtain ⟨-, rfl⟩ := runs_pure.mp h6
    have hprocs := stays_recurUvmCopy (loose_sameProcs s₁) 3 parent s₁ _ s₂ h3 ⟨rfl, rfl, rfl⟩
    have hne : stack ≠ new := by
      rintro rfl
      exact hout.owned.not_free hin (.inr hstack) hnew
    have ha' : Acts _ R₁ s₁ R₂ ((s₂.setPgdir c j (some new)).setKernel
      (s₂.kernel.setProc c j { (s₂.kernel c).ptable j with parent := some i, state := .runnable })) :=
      ha.congr rfl rfl rfl
    have hchild := hout.owned.outcome (c := c) (j := j) ha' (fun d i' hne => ?_) (fun d i' _ hi u hu heq =>
      ?_) fun _ => ?_
    · refine ⟨_, (hout.trans hchild).mono fun d i' hl hby => ?_⟩
      obtain ⟨rfl, rfl⟩ := hby.elim id id
      exact hl.1 hunused
    · have hkernel : (s₂.kernel.setProc c j { (s₂.kernel c).ptable j with
          parent := some i, state := .runnable }).procs d i' = s₁.kernel.procs d i' := by
        rw [procs_setProc, upd_other hne, hprocs.1]
      refine ⟨fun hi => ?_, fun hl => ?_, ?_, congrFun (congrFun hprocs.2.2 d) i'⟩
      · exact fun heq => hi (hkernel ▸ heq)
      · exact ⟨fun heq => hl.1 (hkernel ▸ heq), fun heq => hl.2 (hkernel ▸ heq)⟩
      · show (if d = c ∧ i' = j then some new else s₂.pgdir d i') = _
        rw [if_neg hne, hprocs.2.1]
    · exact hout.owned.not_free hi hu (heq ▸ hnew)
    · refine ⟨new, stack, setPgdir_self .., hroot, (congrFun (congrFun hprocs.2.2 c) j).trans hstack, ?_,
        fun d i' hne' hi => ⟨fun hp => hout.owned.not_free hi (.inl hp) hnew, fun hk => ?_⟩⟩
      · rw [(ha.keeps stack hne).1, hstackrole]
      · exact hne' (hout.owned.kstacks c j d i' stack hin hi hstack hk)

theorem Owned.execve {b : Bool} {e : ExecCall} (h : Owned R s) (hj : InUse s c j)
    (hr : Runs (execve c j e) s b s')
    (hs : s'.short = false) : ∃ R', Outcome (fun d i => d = c ∧ i = j) R s R' s' := by
  obtain ⟨A, R', ha, hfree, hpgdir⟩ := execve_acts h.toIsolated hr hs
  have hB : Loose fun t => t.kernel = s.kernel ∧ t.kstack = s.kstack ∧
      ∀ d i, ¬(d = c ∧ i = j) → t.pgdir d i = s.pgdir d i := fun _ _ _ _ _ _ => id
  obtain ⟨hkernel, hkstack, hothers⟩ := stays_execve_procs hB (fun t p ht =>
    ⟨ht.1, ht.2.1, fun d i hne => (if_neg hne).trans (ht.2.2 d i hne)⟩) e s b s' hr ⟨rfl, rfl, fun _ _ _ => rfl⟩
  obtain ⟨k, hk, hstack⟩ := h.kstack c j hj
  have hA (d : Nat) (i : Slot) (hi : InUse s d i) (u : Nat) (hu : s.pgdir d i = some u ∨ s.kstack d i =
    some u) :
      ¬A u := fun hau => h.not_free hi hu (hfree u hau)
  refine ⟨R', h.outcome ha (fun d i hne => ?_) (fun d i _ => hA d i) fun _ => ?_⟩
  · unfold InUse Lives
    rw [hkernel, hkstack]
    exact ⟨id, id, hothers d i hne, rfl⟩
  · rcases hpgdir with heq | ⟨t, hat, hroot, ht⟩
    · obtain ⟨t, ht, hrole⟩ := h.pgdir c j hj
      refine ⟨t, k, heq.trans ht, ?_, by rw [hkstack, hk], ?_, h.alone hj ht hk⟩
      · rw [(ha.keeps t (hA c j hj t (.inl ht))).1, hrole]
      · rw [(ha.keeps k (hA c j hj k (.inr hk))).1, hstack]
    · refine ⟨t, k, ht, hroot, by rw [hkstack, hk], ?_, fun d i hne hi => ⟨fun hp => ?_, fun hk' => ?_⟩⟩
      · rw [(ha.keeps k (hA c j hj k (.inr hk))).1, hstack]
      · exact h.not_free hi (.inl hp) (hfree t hat)
      · exact hne (h.kstacks c j d i k hj hi hk hk')

theorem procs_onCont {f : Container → Container} (d : Nat) (i : Slot) :
    (k.onCont c f).procs d i = if d = c then (f (k c)).ptable i else k.procs d i := by
  unfold Kernel.procs Kernel.onCont
  by_cases hd : d = c
  · rw [if_pos hd, hd, Function.update_self]
  · rw [if_neg hd, Function.update_of_ne hd]

/-- A pass of `wait` leaves no process in the slot of the zombie, and the others live on. -/
theorem wait_procs (hi : (k.procs c i).state ≠ .unused) (d : Nat) (i' : Slot)
    (hne : ∀ j, (k c).scan i = .zombie j → ¬(d = c ∧ i' = j)) :
    (((k.onCont c (·.wait i)).procs d i').state ≠ .unused → (k.procs d i').state ≠ .unused) ∧
      ((k.procs d i').state ≠ .unused ∧ (k.procs d i').state ≠ .zombie →
        ((k.onCont c (·.wait i)).procs d i').state ≠ .unused ∧
          ((k.onCont c (·.wait i)).procs d i').state ≠ .zombie) := by
  rw [procs_onCont]
  by_cases hd : d = c
  · subst hd
    rw [if_pos rfl]
    unfold Container.wait
    cases hscan : (k d).scan i with
    | zombie j =>
      have hij : i' ≠ j := fun heq => hne j hscan ⟨rfl, heq⟩
      by_cases hself : i' = i
      · subst hself
        simp [Container.setProc, Kernel.procs, Function.update_of_ne hij]
      · simp [Container.setProc, Kernel.procs, Function.update_of_ne hij, Function.update_of_ne hself]
    | noKids =>
      by_cases hself : i' = i
      · subst hself
        simp [Container.setProc, Kernel.procs]
      · simp [Container.setProc, Kernel.procs, Function.update_of_ne hself]
    | kids =>
      by_cases hself : i' = i
      · subst hself
        simp only [Container.setProc, Function.update_self]
        exact ⟨fun _ => hi, fun _ => by simp⟩
      · simp [Container.setProc, Kernel.procs, Function.update_of_ne hself]
  · rw [if_neg hd]
    exact ⟨id, id⟩

theorem wait_reaps {j : Slot} (hscan : (k c).scan i = .zombie j) :
    ((k.onCont c (·.wait i)).procs c j).state = .unused := by
  rw [procs_onCont, if_pos rfl]
  unfold Container.wait
  rw [hscan]
  by_cases hji : j = i
  · subst hji
    simp [Container.setProc]
  · simp [Container.setProc, Function.update_of_ne hji]

/-- `wait` gives back the memory of a zombie. -/
theorem Owned.wait {o : Option Slot} (h : Owned R s) (hi : InUse s c i) (hr : Runs (wait c i) s o s')
    (hs : s'.short = false) : ∃ R', Outcome (fun _ _ => False) R s R' s' := by
  obtain ⟨_, _, h1, hr⟩ := runs_bind.mp hr
  obtain ⟨rfl, rfl⟩ := runs_get.mp h1
  obtain ⟨_, _, h2, hr⟩ := runs_bind.mp hr
  obtain rfl := runs_modify.mp h2
  have hprocs := fun d i' => wait_procs (k := s.kernel) hi d i'
  split at hr
  case h_1 j hscan =>
    have hzombie : (s.kernel.procs c j).state = .zombie := (scan_zombie hscan).2
    have hj : InUse s c j := by
      unfold InUse
      rw [hzombie]
      decide
    split at hr
    case h_1 pgdir stack hpgdir hkstack =>
      obtain ⟨_, s₁, h3, hr⟩ := runs_bind.mp hr
      obtain ⟨_, s₂, h4, hr⟩ := runs_bind.mp hr
      obtain ⟨-, rfl⟩ := runs_pure.mp hr
      have hisolated : Isolated R (s.setKernel (s.kernel.onCont c (·.wait i))) := h.toIsolated.congr rfl rfl rfl
      have hfree := hisolated.acts
        (vmFree_confined hisolated.pages (hisolated.space pgdir) (h.pgdir_role hj hpgdir) h3)
        fun p hne => absurd rfl hne
      have hapart : stack ≠ pgdir := by
        rintro rfl
        exact h.pgdir_ne_kstack hj hj hpgdir hkstack
      have hrole : (Function.update R pgdir fun _ => none) stack = only stack 4 := by
        rw [Function.update_of_ne hapart, h.kstack_role hj hkstack]
      have hstack := hfree.isolated.acts (t := stack)
        (hrole ▸ kfree_confined hfree.isolated.pages (hrole ▸ hfree.isolated.space stack) h4)
        fun p hne => absurd rfl hne
      have hsame₁ := stays_vmFree (loose_sameProcs (s.setKernel (s.kernel.onCont c (·.wait i)))) pgdir _ _ s₁ h3
        ⟨rfl, rfl, rfl⟩
      have hsame := stays_kfree
        (loose_sameProcs (s.setKernel (s.kernel.onCont c (·.wait i)))) stack _ _ s₂ h4 hsame₁
      have hout := h.outcome (c := c) (j := j) ((hfree.trans hstack).of_word (s := s) rfl)
        (fun d i' hne => ?_) (fun d i' hne hi u hu heq => ?_) fun hin => ?_
      · refine ⟨_, hout.mono fun d i' hl hby => ?_⟩
        obtain ⟨rfl, rfl⟩ := hby
        exact hl.2 hzombie
      · unfold InUse Lives
        rw [hsame.1, hsame.2.1, hsame.2.2]
        obtain ⟨huse, hlives⟩ := hprocs d i' fun j' hscan' heq => by
          obtain rfl := Scan.zombie.inj (hscan.symm.trans hscan')
          exact hne heq
        exact ⟨huse, hlives, rfl, rfl⟩
      · rcases heq with rfl | rfl
        · rcases hu with hu | hu
          · exact hne (h.pgdirs c j d i' _ hj hi hpgdir hu)
          · exact h.pgdir_ne_kstack hj hi hpgdir hu
        · rcases hu with hu | hu
          · exact h.pgdir_ne_kstack hi hj hu hkstack
          · exact hne (h.kstacks c j d i' _ hj hi hkstack hu)
      · refine absurd ?_ hin
        rw [hsame.1]
        exact wait_reaps hscan
    case h_2 => exact absurd hr runs_throw
  case h_2 hnone =>
    obtain ⟨-, rfl⟩ := runs_pure.mp hr
    exact ⟨R, h.still (h.toIsolated.none_acts rfl rfl rfl) (fun d i' => hprocs d i' fun j hscan =>
      absurd hscan (hnone j))
      rfl rfl⟩

theorem Owned.exit {ops : List ArenaOp} {v : Unit} (h : Owned R s) (hj : InUse s c j)
    (hr : Runs (exit c j ops) s v s')
    (hs : s'.short = false) : ∃ R', Outcome (fun d i => d = c ∧ i = j) R s R' s' := by
  obtain ⟨_, s₁, h1, hr⟩ := runs_bind.mp hr
  obtain rfl := runs_modify.mp hr
  have hsame := stays_fileSystem (loose_sameProcs s) ops s _ s₁ h1 ⟨rfl, rfl, rfl⟩
  obtain ⟨t, ht, hrole⟩ := h.pgdir c j hj
  obtain ⟨k, hk, hstack⟩ := h.kstack c j hj
  have ha : Acts (fun _ => False) R s R (s₁.setKernel (s₁.kernel.onCont c (·.exit j))) :=
    (h.toIsolated.shuffles (fileSystem_shuffles h.pages h1 hs)).congr rfl rfl rfl
  refine ⟨R, h.outcome ha (fun d i hne => ?_) (fun _ _ _ _ _ _ => id) fun _ =>
    ⟨t, k, (congrFun (congrFun hsame.2.1 c) j).trans ht, hrole, (congrFun (congrFun hsame.2.2 c) j).trans hk,
      hstack,
      h.alone hj ht hk⟩⟩
  have hwoken : Woken (s.kernel.procs d i) ((s.kernel.onCont c (·.exit j)).procs d i) := by
    rw [procs_onCont]
    by_cases hd : d = c
    · subst hd
      have hij : i ≠ j := fun heq => hne ⟨rfl, heq⟩
      obtain ⟨e', hwoken, hexit⟩ := exit_eq (s.kernel d) j
      rw [if_pos rfl, hexit]
      simp only [Container.setProc, Function.update_of_ne hij]
      exact hwoken i
    · rw [if_neg hd]
      exact .inl rfl
  have hstate : ((s₁.kernel.onCont c (·.exit j)).procs d i) = (s.kernel.procs d i) ∨
      (s.kernel.procs d i).state = .sleeping ∧ ((s₁.kernel.onCont c (·.exit j)).procs d i).state =
        .runnable := by
    rw [hsame.1]
    rcases hwoken with heq | ⟨hsleeping, heq⟩
    · exact .inl heq
    · exact .inr ⟨hsleeping, by rw [heq]⟩
  refine ⟨fun hi => ?_, fun hl => ?_, congrFun (congrFun hsame.2.1 d) i, congrFun (congrFun hsame.2.2 d) i⟩
  · rcases hstate with heq | ⟨hsleeping, -⟩
    · unfold InUse at *
      rwa [← heq]
    · unfold InUse
      rw [hsleeping]
      decide
  · rcases hstate with heq | ⟨-, hrunnable⟩
    · unfold Lives at *
      show ((s₁.kernel.onCont c (·.exit j)).procs d i).state ≠ _ ∧
        ((s₁.kernel.onCont c (·.exit j)).procs d i).state ≠ _
      rwa [heq]
    · show ((s₁.kernel.onCont c (·.exit j)).procs d i).state ≠ _ ∧
        ((s₁.kernel.onCont c (·.exit j)).procs d i).state ≠ _
      rw [hrunnable]
      decide

/-- A step of the scheduler, `sleep` or `wakeup`. -/
def Label.schedules : Label → Bool
  | .run _ _ | .yield _ _ | .sleep _ _ _ | .wakeup _ _ => true
  | _ => false

/-- Scheduling keeps processes alive. -/
theorem schedules_procs {a : Label} {k' : Kernel} (ha : a.schedules = true) (hn : (kernel T).next k a = some k')
    (d : Nat) (i : Slot) : ((k'.procs d i).state ≠ .unused → (k.procs d i).state ≠ .unused) ∧
      ((k.procs d i).state ≠ .unused ∧ (k.procs d i).state ≠ .zombie →
        (k'.procs d i).state ≠ .unused ∧ (k'.procs d i).state ≠ .zombie) := by
  have hset {c : Nat} {j : Slot} {p : Proc} (hold : (k.procs c j).state ≠ .unused)
      (hp : p.state ≠ .unused ∧ p.state ≠ .zombie) : (((k.setProc c j p).procs d i).state ≠ .unused →
      (k.procs d i).state ≠ .unused) ∧ ((k.procs d i).state ≠ .unused ∧ (k.procs d i).state ≠ .zombie →
        ((k.setProc c j p).procs d i).state ≠ .unused ∧ ((k.setProc c j p).procs d i).state ≠ .zombie) := by
    rw [procs_setProc, upd]
    split
    case isTrue heq =>
      obtain ⟨rfl, rfl⟩ := heq
      exact ⟨fun _ => hold, fun _ => hp⟩
    case isFalse => exact ⟨id, id⟩
  cases a with
  | create | fork | forked | exit | wait => cases ha
  | run c j =>
    simp only [kernel, Option.ite_none_right_eq_some, Option.some.injEq] at hn
    obtain ⟨hrunnable, rfl⟩ := hn
    refine hset ?_ (by simp)
    unfold Kernel.procs
    rw [hrunnable]
    decide
  | yield c j =>
    simp only [kernel, Option.ite_none_right_eq_some, Option.some.injEq] at hn
    obtain ⟨hrunning, rfl⟩ := hn
    refine hset ?_ (by simp)
    unfold Kernel.procs
    rw [hrunning]
    decide
  | sleep c j a =>
    simp only [kernel, Option.ite_none_right_eq_some, Option.some.injEq] at hn
    obtain ⟨⟨hrunning, -⟩, rfl⟩ := hn
    refine hset ?_ (by simp)
    unfold Kernel.procs
    rw [hrunning]
    decide
  | wakeup c a =>
    obtain rfl := Option.some.inj hn
    rw [procs_onCont]
    split
    case isTrue hd =>
      subst hd
      rcases woken_wakeup (k d) (some (.other a)) i with heq | ⟨hsleeping, heq⟩
      · rw [heq]
        exact ⟨id, id⟩
      · unfold Kernel.procs
        rw [heq, hsleeping]
        exact ⟨fun _ => by decide, fun _ => by simp⟩
    case isFalse => exact ⟨id, id⟩

/-! ### Runs -/

inductive MemCall
  /-- The kernel makes a process, whose first page holds `code`. -/
  | spawn (c : Nat) (code : Nat → Nat)
  | fork (c : Nat) (i : Slot)
  | execve (c : Nat) (i : Slot) (e : ExecCall)
  | exit (c : Nat) (i : Slot) (ops : List ArenaOp)
  | wait (c : Nat) (i : Slot)
  | growproc (c : Nat) (i : Slot) (sz : Nat) (n : Int)
  /-- The process, or the kernel for it, writes to its addresses. -/
  | store (c : Nat) (i : Slot) (va len : Nat) (data : Nat → Nat → Nat)
  /-- Calls of the file system. -/
  | files (ops : List ArenaOp)
  | sched (a : Label)

/-- What the process of slot `i` does while it is running, with its page table. -/
def whileRunning (c : Nat) (i : Slot) (x : Nat → Sys.M Unit) : Sys.M Unit := do
  let s ← get
  require .panic ((s.kernel.procs c i).state = .running)
  match s.pgdir c i with
  | none => throw .null
  | some pgdir => x pgdir

namespace MemCall

def exec (T : Tree) : MemCall → Sys.M Unit
  | spawn c code => Core.spawn T c code
  | fork c i => whileRunning c i fun _ => do
    let _ ← Core.fork T c i
  | execve c i e => whileRunning c i fun _ => do
    let _ ← Core.execve c i e
  | exit c i ops => whileRunning c i fun _ => Core.exit c i ops
  | wait c i => whileRunning c i fun _ => do
    let _ ← Core.wait c i
  | growproc c i sz n => whileRunning c i fun pgdir => do
    let _ ← Core.growproc pgdir sz n
  | store c i va len data => whileRunning c i fun pgdir => userWrite pgdir va len data
  | files ops => fileSystem ops
  | sched a => do
    let s ← get
    require .panic (a.schedules = true)
    match (kernel T).next s.kernel a with
    | none => throw .panic
    | some k => modify fun s => s.setKernel k

/-- The call changes the memory of the process that makes it. -/
def By : MemCall → Nat → Slot → Prop
  | execve c j _, d, i | exit c j _, d, i | growproc c j _ _, d, i | store c j _ _ _, d, i => d = c ∧ i = j
  | _, _, _ => False

end MemCall

/-- The memory of the processes, from a boot with no process. -/
def memory (T : Tree) : Machine Sys MemCall where
  init s := Pages s ∧ s.short = false ∧ ∀ c i, ¬InUse s c i
  next s call :=
    match call.exec T s with
    | .ok (_, s') => some s'
    | .error _ => none

/-- A process that shrinks has the tables for the pages that it gives back. -/
def Shrinks (s : Sys) : MemCall → Prop
  | .growproc c i sz n => n < 0 → ∀ pgdir, s.pgdir c i = some pgdir →
    ∀ a ∈ pagesFrom (roundUp (newSize sz n) pageSize) (sz % 2 ^ 32), missingTables s pgdir a = 0
  | _ => True

theorem memory_next {call : MemCall} : (memory T).next s call = some s' ↔ Runs (call.exec T) s () s' := by
  unfold memory Runs
  dsimp only
  cases hx : call.exec T s with
  | error e => simp
  | ok x =>
    obtain ⟨v, t⟩ := x
    simp

theorem runs_whileRunning {x : Nat → Sys.M Unit} {v : Unit} (hr : Runs (whileRunning c i x) s v s') :
    InUse s c i ∧ ∃ t, s.pgdir c i = some t ∧ Runs (x t) s v s' := by
  obtain ⟨_, _, h1, hr⟩ := runs_bind.mp hr
  obtain ⟨rfl, rfl⟩ := runs_get.mp h1
  obtain ⟨_, _, h2, hr⟩ := runs_bind.mp hr
  obtain ⟨hrunning, rfl⟩ := runs_require.mp h2
  split at hr
  case h_1 => exact absurd hr runs_throw
  case h_2 pgdir hpgdir =>
    refine ⟨?_, pgdir, hpgdir, hr⟩
    unfold InUse
    rw [hrunning]
    decide

theorem stays_growproc (hB : Loose B) (sz : Nat) (n : Int) : Stays B (growproc pgdir sz n) := by
  refine .ite ((stays_uvmAlloc hB _ _ _ _).bind fun _ => .ite (.pure _) (.pure _)) (.ite ?_ (.pure _))
  exact (stays_uvmDealloc hB _ _ _).bind fun _ => .ite (.pure _) (.pure _)

theorem runs_ignoring {α : Type} {x : Sys.M α} {v : Unit} (hr : Runs (do let _ ← x : Sys.M Unit) s v s') :
    ∃ a, Runs x s a s' := by
  obtain ⟨a, t, hx, hend⟩ := runs_bind.mp hr
  obtain ⟨-, rfl⟩ := runs_pure.mp hend
  exact ⟨a, hx⟩

/-- What a call does, when no page is missing. -/
theorem Owned.call {call : MemCall} (h : Owned R s) (hshrinks : Shrinks s call) (hn : (memory T).next s call =
    some s')
    (hs : s'.short = false) : ∃ R', Outcome call.By R s R' s' := by
  have hr := memory_next.mp hn
  cases call with
  | spawn c code => exact h.spawn hr hs
  | fork c i =>
    obtain ⟨-, t, -, hr⟩ := runs_whileRunning hr
    obtain ⟨o, hr⟩ := runs_ignoring hr
    exact h.fork hr hs
  | execve c i e =>
    obtain ⟨hi, t, -, hr⟩ := runs_whileRunning hr
    obtain ⟨b, hr⟩ := runs_ignoring hr
    exact h.execve hi hr hs
  | exit c i ops =>
    obtain ⟨hi, t, -, hr⟩ := runs_whileRunning hr
    exact h.exit hi hr hs
  | wait c i =>
    obtain ⟨hi, t, -, hr⟩ := runs_whileRunning hr
    obtain ⟨o, hr⟩ := runs_ignoring hr
    exact h.wait hi hr hs
  | growproc c i sz n =>
    obtain ⟨hi, t, ht, hr⟩ := runs_whileRunning hr
    obtain ⟨x, hr⟩ := runs_ignoring hr
    obtain ⟨r', hc, hroot⟩ := growproc_confined h.pages (h.space t) (h.pgdir_role hi ht) hr hs
      fun hneg => hshrinks hneg t ht
    have hsame := stays_growproc (loose_sameProcs s) sz n s _ s' hr ⟨rfl, rfl, rfl⟩
    exact ⟨_, h.own hi ht hc hroot (fun d j _ => by rw [hsame.1]) hsame.2.1 hsame.2.2⟩
  | store c i va len data =>
    obtain ⟨hi, t, ht, hr⟩ := runs_whileRunning hr
    have hrole := h.pgdir_role hi ht
    have hc := (userWrite_grows (h.space t) hrole hr).confined h.pages
    have hsame := stays_userWrite (loose_sameProcs s) va len data s _ s' hr ⟨rfl, rfl, rfl⟩
    exact ⟨_, h.own hi ht hc hrole (fun d j _ => by rw [hsame.1]) hsame.2.1 hsame.2.2⟩
  | files ops =>
    have hsame := stays_fileSystem (loose_sameProcs s) ops s _ s' hr ⟨rfl, rfl, rfl⟩
    refine ⟨R, h.still (h.toIsolated.shuffles (fileSystem_shuffles h.pages hr hs)) (fun d j =>
      ?_) hsame.2.1 hsame.2.2⟩
    unfold InUse Lives
    rw [hsame.1]
    exact ⟨id, id⟩
  | sched a =>
    obtain ⟨_, _, h1, hr⟩ := runs_bind.mp hr
    obtain ⟨rfl, rfl⟩ := runs_get.mp h1
    obtain ⟨_, _, h2, hr⟩ := runs_bind.mp hr
    obtain ⟨ha, rfl⟩ := runs_require.mp h2
    split at hr
    case h_1 => exact absurd hr runs_throw
    case h_2 k hk =>
      obtain rfl := runs_modify.mp hr
      exact ⟨R, h.still (h.toIsolated.none_acts rfl rfl rfl) (fun d j => schedules_procs ha hk d j) rfl rfl⟩

theorem SameTree.refl (w : Nat → Nat → Nat) (d t : Nat) : SameTree w w d t t := by
  induction d generalizing t with
  | zero => exact rfl
  | succ d ih => exact fun i _ => ⟨Iff.rfl, fun _ => ⟨rfl, ih _⟩⟩

end FtosFfs.Core
