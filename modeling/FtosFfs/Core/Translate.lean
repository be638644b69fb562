import FtosFfs.Core.Space

/-! Which addresses the tables of an address space map, and how `pgdir_walk`, `uvm_map`, `uvm_alloc`
and `copyout` change that. -/

namespace FtosFfs.Core

open Lib Lib.Exec

variable {s s' : Sys} {r r' : Roles} {p q t l k va pgdir : Nat} {is js : List Nat} {α β : Type}

theorem Sys.word_store_self (s : Sys) (t i v : Nat) : (s.store t i v).word t i = v := by
  simp [Sys.store]

theorem Sys.word_store_ne {i j v u : Nat} (s : Sys) (h : ¬(u = t ∧ j = i)) :
    (s.store t i v).word u j = s.word u j := by
  show Function.update s.word t (Function.update (s.word t) i v) u j = _
  by_cases hut : u = t
  · subst hut
    rw [Function.update_self, Function.update_of_ne fun hji => h ⟨rfl, hji⟩]
  · rw [Function.update_of_ne hut]

/-! ### Paths through the tables -/

/-- The page to which the indices lead from table `t` on. -/
def follow (s : Sys) : List Nat → Nat → Option Nat
  | [], t => some t
  | i :: is, t => if pteValid (s.word t i) then follow s is (pteFrame (s.word t i)) else none

/-- The indices of the address in the four tables. -/
def pathOf (va : Nat) : List Nat := [pteIndex va 3, pteIndex va 2, pteIndex va 1, pteIndex va 0]

theorem translate_eq_follow (s : Sys) (pgdir va : Nat) :
    translate s pgdir va = follow s (pathOf va) pgdir := by
  have hstep (k : Nat) (ks : List Nat) (t : Nat) :
      (k :: ks).foldlM (fun table k => if pteValid (s.word table (pteIndex va k)) then
        some (pteFrame (s.word table (pteIndex va k))) else none) t =
      if pteValid (s.word t (pteIndex va k)) then
        ks.foldlM (fun table k => if pteValid (s.word table (pteIndex va k)) then
          some (pteFrame (s.word table (pteIndex va k))) else none) (pteFrame (s.word t (pteIndex va k)))
      else none := by
    rw [List.foldlM_cons]
    split <;> rfl
  unfold translate pathOf
  simp only [hstep, follow]
  rfl

theorem length_pathOf (va : Nat) : (pathOf va).length = 4 := rfl

/-- Two addresses have the same path if they are on the same page. -/
theorem pathOf_inj {va va' : Nat} (hva : va < uspaceTop) (hva' : va' < uspaceTop) :
    pathOf va = pathOf va' ↔ va / pageSize = va' / pageSize := by
  have htop : uspaceTop = pageSize * 2 ^ 36 := rfl
  have hpage {a : Nat} (ha : a < uspaceTop) : a / pageSize < 2 ^ 36 :=
    Nat.div_lt_of_lt_mul (htop ▸ ha)
  -- the number of a page is made of its four digits
  have hdigits {n : Nat} (hn : n < 2 ^ 36) : n = ((n / 2 ^ 27 % 512 * 512 + n / 2 ^ 18 % 512) * 512 +
      n / 2 ^ 9 % 512) * 512 + n / 2 ^ 0 % 512 := by
    have h18 : n / 2 ^ 18 = n / 512 / 512 := (Nat.div_div_eq_div_mul n 512 512).symm
    have h27 : n / 2 ^ 27 = n / 512 / 512 / 512 :=
      ((Nat.div_div_eq_div_mul (n / 512) 512 512).trans
        (Nat.div_div_eq_div_mul n 512 (512 * 512))).symm
    rw [h18, h27]
    omega
  unfold pathOf pteIndex
  constructor
  · intro h
    simp only [List.cons.injEq, and_true] at h
    obtain ⟨h3, h2, h1, h0⟩ := h
    rw [hdigits (hpage hva), hdigits (hpage hva')]
    exact congrArg₂ (· * 512 + ·) (congrArg₂ (· * 512 + ·) (congrArg₂ (· * 512 + ·) h3 h2) h1) h0
  · intro h
    rw [h]

theorem follow_append (s : Sys) (is js : List Nat) (t : Nat) :
    follow s (is ++ js) t = (follow s is t).bind (follow s js) := by
  induction is generalizing t with
  | nil => rfl
  | cons i is ih =>
    rw [List.cons_append, follow, follow]
    split
    · exact ih _
    · rfl

/-- A path of tables leads from level to level. -/
theorem Space.follow_role (h : Space r s) (ht : r t = some l) (hl : l + is.length ≤ 4)
    (hq : follow s is t = some q) : r q = some (l + is.length) := by
  induction is generalizing t l with
  | nil =>
    cases hq
    exact ht
  | cons i is ih =>
    rw [List.length_cons] at hl ⊢
    rw [follow, Option.ite_none_right_eq_some] at hq
    have hnext := ih (h.typed t l i ht (by omega) hq.1) (by omega) hq.2
    rw [hnext, Nat.add_right_comm, Nat.add_assoc]

/-- Two paths of one length to one page are the same. -/
theorem Space.follow_inj (h : Space r s) (ht : r t = some l) (hl : l + is.length ≤ 4)
    (hlen : is.length = js.length) (hi : follow s is t = some q) (hj : follow s js t = some q) :
    is = js := by
  induction is using List.reverseRecOn generalizing js q with
  | nil => exact (List.eq_nil_of_length_eq_zero hlen.symm).symm
  | append_singleton is i ih =>
    obtain ⟨js, j, rfl⟩ : ∃ js' j, js = js' ++ [j] := by
      have hne : js ≠ [] := by
        rintro rfl
        simp at hlen
      exact ⟨_, _, (List.dropLast_append_getLast hne).symm⟩
    simp only [List.length_append, List.length_cons, List.length_nil] at hl hlen
    have hlast {is : List Nat} {i : Nat} (hl : l + is.length + 1 ≤ 4)
        (hq : follow s (is ++ [i]) t = some q) :
        ∃ u, follow s is t = some u ∧ Leads r s u i q := by
      rw [follow_append] at hq
      obtain ⟨u, hu, hq⟩ := Option.bind_eq_some_iff.mp hq
      rw [follow, Option.ite_none_right_eq_some] at hq
      refine ⟨u, hu, ⟨_, h.follow_role ht (by omega) hu, by omega⟩, hq.1, ?_⟩
      exact Option.some.inj hq.2
    obtain ⟨u, hu, hleads⟩ := hlast (by omega) hi
    obtain ⟨v, hv, hleads'⟩ := hlast (by omega) hj
    obtain ⟨rfl, rfl⟩ := h.inj u i v j q hleads hleads'
    rw [ih (by omega) (by omega) hu hv]

/-- A path does not depend on pages past its last table. -/
theorem Space.follow_congr (h : Space r s) (ht : r t = some l) (hl : l + is.length ≤ 4)
    (hw : ∀ u m, r u = some m → m < l + is.length → s'.word u = s.word u) :
    follow s' is t = follow s is t := by
  induction is generalizing t l with
  | nil => rfl
  | cons i is ih =>
    rw [List.length_cons] at hl hw
    rw [follow, follow, hw t l ht (by omega)]
    split
    case isFalse => rfl
    case isTrue hv =>
      exact ih (h.typed t l i ht (by omega) hv) (by omega) fun u m hu hm => hw u m hu (by omega)

/-! ### Walks -/

/-- A step of a walk finds the next table, or makes it from a free page. -/
theorem walkStep_cases (hr : Runs (walkStep va true t k) s q s') (hs : s'.short = false) :
    (pteValid (s.word t (pteIndex va k)) ∧ s' = s ∧ q = pteFrame (s.word t (pteIndex va k))) ∨
    ¬pteValid (s.word t (pteIndex va k)) ∧ ∃ p free, s.free = p :: free ∧
      s' = ({ s with free }.fill p fun _ => 0).store t (pteIndex va k) (pte p pteTable) ∧
      q = pteFrame (pte p pteTable) := by
  unfold walkStep at hr
  obtain ⟨_, _, hget, hr⟩ := runs_bind.mp hr
  obtain ⟨rfl, rfl⟩ := runs_get.mp hget
  obtain ⟨_, s₁, hwhen, hr⟩ := runs_bind.mp hr
  obtain ⟨_, _, hget, hr⟩ := runs_bind.mp hr
  obtain ⟨rfl, rfl⟩ := runs_get.mp hget
  obtain ⟨rfl, rfl⟩ := runs_pure.mp hr
  rw [runs_when] at hwhen
  obtain ⟨⟨hv, -⟩, hwhen⟩ | ⟨hv, rfl⟩ := hwhen
  · obtain ⟨o, s₂, hinit, hstore⟩ := runs_bind.mp hwhen
    have hs₂ : s₂.short = false := by
      cases o with
      | none =>
        obtain ⟨-, rfl⟩ := runs_pure.mp hstore
        exact hs
      | some p =>
        obtain rfl := runs_modify.mp hstore
        exact hs
    obtain ⟨p, free, rfl, hfree, rfl⟩ := pgdirInit_takes hinit hs₂
    obtain rfl := runs_modify.mp hstore
    refine .inr ⟨hv, p, free, hfree, rfl, ?_⟩
    simp [Sys.store]
  · exact .inl ⟨by simpa using hv, rfl, rfl⟩

/-- The entries that lead somewhere are kept. -/
def Keeps (r : Roles) (s s' : Sys) : Prop :=
  ∀ t l i, r t = some l → l < 4 → pteValid (s.word t i) → s'.word t i = s.word t i

theorem Keeps.follow (h : Space r s) (hk : Keeps r s s') (ht : r t = some l) (hl : l + is.length ≤ 4)
    (hq : follow s is t = some q) : follow s' is t = some q := by
  induction is generalizing t l with
  | nil => exact hq
  | cons i is ih =>
    rw [List.length_cons] at hl
    rw [Core.follow, Option.ite_none_right_eq_some] at hq
    rw [Core.follow, hk t l i ht (by omega) hq.1, if_pos hq.1]
    exact ih (h.typed t l i ht (by omega) hq.1) (by omega) hq.2

/-- A step of a walk goes to the next table, keeps the entries, and maps no address. -/
theorem walkStep_follow (hp : Pages s) (h : Space r s) (ht : r t = some l) (hl : l < 3)
    (hr : Runs (walkStep va true t k) s q s') (hs : s'.short = false) :
    Keeps r s s' ∧ follow s' [pteIndex va k] t = some q ∧
      ∀ is u m, r u = some m → m + is.length = 4 → follow s' is u = follow s is u := by
  obtain ⟨hv, rfl, rfl⟩ | ⟨hv, p, free, hfree, rfl, rfl⟩ := walkStep_cases hr hs
  case inl =>
    refine ⟨fun _ _ _ _ _ _ => rfl, ?_, fun _ _ _ _ _ => rfl⟩
    rw [follow, if_pos hv, follow]
  case inr =>
    have hmem : p ∈ s.free := by
      rw [hfree]
      exact List.mem_cons_self
    have hnone : r p = none := h.apart p (.inl hmem)
    have hframe : pteFrame (pte p pteTable) = p :=
      pteFrame_pte (hp.below p (.inl hmem)) (by decide)
    have hother (u m : Nat) (hu : r u = some m) : u ≠ p := by
      rintro rfl
      rw [hnone] at hu
      cases hu
    have hword (u m i : Nat) (hu : r u = some m) (hne : ¬(u = t ∧ i = pteIndex va k)) :
        ((({ s with free }.fill p fun _ => 0).store t (pteIndex va k) (pte p pteTable)).word u i) =
          s.word u i := by
      rw [Sys.word_store_ne _ hne]
      show Function.update s.word p _ u i = _
      rw [Function.update_of_ne (hother u m hu)]
    have hnew : ((({ s with free }.fill p fun _ => 0).store t (pteIndex va k) (pte p pteTable)).word t
        (pteIndex va k)) = pte p pteTable := Sys.word_store_self ..
    have hvalid : pteValid (pte p pteTable) := by
      unfold pteValid pte
      show (4096 * p + 3) % 2 = 1
      omega
    refine ⟨fun u m i hu _ hvu => hword u m i hu ?_, ?_, fun is u m hu hm => ?_⟩
    · rintro ⟨rfl, rfl⟩
      exact hv hvu
    · rw [follow, hnew, if_pos hvalid, follow]
    · -- the new table is empty, so a path through it leads nowhere
      induction is generalizing u m with
      | nil => rfl
      | cons i is ih =>
        rw [List.length_cons] at hm
        rw [follow, follow]
        by_cases hhere : u = t ∧ i = pteIndex va k
        · obtain ⟨rfl, rfl⟩ := hhere
          obtain rfl : m = l := Option.some.inj (hu.symm.trans ht)
          rw [hnew, if_pos hvalid, if_neg hv, hframe]
          cases is with
          | nil =>
            rw [List.length_nil] at hm
            omega
          | cons j is =>
            have hempty : ((({ s with free }.fill p fun _ => 0).store u (pteIndex va k)
                (pte p pteTable)).word p j) = 0 := by
              simp only [Sys.store, Sys.fill]
              rw [Function.update_of_ne (Ne.symm (hother u m hu)), Function.update_self]
            rw [follow, hempty, if_neg (by decide)]
        · rw [hword u m i hu hhere]
          split
          case isFalse => rfl
          case isTrue hvu => exact ih _ _ (h.typed u m i hu (by omega) hvu) (by omega)

/-- A walk finds the last table of the address, and maps no address. -/
theorem pgdirWalk_follow {i : Nat} (hp : Pages s) (h : Space r s) (ht : r pgdir = some 0)
    (hr : Runs (pgdirWalk pgdir va true) s (t, i) s') (hs : s'.short = false) :
    i = pteIndex va 0 ∧ follow s' [pteIndex va 3, pteIndex va 2, pteIndex va 1] pgdir = some t ∧
      ∀ is, is.length = 4 → follow s' is pgdir = follow s is pgdir := by
  unfold pgdirWalk at hr
  obtain ⟨t₃, _, hfold, hpure⟩ := runs_bind.mp hr
  obtain ⟨heq, rfl⟩ := runs_pure.mp hpure
  obtain ⟨rfl, rfl⟩ := Prod.mk.inj heq
  simp only [List.foldlM_cons, List.foldlM_nil] at hfold
  obtain ⟨t₁, s₁, h₁, hr⟩ := runs_bind.mp hfold
  obtain ⟨t₂, s₂, h₂, hr⟩ := runs_bind.mp hr
  obtain ⟨_, _, h₃, hr⟩ := runs_bind.mp hr
  obtain ⟨rfl, rfl⟩ := runs_pure.mp hr
  have hs₂ := not_short (stays_walkStep loose_short va true t₂ 1) h₃ hs
  have hs₁ := not_short (stays_walkStep loose_short va true t₁ 2) h₂ hs₂
  obtain ⟨r₁, g₁, ht₁⟩ := walkStep_grows hp h ht (by omega) h₁ hs₁
  obtain ⟨r₂, g₂, ht₂⟩ := walkStep_grows (g₁.pages hp) g₁.space ht₁ (by omega) h₂ hs₂
  obtain ⟨k₁, f₁, e₁⟩ := walkStep_follow hp h ht (by omega) h₁ hs₁
  obtain ⟨k₂, f₂, e₂⟩ := walkStep_follow (g₁.pages hp) g₁.space ht₁ (by omega) h₂ hs₂
  obtain ⟨k₃, f₃, e₃⟩ := walkStep_follow (g₂.pages (g₁.pages hp)) g₂.space ht₂ (by omega) h₃ hs
  have hroot₁ := g₁.works.grows pgdir 0 ht
  have hroot₂ := g₂.works.grows pgdir 0 hroot₁
  refine ⟨rfl, ?_, fun is his => ?_⟩
  · have hfirst : follow s₂ [pteIndex va 3] pgdir = some t₁ :=
      k₂.follow g₁.space hroot₁ (by simp) f₁
    have hsecond : follow s₂ ([pteIndex va 3] ++ [pteIndex va 2]) pgdir = some t₂ := by
      rw [follow_append, hfirst]
      exact f₂
    have hsecond' := k₃.follow g₂.space hroot₂ (by simp) hsecond
    refine (follow_append _ ([pteIndex va 3] ++ [pteIndex va 2]) [pteIndex va 1] pgdir).trans ?_
    rw [hsecond']
    exact f₃
  · rw [e₃ is pgdir 0 hroot₂ (by omega), e₂ is pgdir 0 hroot₁ (by omega), e₁ is pgdir 0 ht (by omega)]

/-- A store to the last table of an address changes what that address is mapped to. -/
theorem Space.follow_store {i v : Nat} (h : Space r s) (ht : r pgdir = some 0) (hlen : js.length = 3)
    (hwalk : follow s js pgdir = some t) (hv : pteValid v) (his : is.length = 4) :
    follow (s.store t i v) is pgdir =
      if is = js ++ [i] then some (pteFrame v) else follow s is pgdir := by
  have htable : r t = some 3 := by
    have hrole := h.follow_role ht (by omega) hwalk
    rwa [hlen] at hrole
  obtain ⟨ks, j, rfl⟩ : ∃ ks j, is = ks ++ [j] := by
    have hne : is ≠ [] := by
      rintro rfl
      cases his
    exact ⟨_, _, (List.dropLast_append_getLast hne).symm⟩
  have hks : ks.length = 3 := by
    rw [List.length_append, List.length_singleton] at his
    omega
  -- the tables above the last are as before
  have hupper : follow (s.store t i v) ks pgdir = follow s ks pgdir := by
    refine h.follow_congr ht (by omega) fun u m hu hm => Function.update_of_ne ?_ _ _
    rintro rfl
    obtain rfl : m = 3 := Option.some.inj (hu.symm.trans htable)
    omega
  have hentry (u : Nat) : follow (s.store t i v) [j] u =
      if u = t ∧ j = i then some (pteFrame v) else follow s [j] u := by
    rw [follow, follow]
    by_cases hhere : u = t ∧ j = i
    · obtain ⟨rfl, rfl⟩ := hhere
      rw [s.word_store_self, if_pos hv, if_pos ⟨rfl, rfl⟩]
    · rw [s.word_store_ne hhere, if_neg hhere]
      rfl
  rw [follow_append, follow_append, hupper]
  cases hu : follow s ks pgdir with
  | none =>
    rw [if_neg]
    · rfl
    · intro heq
      obtain ⟨rfl, -⟩ := List.append_inj heq (hks.trans hlen.symm)
      rw [hwalk] at hu
      cases hu
  | some u =>
    rw [Option.bind_some, Option.bind_some, hentry u]
    refine if_congr ?_ rfl rfl
    constructor
    · rintro ⟨rfl, rfl⟩
      rw [h.follow_inj ht (by omega) (hks.trans hlen.symm) hu hwalk]
    · intro heq
      obtain ⟨rfl, hji⟩ := List.append_inj heq (hks.trans hlen.symm)
      exact ⟨Option.some.inj (hu.symm.trans hwalk), (List.cons.inj hji).1⟩

/-! ### Address spaces -/

/-- A process has the tables at `pgdir`, and no page was missing so far. -/
structure AddressSpace (s : Sys) (pgdir : Nat) : Prop where
  pages : Pages s
  tables : ∃ r, Space r s ∧ r pgdir = some 0
  enough : s.short = false

/-- The address is mapped to a page. -/
def Maps (s : Sys) (pgdir va : Nat) : Prop := (follow s (pathOf va) pgdir).isSome = true

theorem follow_word (hw : s'.word = s.word) (is : List Nat) (t : Nat) : follow s' is t = follow s is t := by
  induction is generalizing t with
  | nil => rfl
  | cons i is ih => rw [follow, follow, hw, ih]

theorem AddressSpace.grown (h : AddressSpace s pgdir) (hs : s'.short = false)
    (hg : ∀ r, Space r s → r pgdir = some 0 → ∃ r', Grown r s r' s') : AddressSpace s' pgdir := by
  obtain ⟨r, hspace, hroot⟩ := h.tables
  obtain ⟨r', g⟩ := hg r hspace hroot
  exact ⟨g.pages h.pages, ⟨r', g.space, g.works.grows pgdir 0 hroot⟩, hs⟩

/-- The address space without the first free page. -/
theorem AddressSpace.tail {free : List Nat} (h : AddressSpace s pgdir) (hfree : s.free = p :: free) :
    AddressSpace { s with free } pgdir := by
  obtain ⟨r, hspace, hroot⟩ := h.tables
  have hsub : ∀ q ∈ free, q ∈ s.free := fun q hq => hfree ▸ List.mem_cons_of_mem p hq
  have hpages := h.pages
  refine ⟨⟨?_, hpages.arena, fun q hq hqf => hpages.disjoint q hq (hsub q hqf), fun q hq => ?_⟩,
    ⟨r, hspace.of_words (fun _ _ _ _ => rfl) fun q hq => ?_, hroot⟩, h.enough⟩
  · exact (List.nodup_cons.mp (hfree ▸ hpages.free)).2
  · exact hpages.below q (hq.imp (hsub q) id)
  · exact hspace.apart q (hq.imp (hsub q) id)

/-- A new table maps no address. -/
theorem AddressSpace.fresh {free : List Nat} (hp : Pages s) (hs : s.short = false)
    (hfree : s.free = p :: free) :
    AddressSpace ({ s with free }.fill p fun _ => 0) p ∧
      ∀ va, ¬Maps ({ s with free }.fill p fun _ => 0) p va := by
  obtain ⟨hspace, hworks, -, -⟩ :=
    (space_empty s).take (l := 0) (f := fun _ => 0) hp hfree (by simp [pteValid])
  refine ⟨⟨hworks.pages hp, ⟨_, hspace, Function.update_self ..⟩, hs⟩, fun va hmaps => ?_⟩
  have hword : ({ s with free }.fill p fun _ => 0).word p (pteIndex va 3) = 0 := by
    simp only [Sys.fill]
    rw [Function.update_self]
  unfold Maps pathOf at hmaps
  rw [follow, hword, if_neg (by decide)] at hmaps
  cases hmaps

theorem pteValid_user (p : Nat) : pteValid (pte p pteUserData) := by
  unfold pteValid pte
  show (4096 * p + 0x647) % 2 = 1
  omega

/-- `uvm_map` of one page stores one entry. -/
theorem uvmMap_page {u : Unit} (hva : va % pageSize = 0) (hr : Runs (uvmMap pgdir va pageSize q) s u s') :
    ∃ t i s₁, Runs (pgdirWalk pgdir va true) s (t, i) s₁ ∧ s' = s₁.store t i (pte q pteUserData) := by
  have hdown : roundDown va pageSize = va := by simp [roundDown, hva]
  unfold Core.uvmMap at hr
  rw [hdown, pagesFrom_page] at hr
  obtain ⟨_, s₁, hfirst, hpure⟩ := runs_bind.mp (show Runs (_ >>= fun _ => pure ⟨⟩) s u s' from hr)
  obtain ⟨-, rfl⟩ := runs_pure.mp hpure
  obtain ⟨⟨t, i⟩, s₂, hwalk, hstore⟩ := runs_bind.mp hfirst
  obtain rfl := runs_modify.mp hstore
  have hpage : q + (va - va) / pageSize = q := by simp
  simp only [hpage]
  exact ⟨t, i, s₂, hwalk, rfl⟩

/-- `uvm_map` of one page maps the addresses of that page and no others. -/
theorem AddressSpace.uvmMap {u : Unit} (h : AddressSpace s pgdir) (hva : va % pageSize = 0)
    (hq : q < physPages) (hr : Runs (uvmMap pgdir va pageSize q) s u s') (hs : s'.short = false)
    (his : is.length = 4) :
    follow s' is pgdir = if is = pathOf va then some q else follow s is pgdir := by
  obtain ⟨r, hspace, hroot⟩ := h.tables
  obtain ⟨t, i, s₂, hwalk, rfl⟩ := uvmMap_page hva hr
  obtain ⟨rfl, hpath, hsame⟩ := pgdirWalk_follow h.pages hspace hroot hwalk hs
  obtain ⟨r₂, g, -⟩ := pgdirWalk_grows h.pages hspace hroot hwalk hs
  rw [g.space.follow_store (g.works.grows pgdir 0 hroot) rfl hpath (pteValid_user q) his,
    pteFrame_pte hq (by decide), hsame is his]
  rfl

/-- The loop of `uvm_alloc` finds all pages, and maps the addresses. -/
theorem AddressSpace.uvmAllocLoop {base oldsz : Nat} {as : List Nat} {b : Bool} (h : AddressSpace s pgdir)
    (has : ∀ a ∈ as, a % pageSize = 0) (hr : Runs (uvmAllocLoop pgdir base oldsz as) s b s')
    (hs : s'.short = false) :
    b = true ∧ AddressSpace s' pgdir ∧ ∀ is, is.length = 4 →
      ((follow s' is pgdir).isSome = true ↔
        (follow s is pgdir).isSome = true ∨ ∃ a ∈ as, is = pathOf a) := by
  induction as generalizing s with
  | nil =>
    obtain ⟨rfl, rfl⟩ := runs_pure.mp hr
    exact ⟨rfl, h, fun is _ => by simp⟩
  | cons a as ih =>
    obtain ⟨o, s₁, halloc, hr⟩ := runs_bind.mp hr
    have hs₁ : s₁.short = false := by
      refine not_short ?_ hr hs
      cases o with
      | none => exact (stays_uvmDealloc loose_short base _ oldsz).bind fun _ => .pure _
      | some p =>
        exact (stays_uvmMap loose_short a pageSize p).bind fun _ =>
          stays_uvmAllocLoop loose_short base oldsz as
    obtain ⟨p, free, rfl, hfree, rfl⟩ := kalloc_takes halloc hs₁
    obtain ⟨_, s₂, hmap, hrest⟩ := runs_bind.mp hr
    have hs₂ := not_short (stays_uvmAllocLoop loose_short base oldsz as) hrest hs
    have hone : Runs (Core.uvmAllocLoop pgdir base oldsz [a]) s true s₂ :=
      runs_bind.mpr ⟨some p, _, halloc, runs_bind.mpr ⟨_, s₂, hmap, runs_pure.mpr ⟨rfl, rfl⟩⟩⟩
    have haligned : a % pageSize = 0 := has a List.mem_cons_self
    have h₂ : AddressSpace s₂ pgdir := h.grown hs₂ fun r hspace hroot =>
      uvmAllocLoop_grows h.pages hspace hroot (by simpa using haligned) hone hs₂
    have hbelow : p < physPages := h.pages.below p (.inl (hfree ▸ List.mem_cons_self))
    obtain ⟨rfl, h', hmaps⟩ := ih h₂ (fun a ha => has a (List.mem_cons_of_mem _ ha)) hrest
    refine ⟨rfl, h', fun is his => ?_⟩
    rw [hmaps is his, (h.tail hfree).uvmMap haligned hbelow hmap hs₂ his,
      show follow { s with free } is pgdir = follow s is pgdir from
        follow_word (by rfl) is pgdir]
    by_cases hhere : is = pathOf a
    · rw [if_pos hhere]
      exact iff_of_true (.inl rfl) (.inr ⟨a, List.mem_cons_self, hhere⟩)
    · rw [if_neg hhere, List.exists_mem_cons_iff]
      simp only [hhere, false_or]

theorem mem_pagesFrom {a b x : Nat} : x ∈ pagesFrom a b ↔ ∃ k, x = a + k * pageSize ∧ x < b := by
  have hlt (k : Nat) : k < (b - a + pageSize - 1) / pageSize ↔ a + k * pageSize < b := by
    show k < (b - a + 4096 - 1) / 4096 ↔ a + k * 4096 < b
    omega
  unfold pagesFrom
  rw [List.mem_map]
  constructor
  · rintro ⟨k, hk, rfl⟩
    exact ⟨k, rfl, (hlt k).mp (List.mem_range.mp hk)⟩
  · rintro ⟨k, rfl, hk⟩
    exact ⟨k, List.mem_range.mpr ((hlt k).mpr hk), rfl⟩

theorem roundUp_eq (a : Nat) : roundUp a pageSize = (a + 4095) / 4096 * 4096 := by
  show a + 4096 - 1 - (a + 4096 - 1) % 4096 = _
  omega

/-- The pages from `a` on are those of the addresses from `a` to the end of the last page. -/
theorem path_pagesFrom {a b : Nat} (ha : a % pageSize = 0) (hb : b ≤ uspaceTop) (hva : va < uspaceTop) :
    (∃ x ∈ pagesFrom a b, pathOf va = pathOf x) ↔ a ≤ va ∧ va < roundUp b pageSize := by
  have ha' : a % 4096 = 0 := ha
  have hb' : b ≤ 2 ^ 48 := hb
  rw [roundUp_eq]
  constructor
  · rintro ⟨x, hx, hpath⟩
    obtain ⟨k, rfl, hlt⟩ := mem_pagesFrom.mp hx
    have hpage := (pathOf_inj hva (Nat.lt_of_lt_of_le hlt hb)).mp hpath
    change va / 4096 = (a + k * 4096) / 4096 at hpage
    change a + k * 4096 < b at hlt
    omega
  · rintro ⟨hle, hlt⟩
    have hx : va / 4096 * 4096 ∈ pagesFrom a b := by
      refine mem_pagesFrom.mpr ⟨va / 4096 - a / 4096, ?_, ?_⟩
      · show va / 4096 * 4096 = a + (va / 4096 - a / 4096) * 4096
        omega
      · omega
    refine ⟨_, hx, (pathOf_inj hva ?_).mpr ?_⟩
    · exact Nat.lt_of_le_of_lt (Nat.div_mul_le_self va 4096) hva
    · show va / 4096 = va / 4096 * 4096 / 4096
      omega

theorem roundUp_mod (a : Nat) : roundUp a pageSize % pageSize = 0 := roundDown_mod _ _

/-- `uvm_alloc` returns the new size, and maps the addresses of the new pages. -/
theorem AddressSpace.uvmAlloc {base stksz oldsz newsz n : Nat} (h : AddressSpace s pgdir)
    (hr : Runs (uvmAlloc pgdir base stksz oldsz newsz) s n s') (hs : s'.short = false) :
    (stksz < uspaceTop ∧ base ≤ oldsz ∧ oldsz ≤ newsz ∧ newsz < uspaceTop - stksz) ∧
      n = throughInt newsz ∧ AddressSpace s' pgdir ∧ ∀ va < uspaceTop,
        (Maps s' pgdir va ↔ Maps s pgdir va ∨
          roundUp oldsz pageSize ≤ va ∧ va < roundUp newsz pageSize) := by
  obtain ⟨_, _, hrequire, hr⟩ := runs_bind.mp hr
  obtain ⟨hargs, rfl⟩ := runs_require.mp hrequire
  obtain ⟨b, s₁, hloop, hr⟩ := runs_bind.mp hr
  have hend : s₁ = s' := by
    rw [runs_ite] at hr
    obtain ⟨-, hr⟩ | ⟨-, hr⟩ := hr
    · exact (runs_pure.mp hr).2
    · exact (runs_pure.mp hr).2
  subst hend
  obtain ⟨rfl, h', hmaps⟩ := h.uvmAllocLoop (pagesFrom_aligned (roundUp_mod _)) hloop hs
  rw [if_pos rfl] at hr
  refine ⟨hargs, (runs_pure.mp hr).1.symm, h', fun va hva => ?_⟩
  rw [Maps, hmaps _ rfl, path_pagesFrom (roundUp_mod _) (by omega) hva]
  rfl

/-! ### Writes to user memory -/

/-- A write to a page of data changes no mapping. -/
theorem Space.follow_fill (h : Space r s) (ht : r pgdir = some 0) (hq : r q = some 4) (f : Nat → Nat)
    (his : is.length = 4) : follow (s.fill q f) is pgdir = follow s is pgdir := by
  refine h.follow_congr ht (by omega) fun u m hu hm => Function.update_of_ne ?_ _ _
  rintro rfl
  obtain rfl : m = 4 := Option.some.inj (hu.symm.trans hq)
  omega

/-- The state after writes to user memory. -/
structure Wrote (s : Sys) (pgdir : Nat) (s' : Sys) : Prop where
  space : AddressSpace s' pgdir
  free : s'.free = s.free
  maps : ∀ is, is.length = 4 → follow s' is pgdir = follow s is pgdir

theorem Wrote.refl (h : AddressSpace s pgdir) : Wrote s pgdir s := ⟨h, rfl, fun _ _ => rfl⟩

theorem Wrote.trans {s₁ s₂ : Sys} (h : Wrote s pgdir s₁) (h' : Wrote s₁ pgdir s₂) : Wrote s pgdir s₂ :=
  ⟨h'.space, h'.free.trans h.free, fun is his => (h'.maps is his).trans (h.maps is his)⟩

theorem AddressSpace.fill (h : AddressSpace s pgdir) (hq : Core.translate s pgdir va = some q)
    (f : Nat → Nat) : Wrote s pgdir (s.fill q f) := by
  obtain ⟨r, hspace, hroot⟩ := h.tables
  have hrole := hspace.translate hroot hq
  have g := (Grown.refl hspace).fill hrole f
  exact ⟨⟨g.pages h.pages, ⟨r, g.space, hroot⟩, h.enough⟩, rfl,
    fun is his => hspace.follow_fill hroot hrole f his⟩

theorem maps_iff_translate : Maps s pgdir va ↔ ∃ q, Core.translate s pgdir va = some q := by
  rw [Maps, Option.isSome_iff_exists, translate_eq_follow]

/-- The addresses whose pages a write of the kernel goes to. -/
def touchedPages (va len : Nat) : List Nat :=
  if len = 0 then [] else pagesFrom (roundDown va pageSize) (va + len)

/-- A write to user memory returns if all its pages are mapped. -/
theorem AddressSpace.userWrite_returns {len : Nat} (h : AddressSpace s pgdir) (data : Nat → Nat → Nat)
    (hmaps : ∀ a ∈ touchedPages va len, Maps s pgdir a) :
    ∃ s', Runs (userWrite pgdir va len data) s ⟨⟩ s' ∧ Wrote s pgdir s' := by
  obtain ⟨s', hr, hw, -⟩ : ∃ s', Runs (Core.userWrite pgdir va len data) s ⟨⟩ s' ∧
      (Wrote s pgdir s' ∧ ∀ a ∈ ([] : List Nat), Maps s pgdir a) := by
    refine returns_forM (I := fun l t => Wrote s pgdir t ∧ ∀ a ∈ l, Maps s pgdir a) ⟨.refl h, hmaps⟩
      fun a l t ⟨hw, hl⟩ => ?_
    have hmap : Maps t pgdir a := by
      rw [Maps, hw.maps _ rfl]
      exact hl a List.mem_cons_self
    obtain ⟨q, hq⟩ := maps_iff_translate.mp hmap
    refine ⟨t.fill q (data a), ?_, hw.trans (hw.space.fill hq _),
      fun a ha => hl a (List.mem_cons_of_mem _ ha)⟩
    refine runs_bind.mpr ⟨t, t, runs_get.mpr ⟨rfl, rfl⟩, ?_⟩
    rw [hq]
    exact runs_modify.mpr rfl
  exact ⟨s', hr, hw⟩

/-- A write to user memory that returns goes to mapped pages. -/
theorem AddressSpace.userWrite {len : Nat} {data : Nat → Nat → Nat} {u : Unit} (h : AddressSpace s pgdir)
    (hr : Runs (userWrite pgdir va len data) s u s') : ∀ a ∈ touchedPages va len, Maps s pgdir a := by
  have hall := hr.forM (I := fun l t => Wrote s pgdir t ∧
      ∀ a ∈ touchedPages va len, a ∉ l → Maps s pgdir a) ⟨.refl h, fun a ha hn => absurd ha hn⟩
    fun a l t t' ⟨hw, hdone⟩ ha => by
      obtain ⟨_, _, hget, ha⟩ := runs_bind.mp ha
      obtain ⟨rfl, rfl⟩ := runs_get.mp hget
      split at ha
      case h_1 => exact absurd ha runs_throw
      case h_2 q hq =>
        obtain rfl := runs_modify.mp ha
        refine ⟨hw.trans (hw.space.fill hq _), fun b hb hbl => ?_⟩
        by_cases hba : b = a
        · subst hba
          have hmap : Maps t pgdir b := maps_iff_translate.mpr ⟨q, hq⟩
          rwa [Maps, hw.maps _ rfl] at hmap
        · exact hdone b hb fun hin => (List.mem_cons.mp hin).elim hba hbl
  exact fun a ha => hall.2 a ha List.not_mem_nil

/-! ### Copies to an address space -/

theorem pathOf_page {a b : Nat} (h : a / pageSize = b / pageSize) : pathOf a = pathOf b := by
  unfold pathOf pteIndex
  rw [h]

/-- `copyout` finds the page of an address, or maps one. -/
theorem AddressSpace.copyoutPage {o : Option Nat} (h : AddressSpace s pgdir)
    (hr : Runs (copyoutPage pgdir va) s o s') (hs : s'.short = false) :
    ∃ p, o = some p ∧ AddressSpace s' pgdir ∧ translate s' pgdir va = some p ∧
      ∀ is, is.length = 4 → is ≠ pathOf va → follow s' is pgdir = follow s is pgdir := by
  obtain ⟨r, hspace, hroot⟩ := h.tables
  obtain ⟨p, r', rfl, g, -⟩ := copyoutPage_grows h.pages hspace hroot hr hs
  refine ⟨p, rfl, ⟨g.pages h.pages, ⟨r', g.space, g.works.grows pgdir 0 hroot⟩, hs⟩, ?_⟩
  rw [translate_eq_follow]
  obtain ⟨⟨t, i⟩, s₁, hwalk, hr⟩ := runs_bind.mp hr
  obtain ⟨_, _, hget, hr⟩ := runs_bind.mp hr
  obtain ⟨rfl, rfl⟩ := runs_get.mp hget
  have hs₁ : s₁.short = false := by
    refine not_short (.ite (.pure _) ((stays_kalloc loose_short).bind fun o => ?_)) hr hs
    cases o with
    | none => exact .pure none
    | some p => exact (stays_store loose_short _ _ _).bind fun _ => .pure _
  obtain ⟨rfl, hpath, hsame⟩ := pgdirWalk_follow h.pages hspace hroot hwalk hs₁
  obtain ⟨r₁, g₁, -⟩ := pgdirWalk_grows h.pages hspace hroot hwalk hs₁
  rw [runs_ite] at hr
  obtain ⟨hv, hr⟩ | ⟨-, hr⟩ := hr
  · obtain ⟨heq, rfl⟩ := runs_pure.mp hr
    cases heq
    refine ⟨?_, fun is his _ => hsame is his⟩
    refine (follow_append s₁ [pteIndex va 3, pteIndex va 2, pteIndex va 1] [pteIndex va 0] pgdir).trans ?_
    rw [hpath, Option.bind_some, follow, if_pos hv, follow]
  · obtain ⟨o, s₂, halloc, hr⟩ := runs_bind.mp hr
    have hs₂ : s₂.short = false := by
      refine not_short ?_ hr hs
      cases o with
      | none => exact .pure none
      | some p => exact (stays_store loose_short _ _ _).bind fun _ => .pure _
    obtain ⟨q, free, rfl, hfree, rfl⟩ := kalloc_takes halloc hs₂
    obtain ⟨_, _, hstore, hr⟩ := runs_bind.mp hr
    obtain rfl := runs_modify.mp hstore
    obtain ⟨heq, rfl⟩ := runs_pure.mp hr
    cases heq
    have h₁ : AddressSpace s₁ pgdir :=
      ⟨g₁.pages h.pages, ⟨r₁, g₁.space, g₁.works.grows pgdir 0 hroot⟩, hs₁⟩
    obtain ⟨r₂, hspace₂, hroot₂⟩ := (h₁.tail hfree).tables
    have hbelow : p < physPages := h₁.pages.below p (.inl (hfree ▸ List.mem_cons_self))
    have hword (is : List Nat) (t : Nat) : follow { s₁ with free } is t = follow s₁ is t :=
      follow_word (by rfl) is t
    have hpath₂ : follow { s₁ with free } [pteIndex va 3, pteIndex va 2, pteIndex va 1] pgdir = some t := by
      rw [hword, hpath]
    have hstored {is : List Nat} (his : is.length = 4) :
        follow (({ s₁ with free } : Sys).store t (pteIndex va 0) (pte p pteUserData)) is pgdir =
          if is = pathOf va then some (pteFrame (pte p pteUserData)) else follow { s₁ with free } is pgdir :=
      hspace₂.follow_store hroot₂ rfl hpath₂ (pteValid_user p) his
    refine ⟨?_, fun is his hne => ?_⟩
    · rw [hstored rfl, if_pos rfl, pteFrame_pte hbelow (by decide)]
    · rw [hstored his, if_neg hne, hword, hsame is his]

/-- `copyout` maps the addresses of the copy. -/
theorem AddressSpace.copyoutLoop {fuel len : Nat} {data : Nat → Nat → Nat} {b : Bool}
    (h : AddressSpace s pgdir) (hfuel : len ≤ fuel)
    (hr : Runs (copyoutLoop pgdir data fuel va len) s b s') (hs : s'.short = false) :
    b = true ∧ AddressSpace s' pgdir ∧ (∀ a, Maps s pgdir a → Maps s' pgdir a) ∧
      ∀ a, va ≤ a → a < va + len → Maps s' pgdir a := by
  induction fuel generalizing s va len with
  | zero =>
    obtain ⟨rfl, rfl⟩ := runs_pure.mp hr
    exact ⟨rfl, h, fun _ ha => ha, fun a hle hlt => by omega⟩
  | succ fuel ih =>
    rw [Core.copyoutLoop, runs_ite] at hr
    obtain ⟨hzero, hr⟩ | ⟨hpos, hr⟩ := hr
    · obtain ⟨rfl, rfl⟩ := runs_pure.mp hr
      exact ⟨rfl, h, fun _ ha => ha, fun a hle hlt => by omega⟩
    obtain ⟨page, s₁, hpage, hr⟩ := runs_bind.mp hr
    have hs₁ : s₁.short = false := by
      refine not_short ?_ hr hs
      cases page with
      | none => exact .pure false
      | some p =>
        exact (stays_fill loose_short p fun _ => data va).bind fun _ =>
          stays_copyoutLoop loose_short data fuel _ _
    obtain ⟨p, rfl, h₁, htrans, hsame⟩ := h.copyoutPage hpage hs₁
    obtain ⟨_, _, hfill, hrest⟩ := runs_bind.mp hr
    obtain rfl := runs_modify.mp hfill
    have hw := h₁.fill htrans (data va)
    have hlen : len - min (pageSize - va % pageSize) len ≤ fuel := by
      have hoff : va % pageSize < pageSize := Nat.mod_lt _ (by decide)
      omega
    obtain ⟨rfl, h', hmono, hrange⟩ := ih hw.space hlen hrest
    have hva : Maps s₁ pgdir va := maps_iff_translate.mpr ⟨p, htrans⟩
    have hkeep (a : Nat) (ha : Maps s₁ pgdir a) : Maps s' pgdir a := by
      refine hmono a ?_
      rw [Maps, hw.maps _ rfl]
      exact ha
    refine ⟨rfl, h', fun a ha => hkeep a ?_, fun a hle hlt => ?_⟩
    · by_cases hpath : pathOf a = pathOf va
      · rw [Maps, hpath]
        exact hva
      · rw [Maps, hsame _ rfl hpath]
        exact ha
    · by_cases hfirst : a < va + min (pageSize - va % pageSize) len
      · have hsamepage : a / pageSize = va / pageSize := by
          change a < va + min (4096 - va % 4096) len at hfirst
          show a / 4096 = va / 4096
          omega
        refine hkeep a ?_
        rw [Maps, pathOf_page hsamepage]
        exact hva
      · exact hrange a (by omega) (by omega)

end FtosFfs.Core
