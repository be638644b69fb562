import FtosFfs.Core.Walks

/-! `uvm_map`: the entries with which the processor translates addresses after it, for any physical
pages that are mapped. -/

namespace FtosFfs.Core

open Lib Lib.Exec

variable {s s' : Sys} {r r' : Roles} {p q t l va sz pa pgdir i v : Nat} {is js : List Nat}

/-- Two paths of one length to one table are the same. -/
theorem Tables.follow_inj (h : Tables r s) (ht : r t = some l) (hl : l + is.length ≤ 3)
    (hlen : is.length = js.length) (hi : follow s is t = some q) (hj : follow s js t = some q) :
    is = js := by
  induction is using List.reverseRecOn generalizing js q with
  | nil => exact (List.eq_nil_of_length_eq_zero hlen.symm).symm
  | append_singleton is i ih =>
    obtain ⟨js, j, rfl⟩ : ∃ js' j, js = js' ++ [j] := by
      have hne : js ≠ [] := by
        rintro rfl
        simp at hlen
      exact ⟨_, _, (List.dropLast_append_getLast hne).symm⟩
    simp only [List.length_append, List.length_cons, List.length_nil] at hl hlen
    -- the last entry of a path, in a table of the level before
    have hlast {is : List Nat} {i : Nat} (hl : l + is.length + 1 ≤ 3)
        (hq : follow s (is ++ [i]) t = some q) :
        ∃ u, follow s is t = some u ∧ r u = some (l + is.length) ∧ pteValid (s.word u i) ∧
          pteFrame (s.word u i) = q := by
      rw [follow_append] at hq
      obtain ⟨u, hu, hq⟩ := Option.bind_eq_some_iff.mp hq
      rw [follow, Option.ite_none_right_eq_some] at hq
      exact ⟨u, hu, h.follow_role ht (by omega) hu, hq.1, Option.some.inj hq.2⟩
    obtain ⟨u, hu, hrole, hv, hframe⟩ := hlast (by omega) hi
    obtain ⟨u', hu', hrole', hv', hframe'⟩ := hlast (by omega) hj
    obtain ⟨rfl, rfl⟩ :=
      h.inj u _ i u' _ j hrole (by omega) hrole' (by omega) hv hv' (hframe.trans hframe'.symm)
    rw [ih (by omega) (by omega) hu hu']

theorem Tables.follow_congr (h : Tables r s) (ht : r t = some l) (hl : l + is.length ≤ 3)
    (hw : ∀ u m, r u = some m → m < 3 → s'.word u = s.word u) : follow s' is t = follow s is t := by
  induction is generalizing t l with
  | nil => rfl
  | cons i is ih =>
    rw [List.length_cons] at hl
    rw [follow, follow, hw t l ht (by omega)]
    split
    case isFalse => rfl
    case isTrue hv => exact ih (h.typed t l i ht (by omega) hv) (by omega)

/-- A store to a last table. -/
theorem Tables.store (h : Tables r s) (ht : r t = some 3) (i v : Nat) : Tables r (s.store t i v) := by
  have hword (u m : Nat) (hu : r u = some m) (hm : m < 3) : (s.store t i v).word u = s.word u := by
    refine Function.update_of_ne ?_ _ _
    rintro rfl
    obtain rfl : m = 3 := Option.some.inj (hu.symm.trans ht)
    omega
  constructor
  · exact h.apart
  · intro u m j hu hm hv
    rw [hword u m hu hm] at hv ⊢
    exact h.typed u m j hu hm hv
  · intro u m j u' m' j' hu hm hu' hm' hv hv' heq
    rw [hword u m hu hm] at hv heq
    rw [hword u' m' hu' hm'] at hv' heq
    exact h.inj u m j u' m' j' hu hm hu' hm' hv hv' heq

/-- A store to the last table of an address changes the leaves of its page only. -/
theorem Tables.leaf_store {x : Nat} (h : Tables r s) (hroot : r pgdir = some 0)
    (hwalk : follow s (tablePath va) pgdir = some t) (hv : pteValid v) :
    leaf (s.store t (pteIndex va 0) v) pgdir x =
      if pathOf x = pathOf va then some v else leaf s pgdir x := by
  have hlen (y : Nat) : 0 + (tablePath y).length ≤ 3 := show 0 + 3 ≤ 3 by decide
  have ht : r t = some 3 := h.follow_role hroot (hlen va) hwalk
  have hupper : follow (s.store t (pteIndex va 0) v) (tablePath x) pgdir = follow s (tablePath x) pgdir := by
    refine h.follow_congr hroot (hlen x) fun u m hu hm => Function.update_of_ne ?_ _ _
    rintro rfl
    obtain rfl : m = 3 := Option.some.inj (hu.symm.trans ht)
    omega
  unfold leaf leafOf
  rw [hupper]
  cases hx : follow s (tablePath x) pgdir with
  | none =>
    rw [if_neg]
    · rfl
    · intro heq
      rw [pathOf_eq, pathOf_eq] at heq
      rw [(List.append_inj heq rfl).1, hwalk] at hx
      cases hx
  | some u =>
    rw [Option.bind_some, Option.bind_some]
    by_cases hhere : u = t ∧ pteIndex x 0 = pteIndex va 0
    · obtain ⟨rfl, hi⟩ := hhere
      have hsame : tablePath x = tablePath va := h.follow_inj hroot (hlen x) rfl hx hwalk
      rw [hi, Sys.word_store_self, if_pos hv, if_pos]
      rw [pathOf_eq, pathOf_eq, hsame, hi]
    · have hne : pathOf x ≠ pathOf va := by
        intro heq
        rw [pathOf_eq, pathOf_eq] at heq
        obtain ⟨hpath, hi⟩ := List.append_inj heq rfl
        rw [hpath, hwalk] at hx
        exact hhere ⟨(Option.some.inj hx).symm, (List.cons.inj hi).1⟩
      rw [if_neg hne, Sys.word_store_ne s hhere]

/-- The page to which `uvm_map` maps the address `a`. -/
def mappedPage (va pa a : Nat) : Nat := pa / pageSize + (a - roundDown va pageSize) / pageSize

/-- The entries after the pages of the addresses `as` have been mapped. -/
structure Translated (s : Sys) (pgdir va pa : Nat) (as : List Nat) (s' : Sys) : Prop where
  pages : Pages s'
  tables : ∃ r, Tables r s' ∧ r pgdir = some 0
  leaf : ∀ x, (∃ a ∈ as, pathOf x = pathOf a ∧
      leaf s' pgdir x = some (pte (mappedPage va pa a) pteUserData)) ∨
    ((∀ a ∈ as, pathOf x ≠ pathOf a) ∧ leaf s' pgdir x = leaf s pgdir x)

/-- A round of `uvm_map`. -/
theorem Translated.round {as : List Nat} {a : Nat} {u : PUnit} {s₁ : Sys} (h : Translated s pgdir va pa as s₁)
    (hr : Runs (do
      let (table, i) ← pgdirWalk pgdir a true
      let page := pa / pageSize + (a - roundDown va pageSize) / pageSize
      modify fun s => s.store table i (pte page pteUserData) : Sys.M Unit) s₁ u s') (hs : s'.short = false) :
    Translated s pgdir va pa (as ++ [a]) s' := by
  obtain ⟨r, htables, hroot⟩ := h.tables
  obtain ⟨⟨t, i⟩, s₂, hwalk, hr⟩ := runs_bind.mp hr
  obtain rfl := runs_modify.mp hr
  obtain ⟨hpath, rfl⟩ := htables.pgdirWalk_inside h.pages hroot hwalk hs
  obtain ⟨⟨r₂, hw⟩, -⟩ := htables.pgdirWalk h.pages hroot hwalk
  have hroot₂ := hw.grows pgdir 0 hroot
  have hlen (y : Nat) : 0 + (tablePath y).length = 3 := show 0 + 3 = 3 by decide
  have ht : r₂ t = some 3 := hw.tables.follow_role hroot₂ (hlen a).le hpath
  have hpages := hw.pages h.pages
  refine ⟨⟨hpages.free, hpages.arena, hpages.disjoint, hpages.below⟩, ⟨r₂, hw.tables.store ht _ _, hroot₂⟩,
    fun x => ?_⟩
  rw [hw.tables.leaf_store hroot₂ hpath (pteValid_user _)]
  by_cases hxa : pathOf x = pathOf a
  · rw [if_pos hxa]
    exact .inl ⟨a, List.mem_append_right _ List.mem_cons_self, hxa, rfl⟩
  · rw [if_neg hxa, Core.leaf, hw.leaves _ _ _ _ hroot (hlen x)]
    refine (h.leaf x).imp ?_ ?_
    · rintro ⟨b, hb, hxb, hleaf⟩
      exact ⟨b, List.mem_append_left _ hb, hxb, hleaf⟩
    · rintro ⟨hnone, hleaf⟩
      refine ⟨fun b hb => ?_, hleaf⟩
      rcases List.mem_append.mp hb with hb | hb
      · exact hnone b hb
      · rw [List.mem_singleton.mp hb]
        exact hxa

theorem Tables.uvmMap {u : Unit} (h : Tables r s) (hp : Pages s) (hroot : r pgdir = some 0)
    (hr : Runs (uvmMap pgdir va sz (pa / pageSize)) s u s') (hs : s'.short = false) :
    Translated s pgdir va pa (pagesFrom (roundDown va pageSize) (va + sz)) s' := by
  have hstart : Translated s pgdir va pa [] s := ⟨hp, ⟨r, h, hroot⟩, fun x => .inr ⟨nofun, rfl⟩⟩
  obtain ⟨done, heq, hdone⟩ := hr.forM (I := fun l t => t.short = false →
      ∃ done, pagesFrom (roundDown va pageSize) (va + sz) = done ++ l ∧ Translated s pgdir va pa done t)
    (fun _ => ⟨[], rfl, hstart⟩) (fun a l t t' ht hround ht' => by
      have hshort := not_short ((stays_pgdirWalk loose_short pgdir a true).bind fun _ =>
        stays_store loose_short _ _ _) hround ht'
      obtain ⟨done, heq, hdone⟩ := ht hshort
      exact ⟨done ++ [a], by rw [heq, List.append_assoc]; rfl, hdone.round hround ht'⟩) hs
  rw [heq, List.append_nil]
  exact hdone

theorem uvmMap_returns (pgdir va sz q : Nat) (s : Sys) : ∃ s', Runs (Core.uvmMap pgdir va sz q) s () s' := by
  obtain ⟨s', hr, -⟩ := returns_forM (I := fun _ _ => True) (l := pagesFrom (roundDown va pageSize) (va + sz))
    (s := s) (f := fun ptr => (do
      let (table, i) ← pgdirWalk pgdir ptr true
      let page := q + (ptr - roundDown va pageSize) / pageSize
      modify fun s => s.store table i (pte page pteUserData) : Sys.M Unit)) trivial fun a l t _ => by
    obtain ⟨⟨table, i⟩, t', hwalk⟩ := pgdirWalk_returns pgdir a true t
    exact ⟨_, runs_bind.mpr ⟨(table, i), t', hwalk, runs_modify.mpr rfl⟩, trivial⟩
  exact ⟨s', hr⟩

/-- An entry for a page below 2^32 keeps its page and its flags. -/
theorem pteFrame_pte_of_lt {flags : Nat} (hp : p < 2 ^ 20) (hf : flags < pageSize) :
    pteFrame (pte p flags) = p ∧ pteFlags (pte p flags) = flags := by
  change flags < 4096 at hf
  constructor
  · show (4096 * p + flags) % 2 ^ 32 / 4096 = p
    omega
  · show (4096 * p + flags) % 4096 = flags
    omega

/-- `uvm_map` translates the addresses of the pages of the range, and no others, to the physical
addresses from that of `pa` on. -/
theorem uvmMap_translates (h : Tables r s) (hp : Pages s) (hroot : r pgdir = some 0)
    (hva : va + sz ≤ uspaceTop)
    (hpa : roundDown pa pageSize + (va + sz - roundDown va pageSize) ≤ 2 ^ 32) :
    ∃ s', Runs (uvmMap pgdir va sz (pa / pageSize)) s () s' ∧ (s'.short = false →
      (∃ r', Tables r' s' ∧ r' pgdir = some 0) ∧ ∀ x < uspaceTop,
        if roundDown va pageSize ≤ x ∧ roundDown x pageSize < va + sz then
          ∃ e, leaf s' pgdir x = some e ∧
            pageSize * pteFrame e = roundDown pa pageSize + (roundDown x pageSize - roundDown va pageSize) ∧
            pteFlags e = pteUserData
        else leaf s' pgdir x = leaf s pgdir x) := by
  obtain ⟨s', hr⟩ := uvmMap_returns pgdir va sz (pa / pageSize) s
  refine ⟨s', hr, fun hs => ?_⟩
  have hmapped := h.uvmMap hp hroot hr hs
  refine ⟨hmapped.tables, fun x hx => ?_⟩
  have hdown (a : Nat) : roundDown a pageSize = a / 4096 * 4096 := by
    show a - a % 4096 = _
    omega
  rw [hdown, hdown, hdown]
  rw [hdown, hdown] at hpa
  have htop : uspaceTop = 2 ^ 48 := rfl
  -- the address of a round on the page of `x`
  have hround {a : Nat} (ha : a ∈ pagesFrom (roundDown va pageSize) (va + sz)) :
      pathOf x = pathOf a ↔ a = x / 4096 * 4096 := by
    obtain ⟨k, rfl, hlt⟩ := mem_pagesFrom.mp ha
    rw [hdown] at hlt ⊢
    rw [pathOf_inj hx (by omega)]
    show x / 4096 = (va / 4096 * 4096 + k * 4096) / 4096 ↔ va / 4096 * 4096 + k * 4096 = _
    omega
  have hmem : x / 4096 * 4096 ∈ pagesFrom (roundDown va pageSize) (va + sz) ↔
      va / 4096 * 4096 ≤ x ∧ x / 4096 * 4096 < va + sz := by
    rw [mem_pagesFrom, hdown]
    constructor
    · rintro ⟨k, hk, hlt⟩
      change x / 4096 * 4096 = va / 4096 * 4096 + k * 4096 at hk
      omega
    · rintro ⟨hle, hlt⟩
      refine ⟨x / 4096 - va / 4096, ?_, hlt⟩
      show x / 4096 * 4096 = va / 4096 * 4096 + (x / 4096 - va / 4096) * 4096
      omega
  rcases hmapped.leaf x with ⟨a, ha, hxa, hleaf⟩ | ⟨hnone, hleaf⟩
  · obtain rfl := (hround ha).mp hxa
    rw [if_pos (hmem.mp ha)]
    obtain ⟨hle, hlt⟩ := hmem.mp ha
    have hpage : mappedPage va pa (x / 4096 * 4096) = pa / 4096 + (x / 4096 - va / 4096) := by
      unfold mappedPage
      rw [hdown]
      show pa / 4096 + (x / 4096 * 4096 - va / 4096 * 4096) / 4096 = _
      omega
    obtain ⟨hframe, hflags⟩ := pteFrame_pte_of_lt
      (show mappedPage va pa (x / 4096 * 4096) < 2 ^ 20 by omega) (show pteUserData < pageSize by decide)
    refine ⟨_, hleaf, ?_, hflags⟩
    rw [hframe, hpage]
    show 4096 * (pa / 4096 + (x / 4096 - va / 4096)) = _
    omega
  · rw [if_neg]
    · exact hleaf
    · intro hin
      exact hnone _ (hmem.mpr hin) ((hround (hmem.mpr hin)).mpr rfl)

/-- A process with an empty table and three free pages. -/
def mapProcess : Sys := { strayProcess with free := [2, 3, 4] }

/-- The page of the address 0x1234 in `mapProcess`, mapped to the physical page of 0x5678. -/
theorem uvmMap_translates_page :
    ∃ s', Runs (uvmMap 1 0x1234 1 (0x5678 / pageSize)) mapProcess () s' ∧
      ∃ e, leaf s' 1 0x1234 = some e ∧ pageSize * pteFrame e = 0x5000 ∧ pteFlags e = pteUserData := by
  have hempty (i : Nat) : ¬pteValid (mapProcess.word 1 i) := show ¬pteValid 0 by decide
  have hspace : Space (Function.update (fun _ => none) 1 (some 0)) mapProcess :=
    ((space_empty mapProcess).add rfl (by decide) nofun (by decide) fun _ => hempty).1
  have hpages : Pages mapProcess := by
    refine ⟨by decide, List.nodup_nil, nofun, fun p hp => ?_⟩
    have hbelow : ∀ p ∈ [2, 3, 4], p < physPages := by decide
    exact hbelow p (hp.resolve_right nofun)
  have hshort : returnsWith (uvmMap 1 0x1234 1 (0x5678 / pageSize)) mapProcess
    (fun _ t => !t.short) = true := by
    decide +kernel
  obtain ⟨_, t, hrun, hs⟩ := runs_of_returnsWith hshort
  obtain ⟨s', hr, htranslates⟩ := uvmMap_translates hspace.toTables hpages (Function.update_self ..)
    (show 0x1234 + 1 ≤ uspaceTop by decide)
    (show roundDown 0x5678 pageSize + (0x1234 + 1 - roundDown 0x1234 pageSize) ≤ 2 ^ 32 by decide)
  obtain ⟨-, rfl⟩ := hr.unique hrun
  obtain ⟨-, hleaf⟩ := htranslates (by simpa using hs)
  have hin := hleaf 0x1234 (by decide)
  rw [if_pos (by decide)] at hin
  exact ⟨s', hr, hin⟩

end FtosFfs.Core
