import FtosFfs.Core.ArgStack

/-! The start of a new program: with enough pages for its stack a successful `execve` leaves the arguments
and the environment on it, and without them it may leave part of the stack unmapped. -/

namespace FtosFfs.Core

open Lib Lib.Exec View

variable {s s' : Sys} {pgdir sp stksz : Nat} {c : Nat} {j : Slot} {e : ExecCall} {argv envp : List (List UInt8)}

/-! ### With enough pages -/

/-- There is an address space under `pgdir`, or a page was missing. -/
def Built (pgdir : Nat) (s : Sys) : Prop := s.short = true ∨ AddressSpace s pgdir

theorem stays_built {α : Type} {x : Sys.M α} (hx : Stays (fun s => s.short = true) x)
    (hstep : ∀ r s a s', Pages s → Space r s → r pgdir = some 0 → Runs x s a s' → s'.short = false →
      Pages s' ∧ ∃ r', Space r' s' ∧ r' pgdir = some 0) : Stays (Built pgdir) x := by
  intro s a s' hr hb
  cases hshort : s'.short with
  | true => exact .inl hshort
  | false =>
    have hs := not_short hx hr hshort
    have h := hb.resolve_left (by rw [hs]; decide)
    obtain ⟨r, hspace, hroot⟩ := h.tables
    obtain ⟨hpages, htables⟩ := hstep r s a s' h.pages hspace hroot hr hshort
    exact .inr ⟨hpages, htables, hshort⟩

/-- What an operation does that takes pages for the address space. -/
theorem grown_tables {r r' : Roles} (hp : Pages s) (hroot : r pgdir = some 0) (g : Grown r s r' s') :
    Pages s' ∧ ∃ r', Space r' s' ∧ r' pgdir = some 0 :=
  ⟨g.pages hp, r', g.space, g.works.grows pgdir 0 hroot⟩

theorem building_built (pgdir : Nat) : Building (Built pgdir) pgdir where
  uvmAlloc base stksz oldsz newsz :=
    stays_built ((building_short pgdir).uvmAlloc base stksz oldsz newsz) fun _ _ _ _ hp h ht hr hs => by
      obtain ⟨r', g⟩ := uvmAlloc_grows hp h ht hr hs
      exact grown_tables hp ht g
  copyout va len data :=
    stays_built ((building_short pgdir).copyout va len data) fun _ _ _ _ hp h ht hr hs => by
      obtain ⟨r', g⟩ := copyout_grows hp h ht hr hs
      exact grown_tables hp ht g
  userWrite va len data :=
    stays_built ((building_short pgdir).userWrite va len data) fun _ _ _ _ hp h ht hr _ =>
      grown_tables hp ht (userWrite_grows h ht hr)
  fileSystem ops :=
    stays_built ((building_short pgdir).fileSystem ops) fun r _ _ _ hp h ht hr hs => by
      have hsh := fileSystem_shuffles hp hr hs
      exact ⟨hsh.pages, r, hsh.space h, ht⟩
  setPgdir d i p :=
    stays_built ((building_short pgdir).setPgdir d i p) fun r _ _ _ hp h ht hr _ => by
      obtain rfl := runs_modify.mp hr
      exact ⟨hp.congr rfl rfl, r, h.congr rfl rfl rfl, ht⟩

/-- No table is missing when the segments are loaded, nor when the stack is built. -/
def Supplied (s : Sys) (c : Nat) (j : Slot) (e : ExecCall) (argv envp : List (List UInt8)) : Prop :=
  ∀ pgdir s₁ opened s₂, Runs pgdirInit s (some pgdir) s₁ →
    Runs (execSegments c j pgdir e) s₁ (true, opened) s₂ →
      s₂.short = false ∧ Room s₂ pgdir (stackVisits argv envp)

/-- The run of an `execve` that succeeds: the new table, the segments, and the stack. -/
theorem execArgs_cases {argv envp : List (Option (List UInt8))}
    (hr : Runs (execArgs c j e argv envp) s (some (pgdir, sp, stksz)) s') :
    ∃ s₁ opened s₂ s₃, Runs pgdirInit s (some pgdir) s₁ ∧
      Runs (execSegments c j pgdir e) s₁ (true, opened) s₂ ∧
      Runs (buildStack pgdir argv envp) s₂ (some (sp, stksz)) s₃ ∧ s' = s₃.setPgdir c j (some pgdir) := by
  rw [execArgs, runs_ite] at hr
  obtain ⟨-, hr⟩ | ⟨-, hr⟩ := hr
  · cases (runs_pure.mp hr).1
  rw [runs_after (runs_get.mpr ⟨rfl, rfl⟩)] at hr
  obtain ⟨new, s₁, hinit, hr⟩ := runs_bind.mp hr
  cases new with
  | none =>
    obtain ⟨_, _, -, hr⟩ := runs_bind.mp hr
    cases (runs_pure.mp hr).1
  | some new =>
    obtain ⟨⟨loaded, opened⟩, s₂, hload, hr⟩ := runs_bind.mp hr
    obtain ⟨stack, s₃, hstack, hr⟩ := runs_bind.mp hr
    cases stack with
    | none =>
      obtain ⟨_, _, -, hr⟩ := runs_bind.mp hr
      obtain ⟨_, _, -, hr⟩ := runs_bind.mp hr
      obtain ⟨_, _, -, hr⟩ := runs_bind.mp hr
      cases (runs_pure.mp hr).1
    | some stack =>
      obtain ⟨_, _, hset, hr⟩ := runs_bind.mp hr
      obtain rfl := runs_modify.mp hset
      obtain ⟨heq, rfl⟩ := runs_pure.mp hr
      obtain ⟨newsp, size⟩ := stack
      obtain ⟨rfl, hpair⟩ := Prod.mk.inj (Option.some.inj heq)
      obtain ⟨rfl, rfl⟩ := Prod.mk.inj hpair
      cases loaded with
      | false => cases (runs_pure.mp hstack).1
      | true => exact ⟨s₁, opened, s₂, s₃, hinit, hload, hstack, rfl⟩

/-- A successful `execve` that has the pages it needs leaves the arguments and the environment on the
stack of the new program. -/
theorem execArgs_encodes (hp : Pages s) (hs : s.short = false) (hnul : ∀ l ∈ argv ++ envp, 0 ∉ l)
    (hfit : usedStack argv envp ≤ uspaceTop) (hsupplied : Supplied s c j e argv envp)
    (hr : Runs (execArgs c j e (argv.map some) (envp.map some)) s (some (pgdir, sp, stksz)) s') :
    Encodes (userBytes s' pgdir) sp stksz argv envp := by
  obtain ⟨s₁, opened, s₂, s₃, hinit, hload, hstack, rfl⟩ := execArgs_cases hr
  obtain ⟨hs₂, hroom⟩ := hsupplied pgdir s₁ opened s₂ hinit hload
  obtain ⟨p, free, hsome, hcons, rfl⟩ | ⟨hnone, -⟩ := pgdirInit_cases hinit
  · obtain rfl := Option.some.inj hsome
    have hnew := (AddressSpace.fresh hp hs hcons).1
    have hbuilt := (building_built pgdir).execSegments c j e _ _ _ hload (.inr hnew)
    have hspace := hbuilt.resolve_left (by rw [hs₂]; decide)
    have hencodes := hspace.buildStack_encodes hroom hfit hnul hstack
    exact hencodes
  · cases hnone

/-! ### A process with few pages -/

/-- An ELF file without segments. -/
def emptyFile : ExecCall where
  path := true
  found := true
  ident i := [0x7f, 0x45, 0x4c, 0x46, 2].getD i 0
  phnum := 0
  ph _ := ⟨0, 0, 0, 0⟩
  argv := []
  envp := []
  data _ _ := 0
  ops _ := []

/-- A process with the `n` free pages from page 1 on; all words of page 0 are entries for page 600. -/
def fewPages (n : Nat) : Sys where
  kernel := alone 1 fun _ => ⟨false, 0, none⟩
  pgdir _ _ := some 700
  kstack _ _ := some 701
  free := List.range' 1 n
  word p _ := if p = 0 then pte 600 pteUserData else 0
  arena := []
  short := false

/-- The state in which the stack is built: the new table is page 1. -/
def fewPagesLoaded (n : Nat) : Sys :=
  (({ fewPages (n + 1) with free := List.range' 2 n } : Sys).fill 1 fun _ => 0).setPgdir 0 0 (some 1)

theorem runs_emptyFile (c : Nat) (j : Slot) (pgdir : Nat) (s : Sys) :
    Runs (execSegments c j pgdir emptyFile) s (true, false) (s.setPgdir c j (some pgdir)) := rfl

theorem runs_pgdirInit_fewPages (n : Nat) :
    Runs pgdirInit (fewPages (n + 1)) (some 1)
      (({ fewPages (n + 1) with free := List.range' 2 n } : Sys).fill 1 fun _ => 0) := rfl

theorem fewPages_pages {n : Nat} (hn : n < physPages) : Pages (fewPages n) := by
  refine ⟨List.nodup_range', List.nodup_nil, nofun, fun p hp => ?_⟩
  obtain hp | hp := hp
  · obtain ⟨hlo, hhi⟩ := List.mem_range'_1.mp hp
    omega
  · cases hp

theorem fewPagesLoaded_space {n : Nat} (hn : n + 1 < physPages) : AddressSpace (fewPagesLoaded n) 1 := by
  have hnew := (AddressSpace.fresh (fewPages_pages hn) rfl
    (show (fewPages (n + 1)).free = 1 :: List.range' 2 n from rfl)).1
  exact (building_built 1).execSegments 0 0 emptyFile _ _ _ (runs_emptyFile 0 0 1 _) (.inr hnew)
    |>.resolve_left Bool.false_ne_true

/-- An `execve` of the file without segments is the construction of the stack. -/
theorem runs_execArgs_fewPages {n : Nat} (hr : Runs (buildStack 1 (argv.map some) (envp.map some))
    (fewPagesLoaded n) (some (sp, stksz)) s') :
    Runs (execArgs 0 0 emptyFile (argv.map some) (envp.map some)) (fewPages (n + 1)) (some (1, sp, stksz))
      (s'.setPgdir 0 0 (some 1)) := by
  rw [execArgs, if_neg (by simp [emptyFile])]
  refine runs_bind.mpr ⟨_, _, runs_get.mpr ⟨rfl, rfl⟩, runs_bind.mpr ⟨_, _, runs_pgdirInit_fewPages n, ?_⟩⟩
  refine runs_bind.mpr ⟨_, _, runs_emptyFile 0 0 1 _, runs_bind.mpr ⟨_, _, hr, ?_⟩⟩
  exact runs_bind.mpr ⟨⟨⟩, _, runs_modify.mpr rfl, runs_pure.mpr ⟨rfl, rfl⟩⟩

theorem fewPages_supplied {n : Nat}
    (h : (lacking (fewPagesLoaded n) 1 (stackVisits argv envp)).card ≤ n) :
    Supplied (fewPages (n + 1)) 0 0 emptyFile argv envp := by
  intro pgdir s₁ opened s₂ hinit hload
  obtain ⟨hsome, rfl⟩ := hinit.unique (runs_pgdirInit_fewPages n)
  obtain rfl := Option.some.inj hsome
  obtain ⟨-, rfl⟩ := hload.unique (runs_emptyFile 0 0 1 _)
  refine ⟨rfl, .of_enough (Nat.le_trans h ?_)⟩
  show n ≤ (List.range' 2 n).length
  rw [List.length_range']

theorem card_lacking_le (s : Sys) (pgdir : Nat) (as : List Nat) :
    (lacking s pgdir as).card ≤ 4 * as.length := by
  have hlength : (as.flatMap prefixesOf).length = 4 * as.length := by
    induction as with
    | nil => rfl
    | cons a as ih =>
      rw [List.flatMap_cons, List.length_append, ih, List.length_cons]
      show 4 + 4 * as.length = _
      omega
  calc
    _ ≤ (as.flatMap prefixesOf).toFinset.card := Finset.card_filter_le ..
    _ ≤ (as.flatMap prefixesOf).length := List.toFinset_card_le _
    _ = 4 * as.length := hlength

/-- The arguments `a` and the environment `b`. -/
theorem execArgs_encodes_small :
    ∃ s', Runs (execArgs 0 0 emptyFile [some [97]] [some [98]]) (fewPages 53)
        (some (1, uspaceTop - 80, 10 * pageSize)) s' ∧
      Encodes (userBytes s' 1) (uspaceTop - 80) (10 * pageSize) [[97]] [[98]] := by
  have hcard : (lacking (fewPagesLoaded 52) 1 (stackVisits [[97]] [[98]])).card ≤ 52 :=
    card_lacking_le _ _ (stackVisits [[97]] [[98]])
  have hnul : ∀ l ∈ [[97]] ++ [[98]], (0 : UInt8) ∉ l := by decide
  have hfit : usedStack [[97]] [[98]] ≤ uspaceTop := by decide
  obtain ⟨t, hstack⟩ := (fewPagesLoaded_space (n := 52) (by decide)).buildStack_returns hcard hfit hnul
    (by decide)
  have hr := runs_execArgs_fewPages hstack
  exact ⟨_, hr, execArgs_encodes (fewPages_pages (by decide)) rfl hnul hfit (fewPages_supplied hcard) hr⟩

/-! ### A stack that crosses into a table that is missing -/

/-- The pages below the top that have one last table. -/
def topPages : List Nat := pagesFrom (uspaceTop - 2 ^ 21) uspaceTop

theorem mem_topPages {b : Nat} : b ∈ topPages ↔ ∃ k < 512, b = 2 ^ 48 - 2 ^ 21 + 4096 * k := by
  rw [topPages, mem_pagesFrom]
  constructor
  · rintro ⟨k, rfl, hk⟩
    change 2 ^ 48 - 2 ^ 21 + k * 4096 < 2 ^ 48 at hk
    refine ⟨k, by omega, ?_⟩
    show 2 ^ 48 - 2 ^ 21 + k * 4096 = _
    omega
  · rintro ⟨k, hk, rfl⟩
    refine ⟨k, ?_, ?_⟩
    · show _ = 2 ^ 48 - 2 ^ 21 + k * 4096
      omega
    · show _ < 2 ^ 48
      omega

theorem pathOf_top {k : Nat} (hk : k < 512) : pathOf (2 ^ 48 - 2 ^ 21 + 4096 * k) = [511, 511, 511, k] := by
  have h3 : pteIndex (2 ^ 48 - 2 ^ 21 + 4096 * k) 3 = 511 := by
    show (2 ^ 48 - 2 ^ 21 + 4096 * k) / 4096 / 2 ^ 27 % 512 = 511
    omega
  have h2 : pteIndex (2 ^ 48 - 2 ^ 21 + 4096 * k) 2 = 511 := by
    show (2 ^ 48 - 2 ^ 21 + 4096 * k) / 4096 / 2 ^ 18 % 512 = 511
    omega
  have h1 : pteIndex (2 ^ 48 - 2 ^ 21 + 4096 * k) 1 = 511 := by
    show (2 ^ 48 - 2 ^ 21 + 4096 * k) / 4096 / 2 ^ 9 % 512 = 511
    omega
  have h0 : pteIndex (2 ^ 48 - 2 ^ 21 + 4096 * k) 0 = k := by
    show (2 ^ 48 - 2 ^ 21 + 4096 * k) / 4096 / 1 % 512 = k
    omega
  rw [pathOf, h3, h2, h1, h0]

theorem prefixesOf_top {k : Nat} (hk : k < 512) : prefixesOf (2 ^ 48 - 2 ^ 21 + 4096 * k) =
    [[511], [511, 511], [511, 511, 511], [511, 511, 511, k]] := by
  have hpath := pathOf_top hk
  simp only [pathOf, List.cons.injEq, and_true] at hpath
  obtain ⟨h3, h2, h1, h0⟩ := hpath
  rw [prefixesOf, tablesOf, pathOf, h3, h2, h1, h0]
  rfl

theorem mem_topPrefixes {js : List Nat} : js ∈ topPages.flatMap prefixesOf ↔
    js = [511] ∨ js = [511, 511] ∨ js = [511, 511, 511] ∨ ∃ k < 512, js = [511, 511, 511, k] := by
  rw [List.mem_flatMap]
  constructor
  · rintro ⟨b, hb, hjs⟩
    obtain ⟨k, hk, rfl⟩ := mem_topPages.mp hb
    rw [prefixesOf_top hk] at hjs
    simp only [List.mem_cons, List.not_mem_nil, or_false] at hjs
    obtain rfl | rfl | rfl | rfl := hjs
    · exact .inl rfl
    · exact .inr (.inl rfl)
    · exact .inr (.inr (.inl rfl))
    · exact .inr (.inr (.inr ⟨k, hk, rfl⟩))
  · have hfirst (js : List Nat) (hjs : js ∈ [[511], [511, 511], [511, 511, 511]]) :
        ∃ b ∈ topPages, js ∈ prefixesOf b := by
      refine ⟨_, mem_topPages.mpr ⟨0, by decide, rfl⟩, ?_⟩
      rw [prefixesOf_top (by decide)]
      exact List.mem_append_left [[511, 511, 511, 0]] hjs
    rintro (rfl | rfl | rfl | ⟨k, hk, rfl⟩)
    · exact hfirst _ (by decide)
    · exact hfirst _ (by decide)
    · exact hfirst _ (by decide)
    · refine ⟨_, mem_topPages.mpr ⟨k, hk, rfl⟩, ?_⟩
      rw [prefixesOf_top hk]
      simp

/-- In an empty table all of them are lacking, with three tables. -/
theorem card_lacking_top (hempty : s.word pgdir 511 = 0) : (lacking s pgdir topPages).card = 515 := by
  have hnot (js : List Nat) : ¬Present s pgdir (511 :: js) := by
    rw [Present, follow, hempty, if_neg (by decide)]
    exact Bool.false_ne_true
  have hset : lacking s pgdir topPages = {[511], [511, 511], [511, 511, 511]} ∪
      (Finset.range 512).image fun k => [511, 511, 511, k] := by
    ext js
    rw [lacking, mem_absent, mem_topPrefixes, Finset.mem_union, Finset.mem_image]
    simp only [Finset.mem_insert, Finset.mem_singleton, Finset.mem_range]
    constructor
    · rintro ⟨rfl | rfl | rfl | ⟨k, hk, rfl⟩, -⟩
      · exact .inl (.inl rfl)
      · exact .inl (.inr (.inl rfl))
      · exact .inl (.inr (.inr rfl))
      · exact .inr ⟨k, hk, rfl⟩
    · rintro ((rfl | rfl | rfl) | ⟨k, hk, rfl⟩)
      · exact ⟨.inl rfl, hnot _⟩
      · exact ⟨.inr (.inl rfl), hnot _⟩
      · exact ⟨.inr (.inr (.inl rfl)), hnot _⟩
      · exact ⟨.inr (.inr (.inr ⟨k, hk, rfl⟩)), hnot _⟩
  have hdisjoint : Disjoint ({[511], [511, 511], [511, 511, 511]} : Finset (List Nat))
      ((Finset.range 512).image fun k => [511, 511, 511, k]) := by
    rw [Finset.disjoint_left]
    intro js hjs himage
    obtain ⟨k, -, rfl⟩ := Finset.mem_image.mp himage
    simp at hjs
  have himage : ((Finset.range 512).image fun k => [511, 511, 511, k]).card = 512 := by
    rw [Finset.card_image_of_injective _ fun k k' h => by simpa using h, Finset.card_range]
  rw [hset, Finset.card_union_of_disjoint hdisjoint, himage]
  rfl

/-- There are no free pages, and the second last table of the top, page `b`, has no entry for the last
table below. -/
structure Bound (a b : Nat) (s : Sys) : Prop where
  free : s.free = []
  stray : ∀ i, s.word 0 i = pte 600 pteUserData
  root : pteValid (s.word 1 511) ∧ pteFrame (s.word 1 511) = a
  upper : pteValid (s.word a 511) ∧ pteFrame (s.word a 511) = b
  missing : s.word b 510 = 0
  apart : a ≠ 600 ∧ b ≠ 600

theorem Bound.fill {a b : Nat} (h : Bound a b s) (f : Nat → Nat) : Bound a b (s.fill 600 f) := by
  have hword {p : Nat} (hp : p ≠ 600) : (s.fill 600 f).word p = s.word p := Function.update_of_ne hp _ _
  refine ⟨h.free, ?_, ?_, ?_, ?_, h.apart⟩
  · rw [hword (by decide)]
    exact h.stray
  · rw [hword (by decide)]
    exact h.root
  · rw [hword h.apart.1]
    exact h.upper
  · rw [hword h.apart.2]
    exact h.missing

/-- The addresses of the last table that is missing. -/
def Below (va : Nat) : Prop := pteIndex va 3 = 511 ∧ pteIndex va 2 = 511 ∧ pteIndex va 1 = 510

/-- A walk through a table that is missing goes on in page 0, to what its words are entries for. -/
theorem Bound.copyoutPage {a b va : Nat} (h : Bound a b s) (hva : Below va) :
    Runs (copyoutPage 1 va) s (some 600) { s with short := true } := by
  obtain ⟨h3, h2, h1⟩ := hva
  have hstep₁ : Runs (walkStep va true 1 3) s a s := by
    unfold walkStep
    rw [h3, runs_after (runs_get.mpr ⟨rfl, rfl⟩)]
    refine runs_bind.mpr ⟨(), s, runs_when.mpr (.inr ⟨fun hn => hn.1 h.root.1, rfl⟩), ?_⟩
    rw [runs_after (runs_get.mpr ⟨rfl, rfl⟩)]
    exact runs_pure.mpr ⟨h.root.2, rfl⟩
  have hstep₂ : Runs (walkStep va true a 2) s b s := by
    unfold walkStep
    rw [h2, runs_after (runs_get.mpr ⟨rfl, rfl⟩)]
    refine runs_bind.mpr ⟨(), s, runs_when.mpr (.inr ⟨fun hn => hn.1 h.upper.1, rfl⟩), ?_⟩
    rw [runs_after (runs_get.mpr ⟨rfl, rfl⟩)]
    exact runs_pure.mpr ⟨h.upper.2, rfl⟩
  have hinit : Runs pgdirInit s none { s with short := true } := by
    unfold pgdirInit kalloc
    rw [runs_bind]
    refine ⟨none, { s with short := true }, ?_, runs_pure.mpr ⟨rfl, rfl⟩⟩
    rw [runs_after (runs_get.mpr ⟨rfl, rfl⟩), h.free]
    exact runs_bind.mpr ⟨⟨⟩, _, runs_set.mpr rfl, runs_pure.mpr ⟨rfl, rfl⟩⟩
  have hstep₃ : Runs (walkStep va true b 1) s 0 { s with short := true } := by
    unfold walkStep
    rw [h1, runs_after (runs_get.mpr ⟨rfl, rfl⟩)]
    refine runs_bind.mpr ⟨(), { s with short := true }, runs_when.mpr (.inl ⟨⟨?_, rfl⟩, ?_⟩), ?_⟩
    · rw [h.missing]
      decide
    · exact runs_bind.mpr ⟨none, _, hinit, runs_pure.mpr ⟨rfl, rfl⟩⟩
    · rw [runs_after (runs_get.mpr ⟨rfl, rfl⟩)]
      refine runs_pure.mpr ⟨?_, rfl⟩
      show pteFrame (s.word b 510) = 0
      rw [h.missing]
      rfl
  have hwalk : Runs (pgdirWalk 1 va true) s (0, pteIndex va 0) { s with short := true } := by
    refine runs_bind.mpr ⟨0, _, ?_, runs_pure.mpr ⟨rfl, rfl⟩⟩
    simp only [List.foldlM_cons, List.foldlM_nil]
    exact runs_bind.mpr ⟨a, s, hstep₁, runs_bind.mpr ⟨b, s, hstep₂, runs_bind.mpr ⟨0, _, hstep₃,
      runs_pure.mpr ⟨rfl, rfl⟩⟩⟩⟩
  refine runs_bind.mpr ⟨_, _, hwalk, ?_⟩
  rw [runs_after (runs_get.mpr ⟨rfl, rfl⟩), runs_ite]
  have hword : ({ s with short := true } : Sys).word 0 (pteIndex va 0) = pte 600 pteUserData := h.stray _
  refine .inl ⟨?_, runs_pure.mpr ⟨?_, rfl⟩⟩
  · rw [hword]
    exact pteValid_user 600
  · rw [hword]
    rfl

/-- All of the copy goes there. -/
theorem Bound.copyoutBytesLoop {a b : Nat} (h : Bound a b s) (fuel va i n : Nat) (haligned : va % 4096 = 0)
    (hbelow : ∀ k < n, Below (va + 4096 * k)) (hfuel : n ≤ fuel) (src : Nat → UInt8) :
    ∃ s', Runs (copyoutBytesLoop 1 src fuel va i (4096 * n)) s true s' ∧ Bound a b s' := by
  induction n generalizing s va fuel i with
  | zero =>
    refine ⟨s, ?_, h⟩
    cases fuel with
    | zero => exact runs_pure.mpr ⟨rfl, rfl⟩
    | succ fuel => exact runs_pure.mpr ⟨rfl, rfl⟩
  | succ n ih =>
    obtain ⟨fuel, rfl⟩ : ∃ k, fuel = k + 1 := ⟨fuel - 1, by omega⟩
    have hpage := h.copyoutPage (by simpa using hbelow 0 (Nat.succ_pos n))
    have hmin : min (pageSize - va % pageSize) (4096 * (n + 1)) = 4096 := by
      show min (4096 - va % 4096) _ = 4096
      omega
    have hshort : Bound a b { s with short := true } := ⟨h.free, h.stray, h.root, h.upper, h.missing, h.apart⟩
    have hrest (k : Nat) (hk : k < n) : Below (va + 4096 + 4096 * k) := by
      have := hbelow (k + 1) (by omega)
      rwa [show va + 4096 * (k + 1) = va + 4096 + 4096 * k by omega] at this
    obtain ⟨s', hr, hs'⟩ := ih (hshort.fill (pageWrite (s.word 600) (va % pageSize) 4096 fun k => src (i + k)))
      fuel (va + 4096) (i + 4096) (by omega) hrest (by omega)
    refine ⟨s', ?_, hs'⟩
    rw [Core.copyoutBytesLoop, if_neg (by omega)]
    refine runs_bind.mpr ⟨some 600, _, hpage, runs_bind.mpr ⟨⟨⟩, _, runs_modify.mpr rfl, ?_⟩⟩
    rw [hmin, show 4096 * (n + 1) - 4096 = 4096 * n by omega]
    exact hr

/-- After the pages below the top have been taken there is no page for another last table. -/
theorem Stretches.bound (h : Stretches (fewPagesLoaded 515) 1 topPages s) : ∃ a b, Bound a b s := by
  have hall (k : Nat) (hk : k < 512) : Present s 1 [511, 511, 511, k] :=
    (h.present [511, 511, 511, k] (Nat.le_refl 4)).mpr
      (.inr (mem_topPrefixes.mpr (.inr (.inr (.inr ⟨k, hk, rfl⟩)))))
  have hempty (i : Nat) : (fewPagesLoaded 515).word 1 i = 0 := rfl
  obtain ⟨hspace, -, -, -⟩ := (space_empty (fewPages 516)).take (p := 1) (l := 0) (f := fun _ => 0)
    (fewPages_pages (by decide)) (show _ = 1 :: List.range' 2 515 from rfl) (fun _ _ => by decide)
  have hspace' : Space (Function.update (fun _ => none) 1 (some 0)) (fewPagesLoaded 515) :=
    hspace.congr rfl rfl rfl
  have hzeroed : Zeroed (Function.update (fun _ => none) 1 (some 0)) (fewPagesLoaded 515) := by
    intro t l i ht _ _
    by_cases h1 : t = 1
    · rw [h1, hempty]
    · rw [Function.update_of_ne h1] at ht
      cases ht
  obtain ⟨r, g⟩ := h.tables _ hspace' (Function.update_self ..)
  have houtside {p : Nat} (hp : p = 0 ∨ 516 < p) : r p = none ∧ s.word p = (fewPagesLoaded 515).word p := by
    have hnone : Function.update (fun _ => none) 1 (some 0) p = none :=
      Function.update_of_ne (by omega) _ _
    obtain ⟨hr, -, hword⟩ := g.works.outside hnone fun hin => by
      obtain ⟨hlo, hhi⟩ := List.mem_range'_1.mp hin
      omega
    exact ⟨hr, hword⟩
  -- the tables of the pages
  have hroot := g.works.grows 1 0 (Function.update_self ..)
  have hpath := hall 0 (by decide)
  rw [Present, follow] at hpath
  have hv₁ : pteValid (s.word 1 511) := by
    by_contra hv
    rw [if_neg hv] at hpath
    cases hpath
  rw [if_pos hv₁] at hpath
  generalize ha : pteFrame (s.word 1 511) = a at hpath
  rw [follow] at hpath
  have hv₂ : pteValid (s.word a 511) := by
    by_contra hv
    rw [if_neg hv] at hpath
    cases hpath
  rw [if_pos hv₂] at hpath
  generalize hb : pteFrame (s.word a 511) = b at hpath
  have hfollow : follow s [511, 511] 1 = some b := by
    rw [follow, if_pos hv₁, ha, follow, if_pos hv₂, hb, follow]
  have hrole_a : r a = some 1 := ha ▸ g.space.typed 1 0 511 hroot (by decide) hv₁
  have hrole_b : r b = some 2 := hb ▸ g.space.typed a 1 511 hrole_a (by decide) hv₂
  have htaken := h.taken
  rw [card_lacking_top (hempty 511)] at htaken
  have hmissing : ¬pteValid (s.word b 510) := by
    intro hv
    have hpresent : Present s 1 [511, 511, 510] := by
      rw [Present, show [511, 511, 510] = [511, 511] ++ [510] from rfl, follow_append, hfollow,
        Option.bind_some,
        follow, if_pos hv]
      rfl
    obtain hold | hnew := (h.present _ (by decide)).mp hpresent
    · rw [Present, follow, hempty, if_neg (by decide)] at hold
      cases hold
    · obtain hjs | hjs | hjs | ⟨k, -, hjs⟩ := mem_topPrefixes.mp hnew
      · simp at hjs
      · simp at hjs
      · simp at hjs
      · simp at hjs
  refine ⟨a, b, ?_, fun i => ?_, ⟨hv₁, ha⟩, ⟨hv₂, hb⟩,
    g.zeroed hzeroed b 2 510 hrole_b (by decide) hmissing, ?_, ?_⟩
  · refine List.eq_nil_of_length_eq_zero ?_
    have hlength : (fewPagesLoaded 515).free.length = 515 := List.length_range'
    omega
  · rw [(houtside (.inl rfl)).2]
    rfl
  · rintro rfl
    rw [(houtside (.inr (by decide))).1] at hrole_a
    cases hrole_a
  · rintro rfl
    rw [(houtside (.inr (by decide))).1] at hrole_b
    cases hrole_b

/-- An argument whose stack fills the pages below the top that have one last table. -/
@[irreducible] def longArgument : List UInt8 := List.replicate 2097095 97

theorem stringArea_longArgument : stringArea [longArgument] [] = 2097096 := by
  rw [stringArea, List.append_nil, List.reverse_singleton, block, List.flatMap_singleton,
    List.length_append, longArgument,
    List.length_replicate]
  rfl

theorem usedStack_longArgument : usedStack [longArgument] [] = 2 ^ 21 := by
  rw [usedStack_eq, block, block, List.reverse_singleton, List.reverse_nil, List.flatMap_singleton,
    List.flatMap_nil,
    List.length_append, longArgument, List.length_replicate]
  rfl

theorem zero_notMem_longArgument : 0 ∉ longArgument := by
  intro h
  rw [longArgument] at h
  cases List.eq_of_mem_replicate h

theorem upperVisits_longArgument : upperVisits [longArgument] [] = topPages ++ [uspaceTop - 2 ^ 21] := by
  have hstring : (block [longArgument].reverse).length = 2097096 := stringArea_longArgument
  have hlen : longArgument.length + 1 = 2097096 := by rw [longArgument, List.length_replicate]
  rw [upperVisits, usedStack_longArgument, hstring, stringVisits, stringVisits, stringVisits, hlen,
    List.append_nil,
    List.nil_append]
  rfl

theorem prefixes_longArgument (js : List Nat) :
    js ∈ (upperVisits [longArgument] []).flatMap prefixesOf ↔ js ∈ topPages.flatMap prefixesOf := by
  rw [upperVisits_longArgument, List.flatMap_append, List.flatMap_singleton, List.mem_append]
  refine or_iff_left_of_imp fun hjs => ?_
  exact List.mem_flatMap.mpr ⟨_, mem_topPages.mpr ⟨0, by decide, rfl⟩, hjs⟩

/-- The last copy returns without having mapped anything. -/
theorem Bound.growStack {a b : Nat} (h : Bound a b s) :
    ∃ s', Runs (growStack 1 (uspaceTop - 2 ^ 21)) s (some (uspaceTop - 2 ^ 21, 520 * pageSize)) s' ∧
      Bound a b s' := by
  have hbelow (k : Nat) (hk : k < 8) : Below (2 ^ 48 - 2129920 + 4096 * k) := by
    refine ⟨?_, ?_, ?_⟩
    · show (2 ^ 48 - 2129920 + 4096 * k) / 4096 / 2 ^ 27 % 512 = 511
      omega
    · show (2 ^ 48 - 2129920 + 4096 * k) / 4096 / 2 ^ 18 % 512 = 511
      omega
    · show (2 ^ 48 - 2129920 + 4096 * k) / 4096 / 2 ^ 9 % 512 = 510
      omega
  obtain ⟨s', hr, hs'⟩ := h.copyoutBytesLoop (4096 * 8) (2 ^ 48 - 2129920) 0 8 (by decide) hbelow
    (by decide) fun _ => 0
  refine ⟨s', ?_, hs'⟩
  have hcopy : Runs (copyoutBytes 1 (2 ^ 48 - 2129920) (fun _ => 0) (4096 * 8)) s true s' := by
    unfold copyoutBytes
    rw [if_neg (by decide)]
    exact hr
  have hused : sub64 uspaceTop (uspaceTop - 2 ^ 21) = 2 ^ 21 := by decide
  have hstksz : roundUp (2 ^ 21) (10 * pageSize) = 2129920 := by decide
  have hlow : sub64 uspaceTop 2129920 = 2 ^ 48 - 2129920 := by decide
  have hrest : sub64 2129920 (2 ^ 21) = 4096 * 8 := by decide
  unfold Core.growStack
  simp only [hused, hstksz, hlow, hrest]
  refine runs_bind.mpr ⟨true, s', hcopy, ?_⟩
  rw [if_pos rfl]
  exact runs_bind.mpr ⟨(), s', runs_require.mpr ⟨by decide, rfl⟩, runs_pure.mpr ⟨rfl, rfl⟩⟩

theorem Bound.unmapped {a b : Nat} (h : Bound a b s) : userBytes s 1 (uspaceTop - 520 * pageSize) = none := by
  have hnone : translate s 1 (uspaceTop - 520 * pageSize) = none := by
    rw [translate_eq_follow, show pathOf (uspaceTop - 520 * pageSize) = [511, 511, 510, 504] from by decide,
      follow,
      if_pos h.root.1, h.root.2, follow, if_pos h.upper.1, h.upper.2, follow, h.missing, if_neg (by decide)]
  rw [userBytes, userPage, hnone, ite_self]
  rfl

/-- With 516 free pages `execve` returns to a stack whose lower part is not mapped. -/
theorem execArgs_leaves_unmapped :
    Pages (fewPages 516) ∧ (fewPages 516).short = false ∧ 0 ∉ longArgument ∧
      ∃ s', Runs (execArgs 0 0 emptyFile [some longArgument] []) (fewPages 516)
          (some (1, uspaceTop - 2 ^ 21, 520 * pageSize)) s' ∧
        ¬Encodes (userBytes s' 1) (uspaceTop - 2 ^ 21) (520 * pageSize) [longArgument] [] := by
  refine ⟨fewPages_pages (by decide), rfl, zero_notMem_longArgument, ?_⟩
  have hcard : (lacking (fewPagesLoaded 515) 1 (upperVisits [longArgument] [])).card =
      (fewPagesLoaded 515).free.length := by
    rw [lacking_congr prefixes_longArgument, card_lacking_top rfl]
    exact List.length_range'.symm
  have hnul : ∀ l ∈ [longArgument] ++ [], 0 ∉ l := by
    intro l hl
    obtain rfl : l = longArgument := by simpa using hl
    exact zero_notMem_longArgument
  have hspace : AddressSpace (fewPagesLoaded 515) 1 := fewPagesLoaded_space (by decide)
  have hroom : Room (fewPagesLoaded 515) 1 (upperVisits [longArgument] []) := .of_enough (Nat.le_of_eq hcard)
  have hfit : usedStack [longArgument] [] ≤ uspaceTop := by
    rw [usedStack_longArgument]
    decide
  obtain ⟨-, -, hless⟩ | ⟨s₁, heq, g, -⟩ := hspace.buildStack_push hroom hfit hnul
  · omega
  rw [usedStack_longArgument] at heq
  obtain ⟨a, b, hbound⟩ := (g.congr prefixes_longArgument).bound
  obtain ⟨s', hgrow, hbound'⟩ := hbound.growStack
  refine ⟨s'.setPgdir 0 0 (some 1), ?_, fun henc => ?_⟩
  · have hstack : Runs (buildStack 1 ([longArgument].map some) ([].map some)) (fewPagesLoaded 515)
        (some (uspaceTop - 2 ^ 21, 520 * pageSize)) s' := by
      unfold Runs at hgrow ⊢
      rw [heq, hgrow]
    have hexec := runs_execArgs_fewPages hstack
    exact hexec
  · obtain ⟨d, -, -, -, -, -, -, -, hmapped⟩ := henc.reads
    obtain ⟨x, hx, -⟩ := hmapped (uspaceTop - 520 * pageSize) (Nat.le_refl _) (by decide)
    have hnone : userBytes (s'.setPgdir 0 0 (some 1)) 1 (uspaceTop - 520 * pageSize) = none := hbound'.unmapped
    rw [hnone] at hx
    cases hx

end FtosFfs.Core
