import FtosFfs.Core.Growproc
import FtosFfs.Core.Leak
import FtosFfs.Lib.View

/-! The bytes of an address space, and the copies of `execve` to the stack of the new program: the
strings of `argv` and `envp`, the pointers to them, and the auxiliary vector.  The segments are those of
`execve`, and a copy takes the pages that its `copyout` takes. -/

namespace FtosFfs.Core

open Lib Lib.Exec

/-! ### Bytes of pages -/

/-- Byte `i` of a page. -/
def pageByte (f : Nat → Nat) (i : Nat) : UInt8 := Bytes.byteOf (f (i / 8)) (i % 8)

/-- The page after a copy of the `n` bytes `src 0`, `src 1`, ... to its bytes from `off` on. -/
def pageWrite (f : Nat → Nat) (off n : Nat) (src : Nat → UInt8) : Nat → Nat := fun w =>
  if 8 * w + 8 ≤ off ∨ off + n ≤ 8 * w then f w
  else (Bytes.ofFn fun k => if off ≤ 8 * w + k ∧ 8 * w + k < off + n then src (8 * w + k - off)
    else Bytes.byteOf (f w) k : Bytes 8).word 0 8

/-- The page of an address of user memory. -/
def userPage (s : Sys) (pgdir va : Nat) : Option Nat :=
  if va < uspaceTop then translate s pgdir va else none

/-- The bytes of user memory. -/
def userBytes (s : Sys) (pgdir : Nat) : View := fun va =>
  (userPage s pgdir va).map fun page => pageByte (s.word page) (va % pageSize)

/-! ### Copies to the new stack -/

/-- The loop of `copyout`, for the bytes of `src` from byte `i` on. -/
def copyoutBytesLoop (pgdir : Nat) (src : Nat → UInt8) : Nat → Nat → Nat → Nat → Sys.M Bool
  | 0, _, _, _ => pure true
  | fuel + 1, va, i, len =>
    if len = 0 then pure true
    else do
      match ← copyoutPage pgdir va with
      | none => pure false
      | some page => do
        let n := min (pageSize - va % pageSize) len
        modify fun s => s.fill page (pageWrite (s.word page) (va % pageSize) n fun k => src (i + k))
        copyoutBytesLoop pgdir src fuel (va + n) (i + n) (len - n)

/-- `copyout` of the `len` bytes of `src`; for a null pointer these are zeros. -/
def copyoutBytes (pgdir va : Nat) (src : Nat → UInt8) (len : Nat) : Sys.M Bool :=
  if uspaceTop < (va + len) % 2 ^ 64 then pure false else copyoutBytesLoop pgdir src len va 0 len

/-- `copyout` asks for data at the addresses from `va` on only. -/
theorem copyoutLoop_congr {pgdir fuel va len : Nat} {data data' : Nat → Nat → Nat}
    (h : ∀ a, va ≤ a → data a = data' a) :
      copyoutLoop pgdir data fuel va len = copyoutLoop pgdir data' fuel va len := by
  induction fuel generalizing va len with
  | zero => rfl
  | succ fuel ih =>
    rw [copyoutLoop, copyoutLoop, h va (Nat.le_refl va)]
    refine ite_congr rfl (fun _ => rfl) fun _ => bind_congr fun o => ?_
    cases o with
    | none => rfl
    | some page => exact bind_congr fun _ => ih fun a ha => h a (Nat.le_trans (Nat.le_add_right ..) ha)

theorem copyoutBytesLoop_pages (pgdir : Nat) (src : Nat → UInt8) (fuel va i len : Nat) (s : Sys) :
    ∃ data, copyoutBytesLoop pgdir src fuel va i len s = copyoutLoop pgdir data fuel va len s := by
  induction fuel generalizing va i len s with
  | zero => exact ⟨fun _ _ => 0, rfl⟩
  | succ fuel ih =>
    by_cases hlen : len = 0
    · exact ⟨fun _ _ => 0, by rw [copyoutBytesLoop, copyoutLoop, if_pos hlen, if_pos hlen]⟩
    cases hpage : copyoutPage pgdir va s with
    | error e =>
      refine ⟨fun _ _ => 0, ?_⟩
      rw [copyoutBytesLoop, copyoutLoop, if_neg hlen, if_neg hlen]
      exact (bind_eq_error hpage).trans (bind_eq_error hpage).symm
    | ok x =>
      obtain ⟨o, s₁⟩ := x
      have hr : Runs (copyoutPage pgdir va) s o s₁ := hpage
      cases o with
      | none =>
        refine ⟨fun _ _ => 0, ?_⟩
        rw [copyoutBytesLoop, copyoutLoop, if_neg hlen, if_neg hlen, bind_eq_of_runs hr, bind_eq_of_runs hr]
      | some page =>
        set n := min (pageSize - va % pageSize) len with hn
        let bytes := pageWrite (s₁.word page) (va % pageSize) n fun k => src (i + k)
        obtain ⟨data, hrest⟩ := ih (va + n) (i + n) (len - n) (s₁.fill page bytes)
        have hpos : 0 < n := Nat.lt_min.mpr ⟨Nat.sub_pos_of_lt (Nat.mod_lt _ (by decide)),
          Nat.pos_of_ne_zero hlen⟩
        -- no later round comes to this page again
        refine ⟨fun a => if a = va then bytes else data a, ?_⟩
        rw [copyoutBytesLoop, copyoutLoop, if_neg hlen, if_neg hlen, bind_eq_of_runs hr, bind_eq_of_runs hr]
        have hfill {g : Sys → Sys} : Runs (modify g : Sys.M PUnit) s₁ ⟨⟩ (g s₁) := runs_modify.mpr rfl
        dsimp only
        rw [bind_eq_of_runs hfill, bind_eq_of_runs hfill, if_pos rfl, ← hn, hrest]
        refine congrFun (copyoutLoop_congr fun a ha => ?_) _
        rw [if_neg (by omega)]

/-- A copy of bytes is a `copyout` with what it leaves in its pages. -/
theorem copyoutBytes_pages (pgdir va len : Nat) (src : Nat → UInt8) (s : Sys) :
    ∃ data, copyoutBytes pgdir va src len s = copyout pgdir va len data s := by
  obtain ⟨data, h⟩ := copyoutBytesLoop_pages pgdir src len va 0 len s
  refine ⟨data, ?_⟩
  unfold copyoutBytes copyout
  split
  · rfl
  · exact h

/-- The strings of `argv` or `envp`, from `sp` down; nothing for one that is not a string of the
process. -/
def copyStrings (pgdir : Nat) : List (Option (List UInt8)) → Nat → Sys.M (Option Nat)
  | [], sp => pure (some sp)
  | none :: _, _ => pure none
  | some str :: rest, sp => do
    let sp := sub64 sp (str.length + 1)
    if ← copyoutBytes pgdir sp (fun k => str.getD k 0) (str.length + 1) then copyStrings pgdir rest sp
    else pure none

/-- A read of the kernel from a user address, under the table `pgdir`. -/
def loadByte (pgdir va : Nat) : Sys.M UInt8 := do
  let s ← get
  match userBytes s pgdir va with
  | none => throw .abort
  | some b => pure b

/-- A store of the kernel to an aligned user address, under the table `pgdir`. -/
def storeWord (pgdir va v : Nat) : Sys.M Unit := do
  let s ← get
  match userPage s pgdir va with
  | none => throw .abort
  | some page => modify fun s => s.store page (va % pageSize / 8) v

/-- `for (; *sp; sp++); sp++`, at most up to the end of user memory. -/
def skipString (pgdir : Nat) : Nat → Nat → Sys.M Nat
  | 0, _ => throw .abort
  | fuel + 1, sp => do
    let b ← loadByte pgdir sp
    if b = 0 then pure (sp + 1) else skipString pgdir fuel (sp + 1)

/-- The loop that fills the first `i` elements of the array at `arr`, from the last to the first, with
the addresses of the strings from `sp` up: the address past the strings. -/
def storePointers (pgdir arr : Nat) : Nat → Nat → Sys.M Nat
  | 0, sp => pure sp
  | i + 1, sp => do
    storeWord pgdir (arr + 8 * i) sp
    let sp ← skipString pgdir (uspaceTop - sp) sp
    storePointers pgdir arr i sp

/-- `AT_PAGESZ`. -/
def atPagesz : Nat := 6

/-- The auxiliary vector, the pointers to the strings from `sp` up, and the number of arguments, from
`newsp` up. -/
def storeArgs (pgdir newsp sp argc envc : Nat) : Sys.M Unit := do
  let newargv := newsp + 8
  let newenvp := newargv + 8 * (argc + 1)
  let newauxv := newenvp + 8 * (envc + 1)
  storeWord pgdir newauxv atPagesz
  storeWord pgdir (newauxv + 8) pageSize
  let sp ← storePointers pgdir newenvp envc sp
  let _ ← storePointers pgdir newargv argc sp
  storeWord pgdir newsp argc

/-- The stack below the stack pointer `newsp`, and its size. -/
def growStack (pgdir newsp : Nat) : Sys.M (Option (Nat × Nat)) := do
  let stksz := roundUp (sub64 uspaceTop newsp) (10 * pageSize)
  if ← copyoutBytes pgdir (sub64 uspaceTop stksz) (fun _ => 0) (sub64 stksz (sub64 uspaceTop newsp)) then do
    require .panic (sub64 uspaceTop stksz < newsp)
    pure (some (newsp, stksz))
  else pure none

/-- The stack of the new program: its stack pointer and its size. -/
def buildStack (pgdir : Nat) (argv envp : List (Option (List UInt8))) : Sys.M (Option (Nat × Nat)) := do
  match ← copyStrings pgdir argv uspaceTop with
  | none => pure none
  | some sp =>
    match ← copyStrings pgdir envp sp with
    | none => pure none
    | some sp => do
      let newsp := roundDown (sub64 (sub64 sp 16) ((envp.length + argv.length + 4) * 8)) 16
      if ← copyoutBytes pgdir newsp (fun _ => 0) (sub64 sp newsp) then do
        storeArgs pgdir newsp sp argv.length envp.length
        growStack pgdir newsp
      else pure none

/-- `execve` in the process of slot `j` with the strings `argv` and `envp`: the table of the new
program, its stack pointer and the size of its stack. -/
def execArgs (c : Nat) (j : Slot) (e : ExecCall) (argv envp : List (Option (List UInt8))) :
    Sys.M (Option (Nat × Nat × Nat)) := do
  if ¬e.path then pure none
  else do
    let s ← get
    let oldpgdir := s.pgdir c j
    match ← pgdirInit with
    | none => do
      modify fun s => s.setPgdir c j oldpgdir
      pure none
    | some pgdir => do
      let (loaded, opened) ← execSegments c j pgdir e
      match ← (if loaded then buildStack pgdir argv envp else pure none) with
      | some (sp, stksz) => do
        modify fun s => s.setPgdir c j (some pgdir)
        pure (some (pgdir, sp, stksz))
      | none => do
        vmFree pgdir
        when opened (fileSystem (e.ops (2 * e.phnum + 1)))
        modify fun s => s.setPgdir c j oldpgdir
        pure none

variable {s s' : Sys} {pgdir va off n i v p q t l k a : Nat} {f : Nat → Nat} {src : Nat → UInt8}
  {r : Roles} {is as : List Nat}

theorem pageByte_pageWrite : pageByte (pageWrite f off n src) i =
    if off ≤ i ∧ i < off + n then src (i - off) else pageByte f i := by
  have hsplit : 8 * (i / 8) + i % 8 = i := Nat.div_add_mod i 8
  have hlast : i % 8 < 8 := Nat.mod_lt _ (by decide)
  unfold pageByte pageWrite
  split
  case isTrue hout => rw [if_neg (by omega)]
  case isFalse =>
    rw [Bytes.byteOf_word hlast, Nat.zero_add, Bytes.get_ofFn hlast, hsplit]

theorem pageByte_update : pageByte (Function.update f i v) k =
    if k / 8 = i then Bytes.byteOf v (k % 8) else pageByte f k := by
  unfold pageByte
  split
  case isTrue h => rw [h, Function.update_self]
  case isFalse h => rw [Function.update_of_ne h]

theorem userPage_some : userPage s pgdir va = some p ↔ va < uspaceTop ∧ translate s pgdir va = some p := by
  rw [userPage, Option.ite_none_right_eq_some]

/-! ### Writes to pages of an address space -/

/-- A path is not changed by a write to a page of data. -/
theorem Space.follow_data (h : Space r s) (ht : r pgdir = some 0) (hq : r q = some 4) (f : Nat → Nat)
    (his : is.length ≤ 4) : follow (s.fill q f) is pgdir = follow s is pgdir := by
  refine h.follow_congr ht (by omega) fun u m hu hm => Function.update_of_ne ?_ _ _
  rintro rfl
  obtain rfl : m = 4 := Option.some.inj (hu.symm.trans hq)
  omega

/-- Two addresses on one page of memory lie on one page of the address space. -/
theorem AddressSpace.page_inj (h : AddressSpace s pgdir) (hva : va < uspaceTop) (ha : a < uspaceTop)
    (hq : translate s pgdir va = some q) (hq' : translate s pgdir a = some q) :
    a / pageSize = va / pageSize := by
  obtain ⟨r, hspace, hroot⟩ := h.tables
  rw [translate_eq_follow] at hq hq'
  exact (pathOf_inj ha hva).mp (hspace.follow_inj hroot (by rw [length_pathOf]) rfl hq' hq)

theorem translate_page (h : a / pageSize = va / pageSize) : translate s pgdir a = translate s pgdir va := by
  rw [translate_eq_follow, translate_eq_follow, pathOf_page h]

/-- After a write to the page of an address the other pages are as before. -/
theorem AddressSpace.userBytes_fill (h : AddressSpace s pgdir) (hva : va < uspaceTop)
    (hq : translate s pgdir va = some q) (f : Nat → Nat) (ha : a < uspaceTop) :
    userBytes (s.fill q f) pgdir a =
      if a / pageSize = va / pageSize then some (pageByte f (a % pageSize)) else userBytes s pgdir a := by
  have hsame : translate (s.fill q f) pgdir a = translate s pgdir a := by
    rw [translate_eq_follow, translate_eq_follow]
    exact (h.fill hq f).maps _ rfl
  unfold userBytes userPage
  rw [if_pos ha, hsame]
  split
  case isTrue hpage =>
    rw [translate_page hpage, hq, Option.map_some]
    simp [Sys.fill]
  case isFalse hpage =>
    cases hp : translate s pgdir a with
    | none => rfl
    | some p =>
      have hne : p ≠ q := by
        rintro rfl
        exact hpage (h.page_inj hva ha hq hp)
      rw [Option.map_some, Option.map_some]
      simp [Sys.fill, hne]

/-- A copy to one page of the address space. -/
theorem AddressSpace.fill_writes (h : AddressSpace s pgdir) (hva : va < uspaceTop)
    (hq : translate s pgdir va = some q) (src : Nat → UInt8) (hn : va % pageSize + n ≤ pageSize)
    (hend : va + n ≤ uspaceTop) :
    View.Writes (userBytes s pgdir) va n src
      (userBytes (s.fill q (pageWrite (s.word q) (va % pageSize) n src)) pgdir) := by
  change va % 4096 + n ≤ 4096 at hn
  constructor
  · intro k hk
    have hpage : (va + k) / pageSize = va / pageSize := by
      show (va + k) / 4096 = va / 4096
      omega
    have hoff : (va + k) % pageSize = va % pageSize + k := by
      show (va + k) % 4096 = va % 4096 + k
      omega
    rw [h.userBytes_fill hva hq _ (by omega), if_pos hpage, hoff, pageByte_pageWrite, if_pos (by omega),
      Nat.add_sub_cancel_left]
  · intro x b hx hout
    have hxt : x < uspaceTop := by
      by_contra hge
      rw [userBytes, userPage, if_neg hge] at hx
      cases hx
    rw [h.userBytes_fill hva hq _ hxt]
    split
    case isFalse => exact hx
    case isTrue hpage =>
      rw [userBytes, userPage, if_pos hxt, translate_page hpage, hq] at hx
      have hkeep : ¬(va % pageSize ≤ x % pageSize ∧ x % pageSize < va % pageSize + n) := by
        change x / 4096 = va / 4096 at hpage
        show ¬(va % 4096 ≤ x % 4096 ∧ x % 4096 < va % 4096 + n)
        omega
      rw [pageByte_pageWrite, if_neg hkeep]
      exact hx

/-- A store of an aligned word. -/
theorem AddressSpace.store_writes (h : AddressSpace s pgdir) (hva : va < uspaceTop)
    (hq : translate s pgdir va = some q) (v : Nat) (haligned : va % 8 = 0) :
    View.Writes (userBytes s pgdir) va 8 (Bytes.byteOf v)
      (userBytes (s.store q (va % pageSize / 8) v) pgdir) := by
  have hbytes {x : Nat} (hx : x < uspaceTop) : userBytes (s.store q (va % pageSize / 8) v) pgdir x = _ :=
    h.userBytes_fill hva hq (Function.update (s.word q) (va % pageSize / 8) v) hx
  change va < 2 ^ 48 at hva
  constructor
  · intro k hk
    have hpage : (va + k) / pageSize = va / pageSize := by
      show (va + k) / 4096 = va / 4096
      omega
    have hword : (va + k) % pageSize / 8 = va % pageSize / 8 := by
      show (va + k) % 4096 / 8 = va % 4096 / 8
      omega
    have hbyte : (va + k) % pageSize % 8 = k := by
      show (va + k) % 4096 % 8 = k
      omega
    rw [hbytes (show va + k < 2 ^ 48 by omega), if_pos hpage, pageByte_update, if_pos hword, hbyte]
  · intro x b hx hout
    have hxt : x < uspaceTop := by
      by_contra hge
      rw [userBytes, userPage, if_neg hge] at hx
      cases hx
    rw [hbytes hxt]
    split
    case isFalse => exact hx
    case isTrue hpage =>
      rw [userBytes, userPage, if_pos hxt, translate_page hpage, hq] at hx
      have hkeep : ¬x % pageSize / 8 = va % pageSize / 8 := by
        change x / 4096 = va / 4096 at hpage
        show ¬x % 4096 / 8 = va % 4096 / 8
        omega
      rw [pageByte_update, if_neg hkeep]
      exact hx

/-! ### The pages and tables that addresses lack -/

/-- The paths to the tables of the address below the first, and to its page. -/
def prefixesOf (va : Nat) : List (List Nat) := tablesOf va ++ [pathOf va]

/-- The paths on which there is nothing. -/
def absent (s : Sys) (pgdir : Nat) (paths : List (List Nat)) : Finset (List Nat) :=
  paths.toFinset.filter (¬Present s pgdir ·)

/-- The tables and pages of the addresses that are not there. -/
def lacking (s : Sys) (pgdir : Nat) (as : List Nat) : Finset (List Nat) :=
  absent s pgdir (as.flatMap prefixesOf)

theorem length_prefixesOf {js : List Nat} (h : js ∈ prefixesOf va) : js.length ≤ 4 := by
  simp only [prefixesOf, tablesOf, List.mem_append, List.mem_cons, List.not_mem_nil, or_false] at h
  obtain (rfl | rfl | rfl) | rfl := h
  · exact show 1 ≤ 4 by decide
  · exact show 2 ≤ 4 by decide
  · exact show 3 ≤ 4 by decide
  · exact show 4 ≤ 4 by decide

/-- The pages and the tables of one address that are not there. -/
def lackingOne (s : Sys) (pgdir va : Nat) : Nat := missing s (pathOf va) pgdir

theorem card_lacking_one (s : Sys) (pgdir a : Nat) : (lacking s pgdir [a]).card = lackingOne s pgdir a := by
  have hlist : (([a] : List Nat).flatMap prefixesOf).toFinset =
      {[pteIndex a 3], [pteIndex a 3, pteIndex a 2], [pteIndex a 3, pteIndex a 2, pteIndex a 1],
        [pteIndex a 3, pteIndex a 2, pteIndex a 1, pteIndex a 0]} := by
    simp [prefixesOf, tablesOf, pathOf]
  unfold lacking absent lackingOne pathOf Present
  rw [hlist]
  simp only [Finset.filter_insert, Finset.filter_singleton, follow, missing]
  obtain ⟨t, ht⟩ : ∃ t, pteFrame (s.word pgdir (pteIndex a 3)) = t := ⟨_, rfl⟩
  obtain ⟨u, hu⟩ : ∃ u, pteFrame (s.word t (pteIndex a 2)) = u := ⟨_, rfl⟩
  obtain ⟨w, hw⟩ : ∃ w, pteFrame (s.word u (pteIndex a 1)) = w := ⟨_, rfl⟩
  by_cases h3 : pteValid (s.word pgdir (pteIndex a 3))
  · by_cases h2 : pteValid (s.word t (pteIndex a 2))
    · by_cases h1 : pteValid (s.word u (pteIndex a 1))
      · by_cases h0 : pteValid (s.word w (pteIndex a 0))
        · simp [h3, ht, h2, hu, h1, hw, h0]
        · simp [h3, ht, h2, hu, h1, hw, h0]
      · simp [h3, ht, h2, hu, h1]
    · simp [h3, ht, h2]
  · simp [h3]

theorem mem_absent {paths : List (List Nat)} {js : List Nat} :
    js ∈ absent s pgdir paths ↔ js ∈ paths ∧ ¬Present s pgdir js := by
  rw [absent, Finset.mem_filter, List.mem_toFinset]

/-- After the first paths have been made the others still lack theirs. -/
theorem card_absent_append {ps qs : List (List Nat)} (hps : ∀ js ∈ ps, js.length ≤ 4)
    (hqs : ∀ js ∈ qs, js.length ≤ 4)
    (h : ∀ js, js.length ≤ 4 → (Present s' pgdir js ↔ Present s pgdir js ∨ js ∈ ps)) :
    (absent s pgdir (ps ++ qs)).card = (absent s pgdir ps).card + (absent s' pgdir qs).card := by
  have hunion : absent s pgdir (ps ++ qs) = absent s pgdir ps ∪ absent s' pgdir qs := by
    ext js
    rw [Finset.mem_union, mem_absent, mem_absent, mem_absent, List.mem_append]
    constructor
    · rintro ⟨hin, hnot⟩
      by_cases hfirst : js ∈ ps
      · exact .inl ⟨hfirst, hnot⟩
      · have hq := hin.resolve_left hfirst
        exact .inr ⟨hq, fun hp => ((h js (hqs js hq)).mp hp).elim hnot hfirst⟩
    · rintro (⟨hfirst, hnot⟩ | ⟨hq, hnot⟩)
      · exact ⟨.inl hfirst, hnot⟩
      · exact ⟨.inr hq, fun hp => hnot ((h js (hqs js hq)).mpr (.inl hp))⟩
  have hdisjoint : Disjoint (absent s pgdir ps) (absent s' pgdir qs) := by
    rw [Finset.disjoint_left]
    intro js hfirst hrest
    obtain ⟨hp, -⟩ := mem_absent.mp hfirst
    exact (mem_absent.mp hrest).2 ((h js (hps js hp)).mpr (.inr hp))
  rw [hunion, Finset.card_union_of_disjoint hdisjoint]

theorem card_absent_le {ps qs : List (List Nat)} (h : ps ⊆ qs) (s : Sys) (pgdir : Nat) :
    (absent s pgdir ps).card ≤ (absent s pgdir qs).card := by
  refine Finset.card_le_card (Finset.filter_subset_filter _ fun js hjs => ?_)
  rw [List.mem_toFinset] at hjs ⊢
  exact h hjs

theorem missing_append (s : Sys) (is : List Nat) (j t : Nat) : missing s (is ++ [j]) t =
    match follow s is t with
    | none => missing s is t + 1
    | some u => if pteValid (s.word u j) then 0 else 1 := by
  induction is generalizing t with
  | nil => rfl
  | cons i is ih =>
    rw [List.cons_append, missing, follow, missing]
    split
    case isTrue => exact ih _
    case isFalse => simp

/-- A page that is not mapped is lacking, with its missing tables. -/
theorem lackingOne_of_not_maps (h : ¬Maps s pgdir va) :
    lackingOne s pgdir va = missingTables s pgdir va + 1 := by
  unfold Maps at h
  rw [pathOf_eq, follow_append] at h
  rw [lackingOne, pathOf_eq, missing_append, missingTables]
  cases hfollow : follow s (tablePath va) pgdir with
  | none => rfl
  | some u =>
    rw [hfollow, Option.bind_some, follow] at h
    have hmissing : missing s (tablePath va) pgdir = 0 := by
      rw [missing_eq_zero_iff, hfollow]
      rfl
    rw [hmissing]
    split at h
    case isTrue => exact absurd rfl h
    case isFalse hv => exact if_neg hv

/-! ### The page of a copy -/

theorem walkStep_data (hp : Pages s) (h : Space r s) (ht : r t = some l) (hl : l < 3)
    (hr : Runs (walkStep va true t k) s n s') (hs : s'.short = false) (hq : r q = some 4) :
    s'.word q = s.word q := by
  obtain ⟨-, rfl, -⟩ | ⟨-, p, free, hfree, rfl, -⟩ := walkStep_cases hr hs
  · rfl
  · have hqp : q ≠ p := by
      rintro rfl
      rw [h.apart q (.inl (hfree ▸ List.mem_cons_self))] at hq
      cases hq
    have hqt : q ≠ t := by
      rintro rfl
      obtain rfl : l = 4 := Option.some.inj (ht.symm.trans hq)
      omega
    simp [Sys.store, Sys.fill, hqp, hqt]

/-- A walk writes to no page of data. -/
theorem pgdirWalk_data {e : Nat × Nat} (hp : Pages s) (h : Space r s) (ht : r pgdir = some 0)
    (hr : Runs (pgdirWalk pgdir va true) s e s') (hs : s'.short = false) (hq : r q = some 4) :
    s'.word q = s.word q := by
  obtain ⟨t₃, _, hfold, hpure⟩ := runs_bind.mp hr
  obtain ⟨-, rfl⟩ := runs_pure.mp hpure
  simp only [List.foldlM_cons, List.foldlM_nil] at hfold
  obtain ⟨t₁, s₁, h₁, hr⟩ := runs_bind.mp hfold
  obtain ⟨t₂, s₂, h₂, hr⟩ := runs_bind.mp hr
  obtain ⟨_, _, h₃, hr⟩ := runs_bind.mp hr
  obtain ⟨-, rfl⟩ := runs_pure.mp hr
  have hs₂ := not_short (stays_walkStep loose_short va true t₂ 1) h₃ hs
  have hs₁ := not_short (stays_walkStep loose_short va true t₁ 2) h₂ hs₂
  obtain ⟨r₁, g₁, ht₁⟩ := walkStep_grows hp h ht (by omega) h₁ hs₁
  obtain ⟨r₂, g₂, ht₂⟩ := walkStep_grows (g₁.pages hp) g₁.space ht₁ (by omega) h₂ hs₂
  have hq₁ := g₁.works.grows q 4 hq
  have hq₂ := g₂.works.grows q 4 hq₁
  calc
    _ = s₂.word q := walkStep_data (g₂.pages (g₁.pages hp)) g₂.space ht₂ (by omega) h₃ hs hq₂
    _ = s₁.word q := walkStep_data (g₁.pages hp) g₁.space ht₁ (by omega) h₂ hs₂ hq₁
    _ = s.word q := walkStep_data hp h ht (by omega) h₁ hs₁ hq

/-- The tables after copies; no entry of them strays if none did before. -/
structure Extends (r : Roles) (s : Sys) (r' : Roles) (s' : Sys) : Prop extends Grown r s r' s' where
  zeroed : Zeroed r s → Zeroed r' s'

theorem Extends.trans {r₁ r' : Roles} {s₁ : Sys} (h : Extends r s r₁ s₁) (h' : Extends r₁ s₁ r' s') :
    Extends r s r' s' :=
  ⟨h.toGrown.trans h'.toGrown, fun hz => h'.zeroed (h.zeroed hz)⟩

theorem walkStep_extends (hp : Pages s) (h : Space r s) (ht : r t = some l) (hl : l < 3)
    (hr : Runs (walkStep va true t k) s n s') (hs : s'.short = false) :
    ∃ r', Extends r s r' s' ∧ r' n = some (l + 1) := by
  obtain ⟨hv, rfl, rfl⟩ | ⟨hv, p, free, hfree, rfl, rfl⟩ := walkStep_cases hr hs
  · exact ⟨r, ⟨.refl h, id⟩, h.typed t l _ ht (by omega) hv⟩
  · obtain ⟨hspace, hworks, hnone, hunled⟩ :=
      h.take (l := l + 1) (f := fun _ => 0) hp hfree fun _ _ => by decide
    have hq : Function.update r p (some (l + 1)) p = some (l + 1) := Function.update_self ..
    obtain ⟨hspace', hlead⟩ :=
      hspace.link (pteIndex va k) pteTable (hworks.grows t l ht) hq hunled (by decide)
    have hzeroed := (h.toTables.linked hp hfree ht hl hv).zeroed
    refine ⟨_, ⟨⟨hspace', hworks.link (hworks.grows t l ht) hnone hlead⟩, hzeroed⟩, ?_⟩
    rw [pteFrame_pte (hspace.below p _ hq) (by decide), hq]

theorem pgdirWalk_extends (hp : Pages s) (h : Space r s) (ht : r pgdir = some 0)
    (hr : Runs (pgdirWalk pgdir va true) s (t, i) s') (hs : s'.short = false) :
    ∃ r', Extends r s r' s' ∧ r' t = some 3 := by
  obtain ⟨t₃, _, hfold, hpure⟩ := runs_bind.mp hr
  obtain ⟨heq, rfl⟩ := runs_pure.mp hpure
  obtain ⟨rfl, -⟩ := Prod.mk.inj heq
  simp only [List.foldlM_cons, List.foldlM_nil] at hfold
  obtain ⟨t₁, s₁, h₁, hr⟩ := runs_bind.mp hfold
  obtain ⟨t₂, s₂, h₂, hr⟩ := runs_bind.mp hr
  obtain ⟨_, _, h₃, hr⟩ := runs_bind.mp hr
  obtain ⟨rfl, rfl⟩ := runs_pure.mp hr
  have hs₂ := not_short (stays_walkStep loose_short va true t₂ 1) h₃ hs
  have hs₁ := not_short (stays_walkStep loose_short va true t₁ 2) h₂ hs₂
  obtain ⟨r₁, g₁, ht₁⟩ := walkStep_extends hp h ht (by omega) h₁ hs₁
  obtain ⟨r₂, g₂, ht₂⟩ := walkStep_extends (g₁.pages hp) g₁.space ht₁ (by omega) h₂ hs₂
  obtain ⟨r₃, g₃, ht₃⟩ := walkStep_extends (g₂.pages (g₁.pages hp)) g₂.space ht₂ (by omega) h₃ hs
  exact ⟨r₃, (g₁.trans g₂).trans g₃, ht₃⟩

theorem copyoutPage_extends (hp : Pages s) (h : Space r s) (ht : r pgdir = some 0)
    (hr : Runs (copyoutPage pgdir va) s (some q) s') (hs : s'.short = false) :
    ∃ r', Extends r s r' s' := by
  obtain ⟨⟨t, i⟩, s₁, hwalk, hr⟩ := runs_bind.mp hr
  rw [runs_after (runs_get.mpr ⟨rfl, rfl⟩), runs_ite] at hr
  obtain ⟨-, hr⟩ | ⟨-, hr⟩ := hr
  · obtain ⟨-, rfl⟩ := runs_pure.mp hr
    obtain ⟨r₁, g₁, -⟩ := pgdirWalk_extends hp h ht hwalk hs
    exact ⟨r₁, g₁⟩
  · obtain ⟨o, s₂, halloc, hr⟩ := runs_bind.mp hr
    cases o with
    | none => cases (runs_pure.mp hr).1
    | some p =>
      obtain ⟨_, _, hstore, hpure⟩ := runs_bind.mp hr
      obtain rfl := runs_modify.mp hstore
      obtain ⟨-, rfl⟩ := runs_pure.mp hpure
      have hs₁ := not_short (stays_kalloc loose_short) halloc hs
      obtain ⟨r₁, g₁, ht₁⟩ := pgdirWalk_extends hp h ht hwalk hs₁
      obtain ⟨_, free, hsome, hfree, rfl⟩ := kalloc_takes halloc hs
      obtain rfl := Option.some.inj hsome
      have hsame : { s₁ with free }.fill p (s₁.word p) = { s₁ with free } := by simp [Sys.fill]
      obtain ⟨hspace, hworks, hnone, hunled⟩ :=
        g₁.space.take (l := 4) (f := s₁.word p) (g₁.pages hp) hfree (by omega)
      rw [hsame] at hspace hworks hunled
      have ht₂ := hworks.grows t 3 ht₁
      obtain ⟨hspace', hlead⟩ := hspace.link i pteUserData ht₂ (Function.update_self ..) hunled (by decide)
      refine ⟨_, ⟨⟨hspace', g₁.works.trans (hworks.link ht₂ hnone hlead)⟩, fun hz u m j hu hm hv => ?_⟩⟩
      have hup : u ≠ p := by
        rintro rfl
        rw [Function.update_self] at hu
        cases hu
        omega
      rw [Function.update_of_ne hup] at hu
      by_cases hhere : u = t ∧ j = i
      · obtain ⟨rfl, rfl⟩ := hhere
        rw [Sys.word_store_self] at hv
        exact absurd (pteValid_user p) hv
      · rw [Sys.word_store_ne _ hhere] at hv ⊢
        exact g₁.zeroed hz u m j hu hm hv

/-- The state after `copyout` has found the page of an address, or made it. -/
structure Made (s : Sys) (pgdir va p : Nat) (s' : Sys) : Prop where
  space : AddressSpace s' pgdir
  page : translate s' pgdir va = some p
  taken : s'.free.length + lackingOne s pgdir va = s.free.length
  present : ∀ js, js.length ≤ 4 → (Present s' pgdir js ↔ Present s pgdir js ∨ js ∈ prefixesOf va)
  keeps : ∀ a q, translate s pgdir a = some q → translate s' pgdir a = some q ∧ s'.word q = s.word q

/-- With enough pages for the tables, `copyout` finds or makes the page, or there is none for the page
itself. -/
theorem AddressSpace.copyoutPage_returns (h : AddressSpace s pgdir) (va : Nat)
    (htables : missingTables s pgdir va ≤ s.free.length) :
    (∃ s', Runs (Core.copyoutPage pgdir va) s none s' ∧ s.free.length < lackingOne s pgdir va) ∨
      ∃ p s', Runs (Core.copyoutPage pgdir va) s (some p) s' ∧ Made s pgdir va p s' := by
  obtain ⟨r, hspace, hroot⟩ := h.tables
  obtain ⟨⟨t, i⟩, s₁, hwalk⟩ := pgdirWalk_returns pgdir va true s
  obtain ⟨hshort, htaken, ⟨hpath, rfl⟩, hpresent⟩ :=
    hspace.toTables.pgdirWalk_enough h.pages hroot hwalk htables
  have hs₁ : s₁.short = false := hshort.trans h.enough
  obtain ⟨-, -, hsame⟩ := pgdirWalk_follow h.pages hspace hroot hwalk hs₁
  obtain ⟨r₁, g₁, ht₁⟩ := pgdirWalk_grows h.pages hspace hroot hwalk hs₁
  have hroot₁ := g₁.works.grows pgdir 0 hroot
  have hleaf : follow s₁ (pathOf va) pgdir =
      if pteValid (s₁.word t (pteIndex va 0)) then some (pteFrame (s₁.word t (pteIndex va 0))) else none := by
    rw [pathOf_eq, follow_append, hpath, Option.bind_some]
    rfl
  have hdata {a q : Nat} (hq : translate s pgdir a = some q) : s₁.word q = s.word q ∧ r₁ q = some 4 := by
    have hrole := hspace.translate hroot hq
    exact ⟨pgdirWalk_data h.pages hspace hroot hwalk hs₁ hrole, g₁.works.grows q 4 hrole⟩
  have hfour {js : List Nat} (hjs : js.length = 4) : js ∈ prefixesOf va ↔ js = pathOf va := by
    simp only [prefixesOf, tablesOf, List.mem_append, List.mem_cons, List.not_mem_nil, or_false]
    constructor
    · rintro ((rfl | rfl | rfl) | rfl)
      · cases hjs
      · cases hjs
      · cases hjs
      · rfl
    · exact .inr
  have hthree {js : List Nat} (hjs : js.length ≤ 3) : js ∈ prefixesOf va ↔ js ∈ tablesOf va := by
    rw [prefixesOf, List.mem_append, List.mem_singleton]
    refine or_iff_left ?_
    rintro rfl
    rw [length_pathOf] at hjs
    omega
  by_cases hv : pteValid (s₁.word t (pteIndex va 0))
  case pos =>
    rw [if_pos hv] at hleaf
    have hmaps : Maps s pgdir va := by
      rw [Maps, ← hsame _ rfl, hleaf]
      rfl
    have hr : Runs (Core.copyoutPage pgdir va) s (some (pteFrame (s₁.word t (pteIndex va 0)))) s₁ := by
      refine runs_bind.mpr ⟨_, s₁, hwalk, runs_bind.mpr ⟨s₁, s₁, runs_get.mpr ⟨rfl, rfl⟩, ?_⟩⟩
      rw [runs_ite]
      exact .inl ⟨hv, runs_pure.mpr ⟨rfl, rfl⟩⟩
    have hzero : lackingOne s pgdir va = 0 := (missing_eq_zero_iff ..).mpr hmaps
    rw [missingTables_of_maps hmaps] at htaken
    refine .inr ⟨_, s₁, hr, ⟨g₁.pages h.pages, ⟨r₁, g₁.space, hroot₁⟩, hs₁⟩, ?_, ?_, fun js hjs => ?_,
      fun a q hq => ⟨?_, (hdata hq).1⟩⟩
    · rw [translate_eq_follow, hleaf]
    · rw [hzero]
      exact htaken
    · by_cases hlen : js.length ≤ 3
      · rw [hthree hlen]
        exact hpresent js hlen
      · rw [Present, hsame js (by omega), hfour (by omega)]
        refine (or_iff_left_of_imp ?_).symm
        rintro rfl
        exact hmaps
    · rw [translate_eq_follow, hsame _ rfl, ← translate_eq_follow]
      exact hq
  case neg =>
    rw [if_neg hv] at hleaf
    have hmaps : ¬Maps s pgdir va := by
      rw [Maps, ← hsame _ rfl, hleaf]
      exact Bool.false_ne_true
    obtain hfree | ⟨p, free, hfree⟩ : s₁.free = [] ∨ ∃ p free, s₁.free = p :: free := by
      cases hfree : s₁.free with
      | nil => exact .inl rfl
      | cons p free => exact .inr ⟨p, free, rfl⟩
    · rw [hfree, List.length_nil] at htaken
      have hnone : Runs kalloc s₁ none { s₁ with short := true } := by
        unfold kalloc
        rw [runs_after (runs_get.mpr ⟨rfl, rfl⟩), hfree]
        exact runs_bind.mpr ⟨⟨⟩, _, runs_set.mpr rfl, runs_pure.mpr ⟨rfl, rfl⟩⟩
      refine .inl ⟨{ s₁ with short := true }, ?_, ?_⟩
      · refine runs_bind.mpr ⟨_, s₁, hwalk, runs_bind.mpr ⟨s₁, s₁, runs_get.mpr ⟨rfl, rfl⟩, ?_⟩⟩
        rw [runs_ite]
        exact .inr ⟨hv, runs_bind.mpr ⟨none, _, hnone, runs_pure.mpr ⟨rfl, rfl⟩⟩⟩
      · rw [lackingOne_of_not_maps hmaps]
        omega
    have halloc : Runs kalloc s₁ (some p) { s₁ with free } := by
      unfold kalloc
      rw [runs_after (runs_get.mpr ⟨rfl, rfl⟩), hfree]
      exact runs_bind.mpr ⟨⟨⟩, { s₁ with free }, runs_set.mpr rfl, runs_pure.mpr ⟨rfl, rfl⟩⟩
    have hr : Runs (Core.copyoutPage pgdir va) s (some p)
        (({ s₁ with free } : Sys).store t (pteIndex va 0) (pte p pteUserData)) := by
      refine runs_bind.mpr ⟨_, s₁, hwalk, runs_bind.mpr ⟨s₁, s₁, runs_get.mpr ⟨rfl, rfl⟩, ?_⟩⟩
      rw [runs_ite]
      refine .inr ⟨hv, runs_bind.mpr ⟨some p, _, halloc, ?_⟩⟩
      exact runs_bind.mpr ⟨⟨⟩, _, runs_modify.mpr rfl, runs_pure.mpr ⟨rfl, rfl⟩⟩
    obtain ⟨p', heq, hspace', hpage, hother⟩ := h.copyoutPage hr hs₁
    obtain rfl := Option.some.inj heq
    have hlength : s₁.free.length = free.length + 1 := by rw [hfree, List.length_cons]
    refine .inr ⟨p, _, hr, hspace', hpage, ?_, fun js hjs => ?_, fun a q hq => ?_⟩
    · rw [lackingOne_of_not_maps hmaps]
      show free.length + _ = _
      omega
    · by_cases hlen : js.length ≤ 3
      · have hupper : follow (({ s₁ with free } : Sys).store t (pteIndex va 0) (pte p pteUserData)) js pgdir =
            follow s₁ js pgdir := by
          refine g₁.space.follow_congr hroot₁ (by omega) fun u m hu hm => Function.update_of_ne ?_ _ _
          rintro rfl
          obtain rfl : m = 3 := Option.some.inj (hu.symm.trans ht₁)
          omega
        rw [Present, hupper, hthree hlen]
        exact hpresent js hlen
      · rw [hfour (by omega)]
        by_cases hhere : js = pathOf va
        · subst hhere
          rw [translate_eq_follow] at hpage
          refine iff_of_true ?_ (.inr rfl)
          rw [Present, hpage]
          rfl
        · rw [Present, hother js (by omega) hhere, or_iff_left hhere]
          rfl
    · have hne : pathOf a ≠ pathOf va := by
        intro heq
        refine hmaps ?_
        rw [Maps, ← heq, ← translate_eq_follow, hq]
        rfl
      obtain ⟨hword, hrole⟩ := hdata hq
      refine ⟨?_, ?_⟩
      · rw [translate_eq_follow, hother _ rfl hne, ← translate_eq_follow]
        exact hq
      · have hqt : q ≠ t := by
          rintro rfl
          rw [ht₁] at hrole
          cases hrole
        rw [← hword]
        exact Function.update_of_ne hqt _ _

/-! ### Copies for which there are enough pages for the tables -/

/-- Copies to the addresses, one after the other, find free pages for the missing tables: the free pages
run out at a page of data, if they do. -/
def Room (s : Sys) (pgdir : Nat) (as : List Nat) : Prop :=
  ∀ as₁ a as₂, as = as₁ ++ a :: as₂ → (lacking s pgdir as₁).card ≤ s.free.length →
    (absent s pgdir (as₁.flatMap prefixesOf ++ tablesOf a)).card ≤ s.free.length

/-- After copies to the addresses: they have taken pages for what was lacking only. -/
structure Stretches (s : Sys) (pgdir : Nat) (as : List Nat) (s' : Sys) : Prop where
  space : AddressSpace s' pgdir
  taken : s'.free.length + (lacking s pgdir as).card = s.free.length
  mapped : ∀ x, (userBytes s pgdir x).isSome = true → (userBytes s' pgdir x).isSome = true
  present : ∀ js, js.length ≤ 4 → (Present s' pgdir js ↔ Present s pgdir js ∨ js ∈ as.flatMap prefixesOf)
  tables : ∀ r, Space r s → r pgdir = some 0 → ∃ r', Extends r s r' s'

theorem length_prefixes {js : List Nat} (h : js ∈ as.flatMap prefixesOf) : js.length ≤ 4 := by
  obtain ⟨a, -, hjs⟩ := List.mem_flatMap.mp h
  exact length_prefixesOf hjs

theorem Stretches.refl (h : AddressSpace s pgdir) : Stretches s pgdir [] s := by
  refine ⟨h, ?_, fun _ => id, fun js _ => ?_, fun r hr _ => ⟨r, .refl hr, id⟩⟩
  · rw [lacking, List.flatMap_nil, absent]
    rfl
  · rw [List.flatMap_nil]
    exact (or_iff_left List.not_mem_nil).symm

theorem Stretches.card_lacking (h : Stretches s pgdir as s') (bs : List Nat) :
    (lacking s pgdir (as ++ bs)).card = (lacking s pgdir as).card + (lacking s' pgdir bs).card := by
  rw [lacking, List.flatMap_append]
  exact card_absent_append (fun _ => length_prefixes) (fun _ => length_prefixes) h.present

theorem Stretches.trans {s₁ : Sys} {as bs : List Nat} (h : Stretches s pgdir as s₁)
    (h' : Stretches s₁ pgdir bs s') :
    Stretches s pgdir (as ++ bs) s' := by
  have htaken := h.taken
  have htaken' := h'.taken
  have hcard := h.card_lacking bs
  refine ⟨h'.space, by omega, fun x hx => h'.mapped x (h.mapped x hx), fun js hjs => ?_, fun r hr hroot => ?_⟩
  · rw [h'.present js hjs, h.present js hjs, List.flatMap_append, List.mem_append, or_assoc]
  · obtain ⟨r₁, g₁⟩ := h.tables r hr hroot
    obtain ⟨r', g'⟩ := h'.tables r₁ g₁.space (g₁.works.grows pgdir 0 hroot)
    exact ⟨r', g₁.trans g'⟩

theorem Room.left {bs : List Nat} (h : Room s pgdir (as ++ bs)) : Room s pgdir as := by
  rintro as₁ a as₂ rfl henough
  exact h as₁ a (as₂ ++ bs) (by rw [List.append_assoc, List.cons_append]) henough

/-- There is room for the other copies after the first ones. -/
theorem Room.after {bs : List Nat} (h : Room s pgdir (as ++ bs)) (g : Stretches s pgdir as s') :
    Room s' pgdir bs := by
  rintro bs₁ b bs₂ rfl henough
  have htaken := g.taken
  have hpaths : ∀ js ∈ bs₁.flatMap prefixesOf ++ tablesOf b, js.length ≤ 4 := by
    intro js hjs
    rw [List.mem_append] at hjs
    obtain hjs | hjs := hjs
    · exact length_prefixes hjs
    · exact length_prefixesOf (List.mem_append_left _ hjs : js ∈ prefixesOf b)
  have hpages := g.card_lacking bs₁
  have htables := card_absent_append (fun _ => length_prefixes) hpaths g.present
  rw [← List.append_assoc, ← List.flatMap_append] at htables
  change _ = (lacking s pgdir as).card + _ at htables
  have hroom := h (as ++ bs₁) b bs₂ (by rw [List.append_assoc]) (by omega)
  omega

/-- With enough pages there is room. -/
theorem Room.of_enough (h : (lacking s pgdir as).card ≤ s.free.length) : Room s pgdir as := by
  rintro as₁ a as₂ rfl -
  refine Nat.le_trans (card_absent_le (fun js hjs => ?_) s pgdir) h
  rw [List.flatMap_append, List.flatMap_cons, List.mem_append, List.mem_append]
  exact (List.mem_append.mp hjs).imp_right fun hin => .inl (List.mem_append_left _ hin)

theorem card_lacking_le_append (s : Sys) (pgdir : Nat) (as bs : List Nat) :
    (lacking s pgdir as).card ≤ (lacking s pgdir (as ++ bs)).card := by
  refine card_absent_le (fun js hjs => ?_) s pgdir
  rw [List.flatMap_append]
  exact List.mem_append_left _ hjs

theorem lacking_congr {bs : List Nat} (h : ∀ js, js ∈ as.flatMap prefixesOf ↔ js ∈ bs.flatMap prefixesOf) :
    lacking s pgdir as = lacking s pgdir bs := by
  ext js
  rw [lacking, lacking, mem_absent, mem_absent, h]

theorem Stretches.congr {bs : List Nat} (h : Stretches s pgdir as s')
    (hsame : ∀ js, js ∈ as.flatMap prefixesOf ↔ js ∈ bs.flatMap prefixesOf) : Stretches s pgdir bs s' := by
  refine ⟨h.space, lacking_congr hsame ▸ h.taken, h.mapped, fun js hjs => ?_, h.tables⟩
  rw [← hsame]
  exact h.present js hjs

theorem prefixesOf_congr (h : pathOf a = pathOf va) : prefixesOf a = prefixesOf va := by
  simp only [pathOf, List.cons.injEq, and_true] at h
  obtain ⟨h3, h2, h1, h0⟩ := h
  simp only [prefixesOf, tablesOf, pathOf, h3, h2, h1, h0]

/-- A write to a page of data. -/
theorem AddressSpace.fill_stretches (h : AddressSpace s pgdir) (hq : translate s pgdir va = some q)
    (f : Nat → Nat) :
    Stretches s pgdir [] (s.fill q f) := by
  obtain ⟨r, hspace, hroot⟩ := h.tables
  have hrole := hspace.translate hroot hq
  refine ⟨(h.fill hq f).space, (Stretches.refl h).taken, fun x hx => ?_, fun js hjs => ?_, fun r hr ht => ?_⟩
  · have htrans : translate (s.fill q f) pgdir x = translate s pgdir x := by
      rw [translate_eq_follow, translate_eq_follow]
      exact (h.fill hq f).maps _ rfl
    rw [userBytes, Option.isSome_map] at hx ⊢
    rwa [userPage, htrans]
  · rw [Present, hspace.follow_data hroot hrole f hjs]
    exact (or_iff_left List.not_mem_nil).symm
  · have hdata := hr.translate ht hq
    refine ⟨r, (Grown.refl hr).fill hdata f, fun hz u m j hu hm hv => ?_⟩
    have hne : u ≠ q := by
      rintro rfl
      obtain rfl : m = 4 := Option.some.inj (hu.symm.trans hdata)
      omega
    have hword : (s.fill q f).word u = s.word u := Function.update_of_ne hne _ _
    rw [hword] at hv ⊢
    exact hz u m j hu hm hv

theorem AddressSpace.copyoutPage_room (h : AddressSpace s pgdir) (hroom : Room s pgdir [a])
    (hpath : pathOf a = pathOf va) :
    (∃ s', Runs (Core.copyoutPage pgdir va) s none s' ∧ s.free.length < (lacking s pgdir [a]).card) ∨
      ∃ p s', Runs (Core.copyoutPage pgdir va) s (some p) s' ∧ Stretches s pgdir [a] s' ∧
        translate s' pgdir va = some p ∧ ∀ x b, userBytes s pgdir x = some b →
          userBytes s' pgdir x = some b := by
  have hone : (lacking s pgdir [a]).card = lackingOne s pgdir va := by
    rw [card_lacking_one, lackingOne, lackingOne, hpath]
  have htables : missingTables s pgdir va ≤ s.free.length := by
    have hprefixes : tablesOf a = tablesOf va := by
      have hall := prefixesOf_congr hpath
      rw [prefixesOf, prefixesOf, hpath] at hall
      exact List.append_cancel_right hall
    have hfirst := hroom [] a [] rfl (Nat.zero_le _)
    rw [List.flatMap_nil, List.nil_append, hprefixes, ← List.flatMap_singleton tablesOf va] at hfirst
    rw [← card_newTables_one]
    exact hfirst
  obtain ⟨s', hr, hless⟩ | ⟨p, s', hr, hmade⟩ := h.copyoutPage_returns va htables
  · exact .inl ⟨s', hr, hone ▸ hless⟩
  · have hkeeps (x : Nat) (b : UInt8) (hx : userBytes s pgdir x = some b) : userBytes s' pgdir x = some b := by
      obtain ⟨q, hq, rfl⟩ := Option.map_eq_some_iff.mp hx
      obtain ⟨hxt, hq⟩ := userPage_some.mp hq
      obtain ⟨hq', hword⟩ := hmade.keeps x q hq
      rw [userBytes, userPage_some.mpr ⟨hxt, hq'⟩, Option.map_some, hword]
    refine .inr ⟨p, s', hr, ⟨hmade.space, hone ▸ hmade.taken, fun x hx => ?_, fun js hjs => ?_,
      fun r hspace hroot => ?_⟩, hmade.page, hkeeps⟩
    · obtain ⟨b, hb⟩ := Option.isSome_iff_exists.mp hx
      exact Option.isSome_iff_exists.mpr ⟨b, hkeeps x b hb⟩
    · rw [hmade.present js hjs, List.flatMap_singleton, prefixesOf_congr hpath]
    · exact copyoutPage_extends h.pages hspace hroot hr hmade.space.enough

theorem pagesFrom_cons {x y : Nat} (h : x < y) : pagesFrom x y = x :: pagesFrom (x + pageSize) y := by
  have hcount : (y - x + pageSize - 1) / pageSize = (y - (x + pageSize) + pageSize - 1) / pageSize + 1 := by
    show (y - x + 4096 - 1) / 4096 = (y - (x + 4096) + 4096 - 1) / 4096 + 1
    omega
  rw [pagesFrom, pagesFrom, hcount, List.range_succ_eq_map, List.map_cons, List.map_map, Nat.zero_mul]
  refine congrArg _ (List.map_congr_left fun k _ => ?_)
  show x + (k + 1) * pageSize = x + pageSize + k * pageSize
  rw [Nat.succ_mul]
  omega

/-- A round of the copy goes to the first page. -/
theorem touchedPages_cons {len : Nat} (hlen : len ≠ 0) (va : Nat) : touchedPages va len =
    roundDown va pageSize :: touchedPages (va + min (pageSize - va % pageSize) len)
      (len - min (pageSize - va % pageSize) len) := by
  have hdown : roundDown va pageSize = va / 4096 * 4096 := by
    show va - va % 4096 = _
    omega
  have hpage : pageSize = 4096 := rfl
  rw [touchedPages, if_neg hlen, pagesFrom_cons (by rw [hdown]; omega)]
  refine congrArg _ ?_
  by_cases hlast : len ≤ pageSize - va % pageSize
  · rw [Nat.min_eq_right hlast, Nat.sub_self, touchedPages, if_pos rfl, hdown]
    rw [hpage] at hlast ⊢
    have hcount : va + len - (va / 4096 * 4096 + 4096) + 4096 - 1 < 4096 := by omega
    rw [pagesFrom, hpage, Nat.div_eq_of_lt hcount]
    rfl
  · rw [Nat.min_eq_left (by omega), touchedPages, if_neg (by omega)]
    have hnext : roundDown (va + (pageSize - va % pageSize)) pageSize = va / 4096 * 4096 + pageSize := by
      show va + (4096 - va % 4096) - (va + (4096 - va % 4096)) % 4096 = va / 4096 * 4096 + 4096
      omega
    rw [hnext, hdown, show va + (pageSize - va % pageSize) +
      (len - (pageSize - va % pageSize)) = va + len by omega]

theorem pathOf_roundDown (va : Nat) : pathOf (roundDown va pageSize) = pathOf va := by
  refine pathOf_page ?_
  show (va - va % 4096) / 4096 = va / 4096
  omega

theorem AddressSpace.copyoutBytesLoop {fuel : Nat} (h : AddressSpace s pgdir) (va len : Nat)
    (hroom : Room s pgdir (touchedPages va len)) (hend : va + len ≤ uspaceTop) (hfuel : len ≤ fuel)
    (src : Nat → UInt8) (i : Nat) :
    (∃ s', Runs (copyoutBytesLoop pgdir src fuel va i len) s false s' ∧
        s.free.length < (lacking s pgdir (touchedPages va len)).card) ∨
      ∃ s', Runs (copyoutBytesLoop pgdir src fuel va i len) s true s' ∧
        Stretches s pgdir (touchedPages va len) s' ∧
        View.Writes (userBytes s pgdir) va len (fun k => src (i + k)) (userBytes s' pgdir) := by
  induction fuel generalizing s va i len with
  | zero =>
    obtain rfl : len = 0 := by omega
    exact .inr ⟨s, runs_pure.mpr ⟨rfl, rfl⟩, .refl h, .refl _ _ _⟩
  | succ fuel ih =>
    rw [Core.copyoutBytesLoop]
    by_cases hlen : len = 0
    · subst hlen
      rw [if_pos rfl]
      exact .inr ⟨s, runs_pure.mpr ⟨rfl, rfl⟩, .refl h, .refl _ _ _⟩
    rw [if_neg hlen]
    rw [touchedPages_cons hlen] at hroom ⊢
    have hmod : va % pageSize < pageSize := Nat.mod_lt _ (by decide)
    generalize hn : min (pageSize - va % pageSize) len = n at hroom ⊢
    change Room s pgdir ([roundDown va pageSize] ++ _) at hroom
    obtain ⟨s₁, hpage, hless⟩ | ⟨p, s₁, hpage, g₁, hp, hkeep₁⟩ :=
      h.copyoutPage_room hroom.left (pathOf_roundDown va)
    · refine .inl ⟨s₁, runs_bind.mpr ⟨none, s₁, hpage, runs_pure.mpr ⟨rfl, rfl⟩⟩, ?_⟩
      exact Nat.lt_of_lt_of_le hless (card_lacking_le_append s pgdir [_] _)
    have hva : va < uspaceTop := by omega
    have hw₂ := g₁.space.fill_writes hva hp (fun k => src (i + k)) (show va % pageSize + n ≤ pageSize by omega)
      (by omega)
    have g₂ := g₁.trans (g₁.space.fill_stretches hp
      (pageWrite (s₁.word p) (va % pageSize) n fun k => src (i + k)))
    rw [List.append_nil] at g₂
    obtain ⟨s', hrest, hless⟩ | ⟨s', hrest, g, hw₃⟩ := ih g₂.space (va + n) (len - n)
      (hroom.after g₂) (by omega) (by omega) (i + n)
    · refine .inl ⟨s', ?_, ?_⟩
      · exact runs_bind.mpr ⟨some p, s₁, hpage, runs_bind.mpr ⟨⟨⟩, _, runs_modify.mpr rfl, hrest⟩⟩
      · have hcard := g₂.card_lacking (touchedPages (va + n) (len - n))
        have htaken := g₂.taken
        rw [List.singleton_append] at hcard
        omega
    · refine .inr ⟨s', ?_, g₂.trans g, ?_⟩
      · exact runs_bind.mpr ⟨some p, s₁, hpage, runs_bind.mpr ⟨⟨⟩, _, runs_modify.mpr rfl, hrest⟩⟩
      · have hw : View.Writes (userBytes s pgdir) va n (fun k => src (i + k)) (userBytes _ pgdir) :=
          ⟨hw₂.inside, fun x b hx hout => hw₂.outside x b (hkeep₁ x b hx) hout⟩
        simp only [Nat.add_assoc] at hw₃
        have hall := hw.append hw₃
        rwa [Nat.add_sub_cancel' (by omega)] at hall

/-- A copy is complete, or there are too few pages for it. -/
theorem AddressSpace.copyoutBytes (h : AddressSpace s pgdir) (va len : Nat)
    (hroom : Room s pgdir (touchedPages va len)) (hend : va + len ≤ uspaceTop) (src : Nat → UInt8) :
    (∃ s', Runs (copyoutBytes pgdir va src len) s false s' ∧
        s.free.length < (lacking s pgdir (touchedPages va len)).card) ∨
      ∃ s', Runs (copyoutBytes pgdir va src len) s true s' ∧
        Stretches s pgdir (touchedPages va len) s' ∧
        View.Writes (userBytes s pgdir) va len src (userBytes s' pgdir) := by
  have hbelow : ¬uspaceTop < (va + len) % 2 ^ 64 := by
    change va + len ≤ 2 ^ 48 at hend
    show ¬2 ^ 48 < (va + len) % 2 ^ 64
    omega
  rw [Core.copyoutBytes, if_neg hbelow]
  have hloop := h.copyoutBytesLoop va len hroom hend (Nat.le_refl len) src 0
  simpa only [Nat.zero_add] using hloop

theorem AddressSpace.storeWord (h : AddressSpace s pgdir) (hva : (userBytes s pgdir va).isSome = true)
    (haligned : va % 8 = 0) (v : Nat) : ∃ s', Runs (storeWord pgdir va v) s () s' ∧ Stretches s pgdir [] s' ∧
      View.Writes (userBytes s pgdir) va 8 (Bytes.byteOf v) (userBytes s' pgdir) := by
  rw [userBytes, Option.isSome_map, Option.isSome_iff_exists] at hva
  obtain ⟨q, hq⟩ := hva
  obtain ⟨hlt, htrans⟩ := userPage_some.mp hq
  refine ⟨s.store q (va % pageSize / 8) v, ?_, h.fill_stretches htrans _, h.store_writes hlt htrans v haligned⟩
  unfold Core.storeWord
  rw [runs_after (runs_get.mpr ⟨rfl, rfl⟩), hq]
  exact runs_modify.mpr rfl

end FtosFfs.Core
