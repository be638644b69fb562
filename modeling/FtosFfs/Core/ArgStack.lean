import FtosFfs.Core.Argv
import FtosFfs.Core.Stack

/-! What a new program finds on its stack: the arguments, the environment and the auxiliary vector are
those of the call of `execve`. -/

namespace FtosFfs.Core

open Lib Lib.Exec View

variable {s s' : Sys} {pgdir sp arr lo hi a fuel : Nat} {as : List Nat} {ls : List (List UInt8)}
  {str : List UInt8} {m m' : View}

/-! ### What a program finds on its stack -/

/-- The stack of a program as it reads it: pointers with the strings that they point to. -/
structure StartStack where
  argc : Nat
  argv : List (Nat × List UInt8)
  envp : List (Nat × List UInt8)
  /-- The first pair of the auxiliary vector, and the word after it. -/
  auxv : Nat × Nat
  auxvEnd : Nat

/-- The string at a pointer. -/
def readArg (m : View) (p : Nat) : Option (Nat × List UInt8) := (m.string uspaceTop p).map (p, ·)

/-- The stack from `sp` up: the number of arguments, the pointers to the arguments and to the strings of
the environment, each array up to a null word, and the auxiliary vector. -/
def readStack (m : View) (sp : Nat) : Option StartStack := do
  let argc ← m.word sp 8
  let argv ← m.pointers uspaceTop (sp + 8)
  let envp ← m.pointers uspaceTop (sp + 8 + 8 * (argv.length + 1))
  let auxv := sp + 8 + 8 * (argv.length + 1) + 8 * (envp.length + 1)
  let type ← m.word auxv 8
  let value ← m.word (auxv + 8) 8
  let auxvEnd ← m.word (auxv + 16) 8
  let argv ← argv.mapM (readArg m)
  let envp ← envp.mapM (readArg m)
  some ⟨argc, argv, envp, (type, value), auxvEnd⟩

/-- The bytes of the number of arguments, the pointers, and the auxiliary vector. -/
def pointerArea (argv envp : List (List UInt8)) : Nat := 8 * (argv.length + envp.length + 6)

/-- The stack of `stksz` bytes with the stack pointer `sp` holds the arguments and the environment. -/
structure Encodes (m : View) (sp stksz : Nat) (argv envp : List (List UInt8)) : Prop where
  aligned : sp % 16 = 0
  inside : uspaceTop - stksz < sp ∧ sp + pointerArea argv envp ≤ uspaceTop
  reads : ∃ d, readStack m sp = some d ∧ d.argc = argv.length ∧ d.argv.map Prod.snd = argv ∧
    d.envp.map Prod.snd = envp ∧ d.auxv = (atPagesz, pageSize) ∧ d.auxvEnd = 0 ∧
    (∀ x ∈ d.argv ++ d.envp, sp + pointerArea argv envp ≤ x.1 ∧ x.1 + x.2.length + 1 ≤ uspaceTop) ∧
    ∀ a, uspaceTop - stksz ≤ a → a < uspaceTop → ∃ b, m a = some b ∧
      (b = 0 ∨ (sp ≤ a ∧ a < sp + pointerArea argv envp) ∨
        ∃ x ∈ d.argv ++ d.envp, x.1 ≤ a ∧ a < x.1 + x.2.length + 1)

/-! ### The loops over the strings -/

theorem runs_loadByte {b : UInt8} (h : userBytes s pgdir a = some b) : Runs (loadByte pgdir a) s b s := by
  unfold loadByte
  rw [runs_after (runs_get.mpr ⟨rfl, rfl⟩), h]
  exact runs_pure.mpr ⟨rfl, rfl⟩

theorem runs_skipString (h : (userBytes s pgdir).Holds sp (str ++ [0])) (hnul : 0 ∉ str)
    (hfuel : str.length < fuel) : Runs (skipString pgdir fuel sp) s (sp + (str.length + 1)) s := by
  induction str generalizing sp fuel with
  | nil =>
    obtain ⟨fuel, rfl⟩ : ∃ k, fuel = k + 1 := ⟨fuel - 1, by simp at hfuel; omega⟩
    exact runs_bind.mpr ⟨0, s, runs_loadByte h.1, by rw [if_pos rfl]; exact runs_pure.mpr ⟨rfl, rfl⟩⟩
  | cons b str ih =>
    obtain ⟨fuel, rfl⟩ : ∃ k, fuel = k + 1 := ⟨fuel - 1, by simp at hfuel; omega⟩
    have hne : b ≠ 0 := fun hb => hnul (hb ▸ List.mem_cons_self)
    have hrest := ih h.2 (fun hin => hnul (List.mem_cons_of_mem _ hin)) (by simpa using hfuel)
    refine runs_bind.mpr ⟨b, s, runs_loadByte h.1, ?_⟩
    rw [if_neg hne, List.length_cons, show sp + (str.length + 1 + 1) = sp + 1 + (str.length + 1) by omega]
    exact hrest

/-- The pages of the strings that are copied from `sp` down, in the order of the copies. -/
def stringVisits : List (List UInt8) → Nat → List Nat
  | [], _ => []
  | str :: ls, sp =>
    touchedPages (sp - (str.length + 1)) (str.length + 1) ++ stringVisits ls (sp - (str.length + 1))

/-- The strings are copied from `sp` down, the last one lowest, or there are too few pages for them. -/
theorem AddressSpace.copyStrings (h : AddressSpace s pgdir) (ls : List (List UInt8)) (sp : Nat)
    (hroom : Room s pgdir (stringVisits ls sp)) (hlo : (block ls.reverse).length ≤ sp) (hsp : sp ≤ uspaceTop) :
    (∃ s', Runs (copyStrings pgdir (ls.map some) sp) s none s' ∧
        s.free.length < (lacking s pgdir (stringVisits ls sp)).card) ∨
      ∃ s', Runs (copyStrings pgdir (ls.map some) sp) s (some (sp - (block ls.reverse).length)) s' ∧
        Stretches s pgdir (stringVisits ls sp) s' ∧
        WritesList (userBytes s pgdir) (sp - (block ls.reverse).length) (block ls.reverse)
          (userBytes s' pgdir) := by
  induction ls generalizing s sp with
  | nil => exact .inr ⟨s, runs_pure.mpr ⟨rfl, rfl⟩, .refl h, .refl _ _ _⟩
  | cons str ls ih =>
    have hblock : block (str :: ls).reverse = block ls.reverse ++ (str ++ [0]) := by
      rw [List.reverse_cons, block, List.flatMap_append]
      simp [block]
    have hlen : (str ++ [0]).length = str.length + 1 := by simp
    rw [hblock, List.length_append, hlen] at hlo
    have hsub : sub64 sp (str.length + 1) = sp - (str.length + 1) := by
      change sp ≤ 2 ^ 48 at hsp
      unfold sub64
      omega
    have hbelow : sp - ((block ls.reverse).length + (str.length + 1)) =
      sp - (str.length + 1) - (block ls.reverse).length := by omega
    rw [stringVisits] at hroom ⊢
    rw [List.map_cons, Core.copyStrings, hsub, hblock, List.length_append, hlen, hbelow]
    obtain ⟨s₁, hr₁, hless⟩ | ⟨s₁, hr₁, g₁, hw₁⟩ :=
      h.copyoutBytes (sp - (str.length + 1)) (str.length + 1) hroom.left (by omega) (fun k => str.getD k 0)
    · exact .inl ⟨s₁, runs_bind.mpr ⟨false, s₁, hr₁, runs_pure.mpr ⟨rfl, rfl⟩⟩,
        Nat.lt_of_lt_of_le hless (card_lacking_le_append ..)⟩
    have hfirst : WritesList (userBytes s pgdir) (sp - (str.length + 1)) (str ++ [0]) (userBytes s₁ pgdir) := by
      refine ⟨fun i hi => ?_, by rw [hlen]; exact hw₁.outside⟩
      rw [hlen] at hi
      rw [hw₁.inside i hi]
      by_cases hin : i < str.length
      · rw [List.getD_append _ _ _ _ hin]
      · rw [List.getD_append_right _ _ _ _ (by omega), List.getD_eq_default _ _ (by omega),
          show i - str.length = 0 by omega]
        rfl
    obtain ⟨s', hr', hless⟩ | ⟨s', hr', g', hw'⟩ :=
      ih g₁.space (sp - (str.length + 1)) (hroom.after g₁) (by omega) (by omega)
    · refine .inl ⟨s', runs_bind.mpr ⟨true, s₁, hr₁, by rwa [if_pos rfl]⟩, ?_⟩
      have hcard := g₁.card_lacking (stringVisits ls (sp - (str.length + 1)))
      have htaken := g₁.taken
      omega
    · refine .inr ⟨s', runs_bind.mpr ⟨true, s₁, hr₁, by rwa [if_pos rfl]⟩, g₁.trans g', Writes.prepend ?_ hw'⟩
      rw [show sp - (str.length + 1) - (block ls.reverse).length + (block ls.reverse).length =
        sp - (str.length + 1) by omega]
      exact hfirst

/-- The array is filled with the addresses of the strings, the first one last. -/
theorem AddressSpace.storePointers (h : AddressSpace s pgdir) (arr : Nat)
    (hstr : (userBytes s pgdir).Holds sp (block ls))
    (hnul : ∀ l ∈ ls, 0 ∉ l) (haligned : arr % 8 = 0) (hbelow : arr + 8 * ls.length ≤ sp)
    (hmapped : ∀ x, arr ≤ x → x < arr + 8 * ls.length → (userBytes s pgdir x).isSome = true)
    (hend : sp + (block ls).length ≤ uspaceTop) :
    ∃ s', Runs (storePointers pgdir arr ls.length sp) s (sp + (block ls).length) s' ∧ Stretches s pgdir [] s' ∧
      (userBytes s' pgdir).HoldsWords arr ((placed sp ls).reverse.map Prod.fst) ∧
      View.Keeps (userBytes s pgdir) arr (8 * ls.length) (userBytes s' pgdir) := by
  induction ls generalizing s sp with
  | nil => exact ⟨s, runs_pure.mpr ⟨rfl, rfl⟩, .refl h, trivial, .refl _ _ _⟩
  | cons l ls ih =>
    rw [List.length_cons] at hbelow hmapped ⊢
    rw [length_block_cons] at hend ⊢
    obtain ⟨s₁, hr₁, g₁, hw₁⟩ := h.storeWord (hmapped (arr + 8 * ls.length) (by omega) (by omega))
      (by omega) sp
    have hhere : (userBytes s₁ pgdir).Holds sp (block (l :: ls)) := hstr.frame hw₁.outside (.inr (by omega))
    rw [block_cons, holds_append, List.length_append, List.length_singleton] at hhere
    have hskip : Runs (skipString pgdir (uspaceTop - sp) sp) s₁ (sp + (l.length + 1)) s₁ :=
      runs_skipString hhere.1 (hnul l List.mem_cons_self) (by omega)
    obtain ⟨s', hr', g', hwords, hkeeps⟩ := ih g₁.space hhere.2
      (fun l hl => hnul l (List.mem_cons_of_mem _ hl)) (by omega) (fun x hx hx' => by
        obtain ⟨b, hb⟩ := Option.isSome_iff_exists.mp (hmapped x hx (by omega))
        rw [hw₁.outside x b hb (by omega)]
        rfl) (by omega)
    have hsp : sp % 256 ^ 8 = sp := by
      change sp + _ ≤ 2 ^ 48 at hend
      omega
    have hword : (userBytes s₁ pgdir).word (arr + 8 * ls.length) 8 = some sp := by
      rw [word_of_bytes hw₁.inside, hsp]
    refine ⟨s', ?_, g₁.trans g', ?_, ?_⟩
    · rw [Core.storePointers]
      refine runs_bind.mpr ⟨(), s₁, hr₁, runs_bind.mpr ⟨_, s₁, hskip, ?_⟩⟩
      rw [show sp + (l.length + 1 + (block ls).length) = sp + (l.length + 1) + (block ls).length by omega]
      exact hr'
    · rw [placed, List.reverse_cons, List.map_append, holdsWords_append, List.length_map,
        List.length_reverse, ← List.length_map (f := Prod.snd), map_snd_placed]
      exact ⟨hwords, word_mono (fun k hk b hb => hkeeps _ b hb (.inr (by omega))) hword, trivial⟩
    · exact (hw₁.outside.mono (by omega) (by omega)).trans (hkeeps.mono (by omega) (by omega))

theorem mapM_readArg {l : List (Nat × List UInt8)} (h : ∀ x ∈ l, readArg m x.1 = some x) :
    (l.map Prod.fst).mapM (readArg m) = some l := by
  induction l with
  | nil => rfl
  | cons x l ih =>
    rw [List.map_cons, List.mapM_cons, h x List.mem_cons_self, ih fun y hy => h y (List.mem_cons_of_mem _ hy)]
    rfl

/-- The words and the strings of a stack are read back. -/
theorem readStack_eq {argv envp : List (Nat × List UInt8)} {auxv : Nat × Nat} {argc : Nat}
    (hargc : m.word sp 8 = some argc)
    (hargv : m.HoldsWords (sp + 8) (argv.map Prod.fst ++ [0]))
    (henvp : m.HoldsWords (sp + 8 + 8 * (argv.length + 1)) (envp.map Prod.fst ++ [0]))
    (hauxv : m.HoldsWords (sp + 8 + 8 * (argv.length + 1) + 8 * (envp.length + 1)) [auxv.1, auxv.2, 0])
    (hstr : ∀ x ∈ argv ++ envp, m.Holds x.1 (x.2 ++ [0]) ∧ 0 ∉ x.2 ∧ x.2.length < uspaceTop ∧ x.1 ≠ 0)
    (hlen : argv.length < uspaceTop ∧ envp.length < uspaceTop) :
    readStack m sp = some ⟨argc, argv, envp, auxv, 0⟩ := by
  have hread {l : List (Nat × List UInt8)} (hl : ∀ x ∈ l, x ∈ argv ++ envp) :
      (l.map Prod.fst).mapM (readArg m) = some l := by
    refine mapM_readArg fun x hx => ?_
    obtain ⟨hheld, hnul, hfuel, -⟩ := hstr x (hl x hx)
    rw [readArg, string_of_holds hheld hnul hfuel]
    rfl
  have hnull {l : List (Nat × List UInt8)} (hl : ∀ x ∈ l, x ∈ argv ++ envp) : 0 ∉ l.map Prod.fst := by
    intro hin
    obtain ⟨x, hx, hzero⟩ := List.mem_map.mp hin
    exact (hstr x (hl x hx)).2.2.2 hzero
  have hleft : ∀ x ∈ argv, x ∈ argv ++ envp := fun x => List.mem_append_left _
  have hright : ∀ x ∈ envp, x ∈ argv ++ envp := fun x => List.mem_append_right _
  have hp := pointers_of_holds hargv (hnull hleft) (by rw [List.length_map]; exact hlen.1)
  have hq := pointers_of_holds henvp (hnull hright) (by rw [List.length_map]; exact hlen.2)
  obtain ⟨htype, hvalue, hend, -⟩ := hauxv
  unfold readStack
  simp only [hargc, hp, Option.bind_eq_bind, Option.bind_some, List.length_map, hq, htype, hvalue, hend,
    hread hleft, hread hright]

/-! ### The whole stack -/

/-- Different pages of an address space are mapped to different pages of memory. -/
theorem AddressSpace.length_le (h : AddressSpace s pgdir) (hmapped : ∀ a ∈ as, Maps s pgdir a)
    (hpaths : as.Pairwise (pathOf · ≠ pathOf ·)) : as.length ≤ physPages := by
  obtain ⟨r, hspace, hroot⟩ := h.tables
  have hpages : (as.map fun a => (translate s pgdir a).getD 0).Nodup := by
    rw [List.Nodup, List.pairwise_map]
    refine hpaths.imp_of_mem fun {a b} ha hb hne heq => hne ?_
    obtain ⟨p, hp⟩ := Option.isSome_iff_exists.mp (hmapped a ha)
    obtain ⟨q, hq⟩ := Option.isSome_iff_exists.mp (hmapped b hb)
    rw [translate_eq_follow, translate_eq_follow, hp, hq] at heq
    obtain rfl : p = q := heq
    exact hspace.follow_inj hroot (by rw [length_pathOf]) rfl hp hq
  have hsub : (as.map fun a => (translate s pgdir a).getD 0) ⊆ List.range physPages := by
    intro p hp
    obtain ⟨a, ha, rfl⟩ := List.mem_map.mp hp
    obtain ⟨q, hq⟩ := Option.isSome_iff_exists.mp (hmapped a ha)
    rw [translate_eq_follow, hq, List.mem_range]
    exact hspace.below q _ (hspace.follow_role hroot (by rw [length_pathOf]) hq)
  simpa using (List.subperm_of_subset hpages hsub).length_le

/-- The lengths of strings. -/
def lengths (ls : List (List UInt8)) : List (Option Nat) := ls.map fun l => some l.length

theorem stringBytes_lengths (ls : List (List UInt8)) :
    stringBytes (lengths ls) = (block ls.reverse).length := by
  induction ls with
  | nil => rfl
  | cons l ls ih =>
    have hblock : block (l :: ls).reverse = block ls.reverse ++ (l ++ [0]) := by
      rw [List.reverse_cons, block, List.flatMap_append]
      simp [block]
    rw [hblock, List.length_append, List.length_append, List.length_singleton, ← ih]
    show l.length + 1 + stringBytes (lengths ls) = _
    omega

/-- The bytes from the stack pointer to the top of user memory. -/
def usedStack (argv envp : List (List UInt8)) : Nat := stackBytes (lengths argv) (lengths envp)

/-- The size of the stack. -/
def stackSize (argv envp : List (List UInt8)) : Nat := roundUp (usedStack argv envp) (10 * pageSize)

/-- The pages of the stack from the stack pointer up, in the order of the copies to them. -/
def upperVisits (argv envp : List (List UInt8)) : List Nat :=
  stringVisits argv uspaceTop ++ (stringVisits envp (uspaceTop - (block argv.reverse).length) ++
    touchedPages (uspaceTop - usedStack argv envp)
      (usedStack argv envp - (block argv.reverse).length - (block envp.reverse).length))

/-- The pages of the whole stack. -/
def stackVisits (argv envp : List (List UInt8)) : List Nat :=
  upperVisits argv envp ++
    touchedPages (uspaceTop - stackSize argv envp) (stackSize argv envp - usedStack argv envp)

theorem usedStack_eq (argv envp : List (List UInt8)) : usedStack argv envp =
    ((block argv.reverse).length + (block envp.reverse).length + 16 +
      (envp.length + argv.length + 4) * 8 + 15) /
      16 * 16 := by
  unfold usedStack stackBytes
  rw [stringBytes_lengths, stringBytes_lengths]
  unfold lengths
  rw [List.length_map, List.length_map]
  show _ + 16 - 1 - (_ + 16 - 1) % 16 = _
  omega

theorem stackSize_eq (argv envp : List (List UInt8)) :
    stackSize argv envp = (usedStack argv envp + 40959) / 40960 * 40960 := by
  show usedStack argv envp + 40960 - 1 - (usedStack argv envp + 40960 - 1) % 40960 = _
  omega

theorem word_zero (h : ∀ k < 8, m (a + k) = some 0) : m.word a 8 = some 0 := by
  have hbytes : ∀ k < 8, m (a + k) = some (Bytes.byteOf 0 k) := by
    intro k hk
    rw [h k hk]
    simp [Bytes.byteOf]
  exact word_of_bytes hbytes

theorem block_reverse (argv envp : List (List UInt8)) :
    block (argv ++ envp).reverse = block envp.reverse ++ block argv.reverse := by
  rw [List.reverse_append, block, List.flatMap_append]
  rfl

/-- The pointers of the arguments, with strings that lie from `sp` up. -/
def argvAt (sp : Nat) (argv envp : List (List UInt8)) : List (Nat × List UInt8) :=
  (placed (sp + (block envp.reverse).length) argv.reverse).reverse

def envpAt (sp : Nat) (envp : List (List UInt8)) : List (Nat × List UInt8) := (placed sp envp.reverse).reverse

theorem map_snd_reverse_placed (a : Nat) (ls : List (List UInt8)) :
    (placed a ls.reverse).reverse.map Prod.snd = ls := by
  rw [List.map_reverse, map_snd_placed, List.reverse_reverse]

theorem length_reverse_placed (a : Nat) (ls : List (List UInt8)) :
    (placed a ls.reverse).reverse.length = ls.length := by
  rw [← List.length_map (f := Prod.snd), map_snd_reverse_placed]

/-- The words from `newsp` up are those of the arguments, with strings that lie from `sp` up. -/
structure HoldsArgs (m : View) (newsp sp : Nat) (argv envp : List (List UInt8)) : Prop where
  argc : m.word newsp 8 = some argv.length
  args : m.HoldsWords (newsp + 8) ((argvAt sp argv envp).map Prod.fst ++ [0])
  env : m.HoldsWords (newsp + 8 + 8 * (argv.length + 1)) ((envpAt sp envp).map Prod.fst ++ [0])
  aux : m.HoldsWords (newsp + 8 + 8 * (argv.length + 1) + 8 * (envp.length + 1)) [atPagesz, pageSize, 0]

theorem HoldsArgs.frame {newsp x n : Nat} {argv envp : List (List UInt8)} (h : HoldsArgs m newsp sp argv envp)
    (hk : View.Keeps m x n m') (hd : newsp + pointerArea argv envp ≤ x ∨ x + n ≤ newsp) :
    HoldsArgs m' newsp sp argv envp := by
  unfold pointerArea at hd
  constructor
  · exact word_mono (fun k hk' b hb => hk _ b hb (by omega)) h.argc
  · refine h.args.frame hk ?_
    rw [List.length_append, List.length_map, argvAt, length_reverse_placed, List.length_singleton]
    omega
  · refine h.env.frame hk ?_
    rw [List.length_append, List.length_map, envpAt, length_reverse_placed, List.length_singleton]
    omega
  · refine h.aux.frame hk ?_
    show _ + 8 * 3 ≤ x ∨ _
    omega

theorem AddressSpace.storeArgs {argv envp : List (List UInt8)} {newsp : Nat} (h : AddressSpace s pgdir)
    (hstr : (userBytes s pgdir).Holds sp (block (argv ++ envp).reverse)) (hnul : ∀ l ∈ argv ++ envp, 0 ∉ l)
    (haligned : newsp % 16 = 0) (hbelow : newsp + pointerArea argv envp ≤ sp)
    (hzero : ∀ x, newsp ≤ x → x < newsp + pointerArea argv envp → userBytes s pgdir x = some 0)
    (hend : sp + (block (argv ++ envp).reverse).length ≤ uspaceTop) :
    ∃ s', Runs (storeArgs pgdir newsp sp argv.length envp.length) s () s' ∧ Stretches s pgdir [] s' ∧
      View.Keeps (userBytes s pgdir) newsp (pointerArea argv envp) (userBytes s' pgdir) ∧
      HoldsArgs (userBytes s' pgdir) newsp sp argv envp := by
  have hrev (ls : List (List UInt8)) : ls.reverse.length = ls.length := List.length_reverse
  unfold pointerArea at hbelow hzero ⊢
  rw [block_reverse, List.length_append] at hend
  rw [block_reverse] at hstr
  -- the null words at the ends of the arrays
  have hnull (x : Nat) (hlo : newsp ≤ x) (hhi : x + 8 ≤ newsp + 8 * (argv.length + envp.length + 6)) :
      (userBytes s pgdir).HoldsWords x [0] :=
    ⟨word_zero fun k hk => hzero (x + k) (by omega) (by omega), trivial⟩
  have hmapped (x : Nat) (hlo : newsp ≤ x) (hhi : x < newsp + 8 * (argv.length + envp.length + 6)) :
      (userBytes s pgdir x).isSome = true := by
    rw [hzero x hlo hhi]
    rfl
  generalize henvp : newsp + 8 + 8 * (argv.length + 1) = newenvp
  generalize hauxv : newenvp + 8 * (envp.length + 1) = newauxv
  -- the auxiliary vector
  obtain ⟨s₁, hr₁, g₁, hw₁⟩ := h.storeWord (hmapped newauxv (by omega) (by omega)) (by omega) atPagesz
  obtain ⟨s₂, hr₂, g₂, hw₂⟩ := g₁.space.storeWord (g₁.mapped _ (hmapped (newauxv + 8) (by omega) (by omega)))
    (by omega) pageSize
  have hkeep₂ : View.Keeps (userBytes s pgdir) newauxv 16 (userBytes s₂ pgdir) :=
    (hw₁.outside.mono (Nat.le_refl _) (by omega)).trans (hw₂.outside.mono (by omega) (by omega))
  have hmapped₂ (x : Nat) (hlo : newsp ≤ x) (hhi : x < newsp + 8 * (argv.length + envp.length + 6)) :=
    g₂.mapped x (g₁.mapped x (hmapped x hlo hhi))
  have hstr₂ := hstr.frame hkeep₂ (.inr (by omega))
  rw [holds_append] at hstr₂
  have haux : (userBytes s₂ pgdir).HoldsWords newauxv [atPagesz, pageSize, 0] := by
    refine ⟨?_, ?_, ((hnull (newauxv + 16) (by omega) (by omega)).frame hkeep₂ (.inr (by omega)))⟩
    · exact word_mono (fun k hk b hb => hw₂.outside _ b hb (.inl (by omega))) (word_of_bytes hw₁.inside)
    · exact word_of_bytes hw₂.inside
  -- the environment
  obtain ⟨s₃, hr₃, g₃, henv, hkeep₃⟩ := g₂.space.storePointers newenvp hstr₂.1
    (fun l hl => hnul l (List.mem_append_right _ (List.mem_reverse.mp hl))) (by omega) (by rw [hrev]; omega)
    (fun x hlo hhi => hmapped₂ x (by omega) (by rw [hrev] at hhi; omega)) (by omega)
  rw [hrev] at hr₃ hkeep₃
  -- the arguments
  obtain ⟨s₄, hr₄, g₄, harg, hkeep₄⟩ := g₃.space.storePointers (newsp + 8)
    (hstr₂.2.frame hkeep₃ (.inr (by omega)))
    (fun l hl => hnul l (List.mem_append_left _ (List.mem_reverse.mp hl))) (by omega) (by rw [hrev]; omega)
    (fun x hlo hhi => g₃.mapped x (hmapped₂ x (by omega) (by rw [hrev] at hhi; omega))) (by omega)
  rw [hrev] at hr₄ hkeep₄
  obtain ⟨s', hr₅, g₅, hw₅⟩ := g₄.space.storeWord
    (g₄.mapped _ (g₃.mapped _ (hmapped₂ newsp (Nat.le_refl _) (by omega)))) (by omega) argv.length
  have hrun : Runs (Core.storeArgs pgdir newsp sp argv.length envp.length) s () s' := by
    unfold Core.storeArgs
    simp only [henvp, hauxv]
    exact runs_bind.mpr ⟨(), s₁, hr₁, runs_bind.mpr ⟨(), s₂, hr₂, runs_bind.mpr ⟨_, s₃, hr₃,
      runs_bind.mpr ⟨_, s₄, hr₄, hr₅⟩⟩⟩⟩
  have hnull₄ (x : Nat) (hlo : newsp ≤ x) (hhi : x + 8 ≤ newauxv)
      (hout₃ : x + 8 ≤ newenvp ∨ newenvp + 8 * envp.length ≤ x)
      (hout₄ : x + 8 ≤ newsp + 8 ∨ newsp + 8 + 8 * argv.length ≤ x) :
      (userBytes s₄ pgdir).HoldsWords x [0] := by
    have hlen : 8 * [0].length = 8 := rfl
    have h₂ := (hnull x hlo (by omega)).frame hkeep₂ (by omega)
    have h₃ := h₂.frame hkeep₃ (by omega)
    exact h₃.frame hkeep₄ (by omega)
  have hlenA : ((placed (sp + (block envp.reverse).length) argv.reverse).reverse.map Prod.fst).length =
      argv.length := by rw [List.length_map, length_reverse_placed]
  have hlenE : ((placed sp envp.reverse).reverse.map Prod.fst).length = envp.length := by
    rw [List.length_map, length_reverse_placed]
  refine ⟨s', hrun, g₁.trans (g₂.trans (g₃.trans (g₄.trans g₅))), ?_, ?_, ?_, ?_, ?_⟩
  · refine ((hkeep₂.mono (by omega) (by omega)).trans (hkeep₃.mono (by omega) (by omega))).trans ?_
    exact (hkeep₄.mono (by omega) (by omega)).trans (hw₅.outside.mono (by omega) (by omega))
  · have hargc : argv.length % 256 ^ 8 = argv.length := by
      change sp + _ ≤ 2 ^ 48 at hend
      omega
    rw [word_of_bytes hw₅.inside, hargc]
  · refine HoldsWords.frame ?_ hw₅.outside (.inr (by omega))
    rw [argvAt, holdsWords_append, hlenA]
    exact ⟨harg, hnull₄ _ (by omega) (by omega) (by omega) (by omega)⟩
  · rw [henvp]
    refine HoldsWords.frame ?_ hw₅.outside (.inr (by omega))
    rw [envpAt, holdsWords_append, hlenE]
    refine ⟨henv.frame hkeep₄ (.inr (by omega)), hnull₄ _ (by omega) (by omega) (by omega) (by omega)⟩
  · rw [henvp, hauxv]
    have h₃ := haux.frame hkeep₃ (.inr (by omega))
    have h₄ := h₃.frame hkeep₄ (.inr (by omega))
    exact h₄.frame hw₅.outside (.inr (by omega))

/-- A stack that holds the words and the strings, and is zero elsewhere, is that of the call. -/
theorem HoldsArgs.encodes {newsp stksz : Nat} {argv envp : List (List UInt8)}
    (h : HoldsArgs m newsp sp argv envp)
    (hstr : m.Holds sp (block (argv ++ envp).reverse)) (hnul : ∀ l ∈ argv ++ envp, 0 ∉ l)
    (haligned : newsp % 16 = 0) (hstksz : uspaceTop - stksz < newsp)
    (hbelow : newsp + pointerArea argv envp ≤ sp)
    (hend : sp + (block (argv ++ envp).reverse).length = uspaceTop)
    (hmapped : ∀ x, newsp ≤ x → x < newsp + pointerArea argv envp → (m x).isSome = true)
    (hzero : ∀ x, uspaceTop - stksz ≤ x → x < sp → x < newsp ∨ newsp + pointerArea argv envp ≤ x →
      m x = some 0) :
    Encodes m newsp stksz argv envp := by
  have hall : argvAt sp argv envp ++ envpAt sp envp = (placed sp (argv ++ envp).reverse).reverse := by
    rw [argvAt, envpAt, List.reverse_append, placed_append, List.reverse_append]
  have hplaced {x : Nat × List UInt8} (hx : x ∈ argvAt sp argv envp ++ envpAt sp envp) :=
    holds_placed hstr (List.mem_reverse.mp (hall ▸ hx))
  have hlenA : (argvAt sp argv envp).length = argv.length := length_reverse_placed _ _
  have hlenE : (envpAt sp envp).length = envp.length := length_reverse_placed _ _
  have hpos : 0 < sp := by
    unfold pointerArea at hbelow
    omega
  have hread : readStack m newsp =
      some ⟨argv.length, argvAt sp argv envp, envpAt sp envp, (atPagesz, pageSize), 0⟩ := by
    refine readStack_eq h.argc h.args ?_ ?_ (fun x hx => ?_) ?_
    · rw [hlenA]
      exact h.env
    · rw [hlenA, hlenE]
      exact h.aux
    · obtain ⟨hheld, hmem, hle, hlt⟩ := hplaced hx
      exact ⟨hheld, hnul _ (List.mem_reverse.mp hmem), by omega, by omega⟩
    · rw [hlenA, hlenE]
      unfold pointerArea at hbelow
      omega
  refine ⟨haligned, ⟨hstksz, by omega⟩, _, hread, rfl, map_snd_reverse_placed _ _, map_snd_reverse_placed _ _,
    rfl, rfl, fun x hx => ?_, fun a hlo hhi => ?_⟩
  · obtain ⟨-, -, hle, hlt⟩ := hplaced hx
    exact ⟨by omega, by omega⟩
  · by_cases hsp : sp ≤ a
    · have hplace : ∃ x ∈ placed sp (argv ++ envp).reverse, x.1 ≤ a ∧ a < x.1 + x.2.length + 1 :=
        mem_placed hsp (by omega)
      obtain ⟨x, hx, hle, hlt⟩ := hplace
      rw [← List.mem_reverse, ← hall] at hx
      obtain ⟨hheld, -, -, -⟩ := hplaced hx
      have hlen : (x.2 ++ [0]).length = x.2.length + 1 := by simp
      have hbyte := holds_iff.mp hheld (a - x.1) (by rw [hlen]; omega)
      rw [show x.1 + (a - x.1) = a by omega] at hbyte
      exact ⟨_, hbyte, .inr (.inr ⟨x, hx, hle, hlt⟩)⟩
    · by_cases harea : newsp ≤ a ∧ a < newsp + pointerArea argv envp
      · obtain ⟨b, hb⟩ := Option.isSome_iff_exists.mp (hmapped a harea.1 harea.2)
        exact ⟨b, hb, .inr (.inl harea)⟩
      · exact ⟨0, hzero a hlo (by omega) (by omega), .inl rfl⟩

theorem sub64_of_le {a b : Nat} (h : b ≤ a) (ha : a < 2 ^ 64) : sub64 a b = a - b := by
  unfold sub64
  omega

/-- The bytes of the strings of the call. -/
def stringArea (argv envp : List (List UInt8)) : Nat := (block (argv ++ envp).reverse).length

/-- The stack from the stack pointer `newsp` up is that of the call. -/
structure Pushed (m : View) (newsp : Nat) (argv envp : List (List UInt8)) : Prop where
  args : HoldsArgs m newsp (uspaceTop - stringArea argv envp) argv envp
  strings : m.Holds (uspaceTop - stringArea argv envp) (block (argv ++ envp).reverse)
  mapped : ∀ x, newsp ≤ x → x < newsp + pointerArea argv envp → (m x).isSome = true
  zero : ∀ x, newsp + pointerArea argv envp ≤ x → x < uspaceTop - stringArea argv envp → m x = some 0

/-- The strings and the pointers are all copied, and what is left is the stack below them; or there are
too few pages for them. -/
theorem AddressSpace.buildStack_push {argv envp : List (List UInt8)} (h : AddressSpace s pgdir)
    (hroom : Room s pgdir (upperVisits argv envp)) (hfit : usedStack argv envp ≤ uspaceTop)
    (hnul : ∀ l ∈ argv ++ envp, 0 ∉ l) :
    (∃ s', Runs (buildStack pgdir (argv.map some) (envp.map some)) s none s' ∧
        s.free.length < (lacking s pgdir (upperVisits argv envp)).card) ∨
      ∃ s', buildStack pgdir (argv.map some) (envp.map some) s =
          growStack pgdir (uspaceTop - usedStack argv envp) s' ∧ Stretches s pgdir (upperVisits argv envp) s' ∧
        Pushed (userBytes s' pgdir) (uspaceTop - usedStack argv envp) argv envp := by
  have hsum := usedStack_eq argv envp
  unfold upperVisits at hroom ⊢
  generalize usedStack argv envp = used at hroom hfit hsum ⊢
  have htop : uspaceTop = 2 ^ 48 := rfl
  have hblock : stringArea argv envp = (block envp.reverse).length + (block argv.reverse).length := by
    rw [stringArea, block_reverse, List.length_append]
  unfold Core.buildStack
  -- the strings of the arguments
  obtain ⟨s₁, hr₁, hless⟩ | ⟨s₁, hr₁, g₁, hw₁⟩ :=
    h.copyStrings argv uspaceTop hroom.left (by omega) (Nat.le_refl _)
  · exact .inl ⟨s₁, runs_bind.mpr ⟨none, s₁, hr₁, runs_pure.mpr ⟨rfl, rfl⟩⟩,
      Nat.lt_of_lt_of_le hless (card_lacking_le_append ..)⟩
  have hcard₁ := g₁.card_lacking (stringVisits envp (uspaceTop - (block argv.reverse).length) ++
    touchedPages (uspaceTop - used) (used - (block argv.reverse).length - (block envp.reverse).length))
  have htaken₁ := g₁.taken
  have hroom₁ := hroom.after g₁
  -- the strings of the environment
  obtain ⟨s₂, hr₂, hless⟩ | ⟨s₂, hr₂, g₂, hw₂⟩ :=
    g₁.space.copyStrings envp (uspaceTop - (block argv.reverse).length) hroom₁.left (by omega) (by omega)
  · refine .inl ⟨s₂, runs_bind.mpr ⟨_, s₁, hr₁, runs_bind.mpr ⟨none, s₂, hr₂, runs_pure.mpr ⟨rfl, rfl⟩⟩⟩, ?_⟩
    have hle := Nat.lt_of_lt_of_le hless (card_lacking_le_append s₁ pgdir _
      (touchedPages (uspaceTop - used) (used - (block argv.reverse).length - (block envp.reverse).length)))
    omega
  have hsp : uspaceTop - (block argv.reverse).length - (block envp.reverse).length =
      uspaceTop - stringArea argv envp := by omega
  rw [hsp] at hr₂ hw₂
  have hcard₂ := g₂.card_lacking (touchedPages (uspaceTop - used)
    (used - (block argv.reverse).length - (block envp.reverse).length))
  have htaken₂ := g₂.taken
  have hroom₂ := hroom₁.after g₂
  generalize hlow : uspaceTop - stringArea argv envp = sp at hr₂ hw₂
  have hstr₂ : (userBytes s₂ pgdir).Holds sp (block (argv ++ envp).reverse) := by
    have hbelow : sp + (block envp.reverse).length = uspaceTop - (block argv.reverse).length := by omega
    rw [block_reverse]
    exact (Writes.prepend (hbelow ▸ hw₁) hw₂).holds
  -- the stack pointer of the new program, and the area of the pointers
  have hnewsp :
      roundDown (sub64 (sub64 sp 16) ((envp.length + argv.length + 4) * 8)) 16 = uspaceTop - used := by
    have hfirst : sub64 sp 16 = sp - 16 := sub64_of_le (by omega) (by omega)
    rw [hfirst, sub64_of_le (by omega) (by omega)]
    unfold roundDown
    omega
  have harea : used - (block argv.reverse).length - (block envp.reverse).length = sp - (uspaceTop - used) :=
    by omega
  have hlen₃ : sub64 sp (uspaceTop - used) = sp - (uspaceTop - used) := sub64_of_le (by omega) (by omega)
  have hbelow : uspaceTop - used + pointerArea argv envp ≤ sp := by
    unfold pointerArea
    omega
  rw [harea] at hroom₂ hcard₂ hcard₁ ⊢
  simp only [bind_eq_of_runs hr₁, bind_eq_of_runs hr₂, List.length_map, hnewsp, hlen₃, Runs]
  obtain ⟨s₃, hr₃, hless⟩ | ⟨s₃, hr₃, g₃, hw₃⟩ :=
    g₂.space.copyoutBytes (uspaceTop - used) (sp - (uspaceTop - used)) hroom₂ (by omega) fun _ => 0
  · refine .inl ⟨s₃, ?_, ?_⟩
    · rw [bind_eq_of_runs hr₃, if_neg (by decide)]
      rfl
    · omega
  have hzero₃ (x : Nat) (hlo : uspaceTop - used ≤ x) (hhi : x < sp) : userBytes s₃ pgdir x = some 0 := by
    have hx := hw₃.inside (x - (uspaceTop - used)) (by omega)
    rwa [Nat.add_sub_cancel' hlo] at hx
  have hstr₃ := hstr₂.frame hw₃.outside (.inr (by omega))
  have hend : sp + (block (argv ++ envp).reverse).length ≤ uspaceTop := by
    change sp + stringArea argv envp ≤ uspaceTop
    omega
  obtain ⟨s₄, hr₄, g₄, hkeep₄, hargs₄⟩ := g₃.space.storeArgs hstr₃ hnul (by omega) hbelow
    (fun x hlo hhi => hzero₃ x hlo (by omega)) hend
  have g := (g₁.trans (g₂.trans g₃)).trans g₄
  rw [List.append_nil] at g
  refine .inr ⟨s₄, ?_, g, ?_, ?_, fun x hlo hhi => ?_, fun x hlo hhi => ?_⟩
  · rw [bind_eq_of_runs hr₃, if_pos rfl, bind_eq_of_runs hr₄]
  · rw [hlow]
    exact hargs₄
  · rw [hlow]
    exact hstr₃.frame hkeep₄ (.inr (by omega))
  · refine g₄.mapped x ?_
    rw [hzero₃ x hlo (by omega)]
    rfl
  · rw [hlow] at hhi
    exact hkeep₄ x 0 (hzero₃ x (by omega) hhi) (by omega)

/-- The stack from the stack pointer up lies on different pages of memory. -/
theorem Pushed.used_le {argv envp : List (List UInt8)} (h : AddressSpace s pgdir)
    (hfit : usedStack argv envp ≤ uspaceTop)
    (hpushed : Pushed (userBytes s pgdir) (uspaceTop - usedStack argv envp) argv envp) :
    usedStack argv envp < 2 ^ 31 := by
  have hsum := usedStack_eq argv envp
  generalize usedStack argv envp = used at hfit hpushed hsum ⊢
  have htop : uspaceTop = 2 ^ 48 := rfl
  have hpage : pageSize = 4096 := rfl
  have hphys : physPages = 0x3F000 := rfl
  have hblock : stringArea argv envp = (block envp.reverse).length + (block argv.reverse).length := by
    rw [stringArea, block_reverse, List.length_append]
  have hmapped (x : Nat) (hlo : uspaceTop - used ≤ x) (hhi : x < uspaceTop) :
    (userBytes s pgdir x).isSome = true := by
    by_cases harea : x < uspaceTop - used + pointerArea argv envp
    · exact hpushed.mapped x hlo harea
    by_cases hstr : x < uspaceTop - stringArea argv envp
    · rw [hpushed.zero x (by omega) hstr]
      rfl
    · have hbyte := holds_iff.mp hpushed.strings (x - (uspaceTop - stringArea argv envp)) (by
        change _ < stringArea argv envp
        omega)
      rw [Nat.add_sub_cancel' (by omega)] at hbyte
      rw [hbyte]
      rfl
  generalize hlow : roundUp (uspaceTop - used) pageSize = low
  have haligned : low % pageSize = 0 := hlow ▸ roundUp_mod _
  rw [roundUp_eq] at hlow
  have hmaps (a : Nat) (ha : a ∈ pagesFrom low uspaceTop) : Maps s pgdir a := by
    obtain ⟨k, rfl, hlt⟩ := mem_pagesFrom.mp ha
    have hbyte := hmapped (low + k * pageSize) (by omega) hlt
    rw [userBytes, Option.isSome_map, Option.isSome_iff_exists] at hbyte
    obtain ⟨q, hq⟩ := hbyte
    exact maps_iff_translate.mpr ⟨q, (userPage_some.mp hq).2⟩
  have hlength : (pagesFrom low uspaceTop).length = (uspaceTop - low + pageSize - 1) / pageSize := by
    simp [pagesFrom]
  have hle := h.length_le hmaps (pairwise_pagesFrom (Nat.le_refl uspaceTop))
  rw [hlength, htop, hpage, hphys] at hle
  omega

/-- The rest of the stack is zero, and what is left is the assertion; or there are too few pages. -/
theorem AddressSpace.growStack_rest {used stksz : Nat} (h : AddressSpace s pgdir)
    (hroom : Room s pgdir (touchedPages (uspaceTop - stksz) (stksz - used)))
    (hstksz : stksz = (used + 40959) / 40960 * 40960) (hle : stksz ≤ uspaceTop) :
    (∃ s', Runs (growStack pgdir (uspaceTop - used)) s none s' ∧
        s.free.length < (lacking s pgdir (touchedPages (uspaceTop - stksz) (stksz - used))).card) ∨
      ∃ s', growStack pgdir (uspaceTop - used) s =
          (require .panic (used % (10 * pageSize) ≠ 0) >>= fun _ => pure (some (uspaceTop - used, stksz)) :
            Sys.M (Option (Nat × Nat))) s' ∧
        View.Writes (userBytes s pgdir) (uspaceTop - stksz) (stksz - used) (fun _ => 0)
          (userBytes s' pgdir) := by
  have htop : uspaceTop = 2 ^ 48 := rfl
  have hpage : pageSize = 4096 := rfl
  have hused64 : sub64 uspaceTop (uspaceTop - used) = used := by
    rw [sub64_of_le (by omega) (by omega)]
    omega
  have hround : roundUp used (10 * pageSize) = stksz := by
    rw [hstksz]
    show used + 40960 - 1 - (used + 40960 - 1) % 40960 = _
    omega
  have hstksz64 : sub64 uspaceTop stksz = uspaceTop - stksz := sub64_of_le (by omega) (by omega)
  have hrest : sub64 stksz used = stksz - used := sub64_of_le (by omega) (by omega)
  have hiff : uspaceTop - stksz < uspaceTop - used ↔ used % (10 * pageSize) ≠ 0 := by
    rw [hpage]
    omega
  unfold growStack
  simp only [hused64, hround, hstksz64, hrest]
  obtain ⟨s', hr, hless⟩ | ⟨s', hr, -, hw⟩ :=
    h.copyoutBytes (uspaceTop - stksz) (stksz - used) hroom (by omega) fun _ => 0
  · exact .inl ⟨s', runs_bind.mpr ⟨false, s', hr, runs_pure.mpr ⟨rfl, rfl⟩⟩, hless⟩
  · refine .inr ⟨s', ?_, hw⟩
    simp only [bind_eq_of_runs hr, if_true]
    refine congrArg (fun x : Sys.M Unit => (x >>= fun _ => pure (some (uspaceTop - used, stksz)) :
      Sys.M (Option (Nat × Nat))) s') (require_congr ?_)
    rw [hused64, hround, hstksz64]
    exact hiff

/-- With the rest zero the stack is that of the call. -/
theorem Pushed.encodes {argv envp : List (List UInt8)} {newsp stksz : Nat} (h : Pushed m newsp argv envp)
    (hw : View.Writes m (uspaceTop - stksz) (newsp - (uspaceTop - stksz)) (fun _ => 0) m')
    (haligned : newsp % 16 = 0) (hstksz : uspaceTop - stksz < newsp)
    (hbelow : newsp + pointerArea argv envp ≤ uspaceTop - stringArea argv envp)
    (hle : stringArea argv envp ≤ uspaceTop) (hnul : ∀ l ∈ argv ++ envp, 0 ∉ l) :
    Encodes m' newsp stksz argv envp := by
  have hout : uspaceTop - stksz + (newsp - (uspaceTop - stksz)) ≤ newsp := by omega
  have hstr := h.strings.frame hw.outside (.inr (by omega))
  have hend : uspaceTop - stringArea argv envp + (block (argv ++ envp).reverse).length = uspaceTop :=
    Nat.sub_add_cancel hle
  refine (h.args.frame hw.outside (.inr hout)).encodes hstr hnul haligned hstksz hbelow hend
    (fun x hlo hhi => ?_) fun x hlo hhi hrest => ?_
  · obtain ⟨b, hb⟩ := Option.isSome_iff_exists.mp (h.mapped x hlo hhi)
    rw [hw.outside x b hb (.inr (by omega))]
    rfl
  · by_cases hx : x < newsp
    · have hlast := hw.inside (x - (uspaceTop - stksz)) (by omega)
      rwa [Nat.add_sub_cancel' hlo] at hlast
    · exact hw.outside x 0 (h.zero x (by omega) hhi) (.inr (by omega))

/-- With pages for the tables, there are too few pages for the stack, or what is left is the assertion and
the stack is that of the call. -/
theorem AddressSpace.buildStack_whole {argv envp : List (List UInt8)} (h : AddressSpace s pgdir)
    (hroom : Room s pgdir (stackVisits argv envp)) (hfit : usedStack argv envp ≤ uspaceTop)
    (hnul : ∀ l ∈ argv ++ envp, 0 ∉ l) :
    (∃ s', Runs (buildStack pgdir (argv.map some) (envp.map some)) s none s' ∧
        s.free.length < (lacking s pgdir (stackVisits argv envp)).card) ∨
      ∃ s', buildStack pgdir (argv.map some) (envp.map some) s =
          (require .panic (usedStack argv envp % (10 * pageSize) ≠ 0) >>= fun _ =>
            pure (some (uspaceTop - usedStack argv envp, stackSize argv envp)) :
              Sys.M (Option (Nat × Nat))) s' ∧
        (usedStack argv envp % (10 * pageSize) ≠ 0 →
          Encodes (userBytes s' pgdir) (uspaceTop - usedStack argv envp) (stackSize argv envp) argv envp) := by
  obtain ⟨s₁, hr₁, hless⟩ | ⟨s₁, heq₁, g₁, hpushed⟩ := h.buildStack_push hroom.left hfit hnul
  · exact .inl ⟨s₁, hr₁, Nat.lt_of_lt_of_le hless (card_lacking_le_append ..)⟩
  have hsmall := hpushed.used_le g₁.space hfit
  have hround := stackSize_eq argv envp
  have hsum := usedStack_eq argv envp
  have htop : uspaceTop = 2 ^ 48 := rfl
  have hpage : pageSize = 4096 := rfl
  have hblock : stringArea argv envp = (block envp.reverse).length + (block argv.reverse).length := by
    rw [stringArea, block_reverse, List.length_append]
  have hcard := g₁.card_lacking
    (touchedPages (uspaceTop - stackSize argv envp) (stackSize argv envp - usedStack argv envp))
  have htaken := g₁.taken
  obtain ⟨s₂, hr₂, hless⟩ | ⟨s₂, heq₂, hw⟩ := g₁.space.growStack_rest (hroom.after g₁) hround (by omega)
  · refine .inl ⟨s₂, ?_, ?_⟩
    · rw [Runs, heq₁]
      exact hr₂
    · unfold stackVisits
      omega
  · have hrest : uspaceTop - usedStack argv envp - (uspaceTop - stackSize argv envp) =
        stackSize argv envp - usedStack argv envp := by omega
    rw [← hrest] at hw
    refine .inr ⟨s₂, heq₁.trans heq₂, fun hne => ?_⟩
    rw [hpage] at hne
    refine hpushed.encodes hw (by omega) (by omega) ?_ (by omega) hnul
    unfold pointerArea
    omega

/-- With pages for the tables, a stack that is built is that of the call. -/
theorem AddressSpace.buildStack_encodes {argv envp : List (List UInt8)} {newsp stksz : Nat}
    (h : AddressSpace s pgdir) (hroom : Room s pgdir (stackVisits argv envp))
    (hfit : usedStack argv envp ≤ uspaceTop) (hnul : ∀ l ∈ argv ++ envp, 0 ∉ l)
    (hr : Runs (buildStack pgdir (argv.map some) (envp.map some)) s (some (newsp, stksz)) s') :
    Encodes (userBytes s' pgdir) newsp stksz argv envp := by
  obtain ⟨t, hnone, -⟩ | ⟨t, heq, hencodes⟩ := h.buildStack_whole hroom hfit hnul
  · cases (hr.unique hnone).1
  · rw [Runs, heq] at hr
    obtain ⟨_, _, hrequire, hpure⟩ := runs_bind.mp hr
    obtain ⟨hne, rfl⟩ := runs_require.mp hrequire
    obtain ⟨hsome, rfl⟩ := runs_pure.mp hpure
    obtain ⟨rfl, rfl⟩ := Prod.mk.inj (Option.some.inj hsome)
    exact hencodes hne

/-- With enough pages for all of it the stack is built. -/
theorem AddressSpace.buildStack_returns {argv envp : List (List UInt8)} (h : AddressSpace s pgdir)
    (henough : (lacking s pgdir (stackVisits argv envp)).card ≤ s.free.length)
    (hfit : usedStack argv envp ≤ uspaceTop) (hnul : ∀ l ∈ argv ++ envp, 0 ∉ l)
    (hne : usedStack argv envp % (10 * pageSize) ≠ 0) :
    ∃ s', Runs (buildStack pgdir (argv.map some) (envp.map some)) s
      (some (uspaceTop - usedStack argv envp, stackSize argv envp)) s' := by
  obtain ⟨t, -, hless⟩ | ⟨t, heq, -⟩ := h.buildStack_whole (.of_enough henough) hfit hnul
  · omega
  · refine ⟨t, ?_⟩
    rw [Runs, heq]
    exact runs_bind.mpr ⟨(), t, runs_require.mpr ⟨hne, rfl⟩, runs_pure.mpr ⟨rfl, rfl⟩⟩

end FtosFfs.Core
