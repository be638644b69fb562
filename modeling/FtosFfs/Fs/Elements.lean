import FtosFfs.Fs.Resolve
import FtosFfs.Core.Memory

/-! `skipelem` with the buffer that it copies the element to and its `int` length: applied until it
returns NULL, it takes the elements of any path that fits in memory. -/

namespace FtosFfs.Fs.Elements

open Lib

/-- The bytes of a path before its NUL.  They lie in pages below `phystop`. -/
structure PathString where
  bytes : List UInt8
  noNul : 0 ∉ bytes
  fits : bytes.length < Core.physPages * Core.pageSize

/-- The two branches of `skipelem` that copy `len` bytes of `s` to `name`.  A negative `len` would be
a copy of almost `2 ^ 64` bytes, which does not return. -/
def copyElem (s name : List UInt8) (len : Int32) : Option (List UInt8) :=
  if 14 ≤ len then some (s.take fileNameMaxLength ++ name.drop fileNameMaxLength)
  else if len < 0 then none
  else
    let n := len.toInt.toNat
    some ((s.take n ++ name.drop n).set n 0)

/-- `skipelem`: the path that it returns, with `none` for NULL, and `name` after it. -/
def skipelem (path name : List UInt8) : Option (Option (List UInt8) × List UInt8) :=
  match path.dropWhile (· = slash) with
  | [] => some (none, name)
  | s =>
    let path := s.dropWhile (· ≠ slash)
    let len := (UInt64.ofNat (s.length - path.length)).toUInt32.toInt32
    (copyElem s name len).map fun name => (some (path.dropWhile (· = slash)), name)

/-- Calls of `skipelem` until it returns NULL: the rest of the path and `name` after each of the others.
Nothing if a call does not return, or if `fuel` calls are not enough. -/
def skipelems : Nat → List UInt8 → List UInt8 → Option (List (List UInt8 × List UInt8))
  | 0, _, _ => none
  | fuel + 1, path, name =>
    match skipelem path name with
    | none => none
    | some (none, _) => some []
    | some (some path, name) => (skipelems fuel path name).map ((path, name) :: ·)

variable {path s w rest elem name : List UInt8} {steps : List (List UInt8 × List UInt8)}

/-! ### The buffer -/

/-- `name` with `elem` copied to it. -/
def putElem (name elem : List UInt8) : List UInt8 :=
  (elem ++ name.drop elem.length).set elem.length 0

/-- The buffer holds the first bytes of `run`, and a NUL after them if there is room. -/
structure Holds (name run : List UInt8) : Prop where
  size : name.length = fileNameMaxLength
  bytes : name.take (min run.length fileNameMaxLength) = run.take fileNameMaxLength
  nul : run.length < fileNameMaxLength → name[run.length]? = some 0

theorem holds_putElem (hname : name.length = fileNameMaxLength) (w : List UInt8) :
    Holds (putElem name (w.take fileNameMaxLength)) w := by
  have hlen : (w.take fileNameMaxLength).length = min w.length fileNameMaxLength := by
    rw [List.length_take, Nat.min_comm]
  constructor
  · rw [putElem, List.length_set, List.length_append, List.length_drop, hlen, hname]
    omega
  · rw [putElem, hlen, List.take_set_of_le (Nat.le_refl _), ← hlen, List.take_left]
  · intro hroom
    have hall : w.take fileNameMaxLength = w := List.take_of_length_le (Nat.le_of_lt hroom)
    rw [putElem, hall, List.getElem?_set_self]
    rw [List.length_append, List.length_drop, hname]
    omega

/-- The length of a run that fits in memory does not change as an `int`. -/
theorem toInt_length {n : Nat} (h : n < 2 ^ 31) :
    (UInt64.ofNat n).toUInt32.toInt32.toInt = n := by
  rw [UInt64.toUInt32_ofNat']
  show (BitVec.ofNat 32 n).toInt = n
  rw [BitVec.toInt_ofNat']
  exact Int.bmod_eq_of_le (by omega) (by omega)

/-- What is copied of a run `w` at the start of `s`. -/
theorem copyElem_eq (hname : name.length = fileNameMaxLength) (hw : w.length < 2 ^ 31) (t : List UInt8) :
    copyElem (w ++ t) name (UInt64.ofNat w.length).toUInt32.toInt32 =
      some (putElem name (w.take fileNameMaxLength)) := by
  have hint := toInt_length hw
  have hlong : 14 ≤ (UInt64.ofNat w.length).toUInt32.toInt32 ↔ fileNameMaxLength ≤ w.length := by
    rw [Int32.le_iff_toInt_le, hint]
    exact Int.ofNat_le
  have hneg : ¬(UInt64.ofNat w.length).toUInt32.toInt32 < 0 := by
    rw [Int32.lt_iff_toInt_lt, hint]
    exact Int.not_lt.mpr (Int.natCast_nonneg _)
  unfold copyElem
  by_cases hle : fileNameMaxLength ≤ w.length
  · have hlen : (w.take fileNameMaxLength).length = fileNameMaxLength := List.length_take_of_le hle
    have hdrop : name.drop fileNameMaxLength = [] := List.drop_of_length_le (Nat.le_of_eq hname)
    rw [if_pos (hlong.mpr hle), List.take_append_of_le_length hle, putElem, hlen, hdrop,
      List.append_nil, List.set_eq_of_length_le (Nat.le_of_eq hlen)]
  · have hall : w.take fileNameMaxLength = w := List.take_of_length_le (by omega)
    rw [if_neg (mt hlong.mp hle), if_neg hneg]
    dsimp only
    rw [hint, Int.toNat_natCast, List.take_left, hall, putElem]

/-- `skipelem` returns what `namex` goes on with, and leaves the element in the buffer. -/
theorem skipelem_eq (hname : name.length = fileNameMaxLength) (hpath : path.length < 2 ^ 31) :
    skipelem path name = some (match Fs.skipelem path with
      | none => (none, name)
      | some (rest, elem) => (some rest, putElem name elem)) := by
  unfold skipelem Fs.skipelem
  cases hs : path.dropWhile (· = slash) with
  | nil => rfl
  | cons c s =>
    have hsplit := List.takeWhile_append_dropWhile (p := fun x => decide (x ≠ slash)) (l := c :: s)
    have hlen := congrArg List.length hsplit
    have hshort : (c :: s).length ≤ path.length := hs ▸ (List.dropWhile_suffix _).length_le
    rw [List.length_append] at hlen
    have hrun : (c :: s).length - ((c :: s).dropWhile (· ≠ slash)).length =
        ((c :: s).takeWhile (· ≠ slash)).length := by omega
    have hcopy := copyElem_eq hname (w := (c :: s).takeWhile (· ≠ slash)) (by omega)
      ((c :: s).dropWhile (· ≠ slash))
    rw [hsplit] at hcopy
    dsimp only
    rw [hrun, hcopy]
    rfl

/-! ### All elements -/

/-- The calls leave the runs of `path` between slashes, one after the other, in the buffer.  The rest
of the path does not start with a slash, and only that after the last element is empty. -/
structure Splits (path : List UInt8) (steps : List (List UInt8 × List UInt8)) : Prop where
  names : List.Forall₂ (fun step run => Holds step.2 run) steps (fields slash path)
  noSlash : ∀ step ∈ steps, step.1.head? ≠ some slash
  last : ∀ i step, steps[i]? = some step → (step.1 = [] ↔ i + 1 = steps.length)

theorem Splits.nil (h : Fs.skipelem path = none) : Splits path [] := by
  have hfields : fields slash path = [] := List.map_eq_nil_iff.mp (components_none h)
  constructor
  · rw [hfields]
    exact .nil
  · exact nofun
  · exact nofun

/-- What `skipelem` takes of a path is its first run, up to the length of the buffer. -/
theorem fields_skipelem (h : Fs.skipelem path = some (rest, elem)) :
    ∃ w, elem = w.take fileNameMaxLength ∧ fields slash path = w :: fields slash rest := by
  obtain ⟨a, w, b, rfl, ha, hw, hslash, hb, hnil, rfl⟩ := skipelem_some h
  refine ⟨w, rfl, ?_⟩
  rw [fields_seps_append ha, fields_append hw hslash hb hnil]

theorem head_skipelem (h : Fs.skipelem path = some (rest, elem)) : rest.head? ≠ some slash := by
  unfold Fs.skipelem at h
  split at h
  case h_1 => cases h
  case h_2 =>
    obtain ⟨hrest, -⟩ := Prod.mk.inj (Option.some.inj h)
    intro hhead
    have hnot := List.head?_dropWhile_not (· = slash)
      ((path.dropWhile (· = slash)).dropWhile (· ≠ slash))
    rw [hrest, hhead] at hnot
    simp at hnot

theorem Splits.cons (h : Fs.skipelem path = some (rest, elem)) (hname : name.length = fileNameMaxLength)
    (hrest : Splits rest steps) : Splits path ((rest, putElem name elem) :: steps) := by
  obtain ⟨w, rfl, hfields⟩ := fields_skipelem h
  have hlen : steps.length = (fields slash rest).length := hrest.names.length_eq
  -- Runs are left as long as the rest of the path is not empty.
  have hempty : rest = [] ↔ steps = [] := by
    constructor
    · rintro rfl
      exact List.length_eq_zero_iff.mp hlen
    · rintro rfl
      by_contra hne
      cases hskip : Fs.skipelem rest with
      | none => exact skipelem_rest h hne hskip
      | some re =>
        obtain ⟨w', -, hmore⟩ := fields_skipelem hskip
        rw [hmore] at hlen
        cases hlen
  constructor
  · rw [hfields]
    exact .cons (holds_putElem hname w) hrest.names
  · intro step hstep
    rcases List.mem_cons.mp hstep with rfl | hstep
    · exact head_skipelem h
    · exact hrest.noSlash step hstep
  · intro i step hstep
    cases i with
    | zero =>
      cases hstep
      rw [hempty, List.length_cons, Nat.add_left_inj, ← List.length_eq_zero_iff]
      exact eq_comm
    | succ i =>
      rw [List.length_cons, Nat.add_left_inj]
      exact hrest.last i step hstep

/-- The calls end, as every one of them takes at least one byte of the path. -/
theorem splits_skipelems {fuel : Nat} (hname : name.length = fileNameMaxLength)
    (hpath : path.length < 2 ^ 31) (hfuel : path.length < fuel) :
    ∃ steps, skipelems fuel path name = some steps ∧ Splits path steps := by
  induction fuel generalizing path name with
  | zero => exact absurd hfuel (Nat.not_lt_zero _)
  | succ fuel ih =>
    have hcall := skipelem_eq hname hpath
    cases hskip : Fs.skipelem path with
    | none =>
      rw [hskip] at hcall
      refine ⟨[], ?_, .nil hskip⟩
      rw [skipelems, hcall]
    | some re =>
      obtain ⟨rest, elem⟩ := re
      rw [hskip] at hcall
      have hlt := length_skipelem hskip
      obtain ⟨w, rfl, -⟩ := fields_skipelem hskip
      obtain ⟨steps, hrun, hsplits⟩ := ih (holds_putElem hname w).size
        (Nat.lt_trans hlt hpath) (by omega)
      refine ⟨_, ?_, hsplits.cons hskip hname⟩
      rw [skipelems, hcall]
      dsimp only
      rw [hrun, Option.map_some]

/-- `skipelem`, called until it returns NULL, splits every path, whatever `name` holds before. -/
theorem skipelems_split (path : PathString) (name : List UInt8)
    (hname : name.length = fileNameMaxLength) :
    ∃ steps, skipelems (path.bytes.length + 1) path.bytes name = some steps ∧
      Splits path.bytes steps :=
  splits_skipelems hname (Nat.lt_trans path.fits (by decide)) (Nat.lt_succ_self _)

/-- `"///a//bb"` and a buffer of zeros. -/
theorem skipelems_split_abb :
    ∃ steps, skipelems 9 [47, 47, 47, 97, 47, 47, 98, 98] (List.replicate fileNameMaxLength 0) = some steps ∧
      Splits [47, 47, 47, 97, 47, 47, 98, 98] steps :=
  skipelems_split ⟨[47, 47, 47, 97, 47, 47, 98, 98], by decide, by decide⟩ _ (by decide)

end FtosFfs.Fs.Elements
