import FtosFfs.Fs.Idle
import FtosFfs.Lib.Paths

/-! Path resolution: when `namex` returns inside the operation of its caller, and when what it returns is
what following the components of the path leads to. -/

namespace FtosFfs.Fs

open Lib Lib.Exec Cache

variable {s t : State} {cwd : Ptr} {base : Ptr → Nat} {d : Nat → BlockData} {parent : Bool}
  {n m : Nat} {path name rest elem : List UInt8} {r : Option (Nat × List UInt8)}

/-! ### The elements that `namex` takes -/

/-- `namex` at inode `n` with `path` left comes to an inode and takes an element there, with some path
left after it. -/
inductive Visits (d : Nat → BlockData) (parent : Bool) :
    Nat → List UInt8 → Nat → List UInt8 → List UInt8 → Prop
  | here {n : Nat} {path rest elem : List UInt8} (hpath : skipelem path = some (rest, elem)) :
      Visits d parent n path n elem rest
  | later {n m k m' : Nat} {path rest elem rest' elem' : List UInt8}
      (hpath : skipelem path = some (rest, elem)) (hdir : IsDir d n) (hgoes : ¬StopsAt parent rest)
      (hfound : dirLookup d n elem = some (m, k)) (hrest : Visits d parent m rest m' elem' rest') :
      Visits d parent n path m' elem' rest'

/-- `namex` takes elements in directories only, and `nameiparent` takes one. -/
structure InDirectories (d : Nat → BlockData) (parent : Bool) (n : Nat) (path : List UInt8) : Prop where
  dirs : ∀ m elem rest, Visits d parent n path m elem rest → IsDir d m
  takes : parent = true → skipelem path ≠ none

/-- The first element that a path starts with is all that `namex` takes when it stops there. -/
theorem Visits.stop {m' : Nat} {rest' elem' : List UInt8} (h : Visits d parent n path m' elem' rest')
    (hpath : skipelem path = some (rest, elem)) (hstop : StopsAt parent rest) :
    m' = n ∧ elem' = elem ∧ rest' = rest := by
  cases h with
  | here hpath' =>
    cases hpath.symm.trans hpath'
    exact ⟨rfl, rfl, rfl⟩
  | later hpath' _ hgoes =>
    cases hpath.symm.trans hpath'
    exact absurd hstop hgoes

/-- In directories, the rounds of `namex` end. -/
theorem InDirectories.walk (h : InDirectories d parent n path) (name : List UInt8) :
    ∃ r, Walk d parent n path name r := by
  induction hlen : path.length using Nat.strong_induction_on generalizing n path name with
  | _ len ih =>
    cases hpath : skipelem path with
    | none =>
      refine ⟨_, .done hpath ?_⟩
      cases parent with
      | false => rfl
      | true => exact absurd hpath (h.takes rfl)
    | some re =>
      obtain ⟨rest, elem⟩ := re
      have hdir : IsDir d n := h.dirs n elem rest (.here hpath)
      by_cases hstop : StopsAt parent rest
      · exact ⟨_, .stop hpath hdir hstop⟩
      · cases hfound : dirLookup d n elem with
        | none => exact ⟨none, .missing hpath hdir hstop hfound⟩
        | some mk =>
          obtain ⟨m, k⟩ := mk
          have hlt := length_skipelem hpath
          have hrest : InDirectories d parent m rest := by
            refine ⟨fun m' elem' rest' ht => ?_, fun hmode => ?_⟩
            · exact h.dirs m' elem' rest' (.later hpath hdir hstop hfound ht)
            · exact skipelem_rest hpath fun hnil => hstop (.inl ⟨hmode, hnil⟩)
          obtain ⟨r, hw⟩ := ih rest.length (by omega) hrest elem rfl
          exact ⟨r, .next hpath hdir hstop hfound hw⟩

/-! ### The operation of the caller -/

/-- A call that can resolve paths: the directory where it starts is in use. -/
structure Starting (base : Ptr → Nat) (cwd : Ptr) (path : List UInt8) (s : State) : Prop where
  resolving : Resolving base s
  tree : TreeOk s.disk
  held : 0 < base cwd
  inUse : InUse (diskEntry s.disk) (startNo s cwd path)

theorem Idle.starting (h : Idle s) (hcwd : cwd ∈ s.list) (path : List UInt8) :
    Starting s.counts cwd path s.begun :=
  ⟨h.resolving, h.tree, h.counts_pos hcwd, h.inUse_startNo hcwd⟩

/-- The non-empty components of a path, as far as they are copied to `name`. -/
def components (path : List UInt8) : List (List UInt8) := (fields slash path).map (·.take fileNameMaxLength)

theorem components_none (h : skipelem path = none) : components path = [] := by
  have hslashes : path.dropWhile (· = slash) = [] := by
    unfold skipelem at h
    split at h
    case h_1 hnil => exact hnil
    case h_2 => cases h
  have hall (x : UInt8) (hx : x ∈ path) : x = slash := by
    simpa using List.dropWhile_eq_nil_iff.mp hslashes x hx
  have hfields : fields slash (path ++ []) = fields slash [] := fields_seps_append hall
  rw [List.append_nil] at hfields
  rw [components, hfields]
  rfl

/-- The entries of the root directory of the image with one file `f`. -/
theorem named_elevenBlocks {c : List UInt8} {k : Nat}
    (h : named c ((Mkfs.rootEntries [elevenBlocks]).getD k DirEntry.zero) = true) :
    k < 3 ∧ c.take fileNameMaxLength = nameChars
      ((Mkfs.rootEntries [elevenBlocks]).getD k DirEntry.zero).name := by
  have hlive : ((Mkfs.rootEntries [elevenBlocks]).getD k DirEntry.zero).inodeNo ≠ 0 ∧ c.take fileNameMaxLength =
      nameChars ((Mkfs.rootEntries [elevenBlocks]).getD k DirEntry.zero).name := by
    simpa only [named, decide_eq_true_eq] using h
  refine ⟨?_, hlive.2⟩
  by_contra hge
  refine hlive.1 ?_
  rw [List.getD_eq_default _ _ (by rw [length_rootEntries]; exact Nat.not_lt.mp hge)]
  rfl

end FtosFfs.Fs
