import FtosFfs.Fs.Inode

/-! Path names: `skipelem`, `namex`, `namei`, and `nameiparent` of `fs/inode.c`. -/

namespace FtosFfs.Fs

open Lib

/-- The character `'/'`. -/
def slash : UInt8 := 47

/-- The character `'.'`. -/
def dot : UInt8 := 46

/-- `skipelem`: the path after the first element, and the element. -/
def skipelem (path : List UInt8) : Option (List UInt8 × List UInt8) :=
  match path.dropWhile (· = slash) with
  | [] => none
  | path => some ((path.dropWhile (· ≠ slash)).dropWhile (· = slash),
      (path.takeWhile (· ≠ slash)).take fileNameMaxLength)

/-- An operation of its own for the `put` on two of the exits of `namex`. -/
def putInOp (sb : SuperBlock) (p : Ptr) : M Unit := do
  cacheBeginOp
  inodePut sb true p
  cacheEndOp

/-- The loop of `namex` at inode `ip`, and what follows it.  Every round takes at least one
character of the path, so `fuel` above its length suffices. -/
def namexFrom (sb : SuperBlock) (nameiparent : Bool) :
    Nat → Ptr → List UInt8 → List UInt8 → M (Option (Ptr × List UInt8))
  | 0, _, _, _ => throw .hang
  | fuel + 1, ip, path, name =>
    match skipelem path with
    | none =>
      if nameiparent then do
        putInOp sb ip
        pure none
      else pure (some (ip, name))
    | some (path, name) => do
      inodeLock sb ip
      if ((← get).mem ip).entry.type ≠ inodeDirectory then
        inodeUnlock ip
        putInOp sb ip
        pure none
      else if nameiparent ∧ path = [] then
        inodeUnlock ip
        pure (some (ip, name))
      else if path = [dot] then
        inodeUnlock ip
        pure (some (ip, name))
      else
        match ← inodeLookup sb ip name with
        | none =>
          inodeUnlock ip
          inodePut sb true ip
          pure none
        | some _ =>
          let found ← inodeLookup sb ip name
          let next ← inodeGet sb (found.elim 0 (·.1))
          inodeUnlock ip
          inodePut sb true ip
          namexFrom sb nameiparent fuel next path name

/-- The inode at which `namex` starts. -/
def namexStart (sb : SuperBlock) (cwd : Ptr) (path : List UInt8) : M Ptr :=
  if path.head? = some slash then inodeGet sb 1 else inodeShare cwd

/-- `namex`, with the current directory of the process: the inode and the last element copied to
`name`. -/
def namex (sb : SuperBlock) (cwd : Ptr) (path : List UInt8) (nameiparent : Bool) :
    M (Option (Ptr × List UInt8)) := do
  let ip ← namexStart sb cwd path
  namexFrom sb nameiparent (path.length + 1) ip path []

def namei (sb : SuperBlock) (cwd : Ptr) (path : List UInt8) : M (Option Ptr) := do
  pure ((← namex sb cwd path false).map (·.1))

def nameiparent (sb : SuperBlock) (cwd : Ptr) (path : List UInt8) :
    M (Option (Ptr × List UInt8)) :=
  namex sb cwd path true

end FtosFfs.Fs
