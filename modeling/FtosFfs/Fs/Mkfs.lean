import FtosFfs.Fs.Inode

/-! `user/mkfs/main.c`: the image that `mkfs` builds from its input files.  The contents of the
super block are left out; the kernel's `sblock` is a parameter of the model. -/

namespace FtosFfs.Mkfs

open Lib Fs

/-- The image file and the static variables of `mkfs`. -/
structure Image where
  disk : Nat → BlockData
  freeinode : Nat
  usedBlock : Nat → Nat

/-- The functions of `mkfs`, without a result when they exit, abort, or do not end. -/
abbrev Mk : Type → Type := Exec Unit Image

abbrev check (c : Prop) [Decidable c] : Mk Unit := Exec.require () c

/-- The image after the loop that writes zeroes. -/
def blank : Image := ⟨fun _ => Bytes.zero, 1, fun _ => 0⟩

/-- `rblock`, which exits past the end of the file. -/
def rblock (b : Nat) : Mk BlockData := do
  check (b < fssize)
  pure ((← get).disk b)

def wblock (b : Nat) (d : BlockData) : Mk Unit :=
  modify fun s => { s with disk := Function.update s.disk b d }

/-- `IBLOCK`. -/
def iblock (inum : Nat) : Nat :=
  mkfsSuperBlock.bgStart + mkfsSuperBlock.blocksPerGroup * ((inum - 1) / (ninodes / ngroups)) +
    (inum - 1) % (ninodes / ngroups) / inodePerBlock

def winode (inum : Nat) (e : InodeEntry) : Mk Unit := do
  let buf ← rblock (iblock inum)
  wblock (iblock inum) (setEntry buf (inum % inodePerBlock) e)

def rinode (inum : Nat) : Mk InodeEntry := do
  let buf ← rblock (iblock inum)
  pure (getEntry buf (inum % inodePerBlock))

def ialloc (type : UInt16) : Mk Nat := do
  let s ← get
  set { s with freeinode := s.freeinode + 1 }
  winode s.freeinode { InodeEntry.zero with type, numLinks := 1 }
  pure s.freeinode

/-- A group whose data blocks are all used. -/
def full (usedBlock : Nat → Nat) (gno : Nat) : Bool :=
  usedBlock gno = mkfsSuperBlock.numDatablocksPerGroup

/-- The first group from `gno` on, around the end, that is not full. -/
def findGroup (full : Nat → Bool) : Nat → Nat → Option Nat
  | 0, _ => none
  | fuel + 1, gno => if full gno then findGroup full fuel ((gno + 1) % ngroups) else some gno

/-- `freeblock`: the next block of group `gno`, which is used from now on. -/
def takeBlock (gno : Nat) : Mk Nat := do
  let s ← get
  set { s with usedBlock := Function.update s.usedBlock gno (s.usedBlock gno + 1) }
  pure (mkfsSuperBlock.bgStart + gno * mkfsSuperBlock.blocksPerGroup +
    mkfsSuperBlock.dataStartPerGroup + s.usedBlock gno)

/-- The block of direct address `fbn`, allocated in group `gno` if need be. -/
def placeDirect (gno fbn : Nat) (din : InodeEntry) : Mk (InodeEntry × Nat) := do
  if din.addr fbn = 0 then
    let freeblock ← takeBlock gno
    pure (InodeEntry.setAddrs din fbn (UInt32.ofNat freeblock), freeblock)
  else pure (din, (din.addr fbn).toNat)

/-- The index block, allocated in group `gno` if need be. -/
def placeTable (gno : Nat) (din : InodeEntry) : Mk InodeEntry := do
  if din.indirect = 0 then
    let freeblock ← takeBlock gno
    pure { din with indirect := UInt32.ofNat freeblock }
  else pure din

/-- The block of slot `indirectNo` of the index block `table`, allocated if need be. -/
def placeSlot (table indirectNo : Nat) : Mk Nat := do
  let indirect ← rblock table
  if getAddr indirect indirectNo = 0 then
    match nextGroup (full (← get).usedBlock) (3 * ngroups)
        ((indirectNo / ninblocksPerGroup + 1) % ngroups) 2 with
    | none => throw ()
    | some tgno =>
      let freeblock ← takeBlock tgno
      wblock table (setAddr indirect indirectNo (UInt32.ofNat freeblock))
      pure freeblock
  else pure (getAddr indirect indirectNo).toNat

/-- The block for block `fbn` of the file. -/
def place (gno fbn : Nat) (din : InodeEntry) : Mk (InodeEntry × Nat) := do
  if fbn < inodeNumDirect then placeDirect gno fbn din
  else
    let din ← placeTable gno din
    let x ← placeSlot din.indirect.toNat (fbn - inodeNumDirect)
    pure (din, x)

/-- The loop of `iappend` with the bytes `p` left to write at `off`. -/
def appendLoop : Nat → Nat → Nat → InodeEntry → List UInt8 → Mk (Nat × InodeEntry)
  | 0, _, off, din, _ => pure (off, din)
  | fuel + 1, gno, off, din, p =>
    if p.length > 0 then do
      let fbn := off / blockSize
      check (fbn < inodeMaxBlocks)
      match findGroup (full (← get).usedBlock) (2 * ngroups) gno with
      | none => throw ()
      | some gno =>
        let (din, x) ← place gno fbn din
        let n1 := min p.length ((fbn + 1) * blockSize - off)
        let buf ← rblock x
        wblock x (buf.splice (off - fbn * blockSize) n1 fun i => p.getD i 0)
        appendLoop fuel gno (off + n1) din (p.drop n1)
    else pure (off, din)

def iappend (inum : Nat) (p : List UInt8) : Mk Unit := do
  let din ← rinode inum
  let (off, din) ← appendLoop p.length (inodeGroup inum) din.numBytes.toNat din p
  winode inum { din with numBytes := UInt32.ofNat off }

/-- `iappend` of a directory entry. -/
def appendEntry (inum : Nat) (e : DirEntry) : Mk Unit :=
  iappend inum ((List.range 16).map e.byte)

/-- `buf[i / 8] |= 0x1 << (i % 8)`. -/
def setBit (buf : BlockData) (i : Nat) : BlockData :=
  buf.splice (i / 8) 1 fun _ => buf.get (i / 8) ||| UInt8.ofNat (2 ^ (i % 8))

/-- The round of `ballocg` for group `gno`. -/
def ballocGroup (gno : Nat) : Mk Unit := do
  let groupused := (← get).usedBlock gno
  check (groupused ≤ mkfsSuperBlock.numDatablocksPerGroup)
  wblock (bitmapBlock mkfsSuperBlock gno 0)
    ((List.range (groupused + mkfsSuperBlock.dataStartPerGroup)).foldl setBit Bytes.zero)

def ballocg : Mk Unit := (List.range ngroups).forM ballocGroup

/-- The part of a path after the last `'/'`, less one leading `'_'`. -/
def inputName (path : List UInt8) : List UInt8 :=
  let name := (path.reverse.takeWhile (· ≠ 47)).reverse
  if name.head? = some 95 then name.tail else name

/-- An input file of `mkfs`: its path and the buffers that the calls of `read` fill. -/
structure Input where
  path : List UInt8
  reads : List (List UInt8)

/-- The round of `main` for an input file. -/
def addFile (input : Input) : Mk Unit := do
  let inum ← ialloc inodeRegular
  appendEntry 1 ⟨UInt16.ofNat inum, fileName (inputName input.path)⟩
  input.reads.forM (iappend inum)

/-- The size that `main` gives to the root directory. -/
def fixRoot : Mk Unit := do
  let din ← rinode 1
  winode 1 { din with numBytes := UInt32.ofNat ((din.numBytes.toNat / blockSize + 1) * blockSize) }

/-- `main` after the image is blank. -/
def main (inputs : List Input) : Mk Unit := do
  let rootino ← ialloc inodeDirectory
  check (rootino = 1)
  appendEntry rootino ⟨UInt16.ofNat rootino, fileName [46]⟩
  appendEntry rootino ⟨UInt16.ofNat rootino, fileName [46, 46]⟩
  inputs.forM addFile
  fixRoot
  ballocg

/-- The images that `mkfs` builds. -/
def Builds (disk : Nat → BlockData) : Prop :=
  ∃ inputs s, (main inputs).Runs blank () s ∧ disk = s.disk

end FtosFfs.Mkfs
