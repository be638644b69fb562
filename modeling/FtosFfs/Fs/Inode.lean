import FtosFfs.Fs.Blocks

/-! The inode layer, `fs/inode.c`: allocation, in-memory inodes and their reference counts, the
map from offsets to blocks, reads and writes, and directories. -/

namespace FtosFfs.Fs

open Lib Cache

/-- `GINODES`. -/
def ginodes (sb : SuperBlock) : Nat := sb.numInodes / sb.numGroups

/-- `NINBLOCKS_PER_GROUP`. -/
def ninblocksPerGroup : Nat := blockSize / 4 / (ngroups - 1) * 2 + 1

def toBlockNo (sb : SuperBlock) (inodeNo : Nat) : Nat :=
  sb.bgStart + sb.blocksPerGroup * ((inodeNo - 1) / ginodes sb) +
    (inodeNo - 1) % ginodes sb / inodePerBlock

/-- The group of an inode, `(inode_no - 1) / (NINODES / NGROUPS)`. -/
def inodeGroup (inodeNo : Nat) : Nat := (inodeNo - 1) / (ninodes / ngroups)

/-! ### Allocation of inodes -/

/-- The round of `inode_alloc` and `inode_alloc_group` for inode `ino`. -/
def claimInode (sb : SuperBlock) (ctx : Bool) (type : UInt16) (ino : Nat) : M (Option Nat) := do
  let block ← cacheAcquire (toBlockNo sb ino)
  if (getEntry block (ino % inodePerBlock)).type = inodeInvalid then
    writeBack ctx (toBlockNo sb ino)
      (setEntry block (ino % inodePerBlock) { InodeEntry.zero with type })
    pure (some ino)
  else
    cacheRelease (toBlockNo sb ino)
    pure none

def inodeAlloc (sb : SuperBlock) (ctx : Bool) (type : UInt16) : M Nat := do
  assert (type ≠ inodeInvalid)
  let found ← Exec.search (claimInode sb ctx type) (List.range' 1 sb.numInodes)
  pure (found.getD 0)

/-- The loop over the groups in `inode_alloc_group`: `i`, `used`, and `gno` after it. -/
def emptiestGroup (usedBlock : Nat → UInt32) (gno : Nat) : Nat × Nat × Nat :=
  (List.range ngroups).foldl (fun (i, used, gno) k =>
    if (usedBlock k).toNat < used then (i + 1, (usedBlock k).toNat, k) else (i + 1, used, gno))
    (0, fssize, gno)

/-- The loops of `inode_alloc_group` over the groups from `gno` on and their inodes. -/
def claimFrom (sb : SuperBlock) (ctx : Bool) (type : UInt16) (gno : Nat) : M Nat := do
  let found ← Exec.search (fun g => Exec.search
    (fun ino => do
      let tino := ino + g * (ninodes / ngroups)
      assert (tino ≤ ninodes)
      claimInode sb ctx type tino)
    (List.range' 1 (ginodes sb))) (List.range' gno (ngroups - gno))
  pure (found.getD 0)

def inodeAllocGroup (sb : SuperBlock) (ctx : Bool) (type : UInt16) (gno : Nat) : M Nat := do
  assert (type ≠ inodeInvalid)
  if type = inodeDirectory then
    let s ← get
    let (i, _, gno) := emptiestGroup s.usedBlock gno
    if i = ngroups then pure 0 else claimFrom sb ctx type gno
  else claimFrom sb ctx type gno

/-! ### In-memory inodes -/

def State.setInode (s : State) (p : Ptr) (ip : Inode) : State :=
  { s with mem := Function.update s.mem p ip }

def modifyInode (p : Ptr) (f : Inode → Inode) : M Unit :=
  modify fun s => s.setInode p (f (s.mem p))

def modifyEntry (p : Ptr) (f : InodeEntry → InodeEntry) : M Unit :=
  modifyInode p fun ip => { ip with entry := f ip.entry }

def inodeSync (sb : SuperBlock) (ctx : Bool) (p : Ptr) (doWrite : Bool) : M Unit := do
  let ip := (← get).mem p
  let blockNo := toBlockNo sb ip.inodeNo
  let block ← cacheAcquire blockNo
  if ip.valid ∧ doWrite then
    writeBack ctx blockNo (setEntry block (ip.inodeNo % inodePerBlock) ip.entry)
  else if ¬ip.valid then
    modifyInode p fun ip =>
      { ip with entry := getEntry block (ip.inodeNo % inodePerBlock), valid := true }
    cacheRelease blockNo
  else cacheRelease blockNo

def inodeLock (sb : SuperBlock) (p : Ptr) : M Unit := do
  let ip := (← get).mem p
  assert (ip.rc > 0)
  if ip.locked then throw .hang else
    modifyInode p fun ip => { ip with locked := true }
    Exec.when (ip.valid = false) (inodeSync sb false p false)
    let ip := (← get).mem p
    assert (ip.entry.type ≠ inodeInvalid)

def inodeUnlock (p : Ptr) : M Unit := do
  let ip := (← get).mem p
  assert (ip.locked)
  assert (ip.rc > 0)
  modifyInode p fun ip => { ip with locked := false }

def incrementRc (p : Ptr) : M Unit := modifyInode p fun ip => { ip with rc := ip.rc + 1 }

/-- `inode_get`: the object of a new inode keeps what its memory held in `entry`. -/
def inodeGet (sb : SuperBlock) (inodeNo : Nat) : M Ptr := do
  assert (inodeNo > 0)
  assert (inodeNo ≤ sb.numInodes)
  let s ← get
  match s.list.find? fun p => decide ((s.mem p).rc > 0) && decide ((s.mem p).inodeNo = inodeNo) with
  | some p =>
    incrementRc p
    pure p
  | none =>
    let p := s.fresh
    set { s with fresh := p + 1, list := p :: s.list }
    modifyInode p fun ip => { ip with locked := false, rc := 1, inodeNo, valid := false }
    pure p

def inodeShare (p : Ptr) : M Ptr := do
  incrementRc p
  pure p

/-- The frees of `inode_clear` for addresses read from an entry or a table. -/
def freeAddr (sb : SuperBlock) (ctx : Bool) (addr : UInt32) : M Unit :=
  Exec.when (addr ≠ 0) (cacheFree sb ctx addr.toNat)

/-- The part of `inode_clear` that frees the table at `iaddr`. -/
def clearTable (sb : SuperBlock) (ctx : Bool) (p : Ptr) (iaddr : Nat) : M Unit := do
  let block ← cacheAcquire iaddr
  (List.range inodeNumIndirect).forM fun i => freeAddr sb ctx (getAddr block i)
  cacheRelease iaddr
  cacheFree sb ctx iaddr
  modifyEntry p fun e => { e with indirect := 0 }

def inodeClear (sb : SuperBlock) (ctx : Bool) (p : Ptr) : M Unit := do
  let entry := ((← get).mem p).entry
  (List.range inodeNumDirect).forM fun i => freeAddr sb ctx (entry.addr i)
  modifyEntry p fun e => { e with addrs := fun _ => 0 }
  Exec.when (entry.indirect ≠ 0) (clearTable sb ctx p entry.indirect.toNat)
  modifyEntry p fun e => { e with numBytes := 0 }
  inodeSync sb ctx p true

/-- The end of `inode_put`: one reference less, and the object leaves the list with the last. -/
def dropRef (p : Ptr) : M Unit := do
  modifyInode p fun ip => { ip with rc := ip.rc - 1 }
  let s ← get
  if (s.mem p).rc ≤ 0 then set { s with list := s.list.erase p } else pure ()

/-- `is_last` of `inode_put`. -/
def Inode.isLast (ip : Inode) : Bool := ip.rc ≤ 1 ∧ ip.entry.numLinks = 0

/-- The part of `inode_put` that frees the inode on disk. -/
def freeInode (sb : SuperBlock) (ctx : Bool) (p : Ptr) : M Unit := do
  inodeLock sb p
  inodeClear sb ctx p
  modifyEntry p fun e => { e with type := inodeInvalid }
  inodeSync sb ctx p true
  inodeUnlock p

def inodePut (sb : SuperBlock) (ctx : Bool) (p : Ptr) : M Unit := do
  let ip := (← get).mem p
  Exec.when ip.isLast (freeInode sb ctx p)
  dropRef p

/-! ### Blocks of an inode -/

/-- The search of `inode_map` for a group that is not full, from `tgno` in steps of `step`; `none`
when it does not end within `fuel` rounds. -/
def nextGroup (full : Nat → Bool) : Nat → Nat → Nat → Option Nat
  | 0, _, _ => none
  | fuel + 1, tgno, step =>
    if full tgno then
      let tgno := tgno + step
      let (tgno, step) := if tgno ≥ ngroups then (0, 1) else (tgno, step)
      if step = 1 ∧ tgno ≥ ngroups then some tgno else nextGroup full fuel tgno step
    else some tgno

/-- A block of group `gno`, or of the first group that has one. -/
def allocNear (sb : SuperBlock) (ctx : Bool) (gno : Nat) : M Nat := do
  let b ← cacheAllocg sb ctx gno
  if b = 0 then cacheAlloc sb ctx else pure b

def InodeEntry.setAddrs (e : InodeEntry) (i : Nat) (a : UInt32) : InodeEntry :=
  { e with addrs := fun j => if j.val = i then a else e.addrs j }

/-- The branch of `inode_map` for the direct addresses: the block and whether `modified` is
set. -/
def mapDirect (sb : SuperBlock) (ctx : Bool) (p : Ptr) (index : Nat) : M (Nat × Bool) := do
  let ip := (← get).mem p
  if ip.entry.addr index = 0 then
    let b ← allocNear sb ctx (inodeGroup ip.inodeNo)
    modifyEntry p fun e => InodeEntry.setAddrs e index (UInt32.ofNat b)
    pure (b, true)
  else pure ((ip.entry.addr index).toNat, false)

/-- The allocation of the index block in `inode_map`, and whether `modified` is set. -/
def mapTable (sb : SuperBlock) (ctx : Bool) (p : Ptr) : M Bool := do
  let ip := (← get).mem p
  if ip.entry.indirect = 0 then
    let b ← allocNear sb ctx (inodeGroup ip.inodeNo)
    modifyEntry p fun e => { e with indirect := UInt32.ofNat b }
    pure true
  else pure false

/-- The group in which `inode_map` allocates the block of table slot `index`. -/
def tableGroup (sb : SuperBlock) (usedBlock : Nat → UInt32) (index : Nat) : Option Nat :=
  nextGroup (fun g => (usedBlock g).toNat = sb.numDatablocksPerGroup) (3 * ngroups)
    ((index / ninblocksPerGroup + 1) % ngroups) 2

/-- The end of `inode_map` for slot `index` of the table at `iaddr`. -/
def mapSlot (sb : SuperBlock) (ctx : Bool) (iaddr index : Nat) (modified : Bool) :
    M (Nat × Bool) := do
  let block ← cacheAcquire iaddr
  if getAddr block index = 0 then
    match tableGroup sb (← get).usedBlock index with
    | none => throw .hang
    | some tgno =>
      let b ← cacheAllocg sb ctx tgno
      writeBack ctx iaddr (setAddr block index (UInt32.ofNat b))
      pure (b, true)
  else
    cacheRelease iaddr
    pure ((getAddr block index).toNat, modified)

def inodeMap (sb : SuperBlock) (ctx : Bool) (p : Ptr) (offset : Nat) : M (Nat × Bool) := do
  let index := offset / blockSize
  if index < inodeNumDirect then mapDirect sb ctx p index
  else
    assert (index - inodeNumDirect < inodeNumIndirect)
    let modified ← mapTable sb ctx p
    let iaddr := ((← get).mem p).entry.indirect.toNat
    mapSlot sb ctx iaddr (index - inodeNumDirect) modified

/-! ### Reads and writes -/

/-- The loop of `inode_read` from `begin` on; `dest` is the buffer, its byte `i` for offset
`offset + i` of the file. -/
def readLoop (sb : SuperBlock) (p : Ptr) (offset stop : Nat) :
    Nat → Nat → (Nat → UInt8) → M (Nat → UInt8)
  | 0, _, dest => pure dest
  | fuel + 1, start, dest =>
    if start < stop then do
      let (blockNo, modified) ← inodeMap sb false p start
      assert (modified = false)
      let block ← cacheAcquire blockNo
      let step := min (stop - start) (blockSize - start % blockSize)
      cacheRelease blockNo
      readLoop sb p offset stop fuel (start + step) fun i =>
        if start - offset ≤ i ∧ i < start - offset + step then
          block.get (start % blockSize + (i - (start - offset)))
        else dest i
    else pure dest

/-- `inode_read`: the number of bytes read and the buffer.  Where `offset + count` wraps around, the code comes to an
assertion before it reads a block; this sum does not wrap around. -/
def inodeRead (sb : SuperBlock) (p : Ptr) (dest : Nat → UInt8) (offset count : Nat) :
    M (Nat × (Nat → UInt8)) := do
  let entry := ((← get).mem p).entry
  if entry.type = inodeDevice then
    assert (entry.major = 1)
    throw .console
  else
    assert (offset ≤ entry.numBytes.toNat)
    let count := if count + offset > entry.numBytes.toNat then entry.numBytes.toNat - offset
      else count
    let dest ← readLoop sb p offset (offset + count) count offset dest
    pure (count, dest)

/-- The loop of `inode_write` from `begin` on; `src` is the buffer, its byte `i` for offset
`offset + i` of the file. -/
def writeLoop (sb : SuperBlock) (ctx : Bool) (p : Ptr) (src : Nat → UInt8) (offset stop : Nat) :
    Nat → Nat → Bool → M Bool
  | 0, _, modified => pure modified
  | fuel + 1, start, modified =>
    if start < stop then do
      let (blockNo, m) ← inodeMap sb ctx p start
      let block ← cacheAcquire blockNo
      let step := min (stop - start) (blockSize - start % blockSize)
      writeBack ctx blockNo (block.splice (start % blockSize) step fun i => src (start - offset + i))
      writeLoop sb ctx p src offset stop fuel (start + step) (modified || m)
    else pure modified

/-- `inode_write`.  A device prints the bytes, with its lock released meanwhile. -/
def inodeWrite (sb : SuperBlock) (ctx : Bool) (p : Ptr) (src : Nat → UInt8) (offset count : Nat) :
    M Nat := do
  let entry := ((← get).mem p).entry
  let stop := offset + count
  if entry.type = inodeDevice then
    assert (entry.major = 1)
    inodeUnlock p
    inodeLock sb p
    pure count
  else
    assert (offset ≤ entry.numBytes.toNat)
    assert (stop ≤ inodeMaxBytes)
    let modified ← writeLoop sb ctx p src offset stop count offset false
    Exec.when (stop > entry.numBytes.toNat)
      (modifyEntry p fun e => { e with numBytes := UInt32.ofNat stop })
    Exec.when (stop > entry.numBytes.toNat ∨ modified) (inodeSync sb ctx p true)
    pure count

/-! ### Directories -/

/-- The characters of a name of a directory entry, up to the first `'\0'`. -/
def nameChars (name : FileName) : List UInt8 :=
  ((List.range fileNameMaxLength).map name.get).takeWhile (· ≠ 0)

/-- `strncpy(dentry.name, name, FILE_NAME_MAX_LENGTH)`. -/
def fileName (name : List UInt8) : FileName := Bytes.ofFn fun i => name.getD i 0

/-- The loops of `inode_lookup`, `inode_empty`, and `inode_insert` over the `n` entries from
`offset` on, up to the first that meets `hit`; `whole` when a short read panics.  A short read
leaves the rest of `dentry` as it was. -/
def scan (sb : SuperBlock) (p : Ptr) (whole : Bool) (hit : DirEntry → Bool) :
    Nat → Nat → DirEntry → M (Option (Nat × DirEntry))
  | 0, _, _ => pure none
  | n + 1, offset, dentry => do
    let (count, buf) ← inodeRead sb p dentry.byte offset 16
    assert (whole → count = 16)
    let dentry := DirEntry.ofBytes buf
    if hit dentry then pure (some (offset, dentry))
    else scan sb p whole hit n (offset + 16) dentry

/-- The test of `inode_lookup`: `strncmp` looks at the first `FILE_NAME_MAX_LENGTH` characters. -/
def named (name : List UInt8) (dentry : DirEntry) : Bool :=
  dentry.inodeNo ≠ 0 ∧ name.take fileNameMaxLength = nameChars dentry.name

/-- `inode_lookup`: the inode number and the index of the entry. -/
def inodeLookup (sb : SuperBlock) (p : Ptr) (name : List UInt8) : M (Option (Nat × Nat)) := do
  let entry := ((← get).mem p).entry
  assert (entry.type = inodeDirectory)
  let found ← scan sb p false (named name) ((entry.numBytes.toNat + 15) / 16) 0 DirEntry.zero
  pure (found.map fun (offset, dentry) => (dentry.inodeNo.toNat, offset / 16))

def inodeEmpty (sb : SuperBlock) (p : Ptr) : M Bool := do
  let entry := ((← get).mem p).entry
  assert (entry.type = inodeDirectory)
  let found ← scan sb p true (fun dentry => dentry.inodeNo ≠ 0)
    ((entry.numBytes.toNat - 2 * 16 + 15) / 16) (2 * 16) DirEntry.zero
  pure found.isNone

def inodeInsert (sb : SuperBlock) (ctx : Bool) (p : Ptr) (name : List UInt8) (inodeNo : Nat) :
    M Nat := do
  let entry := ((← get).mem p).entry
  assert (entry.type = inodeDirectory)
  let found ← scan sb p false (fun dentry => dentry.inodeNo = 0)
    ((entry.numBytes.toNat + 15) / 16) 0 DirEntry.zero
  let offset := match found with
    | some (offset, _) => offset
    | none => 16 * ((entry.numBytes.toNat + 15) / 16)
  let dentry : DirEntry := ⟨UInt16.ofNat inodeNo, fileName name⟩
  let _ ← inodeWrite sb ctx p dentry.byte offset 16
  pure (offset / 16)

def inodeRemove (sb : SuperBlock) (ctx : Bool) (p : Ptr) (index : Nat) : M Unit := do
  let entry := ((← get).mem p).entry
  assert (entry.type = inodeDirectory)
  if index * 16 ≥ entry.numBytes.toNat then pure () else
    let _ ← inodeWrite sb ctx p DirEntry.zero.byte (index * 16) 16
    pure ()

end FtosFfs.Fs
