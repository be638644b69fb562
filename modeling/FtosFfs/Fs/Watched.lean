import FtosFfs.Fs.Inode

/-! The calls of the inode layer that acquire blocks, with `cache_acquire` as a parameter, so that a run
can watch them.  With `cacheAcquire` itself they are the calls of `fs/inode.c` and `fs/cache.c`. -/

namespace FtosFfs.Fs.Watched

open Lib Cache

section

variable (acquire : Nat → M BlockData)

/-! ### Allocation -/

/-- The round of `cache_alloc` and `cache_allocg` for the bitmap block of bit `i` of group `h`: the bitmap block
is released before the block found is acquired. -/
def allocIn (sb : SuperBlock) (ctx : Bool) (h i bound : Nat) : M (Option Nat) := do
  let bitmap ← acquire (bitmapBlock sb h i)
  match (List.range bound).find? fun j => !bitmapGet bitmap j with
  | some j =>
    writeBack ctx (bitmapBlock sb h i) (bitmapSet bitmap j)
    let blockNo := sb.bgStart + h * sb.blocksPerGroup + i + j
    let _ ← acquire blockNo
    writeBack ctx blockNo Bytes.zero
    modify fun s => { s with usedBlock := Function.update s.usedBlock h (s.usedBlock h + 1) }
    pure (some blockNo)
  | none =>
    cacheRelease (bitmapBlock sb h i)
    pure none

/-- `cache_alloc`: one bitmap block after the other. -/
def cacheAlloc (sb : SuperBlock) (ctx : Bool) : M Nat := do
  let found ← Exec.search (fun h => Exec.search
    (fun i => allocIn acquire sb ctx h i (min bitPerBlock (sb.blocksPerGroup - i))) (bitmapStarts sb))
    (List.range sb.numGroups)
  match found with
  | some blockNo => pure blockNo
  | none => throw .panic

/-- `cache_allocg`: the bitmap blocks of group `gno`. -/
def cacheAllocg (sb : SuperBlock) (ctx : Bool) (gno : Nat) : M Nat := do
  assert (gno < ngroups)
  let found ← Exec.search
    (fun i => allocIn acquire sb ctx gno i (min bitPerBlock sb.blocksPerGroup)) (bitmapStarts sb)
  pure (found.getD 0)

/-- `cache_free`, which acquires the bitmap block of `blockNo` only. -/
def cacheFree (sb : SuperBlock) (ctx : Bool) (blockNo : Nat) : M Unit := do
  let h := Log.usizeSub blockNo sb.bgStart / sb.blocksPerGroup
  let off := Log.usizeSub blockNo sb.bgStart % sb.blocksPerGroup
  let bitmap ← acquire (bitmapBlock sb h off)
  assert (bitmapGet bitmap (off % bitPerBlock))
  modify fun s => { s with usedBlock := Function.update s.usedBlock h (s.usedBlock h - 1) }
  writeBack ctx (bitmapBlock sb h off) (bitmapClear bitmap (off % bitPerBlock))

/-! ### Allocation of inodes -/

/-- The round of `inode_alloc` and `inode_alloc_group` for inode `ino`. -/
def claimInode (sb : SuperBlock) (ctx : Bool) (type : UInt16) (ino : Nat) : M (Option Nat) := do
  let block ← acquire (toBlockNo sb ino)
  if (getEntry block (ino % inodePerBlock)).type = inodeInvalid then
    writeBack ctx (toBlockNo sb ino)
      (setEntry block (ino % inodePerBlock) { InodeEntry.zero with type })
    pure (some ino)
  else
    cacheRelease (toBlockNo sb ino)
    pure none

/-- `inode_alloc`: one inode block after the other. -/
def inodeAlloc (sb : SuperBlock) (ctx : Bool) (type : UInt16) : M Nat := do
  assert (type ≠ inodeInvalid)
  let found ← Exec.search (claimInode acquire sb ctx type) (List.range' 1 sb.numInodes)
  pure (found.getD 0)

/-- The loops of `inode_alloc_group` over the groups from `gno` on and their inodes. -/
def claimFrom (sb : SuperBlock) (ctx : Bool) (type : UInt16) (gno : Nat) : M Nat := do
  let found ← Exec.search (fun g => Exec.search
    (fun ino => do
      let tino := ino + g * (ninodes / ngroups)
      assert (tino ≤ ninodes)
      claimInode acquire sb ctx type tino)
    (List.range' 1 (ginodes sb))) (List.range' gno (ngroups - gno))
  pure (found.getD 0)

/-- `inode_alloc_group`, which chooses the group without a block. -/
def inodeAllocGroup (sb : SuperBlock) (ctx : Bool) (type : UInt16) (gno : Nat) : M Nat := do
  assert (type ≠ inodeInvalid)
  if type = inodeDirectory then
    let s ← get
    let (i, _, gno) := emptiestGroup s.usedBlock gno
    if i = ngroups then pure 0 else claimFrom acquire sb ctx type gno
  else claimFrom acquire sb ctx type gno

/-! ### In-memory inodes -/

/-- `inode_sync`: the inode block, to write or to load the entry. -/
def inodeSync (sb : SuperBlock) (ctx : Bool) (p : Ptr) (doWrite : Bool) : M Unit := do
  let ip := (← get).mem p
  let blockNo := toBlockNo sb ip.inodeNo
  let block ← acquire blockNo
  if ip.valid ∧ doWrite then
    writeBack ctx blockNo (setEntry block (ip.inodeNo % inodePerBlock) ip.entry)
  else if ¬ip.valid then
    modifyInode p fun ip =>
      { ip with entry := getEntry block (ip.inodeNo % inodePerBlock), valid := true }
    cacheRelease blockNo
  else cacheRelease blockNo

/-- `inode_lock`, which loads an inode that is not valid. -/
def inodeLock (sb : SuperBlock) (p : Ptr) : M Unit := do
  let ip := (← get).mem p
  assert (ip.rc > 0)
  if ip.locked then throw .hang else
    modifyInode p fun ip => { ip with locked := true }
    Exec.when (ip.valid = false) (inodeSync acquire sb false p false)
    let ip := (← get).mem p
    assert (ip.entry.type ≠ inodeInvalid)

/-- The frees of `inode_clear` for addresses read from an entry or a table. -/
def freeAddr (sb : SuperBlock) (ctx : Bool) (addr : UInt32) : M Unit :=
  Exec.when (addr ≠ 0) (cacheFree acquire sb ctx addr.toNat)

/-- The part of `inode_clear` that frees the table at `iaddr`, which is held during the frees of its slots. -/
def clearTable (sb : SuperBlock) (ctx : Bool) (p : Ptr) (iaddr : Nat) : M Unit := do
  let block ← acquire iaddr
  (List.range inodeNumIndirect).forM fun i => freeAddr acquire sb ctx (getAddr block i)
  cacheRelease iaddr
  cacheFree acquire sb ctx iaddr
  modifyEntry p fun e => { e with indirect := 0 }

/-- `inode_clear`. -/
def inodeClear (sb : SuperBlock) (ctx : Bool) (p : Ptr) : M Unit := do
  let entry := ((← get).mem p).entry
  (List.range inodeNumDirect).forM fun i => freeAddr acquire sb ctx (entry.addr i)
  modifyEntry p fun e => { e with addrs := fun _ => 0 }
  Exec.when (entry.indirect ≠ 0) (clearTable acquire sb ctx p entry.indirect.toNat)
  modifyEntry p fun e => { e with numBytes := 0 }
  inodeSync acquire sb ctx p true

/-- The part of `inode_put` that frees the inode on disk. -/
def freeInode (sb : SuperBlock) (ctx : Bool) (p : Ptr) : M Unit := do
  inodeLock acquire sb p
  inodeClear acquire sb ctx p
  modifyEntry p fun e => { e with type := inodeInvalid }
  inodeSync acquire sb ctx p true
  inodeUnlock p

/-- `inode_put`. -/
def inodePut (sb : SuperBlock) (ctx : Bool) (p : Ptr) : M Unit := do
  let ip := (← get).mem p
  Exec.when ip.isLast (freeInode acquire sb ctx p)
  dropRef p

/-! ### Blocks of an inode -/

/-- A block of group `gno`, or of the first group that has one. -/
def allocNear (sb : SuperBlock) (ctx : Bool) (gno : Nat) : M Nat := do
  let b ← cacheAllocg acquire sb ctx gno
  if b = 0 then cacheAlloc acquire sb ctx else pure b

/-- The branch of `inode_map` for the direct addresses. -/
def mapDirect (sb : SuperBlock) (ctx : Bool) (p : Ptr) (index : Nat) : M (Nat × Bool) := do
  let ip := (← get).mem p
  if ip.entry.addr index = 0 then
    let b ← allocNear acquire sb ctx (inodeGroup ip.inodeNo)
    modifyEntry p fun e => InodeEntry.setAddrs e index (UInt32.ofNat b)
    pure (b, true)
  else pure ((ip.entry.addr index).toNat, false)

/-- The allocation of the index block in `inode_map`. -/
def mapTable (sb : SuperBlock) (ctx : Bool) (p : Ptr) : M Bool := do
  let ip := (← get).mem p
  if ip.entry.indirect = 0 then
    let b ← allocNear acquire sb ctx (inodeGroup ip.inodeNo)
    modifyEntry p fun e => { e with indirect := UInt32.ofNat b }
    pure true
  else pure false

/-- The end of `inode_map` for slot `index` of the table at `iaddr`, which is held while the block for the slot is
allocated. -/
def mapSlot (sb : SuperBlock) (ctx : Bool) (iaddr index : Nat) (modified : Bool) :
    M (Nat × Bool) := do
  let block ← acquire iaddr
  if getAddr block index = 0 then
    match tableGroup sb (← get).usedBlock index with
    | none => throw .hang
    | some tgno =>
      let b ← cacheAllocg acquire sb ctx tgno
      writeBack ctx iaddr (setAddr block index (UInt32.ofNat b))
      pure (b, true)
  else
    cacheRelease iaddr
    pure ((getAddr block index).toNat, modified)

/-- `inode_map`. -/
def inodeMap (sb : SuperBlock) (ctx : Bool) (p : Ptr) (offset : Nat) : M (Nat × Bool) := do
  let index := offset / blockSize
  if index < inodeNumDirect then mapDirect acquire sb ctx p index
  else
    assert (index - inodeNumDirect < inodeNumIndirect)
    let modified ← mapTable acquire sb ctx p
    let iaddr := ((← get).mem p).entry.indirect.toNat
    mapSlot acquire sb ctx iaddr (index - inodeNumDirect) modified

/-! ### Reads and writes -/

/-- The loop of `inode_read` from `begin` on, which releases each block before the next. -/
def readLoop (sb : SuperBlock) (p : Ptr) (offset stop : Nat) :
    Nat → Nat → (Nat → UInt8) → M (Nat → UInt8)
  | 0, _, dest => pure dest
  | fuel + 1, start, dest =>
    if start < stop then do
      let (blockNo, modified) ← inodeMap acquire sb false p start
      assert (modified = false)
      let block ← acquire blockNo
      let step := min (stop - start) (blockSize - start % blockSize)
      cacheRelease blockNo
      readLoop sb p offset stop fuel (start + step) fun i =>
        if start - offset ≤ i ∧ i < start - offset + step then
          block.get (start % blockSize + (i - (start - offset)))
        else dest i
    else pure dest

/-- `inode_read`. -/
def inodeRead (sb : SuperBlock) (p : Ptr) (dest : Nat → UInt8) (offset count : Nat) :
    M (Nat × (Nat → UInt8)) := do
  let entry := ((← get).mem p).entry
  if entry.type = inodeDevice then
    assert (entry.major = 1)
    throw .console
  else
    assert (offset ≤ entry.numBytes.toNat)
    let count := if count + offset > entry.numBytes.toNat then entry.numBytes.toNat - offset
      else count
    let dest ← readLoop acquire sb p offset (offset + count) count offset dest
    pure (count, dest)

/-- The loop of `inode_write` from `begin` on. -/
def writeLoop (sb : SuperBlock) (ctx : Bool) (p : Ptr) (src : Nat → UInt8) (offset stop : Nat) :
    Nat → Nat → Bool → M Bool
  | 0, _, modified => pure modified
  | fuel + 1, start, modified =>
    if start < stop then do
      let (blockNo, m) ← inodeMap acquire sb ctx p start
      let block ← acquire blockNo
      let step := min (stop - start) (blockSize - start % blockSize)
      writeBack ctx blockNo (block.splice (start % blockSize) step fun i => src (start - offset + i))
      writeLoop sb ctx p src offset stop fuel (start + step) (modified || m)
    else pure modified

/-- `inode_write`. -/
def inodeWrite (sb : SuperBlock) (ctx : Bool) (p : Ptr) (src : Nat → UInt8) (offset count : Nat) :
    M Nat := do
  let entry := ((← get).mem p).entry
  let stop := offset + count
  if entry.type = inodeDevice then
    assert (entry.major = 1)
    inodeUnlock p
    inodeLock acquire sb p
    pure count
  else
    assert (offset ≤ entry.numBytes.toNat)
    assert (stop ≤ inodeMaxBytes)
    let modified ← writeLoop acquire sb ctx p src offset stop count offset false
    Exec.when (stop > entry.numBytes.toNat)
      (modifyEntry p fun e => { e with numBytes := UInt32.ofNat stop })
    Exec.when (stop > entry.numBytes.toNat ∨ modified) (inodeSync acquire sb ctx p true)
    pure count

/-- The loops of `inode_lookup`, `inode_empty`, and `inode_insert` over the `n` entries from `offset` on. -/
def scan (sb : SuperBlock) (p : Ptr) (whole : Bool) (hit : DirEntry → Bool) :
    Nat → Nat → DirEntry → M (Option (Nat × DirEntry))
  | 0, _, _ => pure none
  | n + 1, offset, dentry => do
    let (count, buf) ← inodeRead acquire sb p dentry.byte offset 16
    assert (whole → count = 16)
    let dentry := DirEntry.ofBytes buf
    if hit dentry then pure (some (offset, dentry))
    else scan sb p whole hit n (offset + 16) dentry

/-- `inode_insert`. -/
def inodeInsert (sb : SuperBlock) (ctx : Bool) (p : Ptr) (name : List UInt8) (inodeNo : Nat) :
    M Nat := do
  let entry := ((← get).mem p).entry
  assert (entry.type = inodeDirectory)
  let found ← scan acquire sb p false (fun dentry => dentry.inodeNo = 0)
    ((entry.numBytes.toNat + 15) / 16) 0 DirEntry.zero
  let offset := match found with
    | some (offset, _) => offset
    | none => 16 * ((entry.numBytes.toNat + 15) / 16)
  let dentry : DirEntry := ⟨UInt16.ofNat inodeNo, fileName name⟩
  let _ ← inodeWrite acquire sb ctx p dentry.byte offset 16
  pure (offset / 16)

end

/-! ### The calls of the code -/

theorem inodeAlloc_cacheAcquire : inodeAlloc Fs.cacheAcquire = Fs.inodeAlloc := rfl

theorem claimFrom_cacheAcquire : claimFrom Fs.cacheAcquire = Fs.claimFrom := rfl

theorem inodeAllocGroup_cacheAcquire : inodeAllocGroup Fs.cacheAcquire = Fs.inodeAllocGroup := by
  funext sb ctx type gno
  unfold inodeAllocGroup Fs.inodeAllocGroup
  rw [claimFrom_cacheAcquire]

theorem inodeSync_cacheAcquire : inodeSync Fs.cacheAcquire = Fs.inodeSync := rfl

theorem inodeClear_cacheAcquire : inodeClear Fs.cacheAcquire = Fs.inodeClear := rfl

theorem inodeLock_cacheAcquire : inodeLock Fs.cacheAcquire = Fs.inodeLock := rfl

theorem inodePut_cacheAcquire : inodePut Fs.cacheAcquire = Fs.inodePut := by
  funext sb ctx p
  unfold inodePut Fs.inodePut freeInode Fs.freeInode
  rw [inodeLock_cacheAcquire, inodeClear_cacheAcquire, inodeSync_cacheAcquire]

theorem inodeMap_cacheAcquire : inodeMap Fs.cacheAcquire = Fs.inodeMap := rfl

theorem readLoop_cacheAcquire (sb : SuperBlock) (p : Ptr) (offset stop fuel start : Nat)
    (dest : Nat → UInt8) : readLoop Fs.cacheAcquire sb p offset stop fuel start dest =
      Fs.readLoop sb p offset stop fuel start dest := by
  induction fuel generalizing start dest with
  | zero => rfl
  | succ fuel ih =>
    rw [readLoop, Fs.readLoop]
    simp only [ih]
    rfl

theorem inodeRead_cacheAcquire : inodeRead Fs.cacheAcquire = Fs.inodeRead := by
  funext sb p dest offset count
  unfold inodeRead Fs.inodeRead
  simp only [readLoop_cacheAcquire]

theorem writeLoop_cacheAcquire (sb : SuperBlock) (ctx : Bool) (p : Ptr) (src : Nat → UInt8)
    (offset stop fuel start : Nat) (m : Bool) :
    writeLoop Fs.cacheAcquire sb ctx p src offset stop fuel start m =
      Fs.writeLoop sb ctx p src offset stop fuel start m := by
  induction fuel generalizing start m with
  | zero => rfl
  | succ fuel ih =>
    rw [writeLoop, Fs.writeLoop]
    simp only [ih]
    rfl

theorem inodeWrite_cacheAcquire : inodeWrite Fs.cacheAcquire = Fs.inodeWrite := by
  funext sb ctx p src offset count
  unfold inodeWrite Fs.inodeWrite
  simp only [writeLoop_cacheAcquire]
  rfl

theorem scan_cacheAcquire (sb : SuperBlock) (p : Ptr) (whole : Bool) (hit : DirEntry → Bool)
    (n offset : Nat) (dentry : DirEntry) : scan Fs.cacheAcquire sb p whole hit n offset dentry =
      Fs.scan sb p whole hit n offset dentry := by
  induction n generalizing offset dentry with
  | zero => rfl
  | succ n ih =>
    rw [scan, Fs.scan]
    simp only [ih, inodeRead_cacheAcquire]

theorem inodeInsert_cacheAcquire : inodeInsert Fs.cacheAcquire = Fs.inodeInsert := by
  have hscan : scan Fs.cacheAcquire = Fs.scan := by
    funext sb p whole hit n offset dentry
    exact scan_cacheAcquire sb p whole hit n offset dentry
  funext sb ctx p name inodeNo
  unfold inodeInsert
  rw [hscan, inodeWrite_cacheAcquire]
  rfl

end FtosFfs.Fs.Watched
