import FtosFfs.Cache.Log
import FtosFfs.Lib.Exec

/-! The state of the file system for one process at a time, over blocks that hold their latest
contents, and the block layer that it uses: `cache_acquire`, `cache_sync`, atomic operations, and
the allocation of blocks in `fs/cache.c`. -/

namespace FtosFfs.Fs

open Lib Cache

/-- Why a call of the kernel does not return. -/
inductive Fault
  /-- A failed assertion or `PANIC`, the next one aside. -/
  | panic
  /-- `assert(i < OP_MAX_NUM_BLOCKS)` of `cache_sync`. -/
  | overflow
  /-- A lock that the process holds itself, a sleep that nobody ends, or an endless loop. -/
  | hang
  /-- Input from the console, which is not modelled. -/
  | console
  deriving DecidableEq

/-- Addresses of in-memory inodes. -/
abbrev Ptr : Type := Nat

/-- The in-memory `Inode`. -/
structure Inode where
  locked : Bool
  rc : Int
  inodeNo : Nat
  valid : Bool
  entry : InodeEntry

/-- The types of an open file. -/
inductive FdType
  | none
  | pipe
  | inode
  deriving DecidableEq

structure File where
  type : FdType
  ref : Nat
  readable : Bool
  writable : Bool
  ip : Ptr
  off : Nat

/-- The fields of `struct proc` that belong to the file system. -/
structure Proc where
  ofile : Nat → Option Nat
  cwd : Option Ptr

/-- The state of the file system.  `disk` is what the block cache shows, `held` the blocks
acquired and not yet released, `ctx` the context of the running system call, `list` the inode list
from its head, and `mem` the objects of the inode arena, those from `fresh` on not yet handed
out. -/
structure State where
  disk : Nat → BlockData
  held : List Nat
  log : Log
  ctx : OpContext
  usedBlock : Nat → UInt32
  list : List Ptr
  mem : Ptr → Inode
  fresh : Ptr
  file : Nat → File
  proc : Nat → Proc

/-- The calls of the kernel. -/
abbrev M : Type → Type := Exec Fault State

/-- `assert`. -/
abbrev assert (c : Prop) [Decidable c] : M Unit := Exec.require .panic c

/-! ### Blocks -/

/-- `cache_acquire`: the contents of block `b`, which is held from now on. -/
def cacheAcquire (b : Nat) : M BlockData := do
  let s ← get
  if b ∈ s.held then throw .hang else
    set { s with held := b :: s.held }
    pure (s.disk b)

/-- `cache_release`. -/
def cacheRelease (b : Nat) : M Unit := modify fun s => { s with held := s.held.erase b }

/-- A change of the data of a held block. -/
def setData (b : Nat) (d : BlockData) : M Unit :=
  modify fun s => { s with disk := Function.update s.disk b d }

/-- `cache_sync`, with `ctx` false for the null context. -/
def cacheSync (ctx : Bool) (b : Nat) : M Unit := do
  let s ← get
  if ctx then
    match s.ctx.record b with
    | some c => set { s with ctx := c }
    | none => throw .overflow
  else pure ()

/-- The change of a held block's data, its sync, and its release. -/
def writeBack (ctx : Bool) (b : Nat) (d : BlockData) : M Unit := do
  setData b d
  cacheSync ctx b
  cacheRelease b

/-- `cache_begin_op`, which sleeps forever without log space. -/
def cacheBeginOp : M Unit := do
  let s ← get
  if s.log.logUsed + opMaxNumBlocks > s.log.logSize then throw .hang else
    let ts := s.log.lastAllocatedTs + 1
    set { s with
      ctx := ⟨ts, []⟩
      log := { s.log with
        logUsed := s.log.logUsed + opMaxNumBlocks
        lastAllocatedTs := ts
        opCount := s.log.opCount + 1 } }

/-- `cache_end_op`: the last operation runs the checkpoint, which acquires the recorded blocks; any
other one sleeps until its timestamp is persisted. -/
def cacheEndOp : M Unit := do
  let s ← get
  match s.log.commit s.ctx with
  | none => throw .panic
  | some log =>
    let log := { log with opCount := log.opCount - 1 }
    if log.opCount = 0 then
      if log.header.entries.any (· ∈ s.held) then throw .hang else
        set { s with
          log := { log with
            header := { log.header with numBlocks := 0 }
            lastPersistedTs := log.lastAllocatedTs
            logUsed := 0 } }
    else if s.ctx.ts > log.lastPersistedTs then throw .hang
    else set { s with log }

/-! ### Allocation -/

/-- The bitmap block of bit `i` of group `h`. -/
def bitmapBlock (sb : SuperBlock) (h i : Nat) : Nat :=
  sb.bgStart + h * sb.blocksPerGroup + sb.bitmapStartPerGroup + i / bitPerBlock

/-- The round of `cache_alloc` and `cache_allocg` for the bitmap block of bit `i` of group `h`, on
its first `bound` bits. -/
def allocIn (sb : SuperBlock) (ctx : Bool) (h i bound : Nat) : M (Option Nat) := do
  let bitmap ← cacheAcquire (bitmapBlock sb h i)
  match (List.range bound).find? fun j => !bitmapGet bitmap j with
  | some j =>
    writeBack ctx (bitmapBlock sb h i) (bitmapSet bitmap j)
    let blockNo := sb.bgStart + h * sb.blocksPerGroup + i + j
    let _ ← cacheAcquire blockNo
    writeBack ctx blockNo Bytes.zero
    modify fun s => { s with usedBlock := Function.update s.usedBlock h (s.usedBlock h + 1) }
    pure (some blockNo)
  | none =>
    cacheRelease (bitmapBlock sb h i)
    pure none

/-- The bits `0, BIT_PER_BLOCK, ...` of a group at which a bitmap block starts. -/
def bitmapStarts (sb : SuperBlock) : List Nat :=
  (List.range ((sb.blocksPerGroup + bitPerBlock - 1) / bitPerBlock)).map (· * bitPerBlock)

def cacheAlloc (sb : SuperBlock) (ctx : Bool) : M Nat := do
  let found ← Exec.search (fun h => Exec.search
    (fun i => allocIn sb ctx h i (min bitPerBlock (sb.blocksPerGroup - i))) (bitmapStarts sb))
    (List.range sb.numGroups)
  match found with
  | some blockNo => pure blockNo
  | none => throw .panic

def cacheAllocg (sb : SuperBlock) (ctx : Bool) (gno : Nat) : M Nat := do
  assert (gno < ngroups)
  let found ← Exec.search
    (fun i => allocIn sb ctx gno i (min bitPerBlock sb.blocksPerGroup)) (bitmapStarts sb)
  pure (found.getD 0)

def cacheFree (sb : SuperBlock) (ctx : Bool) (blockNo : Nat) : M Unit := do
  let h := Log.usizeSub blockNo sb.bgStart / sb.blocksPerGroup
  let off := Log.usizeSub blockNo sb.bgStart % sb.blocksPerGroup
  let bitmap ← cacheAcquire (bitmapBlock sb h off)
  assert (bitmapGet bitmap (off % bitPerBlock))
  modify fun s => { s with usedBlock := Function.update s.usedBlock h (s.usedBlock h - 1) }
  writeBack ctx (bitmapBlock sb h off) (bitmapClear bitmap (off % bitPerBlock))

end FtosFfs.Fs
