import FtosFfs.Layout
import FtosFfs.Lib.Machine
import Mathlib.Data.Finset.Card

/-! The log of `fs/cache.c`: the reservation of log space in `cache_begin_op`, the blocks recorded
by `cache_sync`, `commit`, and the waits of `cache_end_op`, for any number of operations at a
time.  A step is one region under the cache lock, one block copied by the checkpoint, or one
wakeup. -/

namespace FtosFfs.Cache

open Lib

/-- `OP_MAX_NUM_BLOCKS`. -/
def opMaxNumBlocks : Nat := 10

/-- `OpContext`, with `block_no[0..num_blocks)` as a list. -/
structure OpContext where
  ts : Nat
  blockNo : List Nat
  deriving DecidableEq

/-- The record that `cache_sync` makes of block `b`, without a result when its assertion fails. -/
def OpContext.record (ctx : OpContext) (b : Nat) : Option OpContext :=
  let i := ctx.blockNo.idxOf b
  if i < opMaxNumBlocks then
    some { ctx with
      blockNo := if i < ctx.blockNo.length then ctx.blockNo.set i b else ctx.blockNo ++ [b] }
  else none

/-- The static variables of `fs/cache.c` that belong to the log.  The timestamps count operations
and do not wrap around here. -/
structure Log where
  header : LogHeader
  lastAllocatedTs : Nat
  lastPersistedTs : Nat
  logSize : Nat
  logUsed : Nat
  opCount : Nat

namespace Log

/-- One round of the loop of `commit`, on the header and the number of absorbed blocks. -/
def commitBlock (logSize : Nat) (s : LogHeader × Nat) (blockNo : Nat) :
    Option (LogHeader × Nat) :=
  let (header, absorbed) := s
  let j := header.entries.idxOf blockNo
  if j < logSize then
    let header := { header with blockNo := Function.update header.blockNo j blockNo }
    if j < header.numBlocks then some (header, absorbed + 1)
    else some ({ header with numBlocks := header.numBlocks + 1 }, absorbed)
  else none

/-- The loop of `commit`. -/
def commitBlocks (log : Log) (ctx : OpContext) : Option (LogHeader × Nat) :=
  ctx.blockNo.foldlM (commitBlock log.logSize) (log.header, 0)

/-- The subtraction of 64-bit words. -/
def usizeSub (a b : Nat) : Nat := (a + 2 ^ 64 - b) % 2 ^ 64

/-- `commit`, without a result when its assertion fails. -/
def commit (log : Log) (ctx : OpContext) : Option Log := do
  let (header, absorbed) ← log.commitBlocks ctx
  let unused := opMaxNumBlocks - ctx.blockNo.length
  some { log with header, logUsed := usizeSub log.logUsed (unused + absorbed) }

/-- `init_bcache`'s log size: `MIN(num_log_blocks - 1, LOG_MAX_SIZE)`, on 32-bit words. -/
def initLogSize (sb : SuperBlock) : Nat := min ((sb.numLogBlocks + 2 ^ 32 - 1) % 2 ^ 32) logMaxSize

/-- The log after `init_bcache`, with the header that it leaves. -/
def initLog (sb : SuperBlock) (header : LogHeader) : Log where
  header := header
  lastAllocatedTs := 0
  lastPersistedTs := 0
  logSize := initLogSize sb
  logUsed := 0
  opCount := 0

end Log

/-- Where the operation that runs `checkpoint` is. -/
inductive Checkpoint
  /-- Step 1, before block `i` is copied to the log. -/
  | logging (i : Nat)
  /-- Step 2, the write of the header. -/
  | marking
  /-- Step 3, before block `i` is copied to its place, and step 4 once `i` is `num_blocks`. -/
  | replaying (i : Nat)
  /-- Step 5. -/
  | persisting
  /-- Before the wakeup of `last_persisted_ts`. -/
  | waking
  /-- Back in `cache_end_op`, before `log_size` is restored. -/
  | restoring
  /-- Before the wakeup of `log_used`. -/
  | finishing
  deriving DecidableEq

/-- Where an operation is. -/
inductive Phase
  | idle
  /-- In `cache_begin_op`, before the test for log space. -/
  | starting
  /-- Asleep on `log_used`. -/
  | blocked
  | running (ctx : OpContext)
  /-- In the loop of `cache_end_op`, before the test of the timestamp. -/
  | waiting (ctx : OpContext)
  /-- Asleep on `last_persisted_ts`. -/
  | asleep (ctx : OpContext)
  | checkpointing (logSizeCopy : Nat) (pc : Checkpoint)
  | ended
  deriving DecidableEq

namespace Phase

/-- `wakeup(&log_used)`. -/
def wakeLog : Phase → Phase
  | blocked => starting
  | ph => ph

/-- `wakeup(&last_persisted_ts)`. -/
def wakePersisted : Phase → Phase
  | asleep ctx => waiting ctx
  | ph => ph

end Phase

/-- The log and the operations that use it, with the contexts of the operations that ended since
the last checkpoint. -/
structure Ops where
  log : Log
  phase : Nat → Phase
  ended : List OpContext

inductive OpLabel
  /-- The initialisation of the context in `cache_begin_op`. -/
  | enter (i : Nat)
  | begin (i : Nat)
  | sync (i b : Nat)
  | endOp (i : Nat)
  | wait (i : Nat)
  | checkpoint (i : Nat)

/-- The operation that makes the step. -/
def OpLabel.op : OpLabel → Nat
  | enter i | begin i | sync i _ | endOp i | wait i | checkpoint i => i

namespace Ops

def setPhase (s : Ops) (i : Nat) (ph : Phase) : Ops :=
  { s with phase := Function.update s.phase i ph }

/-- The loop of `cache_begin_op`, up to its end or to `sleep`. -/
def cacheBeginOp (s : Ops) (i : Nat) : Ops :=
  if s.log.logUsed + opMaxNumBlocks > s.log.logSize then s.setPhase i .blocked
  else
    let ts := s.log.lastAllocatedTs + 1
    { s with
      log := { s.log with
        logUsed := s.log.logUsed + opMaxNumBlocks
        lastAllocatedTs := ts
        opCount := s.log.opCount + 1 }
      phase := Function.update s.phase i (.running ⟨ts, []⟩) }

/-- The loop of `cache_end_op`, up to its end or to `sleep`. -/
def waitPersisted (s : Ops) (i : Nat) (ctx : OpContext) : Ops :=
  s.setPhase i (if ctx.ts > s.log.lastPersistedTs then .asleep ctx else .ended)

/-- The first region of `cache_end_op`. -/
def cacheEndOp (s : Ops) (i : Nat) (ctx : OpContext) : Option Ops := do
  let log ← s.log.commit ctx
  let log := { log with opCount := log.opCount - 1 }
  let s : Ops := ⟨log, fun k => (s.phase k).wakeLog, ctx :: s.ended⟩
  if log.opCount = 0 then
    some { s with
      log := { log with logSize := 0 }
      phase := Function.update s.phase i (.checkpointing log.logSize (.logging 0)) }
  else some (s.waitPersisted i ctx)

/-- One step of `checkpoint` and of the end of `cache_end_op`, as far as the log is concerned. -/
def checkpointStep (s : Ops) (i : Nat) (logSizeCopy : Nat) : Checkpoint → Ops
  | .logging k =>
    if k < s.log.header.numBlocks then s.setPhase i (.checkpointing logSizeCopy (.logging (k + 1)))
    else s.setPhase i (.checkpointing logSizeCopy .marking)
  | .marking => s.setPhase i (.checkpointing logSizeCopy (.replaying 0))
  | .replaying k =>
    if s.log.header.numBlocks = 0 then s.setPhase i (.checkpointing logSizeCopy .persisting)
    else if k < s.log.header.numBlocks then
      s.setPhase i (.checkpointing logSizeCopy (.replaying (k + 1)))
    else { s with log := { s.log with header := { s.log.header with numBlocks := 0 } } }
  | .persisting =>
    { s with
      log := { s.log with lastPersistedTs := s.log.lastAllocatedTs }
      phase := Function.update s.phase i (.checkpointing logSizeCopy .waking) }
  | .waking =>
    { s with
      phase := Function.update (fun k => (s.phase k).wakePersisted) i
        (.checkpointing logSizeCopy .restoring) }
  | .restoring =>
    { log := { s.log with logSize := logSizeCopy, logUsed := 0 }
      phase := Function.update s.phase i (.checkpointing logSizeCopy .finishing)
      ended := [] }
  | .finishing => { s with phase := Function.update (fun k => (s.phase k).wakeLog) i .ended }

def next (s : Ops) : OpLabel → Option Ops
  | .enter i => if s.phase i = .idle then some (s.setPhase i .starting) else none
  | .begin i => if s.phase i = .starting then some (s.cacheBeginOp i) else none
  | .sync i b =>
    match s.phase i with
    | .running ctx => (ctx.record b).map fun ctx => s.setPhase i (.running ctx)
    | _ => none
  | .endOp i =>
    match s.phase i with
    | .running ctx => s.cacheEndOp i ctx
    | _ => none
  | .wait i =>
    match s.phase i with
    | .waiting ctx => some (s.waitPersisted i ctx)
    | _ => none
  | .checkpoint i =>
    match s.phase i with
    | .checkpointing logSizeCopy pc => some (s.checkpointStep i logSizeCopy pc)
    | _ => none

/-- The state after `init_bcache`: the log is empty and no operation has begun. -/
def Init (sb : SuperBlock) (s : Ops) : Prop :=
  (∃ header : LogHeader, header.numBlocks = 0 ∧ s.log = Log.initLog sb header) ∧
    (∀ i, s.phase i = .idle) ∧ s.ended = []

/-- Operation `i` has `log_size` set to 0 for its checkpoint. -/
def CheckpointsAt (s : Ops) (i : Nat) : Prop :=
  ∃ copy pc, s.phase i = .checkpointing copy pc ∧ pc ≠ .finishing

/-- A checkpoint is running. -/
def Checkpointing (s : Ops) : Prop := ∃ i, s.CheckpointsAt i

end Ops

/-- The operations of a kernel with super block `sb`. -/
def opsMachine (sb : SuperBlock) : Machine Ops OpLabel where
  init := Ops.Init sb
  next := Ops.next

end FtosFfs.Cache
