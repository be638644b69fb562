import FtosFfs.Layout
import Mathlib.Data.List.Basic
import Mathlib.Logic.Function.Basic

/-! The blocks of the block cache of `fs/cache.c`: the list of cached blocks, the search for a
slot in `cache_acquire`, the sleep lock of a block, and `cache_release`. -/

namespace FtosFfs.Cache

open Lib

/-- `EVICTION_THRESHOLD`. -/
def evictionThreshold : Nat := 20

/-- The contents of the device, by block number. -/
abbrev Disk : Type := Nat → BlockData

/-- The address of a `Block` in the arena: the number of objects allocated before it. -/
abbrev Ptr : Type := Nat

/-- `Block`, without its list node. -/
structure Block where
  blockNo : Nat
  acquired : Bool
  pinned : Bool
  /-- The flag `locked` of the block's sleep lock. -/
  locked : Bool
  valid : Bool
  data : BlockData

/-- `init_block`. -/
def initBlock : Block where
  blockNo := 0
  acquired := false
  pinned := false
  locked := false
  valid := false
  data := Bytes.zero

/-- The device, the list of cached blocks from `head.next` on, and the blocks in the arena. -/
structure BCache where
  device : Disk
  list : List Ptr
  mem : Ptr → Block

namespace BCache

/-- The loop of `cache_acquire` over the list: the block `blockNo`, or else the last block that
is neither acquired nor pinned. -/
def findSlot (mem : Ptr → Block) (blockNo : Nat) : List Ptr → Option Ptr → Option Ptr
  | [], slot => slot
  | cur :: rest, slot =>
    if (mem cur).blockNo = blockNo then some cur
    else findSlot mem blockNo rest
      (if !(mem cur).acquired && !(mem cur).pinned then some cur else slot)

/-- The cache with block `p` set to `blk` and moved to the front of the list. -/
def front (c : BCache) (p : Ptr) (blk : Block) : BCache :=
  { c with list := p :: c.list.erase p, mem := Function.update c.mem p blk }

/-- A new block from the arena, for block number `blockNo`. -/
def allocSlot (c : BCache) (blockNo : Nat) : BCache × Ptr :=
  (c.front c.list.length { initBlock with blockNo, acquired := true }, c.list.length)

/-- The region of `cache_acquire` under the cache lock. -/
def acquireSlot (c : BCache) (blockNo : Nat) : BCache × Ptr :=
  match findSlot c.mem blockNo c.list none with
  | some p =>
    if (c.mem p).blockNo = blockNo then (c.front p { c.mem p with acquired := true }, p)
    else if evictionThreshold ≤ c.list.length then
      (c.front p { c.mem p with blockNo, valid := false, acquired := true }, p)
    else c.allocSlot blockNo
  | none => c.allocSlot blockNo

/-- The cache with block `p` set to `blk`. -/
def set (c : BCache) (p : Ptr) (blk : Block) : BCache :=
  { c with mem := Function.update c.mem p blk }

/-- `acquire_sleeplock`, which returns once the lock is free. -/
def acquireSleeplock (c : BCache) (p : Ptr) : Option BCache :=
  if (c.mem p).locked then none
  else some (c.set p { c.mem p with locked := true })

def releaseSleeplock (c : BCache) (p : Ptr) : BCache := c.set p { c.mem p with locked := false }

/-- The end of `cache_acquire`: reads the block from the device unless it is valid. -/
def load (c : BCache) (p : Ptr) : BCache :=
  if (c.mem p).valid then c
  else c.set p { c.mem p with data := c.device (c.mem p).blockNo, valid := true }

/-- `cache_acquire`, without a result when it sleeps on the lock of the block. -/
def cacheAcquire (c : BCache) (blockNo : Nat) : Option (BCache × Ptr) := do
  let (c, slot) := c.acquireSlot blockNo
  let c ← c.acquireSleeplock slot
  some (c.load slot, slot)

/-- The region of `cache_release` under the cache lock. -/
def clearAcquired (c : BCache) (p : Ptr) : BCache := c.set p { c.mem p with acquired := false }

def cacheRelease (c : BCache) (p : Ptr) : BCache := (c.releaseSleeplock p).clearAcquired p

/-- A store of `d` to the data of block `p`. -/
def setData (c : BCache) (p : Ptr) (d : BlockData) : BCache := c.set p { c.mem p with data := d }

def setPinned (c : BCache) (p : Ptr) (v : Bool) : BCache := c.set p { c.mem p with pinned := v }

def deviceWrite (c : BCache) (p : Ptr) : BCache :=
  { c with device := Function.update c.device (c.mem p).blockNo (c.mem p).data }

/-! ### The search for a slot -/

/-- The search ends at the block searched for, or else at a block that can be evicted. -/
theorem findSlot_cases (mem : Ptr → Block) (b : Nat) (l : List Ptr) (slot : Option Ptr) :
    (∃ p ∈ l, findSlot mem b l slot = some p ∧ (mem p).blockNo = b) ∨
    (∀ p ∈ l, (mem p).blockNo ≠ b) ∧
      (findSlot mem b l slot = slot ∨
        ∃ p ∈ l, findSlot mem b l slot = some p ∧ (mem p).acquired = false ∧
          (mem p).pinned = false) := by
  induction l generalizing slot with
  | nil => exact .inr ⟨by simp, .inl rfl⟩
  | cons q rest ih =>
    rw [findSlot]
    by_cases hq : (mem q).blockNo = b
    · exact .inl ⟨q, by simp, by simp [hq], hq⟩
    rw [if_neg hq]
    rcases ih (if !(mem q).acquired && !(mem q).pinned then some q else slot) with
      ⟨p, hp, hf, hb⟩ | ⟨hne, hf | ⟨p, hp, hf, ha⟩⟩
    · exact .inl ⟨p, by simp [hp], hf, hb⟩
    · refine .inr ⟨by simpa [hq] using hne, ?_⟩
      rw [hf]
      by_cases hc : (!(mem q).acquired && !(mem q).pinned) = true
      · exact .inr ⟨q, by simp, by simp [hc], by simpa using hc⟩
      · exact .inl (by simp [hc])
    · exact .inr ⟨by simpa [hq] using hne, .inr ⟨p, by simp [hp], hf, ha⟩⟩

/-- The three outcomes of the search: the block is cached, another block is evicted for it, or
a new block is allocated. -/
theorem acquireSlot_cases (c : BCache) (b : Nat) :
    (∃ p ∈ c.list, (c.mem p).blockNo = b ∧
      c.acquireSlot b = (c.front p { c.mem p with acquired := true }, p)) ∨
    (∃ p ∈ c.list, (∀ q ∈ c.list, (c.mem q).blockNo ≠ b) ∧ (c.mem p).acquired = false ∧
      (c.mem p).pinned = false ∧ c.acquireSlot b =
        (c.front p { c.mem p with blockNo := b, valid := false, acquired := true }, p)) ∨
    ((∀ q ∈ c.list, (c.mem q).blockNo ≠ b) ∧ c.acquireSlot b = c.allocSlot b) := by
  rcases findSlot_cases c.mem b c.list none with ⟨p, hp, hf, hb⟩ | ⟨hne, hf | ⟨p, hp, hf, ha⟩⟩
  · exact .inl ⟨p, hp, hb, by simp [acquireSlot, hf, hb]⟩
  · exact .inr (.inr ⟨hne, by simp [acquireSlot, hf]⟩)
  · right
    by_cases hfull : evictionThreshold ≤ c.list.length
    · exact .inl ⟨p, hp, hne, ha.1, ha.2, by simp [acquireSlot, hf, hne p hp, hfull]⟩
    · exact .inr ⟨hne, by simp [acquireSlot, hf, hne p hp, hfull]⟩

theorem mem_front {c : BCache} {p q : Ptr} {blk : Block} :
    q ∈ (c.front p blk).list ↔ q = p ∨ q ∈ c.list := by
  by_cases h : q = p
  · simp [front, h]
  · simp [front, h, List.mem_erase_of_ne h]

@[simp] theorem front_device (c : BCache) (p : Ptr) (blk : Block) :
    (c.front p blk).device = c.device := rfl

@[simp] theorem front_mem (c : BCache) (p : Ptr) (blk : Block) :
    (c.front p blk).mem = Function.update c.mem p blk := rfl

end BCache

end FtosFfs.Cache
