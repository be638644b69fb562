import FtosFfs.Cache.Held
import FtosFfs.Lib.Recency

/-! Which block `cache_acquire` evicts, and how many blocks the cache holds, in the runs of
`cache_acquire`, `cache_release` and `cache_sync` by any number of threads.  The steps are those of
`Held`, with the two ways of `cache_sync`, and with the end of a checkpoint, which unpins a block. -/

namespace FtosFfs.Cache

open Lib

namespace BCache

variable {c : BCache} {b : Nat} {p : Ptr} {slot : Option Ptr} {mem : Ptr → Block} {l : List Ptr}

/-- The block can be evicted. -/
def evictable (mem : Ptr → Block) (p : Ptr) : Bool := !(mem p).acquired && !(mem p).pinned

theorem evictable_iff : evictable mem p = true ↔ (mem p).acquired = false ∧ (mem p).pinned = false := by
  simp [evictable]

/-- A search that does not find the block ends with the last one that can be evicted. -/
theorem findSlot_miss (hmiss : ∀ q ∈ l, (mem q).blockNo ≠ b) :
    findSlot mem b l slot = ((l.filter (evictable mem)).getLast?).or slot := by
  induction l generalizing slot with
  | nil => rfl
  | cons q l ih =>
    obtain ⟨hq, hmiss⟩ := List.forall_mem_cons.mp hmiss
    rw [findSlot, if_neg hq, ih hmiss, List.filter_cons]
    change Option.or _ (if evictable mem q = true then some q else slot) = _
    split
    · rw [List.getLast?_cons]
      cases (l.filter (evictable mem)).getLast? <;> rfl
    · rfl

theorem acquireSlot_hit (hp : p ∈ c.list) (hb : (c.mem p).blockNo = b) :
    ∃ q ∈ c.list, (c.mem q).blockNo = b ∧
      c.acquireSlot b = (c.front q { c.mem q with acquired := true }, q) := by
  rcases c.acquireSlot_cases b with hfound | ⟨q, hq, hmiss, -⟩ | ⟨hmiss, -⟩
  · exact hfound
  · exact absurd hb (hmiss p hp)
  · exact absurd hb (hmiss p hp)

theorem acquireSlot_evict (hmiss : ∀ q ∈ c.list, (c.mem q).blockNo ≠ b)
    (hfull : evictionThreshold ≤ c.list.length)
    (hlast : (c.list.filter (evictable c.mem)).getLast? = some p) :
    c.acquireSlot b =
      (c.front p { c.mem p with blockNo := b, valid := false, acquired := true }, p) := by
  have hp : p ∈ c.list := (List.mem_filter.mp (List.mem_of_getLast? hlast)).1
  have hfind : findSlot c.mem b c.list none = some p := by
    rw [findSlot_miss hmiss, hlast]
    rfl
  rw [acquireSlot, hfind]
  dsimp only
  rw [if_neg (hmiss p hp), if_pos hfull]

theorem acquireSlot_grow (hmiss : ∀ q ∈ c.list, (c.mem q).blockNo ≠ b)
    (hroom : c.list.length < evictionThreshold ∨ c.list.filter (evictable c.mem) = []) :
    c.acquireSlot b = c.allocSlot b := by
  have hfind : findSlot c.mem b c.list none = (c.list.filter (evictable c.mem)).getLast? := by
    rw [findSlot_miss hmiss, Option.or_none]
  rw [acquireSlot, hfind]
  cases hlast : (c.list.filter (evictable c.mem)).getLast? with
  | none => rfl
  | some p =>
    dsimp only
    have hp := List.mem_of_getLast? hlast
    have hsmall : c.list.length < evictionThreshold := by
      refine hroom.resolve_right fun hnil => ?_
      rw [hnil] at hp
      cases hp
    rw [if_neg (hmiss p (List.mem_filter.mp hp).1), if_neg (Nat.not_le.mpr hsmall)]

end BCache

namespace Lru

open Held

/-- The threads and the cache, with the number of calls of `cache_acquire` so far and, for each block
number, the last call for it. -/
structure World where
  held : Held.World
  clock : Nat
  last : Nat → Nat

inductive Label
  | held (a : Held.Label)
  /-- `cache_sync` with a context, past the region under the lock of the context. -/
  | pin (t b : Nat) (p : Ptr)
  /-- `cache_sync` without a context. -/
  | write (t b : Nat) (p : Ptr)
  /-- The region under the cache lock at the end of a copy of `replay`. -/
  | unpin (p : Ptr)

namespace World

/-- The cached blocks, from the front of the list. -/
def list (w : World) : List Ptr := w.held.cache.list

def mem (w : World) : Ptr → Block := w.held.cache.mem

def setCache (w : World) (c : BCache) : World := { w with held := { w.held with cache := c } }

/-- The world after a call of `cache_acquire` for `b`. -/
def called (w : World) (b : Nat) (held : Held.World) : World :=
  ⟨held, w.clock + 1, Function.update w.last b (w.clock + 1)⟩

def next (w : World) : Label → Option World
  | .held (.acquire t b) => (w.held.next (.acquire t b)).map (w.called b)
  | .held a => (w.held.next a).map fun held => { w with held }
  | .pin t b p =>
    if (w.held.thread t).call = .none ∧ (b, p) ∈ (w.held.thread t).held then
      some (w.setCache (w.held.cache.setPinned p true))
    else none
  | .write t b p =>
    if (w.held.thread t).call = .none ∧ (b, p) ∈ (w.held.thread t).held then
      some (w.setCache (w.held.cache.deviceWrite p))
    else none
  | .unpin p => some (w.setCache (w.held.cache.setPinned p false))

/-- The empty cache, with every thread outside and before the first call. -/
def Init (w : World) : Prop := w.list = [] ∧ w.held.Init ∧ w.clock = 0 ∧ ∀ b, w.last b = 0

/-- The last call of `cache_acquire` for the block with this number. -/
def lastCall (w : World) (p : Ptr) : Nat := w.last (w.mem p).blockNo

end World

def machine : Machine World Label where
  init := World.Init
  next := World.next

variable {w w' : World} {a : Label} {t b : Nat} {p : Ptr}

/-! ### What is to hold -/

/-- What a call of `cache_acquire` for `b` is to do to the cached blocks. -/
structure Acquires (w : World) (b : Nat) (w' : World) : Prop where
  hit : ∀ p ∈ w.list, (w.mem p).blockNo = b →
    w'.list = p :: w.list.erase p ∧ ∀ q, (w'.mem q).blockNo = (w.mem q).blockNo
  evicts : (∀ p ∈ w.list, (w.mem p).blockNo ≠ b) → evictionThreshold ≤ w.list.length →
    (∃ p ∈ w.list, (w.mem p).acquired = false ∧ (w.mem p).pinned = false) →
    ∃ p ∈ w.list, (w.mem p).acquired = false ∧ (w.mem p).pinned = false ∧
      (∀ q ∈ w.list, (w.mem q).acquired = false → (w.mem q).pinned = false → q ≠ p →
        w.lastCall p < w.lastCall q) ∧
      w'.list = p :: w.list.erase p ∧ (w'.mem p).blockNo = b ∧
      ∀ q ≠ p, (w'.mem q).blockNo = (w.mem q).blockNo
  grows : (∀ p ∈ w.list, (w.mem p).blockNo ≠ b) →
    (w.list.length < evictionThreshold ∨
      ∀ p ∈ w.list, (w.mem p).acquired = true ∨ (w.mem p).pinned = true) →
    ∃ p ∉ w.list, w'.list = p :: w.list ∧ (w'.mem p).blockNo = b ∧
      ∀ q ≠ p, (w'.mem q).blockNo = (w.mem q).blockNo

/-- The step from `w` to `w'` adds a block to a cache that is full of blocks in use. -/
def Forced (w w' : World) : Prop :=
  w'.list.length = w.list.length + 1 ∧
    ∀ p ∈ w.list, (w.mem p).acquired = true ∨ (w.mem p).pinned = true

/-- The cache in `w`, and what the steps from `w` do to it. -/
structure KeepsSmall (w : World) : Prop where
  distinct : ∀ p ∈ w.list, ∀ q ∈ w.list, (w.mem p).blockNo = (w.mem q).blockNo → p = q
  ordered : Recent w.lastCall w.list
  acquires : ∀ t b w', w.next (.held (.acquire t b)) = some w' → Acquires w b w'
  others : ∀ a w', w.next a = some w' → (∀ t b, a ≠ .held (.acquire t b)) →
    w'.list = w.list ∧ ∀ p, (w'.mem p).blockNo = (w.mem p).blockNo
  pinned : ∀ a w', w.next a = some w' → ∀ p ∈ w.list, (w.mem p).pinned = true →
    p ∈ w'.list ∧ (w'.mem p).blockNo = (w.mem p).blockNo
  small : evictionThreshold < w.list.length → ∃ w₀ a w₁ l, machine.Reachable w₀ ∧
    w₀.next a = some w₁ ∧ Forced w₀ w₁ ∧ machine.run w₁ l = some w ∧ w₁.list.length = w.list.length

/-! ### The invariant -/

structure Inv (w : World) : Prop where
  bound : ∀ p ∈ w.list, p < w.list.length
  distinct : ∀ p ∈ w.list, ∀ q ∈ w.list, (w.mem p).blockNo = (w.mem q).blockNo → p = q
  ordered : Recent w.lastCall w.list
  past : ∀ b, w.last b ≤ w.clock

/-- Every step but a call of `cache_acquire` leaves the list and the numbers as they are. -/
structure SameBlocks (w w' : World) : Prop where
  list : w'.list = w.list
  blockNo : ∀ p, (w'.mem p).blockNo = (w.mem p).blockNo
  clock : w'.clock = w.clock
  last : w'.last = w.last

theorem SameBlocks.lastCall (h : SameBlocks w w') : w'.lastCall = w.lastCall := by
  funext p
  unfold World.lastCall
  rw [h.last, h.blockNo]

theorem SameBlocks.inv (h : SameBlocks w w') (hi : Inv w) : Inv w' := by
  constructor
  case bound =>
    rw [h.list]
    exact hi.bound
  case distinct =>
    simp only [h.list, h.blockNo]
    exact hi.distinct
  case ordered =>
    rw [h.list, h.lastCall]
    exact hi.ordered
  case past =>
    rw [h.last, h.clock]
    exact hi.past

theorem blockNo_set {c : BCache} {blk : Block} (hblk : blk.blockNo = (c.mem p).blockNo) (q : Ptr) :
    ((c.set p blk).mem q).blockNo = (c.mem q).blockNo := by
  change (Function.update c.mem p blk q).blockNo = _
  by_cases hq : q = p
  · rw [hq, Function.update_self, hblk]
  · rw [Function.update_of_ne hq]

/-- A step is a call of `cache_acquire`, or leaves the list and the numbers as they are. -/
theorem next_cases (hn : w.next a = some w') :
    (∃ t b, a = .held (.acquire t b) ∧ w'.list = (w.held.cache.acquireSlot b).1.list ∧
      w'.mem = (w.held.cache.acquireSlot b).1.mem ∧ w'.clock = w.clock + 1 ∧
      w'.last = Function.update w.last b (w.clock + 1)) ∨
    (∀ t b, a ≠ .held (.acquire t b)) ∧ SameBlocks w w' := by
  have hset (p : Ptr) (blk : Block) (hblk : blk.blockNo = (w.mem p).blockNo) (t : Nat) (th : Thread) :
      SameBlocks w { w with held := w.held.put (w.held.cache.set p blk) t th } :=
    ⟨rfl, blockNo_set hblk, rfl, rfl⟩
  cases a with
  | held a =>
    cases a with
    | acquire t b =>
      obtain ⟨held, hheld, rfl⟩ := Option.map_eq_some_iff.mp hn
      simp only [Held.World.next] at hheld
      split at hheld
      case isFalse => cases hheld
      case isTrue =>
        cases hheld
        exact .inl ⟨t, b, rfl, rfl, rfl, rfl, rfl⟩
    | lock t =>
      refine .inr ⟨by simp, ?_⟩
      obtain ⟨held, hheld, rfl⟩ := Option.map_eq_some_iff.mp hn
      simp only [Held.World.next] at hheld
      split at hheld
      · obtain ⟨c, hc, rfl⟩ := Option.map_eq_some_iff.mp hheld
        simp only [BCache.acquireSleeplock] at hc
        split at hc
        · cases hc
        · cases hc
          refine hset _ _ ?_ _ _
          rfl
      · cases hheld
    | load t =>
      refine .inr ⟨by simp, ?_⟩
      obtain ⟨held, hheld, rfl⟩ := Option.map_eq_some_iff.mp hn
      simp only [Held.World.next] at hheld
      split at hheld
      case h_1 b p hcall =>
        cases hheld
        obtain ⟨d, hd⟩ := load_eq w.held.cache p
        rw [hd]
        refine hset _ _ ?_ _ _
        rfl
      case h_2 => cases hheld
    | unlock t b p =>
      refine .inr ⟨by simp, ?_⟩
      obtain ⟨held, hheld, rfl⟩ := Option.map_eq_some_iff.mp hn
      simp only [Held.World.next] at hheld
      split at hheld
      case isFalse => cases hheld
      case isTrue =>
        cases hheld
        refine hset _ _ ?_ _ _
        rfl
    | clear t =>
      refine .inr ⟨by simp, ?_⟩
      obtain ⟨held, hheld, rfl⟩ := Option.map_eq_some_iff.mp hn
      simp only [Held.World.next] at hheld
      split at hheld
      · cases hheld
        refine hset _ _ ?_ _ _
        rfl
      · cases hheld
  | pin t b p =>
    refine .inr ⟨by simp, ?_⟩
    simp only [World.next] at hn
    split at hn
    case isFalse => cases hn
    case isTrue =>
      cases hn
      exact ⟨rfl, blockNo_set rfl, rfl, rfl⟩
  | write t b p =>
    refine .inr ⟨by simp, ?_⟩
    simp only [World.next] at hn
    split at hn
    case isFalse => cases hn
    case isTrue =>
      cases hn
      exact ⟨rfl, fun _ => rfl, rfl, rfl⟩
  | unpin p =>
    refine .inr ⟨by simp, ?_⟩
    cases hn
    exact ⟨rfl, blockNo_set rfl, rfl, rfl⟩

/-! ### A call of `cache_acquire` -/

/-- A call for `b` makes block `p` the front of the list and gives it number `b`. -/
structure Fronts (w : World) (b : Nat) (p : Ptr) (w' : World) : Prop where
  list : w'.list = p :: w.list.erase p
  blockNo : (w'.mem p).blockNo = b
  others : ∀ q ≠ p, (w'.mem q).blockNo = (w.mem q).blockNo
  clock : w'.clock = w.clock + 1
  last : w'.last = Function.update w.last b (w.clock + 1)

/-- The invariant after a call, if no other cached block has the number. -/
theorem Fronts.inv (h : Fronts w b p w') (hi : Inv w)
    (hp : p ∈ w.list ∨ p = w.list.length) (hb : ∀ q ∈ w.list, q ≠ p → (w.mem q).blockNo ≠ b) :
    Inv w' := by
  have hnodup := hi.ordered.nodup
  have hmem {q : Ptr} (hq : q ∈ w'.list) : q = p ∨ q ≠ p ∧ q ∈ w.list := by
    rw [h.list] at hq
    rcases List.mem_cons.mp hq with hq | hq
    · exact .inl hq
    · exact .inr (hnodup.mem_erase_iff.mp hq)
  constructor
  case bound =>
    intro q hq
    have hlen : q < w.list.length ∨ q = p := by
      rcases hmem hq with hq | ⟨-, hq⟩
      · exact .inr hq
      · exact .inl (hi.bound q hq)
    rw [h.list, List.length_cons]
    rcases hp with hp | hp
    · rw [List.length_erase_of_mem hp, Nat.sub_add_cancel (List.length_pos_of_mem hp)]
      rcases hlen with hlt | rfl
      · exact hlt
      · exact hi.bound q hp
    · have hnew : p ∉ w.list := fun hin => Nat.ne_of_lt (hi.bound p hin) hp
      rw [List.erase_of_not_mem hnew]
      rcases hlen with hlt | rfl
      · exact Nat.lt_succ_of_lt hlt
      · rw [hp]
        exact Nat.lt_succ_self _
  case distinct =>
    intro q hq r hr heq
    rcases hmem hq with rfl | ⟨hqp, hq⟩
    · rcases hmem hr with rfl | ⟨hrp, hr⟩
      · rfl
      · rw [h.blockNo, h.others r hrp] at heq
        exact absurd heq.symm (hb r hr hrp)
    · rcases hmem hr with rfl | ⟨hrp, hr⟩
      · rw [h.blockNo, h.others q hqp] at heq
        exact absurd heq (hb q hq hqp)
      · rw [h.others q hqp, h.others r hrp] at heq
        exact hi.distinct q hq r hr heq
  case ordered =>
    rw [h.list]
    refine hi.ordered.front (fun q _ _ => Nat.lt_succ_of_le (hi.past _)) ?_ fun q hq hqp => ?_
    · rw [World.lastCall, h.blockNo, h.last, Function.update_self]
    · rw [World.lastCall, h.others q hqp, h.last, Function.update_of_ne (hb q hq hqp)]
      rfl
  case past =>
    intro n
    rw [h.last, h.clock]
    by_cases hn : n = b
    · rw [hn, Function.update_self]
    · rw [Function.update_of_ne hn]
      exact Nat.le_succ_of_le (hi.past n)

/-- The three outcomes of a call: the block is cached, the least recent block that can be evicted is
taken for it, or a new block. -/
theorem acquire_cases (hn : w.next (.held (.acquire t b)) = some w') :
    (∃ p ∈ w.list, (w.mem p).blockNo = b ∧ Fronts w b p w') ∨
    (∀ p ∈ w.list, (w.mem p).blockNo ≠ b) ∧
      ((evictionThreshold ≤ w.list.length ∧
        ∃ p, (w.list.filter (BCache.evictable w.mem)).getLast? = some p ∧ Fronts w b p w') ∨
      (w.list.length < evictionThreshold ∨ w.list.filter (BCache.evictable w.mem) = []) ∧
        Fronts w b w.list.length w') := by
  obtain ⟨_, _, heq, hlist, hmem, hclock, hlast⟩ | ⟨hno, -⟩ := next_cases hn
  case inr => exact absurd rfl (hno t b)
  case inl =>
    obtain ⟨rfl, rfl⟩ := Held.Label.acquire.inj (Label.held.inj heq)
    have hfronts (p : Ptr) (blk : Block) (hblk : blk.blockNo = b)
        (hslot : w.held.cache.acquireSlot b = (w.held.cache.front p blk, p)) : Fronts w b p w' := by
      rw [hslot] at hlist hmem
      refine ⟨hlist, ?_, fun q hq => ?_, hclock, hlast⟩
      · rw [hmem, BCache.front_mem, Function.update_self, hblk]
      · rw [hmem, BCache.front_mem, Function.update_of_ne hq]
        rfl
    by_cases hhit : ∃ p ∈ w.list, (w.mem p).blockNo = b
    case pos =>
      obtain ⟨p, hp, hb⟩ := hhit
      obtain ⟨q, hq, hqb, hslot⟩ := BCache.acquireSlot_hit hp hb
      exact .inl ⟨q, hq, hqb, hfronts q { w.held.cache.mem q with acquired := true } hqb hslot⟩
    case neg =>
      have hmiss : ∀ p ∈ w.list, (w.mem p).blockNo ≠ b := fun p hp hb => hhit ⟨p, hp, hb⟩
      refine .inr ⟨hmiss, ?_⟩
      by_cases hroom : w.list.length < evictionThreshold ∨ w.list.filter (BCache.evictable w.mem) = []
      case pos => exact .inr ⟨hroom, hfronts _ _ rfl (BCache.acquireSlot_grow hmiss hroom)⟩
      case neg =>
        obtain ⟨hfull, hsome⟩ := not_or.mp hroom
        refine .inl ⟨Nat.not_lt.mp hfull, _, List.getLast?_eq_some_getLast hsome, ?_⟩
        exact hfronts _ _ rfl (BCache.acquireSlot_evict hmiss (Nat.not_lt.mp hfull)
          (List.getLast?_eq_some_getLast hsome))

theorem not_mem_length (hi : Inv w) : w.list.length ∉ w.list :=
  fun hin => Nat.lt_irrefl _ (hi.bound _ hin)

theorem Inv.next (hi : Inv w) (hn : w.next a = some w') : Inv w' := by
  obtain ⟨t, b, rfl, -⟩ | ⟨-, hsame⟩ := next_cases hn
  case inr => exact hsame.inv hi
  case inl =>
    obtain ⟨p, hp, hb, hfronts⟩ | ⟨hmiss, ⟨-, p, hlast, hfronts⟩ | ⟨-, hfronts⟩⟩ := acquire_cases hn
    · refine hfronts.inv hi (.inl hp) fun q hq hqp heq => ?_
      exact hqp (hi.distinct q hq p hp (heq.trans hb.symm))
    · have hp : p ∈ w.list := (hi.ordered.oldest hlast).1
      exact hfronts.inv hi (.inl hp) fun q hq _ => hmiss q hq
    · exact hfronts.inv hi (.inr rfl) fun q hq _ => hmiss q hq

theorem inv_of_reachable (h : machine.Reachable w) : Inv w := by
  refine h.invariant (I := Inv) (fun w hw => ?_) fun w a w' hi hn => hi.next hn
  obtain ⟨hnil, -, hclock, hlast⟩ := hw
  have hnone (p : Ptr) (hp : p ∈ w.list) : False := by
    rw [hnil] at hp
    cases hp
  refine ⟨fun p hp => (hnone p hp).elim, fun p hp => (hnone p hp).elim, ?_, fun b => ?_⟩
  · rw [hnil]
    exact List.Pairwise.nil
  · rw [hlast b]
    exact Nat.zero_le _

/-! ### The least recently acquired block is evicted -/

theorem Inv.acquires (hi : Inv w) (hn : w.next (.held (.acquire t b)) = some w') : Acquires w b w' := by
  have hnew := not_mem_length hi
  obtain ⟨p, hp, hb, h⟩ | ⟨hmiss, ⟨hfull, p, hlast, h⟩ | ⟨hroom, h⟩⟩ := acquire_cases hn
  · constructor
    case hit =>
      intro q hq hqb
      obtain rfl := hi.distinct q hq p hp (hqb.trans hb.symm)
      refine ⟨h.list, fun r => ?_⟩
      by_cases hr : r = q
      · rw [hr, h.blockNo, hb]
      · exact h.others r hr
    case evicts => exact fun hmiss => absurd hb (hmiss p hp)
    case grows => exact fun hmiss => absurd hb (hmiss p hp)
  · obtain ⟨hp, hfree, holdest⟩ := hi.ordered.oldest hlast
    obtain ⟨hacq, hpin⟩ := BCache.evictable_iff.mp hfree
    constructor
    case hit => exact fun q hq hqb => absurd hqb (hmiss q hq)
    case evicts =>
      intro _ _ _
      refine ⟨p, hp, hacq, hpin, fun q hq hacq hpin => ?_, h.list, h.blockNo, h.others⟩
      exact holdest q hq (BCache.evictable_iff.mpr ⟨hacq, hpin⟩)
    case grows =>
      rintro - (hsmall | hused)
      · exact absurd hsmall (Nat.not_lt.mpr hfull)
      · rcases hused p hp with huse | huse
        · rw [hacq] at huse
          cases huse
        · rw [hpin] at huse
          cases huse
  · constructor
    case hit => exact fun q hq hqb => absurd hqb (hmiss q hq)
    case evicts =>
      rintro - hfull ⟨p, hp, hfree⟩
      have hnil := hroom.resolve_left (Nat.not_lt.mpr hfull)
      have hmem : p ∈ w.list.filter (BCache.evictable w.mem) :=
        List.mem_filter.mpr ⟨hp, BCache.evictable_iff.mpr hfree⟩
      rw [hnil] at hmem
      cases hmem
    case grows =>
      intro _ _
      refine ⟨w.list.length, hnew, ?_, h.blockNo, h.others⟩
      rw [h.list, List.erase_of_not_mem hnew]

/-- A cached block that is pinned keeps its number. -/
theorem Inv.pinned (hi : Inv w) (hn : w.next a = some w') (hp : p ∈ w.list)
    (hpin : (w.mem p).pinned = true) : p ∈ w'.list ∧ (w'.mem p).blockNo = (w.mem p).blockNo := by
  obtain ⟨t, b, rfl, -⟩ | ⟨-, hsame⟩ := next_cases hn
  case inr => exact ⟨hsame.list ▸ hp, hsame.blockNo p⟩
  case inl =>
    have hmem {q : Ptr} (h : Fronts w b q w') : p ∈ w'.list := by
      rw [h.list, List.mem_cons]
      by_cases hpq : p = q
      · exact .inl hpq
      · exact .inr ((List.mem_erase_of_ne hpq).mpr hp)
    obtain ⟨q, hq, hb, h⟩ | ⟨hmiss, ⟨-, q, hlast, h⟩ | ⟨-, h⟩⟩ := acquire_cases hn
    · refine ⟨hmem h, ?_⟩
      by_cases hpq : p = q
      · rw [hpq, h.blockNo, hb]
      · exact h.others p hpq
    · have hfree := (BCache.evictable_iff.mp (hi.ordered.oldest hlast).2.1).2
      refine ⟨hmem h, h.others p ?_⟩
      rintro rfl
      rw [hpin] at hfree
      cases hfree
    · refine ⟨hmem h, h.others p ?_⟩
      rintro rfl
      exact not_mem_length hi hp

/-- A step keeps the number of cached blocks, or adds one to less than `EVICTION_THRESHOLD` blocks, or
adds one to blocks that are all in use. -/
theorem Inv.growth (hi : Inv w) (hn : w.next a = some w') :
    w'.list.length = w.list.length ∨ w'.list.length ≤ evictionThreshold ∨ Forced w w' := by
  obtain ⟨t, b, rfl, -⟩ | ⟨-, hsame⟩ := next_cases hn
  case inr => exact .inl (congrArg _ hsame.list)
  case inl =>
    have hlen {q : Ptr} (h : Fronts w b q w') (hq : q ∈ w.list) : w'.list.length = w.list.length := by
      rw [h.list, List.length_cons, List.length_erase_of_mem hq,
        Nat.sub_add_cancel (List.length_pos_of_mem hq)]
    obtain ⟨q, hq, -, h⟩ | ⟨-, ⟨-, q, hlast, h⟩ | ⟨hroom, h⟩⟩ := acquire_cases hn
    · exact .inl (hlen h hq)
    · exact .inl (hlen h (hi.ordered.oldest hlast).1)
    · have hgrown : w'.list.length = w.list.length + 1 := by
        rw [h.list, List.erase_of_not_mem (not_mem_length hi), List.length_cons]
      rcases hroom with hsmall | hnil
      · exact .inr (.inl (hgrown ▸ hsmall))
      · refine .inr (.inr ⟨hgrown, fun p hp => ?_⟩)
        by_contra hfree
        simp only [not_or, Bool.not_eq_true] at hfree
        have hmem : p ∈ w.list.filter (BCache.evictable w.mem) :=
          List.mem_filter.mpr ⟨hp, BCache.evictable_iff.mpr hfree⟩
        rw [hnil] at hmem
        cases hmem

/-- A cache of more than `EVICTION_THRESHOLD` blocks has grown to its size when all its blocks were
acquired or pinned. -/
theorem small_of_reachable (h : machine.Reachable w) (hlarge : evictionThreshold < w.list.length) :
    ∃ w₀ a w₁ l, machine.Reachable w₀ ∧ w₀.next a = some w₁ ∧ Forced w₀ w₁ ∧
      machine.run w₁ l = some w ∧ w₁.list.length = w.list.length := by
  induction h with
  | init hw =>
    rw [hw.1] at hlarge
    cases hlarge
  | @step w w' a hr _ hn ih =>
    obtain hsame | hsmall | hforced := (inv_of_reachable hr).growth hn
    · obtain ⟨w₀, a₀, w₁, l, hr₀, hn₀, hforced, hrun, hlen⟩ := ih (hsame ▸ hlarge)
      exact ⟨w₀, a₀, w₁, l ++ [a], hr₀, hn₀, hforced, Machine.run_concat hrun hn,
        hlen.trans hsame.symm⟩
    · exact absurd hlarge (Nat.not_lt.mpr hsmall)
    · exact ⟨w, a, w', [], hr, hn, hforced, rfl, rfl⟩

/-- In every run the cached blocks have distinct numbers and are in the order of their last calls, the
block evicted is the one with the oldest call among those that are neither acquired nor pinned, and the
cache grows past `EVICTION_THRESHOLD` only when there is no such block. -/
theorem cache_keeps_small (w : World) (h : machine.Reachable w) : KeepsSmall w := by
  have hi := inv_of_reachable h
  constructor
  case distinct => exact hi.distinct
  case ordered => exact hi.ordered
  case acquires => exact fun t b w' hn => hi.acquires hn
  case others =>
    intro a w' hn hno
    obtain ⟨t, b, rfl, -⟩ | ⟨-, hsame⟩ := next_cases hn
    · exact absurd rfl (hno t b)
    · exact ⟨hsame.list, hsame.blockNo⟩
  case pinned => exact fun a w' hn p hp hpin => hi.pinned hn hp hpin
  case small => exact small_of_reachable h

/-- The empty cache. -/
def start : World := ⟨Held.start, 0, fun _ => 0⟩

theorem start_init : start.Init := ⟨rfl, Held.start_init, rfl, fun _ => rfl⟩

/-- One thread goes through 20 blocks, and then comes back to the first one. -/
def sweep : List Label :=
  ((List.range 20).flatMap fun i => [.held (.acquire 0 i), .held (.lock 0), .held (.load 0),
    .held (.unlock 0 i i), .held (.clear 0)]) ++
  [.held (.acquire 0 0), .held (.lock 0), .held (.load 0), .pin 0 0 0]

set_option maxRecDepth 10000 in
/-- After the sweep the cache is at the threshold, with block 0 at the front and block 1 at the end. -/
theorem cache_keeps_small_sweep : ∃ w, machine.run start sweep = some w ∧
    w.list = 0 :: ((List.range 19).map (19 - ·)) ∧ KeepsSmall w := by
  have hrun : ((machine.run start sweep).map fun w => w.list) =
      some (0 :: ((List.range 19).map (19 - ·))) := by decide +kernel
  obtain ⟨w, hw, hlist⟩ := Option.map_eq_some_iff.mp hrun
  exact ⟨w, hw, hlist, cache_keeps_small w (Machine.Reachable.run (.init start_init) hw)⟩

end Lru

end FtosFfs.Cache
