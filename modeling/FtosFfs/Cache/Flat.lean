import FtosFfs.Cache.Checkpoint

/-! One thread that uses the block cache sees a flat array of blocks.  The calls of
`fs/cache.c` run to completion here, with `cache_end_op` going through the whole checkpoint.  The
flat array is the abstract side: it keeps the last contents of each block and the rules that the
thread follows. -/

namespace FtosFfs.Cache

open Lib

/-! ### The calls of one thread -/

/-- `replay`, from the header in memory to the header that it leaves. -/
def replay (sb : SuperBlock) (h : LogHeader) (c : BCache) : Option (LogHeader × BCache) :=
  if h.numBlocks = 0 then some (h, c)
  else do
    let c ← (List.range h.numBlocks).foldlM (replayBlock sb h) c
    some (clearHeader h, writeHeader sb (clearHeader h) c)

/-- Steps 1 to 4 of `checkpoint`. -/
def checkpoint (sb : SuperBlock) (h : LogHeader) (c : BCache) : Option (LogHeader × BCache) := do
  let c ← (List.range h.numBlocks).foldlM (checkpointBlock sb h) c
  replay sb h (writeHeader sb h c)

namespace Flat

/-- The cache, the log, the contexts of the operations that the thread has begun, and its pointers
to the blocks that it holds. -/
structure Thread where
  cache : BCache
  log : Log
  ctx : Nat → Option OpContext
  held : Nat → Option Ptr

inductive Call
  | begin (i : Nat)
  | acquire (b : UInt64)
  /-- A store of `d` to the data of block `b`. -/
  | modify (b : UInt64) (d : BlockData)
  /-- `cache_sync`, with the context of operation `i` or with `NULL`. -/
  | sync (i : Option Nat) (b : UInt64)
  | release (b : UInt64)
  | endOp (i : Nat)

namespace Thread

/-- `cache_begin_op`.  When there is too little log space the thread sleeps for ever. -/
def cacheBeginOp (t : Thread) (i : Nat) : Option Thread :=
  if t.log.logUsed + opMaxNumBlocks > t.log.logSize then none
  else
    let ts := t.log.lastAllocatedTs + 1
    some { t with
      log := { t.log with
        logUsed := t.log.logUsed + opMaxNumBlocks
        lastAllocatedTs := ts
        opCount := t.log.opCount + 1 }
      ctx := Function.update t.ctx i (some ⟨ts, []⟩) }

/-- `cache_sync` of block `p`. -/
def cacheSync (t : Thread) (p : Ptr) : Option Nat → Option Thread
  | some i => do
    let ctx ← t.ctx i
    let ctx ← ctx.record (t.cache.mem p).blockNo
    some { t with
      cache := t.cache.setPinned p true
      ctx := Function.update t.ctx i (some ctx) }
  | none => some { t with cache := t.cache.deviceWrite p }

/-- `cache_end_op`.  When another operation is running the thread sleeps for ever. -/
def cacheEndOp (sb : SuperBlock) (t : Thread) (i : Nat) : Option Thread := do
  let ctx ← t.ctx i
  let log ← t.log.commit ctx
  let log := { log with opCount := log.opCount - 1 }
  let t := { t with ctx := Function.update t.ctx i none }
  if log.opCount = 0 then
    let (header, cache) ← checkpoint sb log.header t.cache
    some { t with
      cache
      log := { log with header, lastPersistedTs := log.lastAllocatedTs, logUsed := 0 } }
  else if ctx.ts > log.lastPersistedTs then none
  else some { t with log }

/-- A call, with the data that `cache_acquire` returns. -/
def next (sb : SuperBlock) (t : Thread) : Call → Option (Thread × Option BlockData)
  | .begin i => (t.cacheBeginOp i).map (·, none)
  | .acquire b => do
    let (cache, p) ← t.cache.cacheAcquire b.toNat
    some ({ t with cache, held := Function.update t.held b.toNat (some p) },
      some (cache.mem p).data)
  | .modify b d => do
    let p ← t.held b.toNat
    some ({ t with cache := t.cache.setData p d }, none)
  | .sync i b => do
    let p ← t.held b.toNat
    (t.cacheSync p i).map (·, none)
  | .release b => do
    let p ← t.held b.toNat
    some ({ t with
      cache := t.cache.cacheRelease p
      held := Function.update t.held b.toNat none }, none)
  | .endOp i => (t.cacheEndOp sb i).map (·, none)

/-- The calls of a list, with all data returned. -/
def run (sb : SuperBlock) : Thread → List Call → Option (Thread × List BlockData)
  | t, [] => some (t, [])
  | t, c :: cs => do
    let (t, out) ← t.next sb c
    let (t, outs) ← run sb t cs
    some (t, out.toList ++ outs)

/-- The thread after `init_bcache` on disk `d` with an empty log. -/
def start (sb : SuperBlock) (d : Disk) : Thread where
  cache := .empty d
  log := Log.initLog sb (readHeader sb d)
  ctx _ := none
  held _ := none

end Thread

/-! ### The flat array -/

/-- The last contents of each block; the blocks that the thread holds, those of them that it
modified and has not synced; and the blocks that each operation has synced. -/
structure Array where
  disk : Disk
  held : List Nat
  dirty : List Nat
  ops : Nat → Option (List Nat)
  count : Nat

namespace Array

/-- A call that follows the rules: only blocks outside the log, no block acquired twice, synced
before it is released, or held at the end of an operation, and at most `OP_MAX_NUM_BLOCKS` blocks
synced by an operation. -/
def next (sb : SuperBlock) (s : Array) : Call → Option (Array × Option BlockData)
  | .begin i =>
    if s.ops i = none then
      some ({ s with ops := Function.update s.ops i (some []), count := s.count + 1 }, none)
    else none
  | .acquire b =>
    if ¬InLog sb b.toNat ∧ b.toNat ∉ s.held then
      some ({ s with held := b.toNat :: s.held }, some (s.disk b.toNat))
    else none
  | .modify b d =>
    if b.toNat ∈ s.held then
      some ({ s with
        disk := Function.update s.disk b.toNat d
        dirty := b.toNat :: s.dirty }, none)
    else none
  | .sync (some i) b =>
    match s.ops i with
    | some bs =>
      if b.toNat ∈ s.held ∧ (b.toNat ∈ bs ∨ bs.length < opMaxNumBlocks) then
        some ({ s with
          dirty := s.dirty.filter (· ≠ b.toNat)
          ops := Function.update s.ops i
            (some (if b.toNat ∈ bs then bs else bs ++ [b.toNat])) }, none)
      else none
    | none => none
  | .sync none b =>
    if b.toNat ∈ s.held then some ({ s with dirty := s.dirty.filter (· ≠ b.toNat) }, none)
    else none
  | .release b =>
    if b.toNat ∈ s.held ∧ b.toNat ∉ s.dirty then
      some ({ s with held := s.held.filter (· ≠ b.toNat) }, none)
    else none
  | .endOp i =>
    if s.held = [] ∧ s.ops i ≠ none then
      some ({ s with ops := Function.update s.ops i none, count := s.count - 1 }, none)
    else none

def run (sb : SuperBlock) : Array → List Call → Option (Array × List BlockData)
  | s, [] => some (s, [])
  | s, c :: cs => do
    let (s, out) ← s.next sb c
    let (s, outs) ← run sb s cs
    some (s, out.toList ++ outs)

/-- The call does not sleep for ever: an operation that begins finds log space, and an operation
that ends is the only one. -/
def Returns (sb : SuperBlock) (s : Array) : Call → Prop
  | .begin _ => opMaxNumBlocks * (s.count + 1) ≤ Log.initLogSize sb
  | .endOp _ => s.count = 1
  | _ => True

instance (sb : SuperBlock) (s : Array) : DecidablePred (s.Returns sb)
  | .begin _ => inferInstanceAs (Decidable (_ ≤ _))
  | .endOp _ => inferInstanceAs (Decidable (_ = _))
  | .acquire _ | .modify _ _ | .sync _ _ | .release _ => inferInstanceAs (Decidable True)

/-- No call of the list sleeps for ever. -/
def allReturn (sb : SuperBlock) : Array → List Call → Bool
  | _, [] => true
  | s, c :: cs =>
    s.Returns sb c && (s.next sb c).all fun r => allReturn sb r.1 cs

def start (d : Disk) : Array := ⟨d, [], [], fun _ => none, 0⟩

end Array

/-! ### The checkpoint of one thread -/

section Checkpoint

variable {sb : SuperBlock} {c : BCache} {h : LogHeader} {Y : Disk}

theorem foldlM_checkpointBlock (hl : Logged sb c h Y 0)
    (hview : ∀ b, ¬InLog sb b → c.view b = Y b) (k : Nat) (hk : k ≤ h.numBlocks) :
    ∃ c', (List.range k).foldlM (checkpointBlock sb h) c = some c' ∧ Logged sb c' h Y k ∧
      ∀ b, ¬InLog sb b → c'.view b = Y b := by
  induction k with
  | zero => exact ⟨c, rfl, hl, hview⟩
  | succ k ih =>
    obtain ⟨c₁, he₁, hl₁, hv₁⟩ := ih (by omega)
    obtain ⟨c₂, he₂, hl₂, hv₂, -⟩ := hl₁.checkpointBlock hk (hv₁ _ (hl.header.home k hk))
    refine ⟨c₂, ?_, hl₂, fun b hb => ?_⟩
    · rw [List.range_succ, List.foldlM_append, he₁]
      simpa using he₂
    · rw [hv₂, Function.update_of_ne]
      · exact hv₁ b hb
      · rintro rfl
        exact hb (inLog_block (Nat.lt_of_lt_of_le hk hl.header.le))

theorem foldlM_replayBlock (hl : Logged sb c h Y h.numBlocks)
    (hview : ∀ b, ¬InLog sb b → c.view b = Y b) (k : Nat) (hk : k ≤ h.numBlocks) :
    ∃ c', (List.range k).foldlM (replayBlock sb h) c = some c' ∧ Logged sb c' h Y h.numBlocks ∧
      ∀ b, ¬InLog sb b → c'.view b = Y b := by
  induction k with
  | zero => exact ⟨c, rfl, hl, hview⟩
  | succ k ih =>
    obtain ⟨c₁, he₁, hl₁, hv₁⟩ := ih (by omega)
    obtain ⟨c₂, he₂, hl₂, hv₂, -⟩ := hl₁.replayBlock hk
    refine ⟨c₂, ?_, hl₂, fun b hb => ?_⟩
    · rw [List.range_succ, List.foldlM_append, he₁]
      simpa using he₂
    · rw [hv₂]
      by_cases hbk : b = h.blockNo k
      · rw [hbk, Function.update_self]
      · rw [Function.update_of_ne hbk]
        exact hv₁ b hb

/-- A checkpoint empties the header and leaves the contents of all blocks outside the log. -/
theorem checkpoint_spec (hok : c.Ok) (hq : c.Quiet) (hun : ¬c.Cached sb.logStart)
    (hh : HeaderOk sb h) :
    ∃ h' c', checkpoint sb h c = some (h', c') ∧ h'.numBlocks = 0 ∧ c'.Ok ∧ c'.Quiet ∧
      ¬c'.Cached sb.logStart ∧ ∀ b, ¬InLog sb b → c'.view b = c.view b := by
  have hne {b : Nat} (hb : ¬InLog sb b) : b ≠ sb.logStart := by
    rintro rfl
    exact hb (inLog_header sb)
  have hl₀ : Logged sb c h c.view 0 :=
    ⟨hok, hq, hun, hh, fun j hj => absurd hj (Nat.not_lt_zero j)⟩
  obtain ⟨c₁, he₁, hl₁, hv₁⟩ := foldlM_checkpointBlock hl₀ (fun _ _ => rfl) _ (Nat.le_refl _)
  have hl₂ := hl₁.writeHeader h
  have hv₂ (b : Nat) (hb : ¬InLog sb b) : (writeHeader sb h c₁).view b = c.view b := by
    rw [writeHeader_view hl₁.ok hl₁.uncached h (hne hb), hv₁ b hb]
  rw [checkpoint, he₁]
  simp only [Option.bind_eq_bind, Option.bind_some, replay]
  split
  case isTrue hzero =>
    exact ⟨h, _, rfl, hzero, hl₂.ok, hl₂.quiet, hl₂.uncached, hv₂⟩
  case isFalse =>
    obtain ⟨c₃, he₃, hl₃, hv₃⟩ := foldlM_replayBlock hl₂ hv₂ _ (Nat.le_refl _)
    have hl₄ := hl₃.writeHeader (clearHeader h)
    refine ⟨clearHeader h, writeHeader sb (clearHeader h) c₃, by simp [he₃], rfl, hl₄.ok, hl₄.quiet,
      hl₄.uncached, fun b hb => ?_⟩
    rw [writeHeader_view hl₃.ok hl₃.uncached _ (hne hb), hv₃ b hb]

end Checkpoint

/-! ### The refinement -/

/-- The thread's cache shows the flat array: the blocks seen through the cache are the array, the
blocks held are clean or pinned unless they are dirty, and the log has space for the operations
that are running. -/
structure Shows (sb : SuperBlock) (t : Thread) (s : Array) : Prop where
  ok : t.cache.Ok
  uncached : ¬t.cache.Cached sb.logStart
  view : ∀ b, ¬InLog sb b → t.cache.view b = s.disk b
  held : ∀ b p, t.held b = some p ↔ t.cache.Holds b p
  mem_held : ∀ b, b ∈ s.held ↔ ∃ p, t.held b = some p
  home : ∀ b ∈ s.held, ¬InLog sb b
  clean : ∀ b p, t.held b = some p → b ∉ s.dirty →
    (t.cache.mem p).pinned = true ∨ (t.cache.mem p).data = t.cache.device b
  ops : ∀ i, (t.ctx i).map OpContext.blockNo = s.ops i
  length : ∀ i ctx, t.ctx i = some ctx → ctx.blockNo.length ≤ opMaxNumBlocks
  blocks : ∀ i ctx, t.ctx i = some ctx → ∀ b ∈ ctx.blockNo, ¬InLog sb b ∧ b < 2 ^ 64
  later : ∀ i ctx, t.ctx i = some ctx → t.log.lastPersistedTs < ctx.ts
  order : t.log.lastPersistedTs ≤ t.log.lastAllocatedTs
  counted : ∃ S : Finset Nat, (∀ i, i ∈ S ↔ t.ctx i ≠ none) ∧ S.card = s.count
  count : t.log.opCount = s.count
  empty : t.log.header.numBlocks = 0
  size : t.log.logSize = Log.initLogSize sb
  used : t.log.logUsed = opMaxNumBlocks * s.count
  bound : opMaxNumBlocks * s.count ≤ Log.initLogSize sb

section Calls

variable {sb : SuperBlock} {t : Thread} {s : Array}

theorem Shows.holds (h : Shows sb t s) {b : Nat} (hb : b ∈ s.held) :
    ∃ p, t.held b = some p ∧ t.cache.Holds b p ∧ ¬InLog sb b := by
  obtain ⟨p, hp⟩ := (h.mem_held b).mp hb
  exact ⟨p, hp, (h.held b p).mp hp, h.home b hb⟩

theorem Shows.begin (h : Shows sb t s) {i : Nat} (hi : s.ops i = none) :
    (∃ t', t.cacheBeginOp i = some t' ∧
      Shows sb t' { s with ops := Function.update s.ops i (some []), count := s.count + 1 }) ∨
    t.cacheBeginOp i = none ∧ ¬opMaxNumBlocks * (s.count + 1) ≤ Log.initLogSize sb := by
  have hused := h.used
  have hsize := h.size
  have horder := h.order
  have hctx : t.ctx i = none := by
    have hops := h.ops i
    rw [hi] at hops
    exact Option.map_eq_none_iff.mp hops
  rw [Thread.cacheBeginOp]
  split
  case isTrue hfull =>
    refine .inr ⟨rfl, ?_⟩
    rw [Nat.mul_succ]
    omega
  case isFalse hroom =>
    refine .inl ⟨_, rfl, h.ok, h.uncached, h.view, h.held, h.mem_held, h.home, h.clean,
      fun j => ?_, fun j ctx hj => ?_, fun j ctx hj => ?_, fun j ctx hj => ?_, ?_, ?_,
      congrArg (· + 1) h.count, h.empty, hsize, ?_, ?_⟩
    · by_cases hji : j = i
      · simp [hji]
      · simp only [Function.update_of_ne hji]
        exact h.ops j
    · by_cases hji : j = i
      · simp only [hji, Function.update_self, Option.some.injEq] at hj
        simp [← hj]
      · simp only [Function.update_of_ne hji] at hj
        exact h.length j ctx hj
    · by_cases hji : j = i
      · simp only [hji, Function.update_self, Option.some.injEq] at hj
        simp [← hj]
      · simp only [Function.update_of_ne hji] at hj
        exact h.blocks j ctx hj
    · by_cases hji : j = i
      · simp only [hji, Function.update_self, Option.some.injEq] at hj
        rw [← hj]
        exact Nat.lt_succ_of_le horder
      · simp only [Function.update_of_ne hji] at hj
        exact h.later j ctx hj
    · exact Nat.le_succ_of_le horder
    · obtain ⟨S, hS, hcard⟩ := h.counted
      have hiS : i ∉ S := by simp [hS, hctx]
      refine ⟨insert i S, fun j => ?_, by rw [Finset.card_insert_of_notMem hiS, hcard]⟩
      by_cases hji : j = i
      · simp [hji]
      · simp only [Finset.mem_insert, hji, false_or, hS, Function.update_of_ne hji]
    · simp only [hused, Nat.mul_succ]
    · simp only [Nat.mul_succ]
      omega

theorem Shows.acquire (h : Shows sb t s) {b : Nat} (hb : ¬InLog sb b) (hheld : b ∉ s.held) :
    ∃ cache p, t.cache.cacheAcquire b = some (cache, p) ∧ (cache.mem p).data = s.disk b ∧
      Shows sb { t with cache, held := Function.update t.held b (some p) }
        { s with held := b :: s.held } := by
  have hfree (p : Ptr) : ¬t.cache.Holds b p := fun hp =>
    hheld ((h.mem_held b).mpr ⟨p, (h.held b p).mpr hp⟩)
  obtain ⟨cache, p, he, ha⟩ := BCache.cacheAcquire_returns h.ok hfree
  refine ⟨cache, p, he, by rw [ha.data, h.view b hb], ha.ok, fun hcached => ?_, fun x hx => ?_,
    fun x q => ?_, fun x => ?_, fun x hx => ?_, fun x q hxq hdirty => ?_, h.ops, h.length, h.blocks,
    h.later, h.order, h.counted, h.count, h.empty, h.size, h.used, h.bound⟩
  · rcases ha.cached _ hcached with he | hold
    · exact hb (he ▸ inLog_header sb)
    · exact h.uncached hold
  · rw [ha.view]
    exact h.view x hx
  · simp only
    by_cases hxb : x = b
    · subst hxb
      rw [Function.update_self, Option.some.injEq]
      constructor
      · rintro rfl
        exact ha.holds
      · intro hq
        rcases ha.back x q hq with ⟨-, hqp⟩ | hold
        · exact hqp.symm
        · exact absurd hold (hfree q)
    · rw [Function.update_of_ne hxb, h.held]
      constructor
      · exact fun hq => (ha.kept x q hq).2.1
      · intro hq
        rcases ha.back x q hq with ⟨hx, -⟩ | hold
        · exact absurd hx hxb
        · exact hold
  · by_cases hxb : x = b
    · simp [hxb]
    · simp [hxb, h.mem_held]
  · rcases List.mem_cons.mp hx with rfl | hx
    · exact hb
    · exact h.home x hx
  · simp only at hxq ⊢
    by_cases hxb : x = b
    · subst hxb
      rw [Function.update_self, Option.some.injEq] at hxq
      subst hxq
      rw [ha.device]
      exact ha.clean
    · rw [Function.update_of_ne hxb] at hxq
      rw [(ha.kept x q ((h.held x q).mp hxq)).2.2, ha.device]
      exact h.clean x q hxq hdirty

/-- A change of a held block, which keeps the other blocks. -/
theorem Shows.change (h : Shows sb t s) {b : Nat} {p : Ptr} (hp : t.cache.Holds b p)
    (hb : ¬InLog sb b) {cache : BCache} {disk : Disk} {dirty : List Nat} (hok : cache.Ok)
    (hcached : ∀ x, cache.Cached x → t.cache.Cached x)
    (hview : ∀ x, ¬InLog sb x → cache.view x = disk x)
    (hholds : ∀ x q, cache.Holds x q ↔ t.cache.Holds x q)
    (hclean : b ∉ dirty → (cache.mem p).pinned = true ∨ (cache.mem p).data = cache.device b)
    (hmem : ∀ q ≠ p, cache.mem q = t.cache.mem q)
    (hdevice : ∀ x ≠ b, cache.device x = t.cache.device x)
    (hdirty : ∀ x ≠ b, x ∉ dirty → x ∉ s.dirty) :
    Shows sb { t with cache } { s with disk, dirty } where
  ok := hok
  uncached hc := h.uncached (hcached _ hc)
  view := hview
  held x q := by rw [hholds]; exact h.held x q
  mem_held := h.mem_held
  home := h.home
  clean x q hxq hx := by
    have hq := (h.held x q).mp hxq
    by_cases hxb : x = b
    · subst hxb
      have hqp : q = p := h.ok.inj q hq.1 p hp.1 (hq.2.1.trans hp.2.1.symm)
      rw [hqp]
      exact hclean hx
    · have hqp : q ≠ p := by
        rintro rfl
        exact hxb (hq.2.1.symm.trans hp.2.1)
      rw [hmem q hqp, hdevice x hxb]
      exact h.clean x q hxq (hdirty x hxb hx)
  ops := h.ops
  length := h.length
  blocks := h.blocks
  later := h.later
  order := h.order
  counted := h.counted
  count := h.count
  empty := h.empty
  size := h.size
  used := h.used
  bound := h.bound

theorem Shows.modify (h : Shows sb t s) {b : Nat} {p : Ptr} (hp : t.cache.Holds b p)
    (hb : ¬InLog sb b) (d : BlockData) :
    Shows sb { t with cache := t.cache.setData p d }
      { s with disk := Function.update s.disk b d, dirty := b :: s.dirty } := by
  refine h.change hp hb (hp.setData_ok h.ok d) (fun x => (BCache.setData_cached d x).mp)
    (fun x hx => ?_) (BCache.setData_holds d) (fun hbd => absurd (by simp) hbd)
    (fun q hq => BCache.set_mem_ne _ _ hq) (fun _ _ => rfl) fun x _ hx => ?_
  · rw [hp.setData_view h.ok]
    by_cases hxb : x = b
    · rw [hxb, Function.update_self, Function.update_self]
    · rw [Function.update_of_ne hxb, Function.update_of_ne hxb]
      exact h.view x hx
  · exact fun hxd => hx (List.mem_cons_of_mem b hxd)

theorem not_mem_filter {l : List Nat} {b x : Nat} (hxb : x ≠ b) (hx : x ∉ l.filter (· ≠ b)) :
    x ∉ l := fun hxl => hx (List.mem_filter.mpr ⟨hxl, by simpa using hxb⟩)

theorem Shows.syncNull (h : Shows sb t s) {b : Nat} {p : Ptr} (hp : t.cache.Holds b p)
    (hb : ¬InLog sb b) :
    Shows sb { t with cache := t.cache.deviceWrite p }
      { s with dirty := s.dirty.filter (· ≠ b) } := by
  refine h.change hp hb (hp.deviceWrite_ok h.ok) (fun x hx => hx) (fun x hx => ?_)
    (fun x q => Iff.rfl) (fun _ => .inr ?_) (fun q _ => rfl) (fun x hxb => ?_)
    fun x hxb => not_mem_filter hxb
  · rw [hp.deviceWrite_view h.ok]
    exact h.view x hx
  · rw [hp.deviceWrite_device, Function.update_self]
    rfl
  · rw [hp.deviceWrite_device, Function.update_of_ne hxb]

theorem Shows.pin (h : Shows sb t s) {b : Nat} {p : Ptr} (hp : t.cache.Holds b p)
    (hb : ¬InLog sb b) :
    Shows sb { t with cache := t.cache.setPinned p true }
      { s with dirty := s.dirty.filter (· ≠ b) } := by
  refine h.change hp hb (hp.setPinned_ok h.ok true) (fun x => (BCache.setPinned_cached true x).mp)
    (fun x hx => ?_) (BCache.setPinned_holds true)
    (fun _ => .inl (by simp [BCache.setPinned, BCache.set]))
    (fun q hq => BCache.set_mem_ne _ _ hq) (fun _ _ => rfl) fun x hxb => not_mem_filter hxb
  rw [hp.setPinned_view h.ok]
  exact h.view x hx

theorem Shows.record (h : Shows sb t s) {i b : Nat} {ctx ctx' : OpContext}
    (hi : t.ctx i = some ctx) (hrec : ctx.record b = some ctx') (hb : ¬InLog sb b)
    (hlt : b < 2 ^ 64) :
    Shows sb { t with ctx := Function.update t.ctx i (some ctx') }
      { s with ops := Function.update s.ops i (some ctx'.blockNo) } := by
  have hlen := h.length i ctx hi
  have hself {j : Nat} {c : OpContext} (hj : Function.update t.ctx i (some ctx') j = some c) :
      j = i ∧ ctx' = c ∨ j ≠ i ∧ t.ctx j = some c := by
    by_cases hji : j = i
    · rw [hji, Function.update_self, Option.some.injEq] at hj
      exact .inl ⟨hji, hj⟩
    · rw [Function.update_of_ne hji] at hj
      exact .inr ⟨hji, hj⟩
  refine ⟨h.ok, h.uncached, h.view, h.held, h.mem_held, h.home, h.clean, fun j => ?_,
    fun j c hj => ?_, fun j c hj => ?_, fun j c hj => ?_, h.order, ?_, h.count, h.empty, h.size,
    h.used, h.bound⟩
  · by_cases hji : j = i
    · simp [hji]
    · simp only [Function.update_of_ne hji]
      exact h.ops j
  · rcases hself hj with ⟨-, rfl⟩ | ⟨-, hj⟩
    · exact OpContext.length_record hrec hlen
    · exact h.length j c hj
  · rcases hself hj with ⟨-, rfl⟩ | ⟨-, hj⟩
    · intro x hx
      rcases (OpContext.mem_record hrec hlen x).mp hx with rfl | hx
      · exact ⟨hb, hlt⟩
      · exact h.blocks i ctx hi x hx
    · exact h.blocks j c hj
  · rcases hself hj with ⟨-, rfl⟩ | ⟨-, hj⟩
    · rw [OpContext.ts_record hrec]
      exact h.later i ctx hi
    · exact h.later j c hj
  · obtain ⟨S, hS, hcard⟩ := h.counted
    refine ⟨S, fun j => ?_, hcard⟩
    by_cases hji : j = i
    · simp [hji, hS, hi]
    · simp only [hS, Function.update_of_ne hji]

theorem Shows.release (h : Shows sb t s) {b : Nat} {p : Ptr} (hp : t.cache.Holds b p)
    (hdirty : b ∉ s.dirty) :
    Shows sb { t with cache := t.cache.cacheRelease p, held := Function.update t.held b none }
      { s with held := s.held.filter (· ≠ b) } := by
  have hclean := h.clean b p ((h.held b p).mpr hp) hdirty
  have hptr {x : Nat} {q : Ptr} (hq : t.cache.Holds x q) (hxb : x ≠ b) : q ≠ p := by
    rintro rfl
    exact hxb (hq.2.1.symm.trans hp.2.1)
  refine ⟨hp.cacheRelease_ok h.ok hclean, fun hc => h.uncached ((BCache.cacheRelease_cached _).mp hc),
    fun x hx => ?_, fun x q => ?_, fun x => ?_, fun x hx => ?_, fun x q hxq hx => ?_, h.ops,
    h.length, h.blocks, h.later, h.order, h.counted, h.count, h.empty, h.size, h.used, h.bound⟩
  · rw [hp.cacheRelease_view h.ok]
    exact h.view x hx
  · rw [BCache.cacheRelease_holds]
    by_cases hxb : x = b
    · subst hxb
      simp only [Function.update_self, reduceCtorEq, false_iff, not_and, not_not]
      intro hq
      exact h.ok.inj q hq.1 p hp.1 (hq.2.1.trans hp.2.1.symm)
    · simp only [Function.update_of_ne hxb, h.held]
      exact ⟨fun hq => ⟨hq, hptr hq hxb⟩, fun hq => hq.1⟩
  · by_cases hxb : x = b
    · simp [hxb]
    · simp [hxb, h.mem_held]
  · exact h.home x (List.mem_of_mem_filter hx)
  · by_cases hxb : x = b
    · simp [hxb] at hxq
    · simp only [Function.update_of_ne hxb] at hxq
      have hqp := hptr ((h.held x q).mp hxq) hxb
      rw [BCache.cacheRelease_eq, BCache.set_mem_ne _ _ hqp]
      exact h.clean x q hxq hx

/-- The operation that ends is the only one, and its checkpoint returns; or the thread sleeps. -/
theorem Shows.endOp (h : Shows sb t s) {i : Nat} {ctx : OpContext} (hheld : s.held = [])
    (hi : t.ctx i = some ctx) :
    (∃ t', t.cacheEndOp sb i = some t' ∧
      Shows sb t' { s with ops := Function.update s.ops i none, count := s.count - 1 }) ∨
    t.cacheEndOp sb i = none ∧ s.count ≠ 1 := by
  have hlen := h.length i ctx hi
  have hbound := h.bound
  have hempty := h.empty
  have hsize := h.size
  have hcount := h.count
  obtain ⟨S, hS, hcard⟩ := h.counted
  have hiS : i ∈ S := (hS i).mpr (by simp [hi])
  have hpos : 0 < s.count := by
    rw [← hcard]
    exact Finset.card_pos.mpr ⟨i, hiS⟩
  have hten : opMaxNumBlocks * 1 ≤ opMaxNumBlocks * s.count := Nat.mul_le_mul_left _ hpos
  have hentries : t.log.header.entries = [] := by simp [LogHeader.entries, hempty]
  have hnodup : t.log.header.entries.Nodup := by simp [hentries]
  obtain ⟨header, absorbed, -, hc, hcommit⟩ :=
    Log.commit_spec ctx hnodup (by omega)
  rw [Thread.cacheEndOp, hi]
  simp only [Option.bind_eq_bind, Option.bind_some, hcommit]
  by_cases hone : s.count = 1
  · left
    have hnum := hc.count
    have hmem := hc.mem
    rw [hentries] at hmem
    have hhead : HeaderOk sb header := by
      refine ⟨by omega, fun j hj => ?_, fun j hj => ?_⟩
      all_goals
        have hblock := (hmem _).mp (LogHeader.mem_entries.mpr ⟨j, hj, rfl⟩)
        have hhome := h.blocks i ctx hi _ (hblock.resolve_left (by simp))
      · exact hhome.1
      · exact hhome.2
    have hfree (b : Nat) (p : Ptr) : ¬t.cache.Holds b p := by
      intro hp
      have := (h.mem_held b).mpr ⟨p, (h.held b p).mpr hp⟩
      simp [hheld] at this
    have hnone (b : Nat) : t.held b = none := by
      by_contra hb
      obtain ⟨p, hp⟩ := Option.ne_none_iff_exists'.mp hb
      exact hfree b p ((h.held b p).mp hp)
    obtain ⟨header', cache, he, hzero, hok, hq, hun, hview⟩ :=
      checkpoint_spec h.ok (BCache.quiet_of_not_holds hfree) h.uncached hhead
    have honly (j : Nat) : Function.update t.ctx i none j = none := by
      by_cases hji : j = i
      · simp [hji]
      · rw [Function.update_of_ne hji]
        by_contra hj
        have hjS : j ∈ S := (hS j).mpr hj
        have hlt : 1 < S.card := Finset.one_lt_card.mpr ⟨i, hiS, j, hjS, fun he => hji he.symm⟩
        omega
    rw [if_pos (by omega), he]
    refine ⟨_, rfl, hok, hun, fun b hb => ?_, fun b p => ?_, fun b => ?_, fun b hb => ?_,
      fun b p hp => ?_, fun j => ?_, fun j c hj => ?_, fun j c hj => ?_, fun j c hj => ?_,
      Nat.le_refl _, ?_, ?_, hzero, hsize, ?_, ?_⟩
    · rw [hview b hb]
      exact h.view b hb
    · simp only [hnone, reduceCtorEq, false_iff]
      exact hq.not_holds b p
    · simp [hheld, hnone]
    · simp [hheld] at hb
    · simp [hnone] at hp
    · simp only [honly, Option.map_none]
      by_cases hji : j = i
      · simp [hji]
      · rw [Function.update_of_ne hji, ← h.ops j, ← Function.update_of_ne hji none t.ctx, honly j]
        rfl
    · simp [honly] at hj
    · simp [honly] at hj
    · simp [honly] at hj
    · exact ⟨∅, fun j => by simp [honly], by simp [hone]⟩
    · simp only
      omega
    · simp [hone]
    · simp [hone]
  · refine .inr ⟨?_, hone⟩
    rw [if_neg (by omega), if_pos (h.later i ctx hi)]

/-- A call that follows the rules returns what the flat array returns, and keeps the two in
agreement, unless the thread sleeps for ever. -/
theorem Shows.next (h : Shows sb t s) {call : Call} {s' : Array} {out : Option BlockData}
    (hn : s.next sb call = some (s', out)) :
    (∃ t', t.next sb call = some (t', out) ∧ Shows sb t' s') ∨
      t.next sb call = none ∧ ¬s.Returns sb call := by
  cases call with
  | begin i =>
    simp only [Array.next, Option.ite_none_right_eq_some, Option.some.injEq, Prod.mk.injEq] at hn
    obtain ⟨hi, rfl, rfl⟩ := hn
    rcases h.begin hi with ⟨t', he, hs⟩ | ⟨he, hfull⟩
    · exact .inl ⟨t', by rw [Thread.next, he]; rfl, hs⟩
    · exact .inr ⟨by rw [Thread.next, he]; rfl, hfull⟩
  | acquire b =>
    simp only [Array.next, Option.ite_none_right_eq_some, Option.some.injEq, Prod.mk.injEq] at hn
    obtain ⟨⟨hb, hheld⟩, rfl, rfl⟩ := hn
    obtain ⟨cache, p, he, hdata, hs⟩ := h.acquire hb hheld
    exact .inl ⟨_, by simp [Thread.next, he, hdata], hs⟩
  | modify b d =>
    simp only [Array.next, Option.ite_none_right_eq_some, Option.some.injEq, Prod.mk.injEq] at hn
    obtain ⟨hb, rfl, rfl⟩ := hn
    obtain ⟨p, hp, hholds, hlog⟩ := h.holds hb
    exact .inl ⟨_, by simp [Thread.next, hp], h.modify hholds hlog d⟩
  | sync i b =>
    cases i with
    | none =>
      simp only [Array.next, Option.ite_none_right_eq_some, Option.some.injEq, Prod.mk.injEq] at hn
      obtain ⟨hb, rfl, rfl⟩ := hn
      obtain ⟨p, hp, hholds, hlog⟩ := h.holds hb
      exact .inl ⟨_, by simp [Thread.next, hp, Thread.cacheSync], h.syncNull hholds hlog⟩
    | some i =>
      simp only [Array.next] at hn
      split at hn
      case h_1 bs hops =>
        simp only [Option.ite_none_right_eq_some, Option.some.injEq, Prod.mk.injEq] at hn
        obtain ⟨⟨hb, hroom⟩, rfl, rfl⟩ := hn
        obtain ⟨p, hp, hholds, hlog⟩ := h.holds hb
        have hmap := h.ops i
        rw [hops] at hmap
        obtain ⟨ctx, hi, rfl⟩ := Option.map_eq_some_iff.mp hmap
        obtain ⟨ctx', hrec, hblocks⟩ : ∃ ctx', ctx.record b.toNat = some ctx' ∧
            ctx'.blockNo = if b.toNat ∈ ctx.blockNo then ctx.blockNo
              else ctx.blockNo ++ [b.toNat] := by
          rw [OpContext.record_eq ctx _ (h.length i ctx hi)]
          by_cases hmem : b.toNat ∈ ctx.blockNo
          · exact ⟨ctx, by simp [hmem], by simp [hmem]⟩
          · have hlt := hroom.resolve_left hmem
            exact ⟨⟨ctx.ts, ctx.blockNo ++ [b.toNat]⟩, by simp [hmem, hlt], by simp [hmem]⟩
        rw [← hblocks]
        refine .inl ⟨_, ?_, (h.pin hholds hlog).record hi hrec hlog b.toNat_lt⟩
        simp [Thread.next, hp, Thread.cacheSync, hi, hholds.2.1, hrec]
      case h_2 => cases hn
  | release b =>
    simp only [Array.next, Option.ite_none_right_eq_some, Option.some.injEq, Prod.mk.injEq] at hn
    obtain ⟨⟨hb, hdirty⟩, rfl, rfl⟩ := hn
    obtain ⟨p, hp, hholds, hlog⟩ := h.holds hb
    exact .inl ⟨_, by simp [Thread.next, hp], h.release hholds hdirty⟩
  | endOp i =>
    simp only [Array.next, Option.ite_none_right_eq_some, Option.some.injEq, Prod.mk.injEq] at hn
    obtain ⟨⟨hheld, hops⟩, rfl, rfl⟩ := hn
    have hmap := h.ops i
    obtain ⟨bs, hbs⟩ := Option.ne_none_iff_exists'.mp hops
    rw [hbs] at hmap
    obtain ⟨ctx, hi, -⟩ := Option.map_eq_some_iff.mp hmap
    rcases h.endOp hheld hi with ⟨t', he, hs⟩ | ⟨he, hone⟩
    · exact .inl ⟨t', by rw [Thread.next, he]; rfl, hs⟩
    · exact .inr ⟨by rw [Thread.next, he]; rfl, hone⟩

end Calls

theorem Shows.start {sb : SuperBlock} {d : Disk} (hd : (readHeader sb d).numBlocks = 0) :
    Shows sb (.start sb d) (.start d) := by
  refine ⟨BCache.empty_ok d, BCache.empty_cached d _, fun b _ => ?_, fun b p => ?_, ?_, ?_, ?_, ?_,
    ?_, ?_, ?_, Nat.le_refl _, ⟨∅, ?_, rfl⟩, rfl, hd, rfl, rfl, Nat.zero_le _⟩
  · exact congrFun (BCache.empty_view d) b
  · simp only [Thread.start, reduceCtorEq, false_iff]
    exact (BCache.empty_quiet d).not_holds b p
  all_goals simp [Thread.start, Array.start]

/-- A thread in agreement with the flat array: its calls return what the array returns, and they
return at all unless one sleeps for ever. -/
theorem Shows.run {sb : SuperBlock} {t : Thread} {s s' : Array} {calls : List Call}
    {outs : List BlockData} (h : Shows sb t s) (hr : s.run sb calls = some (s', outs)) :
    (∀ t' outs', t.run sb calls = some (t', outs') → outs' = outs) ∧
      (s.allReturn sb calls = true → ∃ t', t.run sb calls = some (t', outs)) := by
  induction calls generalizing t s outs with
  | nil =>
    simp only [Array.run, Option.some.injEq, Prod.mk.injEq] at hr
    obtain ⟨rfl, rfl⟩ := hr
    refine ⟨fun t' outs' ht => ?_, fun _ => ⟨t, rfl⟩⟩
    simp only [Thread.run, Option.some.injEq, Prod.mk.injEq] at ht
    exact ht.2.symm
  | cons call calls ih =>
    simp only [Array.run, Option.bind_eq_bind, Option.bind_eq_some_iff, Option.some.injEq,
      Prod.mk.injEq] at hr
    obtain ⟨⟨s₁, out⟩, hn, ⟨s₂, outs₁⟩, hr, rfl, rfl⟩ := hr
    rcases h.next hn with ⟨t₁, ht, hs⟩ | ⟨ht, hret⟩
    · obtain ⟨hsame, hall⟩ := ih hs hr
      constructor
      · intro t' outs' hrun
        simp only [Thread.run, Option.bind_eq_bind, Option.bind_eq_some_iff, ht, Option.some.injEq,
          Prod.mk.injEq, exists_eq_left'] at hrun
        obtain ⟨⟨t₂, outs₂⟩, hrun, -, rfl⟩ := hrun
        rw [hsame t₂ outs₂ hrun]
      · intro hret
        simp only [Array.allReturn, hn, Option.all_some, Bool.and_eq_true] at hret
        obtain ⟨t', hrun⟩ := hall hret.2
        exact ⟨t', by simp [Thread.run, ht, hrun]⟩
    · constructor
      · intro t' outs' hrun
        simp [Thread.run, ht] at hrun
      · intro hall
        simp only [Array.allReturn, Bool.and_eq_true, decide_eq_true_eq] at hall
        exact absurd hall.1 hret

/-- Every sequence of calls that follows the rules: the data that each `cache_acquire` returns is
what the flat array holds, and the calls return unless an operation begins without log space or
ends while another one is running. -/
theorem cache_refines_flat (sb : SuperBlock) (d : Disk) (hd : (readHeader sb d).numBlocks = 0)
    (calls : List Call) (s : Array) (outs : List BlockData)
    (hr : (Array.start d).run sb calls = some (s, outs)) :
    (∀ t outs', (Thread.start sb d).run sb calls = some (t, outs') → outs' = outs) ∧
      ((Array.start d).allReturn sb calls = true →
        ∃ t, (Thread.start sb d).run sb calls = some (t, outs)) :=
  (Shows.start hd).run hr

/-- An operation that writes block 70, and a read of the block after its checkpoint. -/
def writeAndRead (d : BlockData) : List Call :=
  [.begin 0, .acquire 70, .modify 70 d, .sync (some 0) 70, .release 70, .endOp 0, .acquire 70]

theorem cache_refines_flat_read : ∃ t,
    (Thread.start mkfsSuperBlock fun _ => Bytes.zero).run mkfsSuperBlock
      (writeAndRead (Bytes.ofFn fun _ => 1)) = some (t, [Bytes.zero, Bytes.ofFn fun _ => 1]) := by
  have hd : (readHeader mkfsSuperBlock fun _ => Bytes.zero).numBlocks = 0 := by
    simp [readHeader, LogHeader.decode]
  exact (cache_refines_flat mkfsSuperBlock (fun _ => Bytes.zero) hd _ _ _ rfl).2
    (by decide +kernel)

end Flat

end FtosFfs.Cache
