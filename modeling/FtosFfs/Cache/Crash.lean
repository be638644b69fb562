import FtosFfs.Cache.Checkpoint

/-! Crashes of a machine whose operations write through the block cache.  The machine can stop
between any two steps, also while `init_bcache` recovers, so before or after any device write.
The history keeps the groups of operations that share a checkpoint; a recovery that completes
leaves on disk the updates of the first groups of the history, with every operation that
returned. -/

namespace FtosFfs.Cache

open Lib

namespace Crash

/-- A block as an operation left it. -/
structure Update where
  op : Nat
  blockNo : Nat
  data : BlockData

/-- The operations that ended between two moments at which `op_count` reaches 0, and their updates
in order. -/
structure Group where
  ops : List Nat
  updates : List Update

def applyUpdates (d : Disk) (us : List Update) : Disk :=
  us.foldl (fun d u => Function.update d u.blockNo u.data) d

def applyGroups (d : Disk) (gs : List Group) : Disk :=
  gs.foldl (fun d g => applyUpdates d g.updates) d

/-- What happened since `init_bcache` last completed, when the disk was `base`: the groups that are
closed, the group that is not, and the operations whose `cache_end_op` returned. -/
structure History where
  base : Disk
  groups : List Group
  current : Group
  returned : List Nat

namespace History

def start (base : Disk) : History := ⟨base, [], ⟨[], []⟩, []⟩

def update (h : History) (u : Update) : History :=
  { h with current := { h.current with updates := h.current.updates ++ [u] } }

/-- Operation `i` ends, and closes the group if no other operation is running. -/
def endOp (h : History) (i opCount : Nat) : History :=
  let g : Group := ⟨h.current.ops ++ [i], h.current.updates⟩
  if opCount = 0 then { h with groups := h.groups ++ [g], current := ⟨[], []⟩ }
  else { h with current := g }

/-- The groups after a step of operations that leads to `ops`. -/
def group (h : History) (ops : Ops) : OpLabel → History
  | .endOp i => h.endOp i ops.log.opCount
  | _ => h

/-- The history after a step of operations that leads to `ops`. -/
def step (h : History) (a : OpLabel) (ops : Ops) : History :=
  let h := h.group ops a
  if ops.phase a.op = .ended then { h with returned := a.op :: h.returned } else h

end History

inductive Power
  | off
  /-- In `replay` of `init_bcache`, before block `i` of the header. -/
  | booting (header : LogHeader) (i : Nat)
  | on (ops : Ops)

structure World where
  cache : BCache
  power : Power
  history : History

inductive Label
  /-- `cache_acquire`, a new content for the block, `cache_sync`, and `cache_release`. -/
  | write (i : Nat) (b : UInt64) (d : BlockData)
  | op (a : OpLabel)
  | crash
  | boot
  /-- The next block of `replay` in `init_bcache`, or its end. -/
  | recover

/-- `cache_acquire`, a new content, the pin of `cache_sync`, and `cache_release`. -/
def writeBlock (c : BCache) (b : Nat) (d : BlockData) : Option BCache := do
  let (c, p) ← c.cacheAcquire b
  some (((c.setData p d).setPinned p true).cacheRelease p)

/-- The blocks that a step of `checkpoint` copies and the header that it writes. -/
def checkpointWrite (sb : SuperBlock) (h : LogHeader) (c : BCache) : Checkpoint → Option BCache
  | .logging k => if k < h.numBlocks then checkpointBlock sb h c k else some c
  | .marking => some (writeHeader sb h c)
  | .replaying k =>
    if h.numBlocks = 0 then some c
    else if k < h.numBlocks then replayBlock sb h c k
    else some (writeHeader sb (clearHeader h) c)
  | _ => some c

/-- What a step of operations does to the cache and the device. -/
def cacheStep (sb : SuperBlock) (ops : Ops) (c : BCache) : OpLabel → Option BCache
  | .sync _ _ => none
  | .checkpoint i =>
    match ops.phase i with
    | .checkpointing _ pc => checkpointWrite sb ops.log.header c pc
    | _ => none
  | _ => some c

namespace World

def next (sb : SuperBlock) (w : World) : Label → Option World
  | .write i b d =>
    match w.power with
    | .on ops => do
      let cache ← writeBlock w.cache b.toNat d
      let ops ← ops.next (.sync i b.toNat)
      some ⟨cache, .on ops, w.history.update ⟨i, b.toNat, d⟩⟩
    | _ => none
  | .op a =>
    match w.power with
    | .on ops => do
      let cache ← cacheStep sb ops w.cache a
      let ops ← ops.next a
      some ⟨cache, .on ops, w.history.step a ops⟩
    | _ => none
  | .crash =>
    match w.power with
    | .off => none
    | _ => some { w with cache := .empty w.cache.device, power := .off }
  | .boot =>
    match w.power with
    | .off => some { w with power := .booting (readHeader sb w.cache.device) 0 }
    | _ => none
  | .recover =>
    match w.power with
    | .booting h i =>
      if h.numBlocks = 0 then
        some ⟨w.cache, .on ⟨Log.initLog sb h, fun _ => .idle, []⟩, .start w.cache.device⟩
      else if i < h.numBlocks then
        (replayBlock sb h w.cache i).map fun c => { w with cache := c, power := .booting h (i + 1) }
      else some { w with
        cache := writeHeader sb (clearHeader h) w.cache
        power := .booting (clearHeader h) i }
    | _ => none

/-- The machine is off, and the log on its disk is empty. -/
def Init (sb : SuperBlock) (w : World) : Prop :=
  (readHeader sb w.cache.device).numBlocks = 0 ∧ w.cache = .empty w.cache.device ∧
    w.power = .off ∧ w.history = .start w.cache.device

/-- The step does not write to the log. -/
def AvoidsLog (sb : SuperBlock) (_ : World) : Label → Prop
  | .write _ b _ => ¬InLog sb b.toNat
  | _ => True

end World

def machine (sb : SuperBlock) : Machine World Label where
  init := World.Init sb
  next := World.next sb

/-! ### Updates and groups -/

theorem applyUpdates_append (d : Disk) (us vs : List Update) :
    applyUpdates d (us ++ vs) = applyUpdates (applyUpdates d us) vs := List.foldl_append

theorem applyUpdates_of_notMem {us : List Update} {b : Nat} (hb : ∀ u ∈ us, u.blockNo ≠ b)
    (d : Disk) : applyUpdates d us b = d b := by
  induction us generalizing d with
  | nil => rfl
  | cons u us ih =>
    have hu : b ≠ u.blockNo := (hb u (by simp)).symm
    have htail := ih (fun v hv => hb v (by simp [hv])) (Function.update d u.blockNo u.data)
    rw [Function.update_of_ne hu] at htail
    exact htail

theorem applyGroups_concat (d : Disk) (gs : List Group) (g : Group) :
    applyGroups d (gs ++ [g]) = applyUpdates (applyGroups d gs) g.updates := by
  simp [applyGroups, List.foldl_append]

/-! ### The operations of the history -/

/-- Operation `i` waits for a checkpoint that has not been persisted. -/
def Undone (s : Ops) (i : Nat) : Prop :=
  ∃ ctx, (s.phase i).Waits ctx ∧ s.log.lastPersistedTs < ctx.ts

/-- Block `b` has a number of 64 bits and is outside the log. -/
def Home (sb : SuperBlock) (b : Nat) : Prop := ¬InLog sb b ∧ b < 2 ^ 64

/-- The operations that have ended are those of the history, and those of the group that is not
closed wait; the updates of that group are in the contexts of its operations. -/
structure Ledger (sb : SuperBlock) (h : History) (s : Ops) : Prop where
  nodup : (h.groups.flatMap Group.ops ++ h.current.ops).Nodup
  past : ∀ i, (s.phase i).Past ↔ i ∈ h.groups.flatMap Group.ops ∨ i ∈ h.current.ops
  waits : ∀ i ∈ h.current.ops, Undone s i
  owner : ∀ g ∈ h.groups, ∀ u ∈ g.updates, u.op ∈ g.ops
  updates : ∀ u ∈ h.current.updates,
    (∃ ctx, s.phase u.op = .running ctx ∧ u.blockNo ∈ ctx.blockNo) ∨
      u.op ∈ h.current.ops ∧ ∃ ctx ∈ s.ended, u.blockNo ∈ ctx.blockNo
  returned : ∀ i ∈ h.returned, s.phase i = .ended
  later : ∀ i ctx, s.phase i = .running ctx → s.log.lastPersistedTs < ctx.ts
  order : s.log.lastPersistedTs ≤ s.log.lastAllocatedTs
  blocks : ∀ i ctx, s.phase i = .running ctx → ∀ b ∈ ctx.blockNo, Home sb b
  entries : ∀ b ∈ s.log.header.entries, Home sb b
  closed : ∀ i, s.CheckpointsAt i → h.current = ⟨[], []⟩

section Ledger

variable {sb : SuperBlock} {h : History} {s s' : Ops} {i : Nat}

theorem Ledger.start {sb : SuperBlock} (d : Disk) (header : LogHeader)
    (hzero : header.numBlocks = 0) :
    Ledger sb (.start d) ⟨Log.initLog sb header, fun _ => .idle, []⟩ := by
  refine ⟨by simp [History.start], ?_, ?_, ?_, ?_, ?_, ?_, Nat.le_refl _, ?_, ?_, ?_⟩
  all_goals simp [History.start, Phase.Past, Log.initLog, LogHeader.entries, hzero,
    Ops.CheckpointsAt]

/-- An operation that returned is in a closed group. -/
theorem Ledger.ended_closed (hl : Ledger sb h s) (hi : s.phase i = .ended) :
    i ∈ h.groups.flatMap Group.ops := by
  rcases (hl.past i).mp (by rw [hi]; trivial) with hg | hc
  · exact hg
  · obtain ⟨ctx, hw | hw, -⟩ := hl.waits i hc <;> rw [hi] at hw <;> cases hw

theorem Ledger.return (hl : Ledger sb h s) (hi : s.phase i = .ended) :
    Ledger sb { h with returned := i :: h.returned } s where
  __ := hl
  returned := by
    intro j hj
    rcases List.mem_cons.mp hj with rfl | hj
    · exact hi
    · exact hl.returned j hj

/-- A step of an operation that is not running, and does not begin. -/
theorem Ledger.frame (hl : Ledger sb h s) (hk : s.Kept i s')
    (hentries : ∀ b ∈ s'.log.header.entries, b ∈ s.log.header.entries)
    (hlog : s'.log.lastPersistedTs = s.log.lastPersistedTs ∧ s'.ended = s.ended ∨
      (∀ k ctx, s.phase k ≠ .running ctx) ∧ h.current = ⟨[], []⟩)
    (horder : s'.log.lastPersistedTs ≤ s'.log.lastAllocatedTs)
    (hrun : ∀ ctx, s.phase i ≠ .running ctx) (hrun' : ∀ ctx, s'.phase i ≠ .running ctx)
    (hpast : (s'.phase i).Past ↔ (s.phase i).Past) (hended : s.phase i ≠ .ended)
    (hwaits : i ∈ h.current.ops → Undone s' i)
    (hclosed : s'.CheckpointsAt i → h.current = ⟨[], []⟩) : Ledger sb h s' := by
  have hback (k : Nat) (ctx : OpContext) (hr : s'.phase k = .running ctx) :
      s.phase k = .running ctx := by
    by_cases hki : k = i
    · rw [hki] at hr; exact absurd hr (hrun' ctx)
    · exact (hk.running k hki ctx).mp hr
  refine ⟨hl.nodup, fun k => ?_, fun k hkc => ?_, hl.owner, fun u hu => ?_, fun k hkr => ?_,
    fun k ctx hr => ?_, horder, fun k ctx hr => hl.blocks k ctx (hback k ctx hr),
    fun b hb => hl.entries b (hentries b hb), fun k hc => ?_⟩
  · rw [← hl.past k]
    by_cases hki : k = i
    · rw [hki, hpast]
    · exact hk.past k hki
  · by_cases hki : k = i
    · rw [hki] at hkc ⊢; exact hwaits hkc
    · obtain ⟨ctx, hw, hts⟩ := hl.waits k hkc
      rcases hlog with ⟨hlp, -⟩ | ⟨-, hempty⟩
      · exact ⟨ctx, (hk.waits k hki ctx).mpr hw, by rwa [hlp]⟩
      · rw [hempty] at hkc; cases hkc
  · rcases hlog with ⟨-, hend⟩ | ⟨-, hempty⟩
    · rw [hend]
      refine (hl.updates u hu).imp_left ?_
      rintro ⟨ctx, hr, hb⟩
      have hui : u.op ≠ i := fun he => hrun ctx (he ▸ hr)
      exact ⟨ctx, (hk.running u.op hui ctx).mpr hr, hb⟩
    · rw [hempty] at hu; cases hu
  · have hke := hl.returned k hkr
    have hki : k ≠ i := by rintro rfl; exact hended hke
    exact (hk.ended k hki).mpr hke
  · rcases hlog with ⟨hlp, -⟩ | ⟨hnone, -⟩
    · rw [hlp]; exact hl.later k ctx (hback k ctx hr)
    · exact absurd (hback k ctx hr) (hnone k ctx)
  · by_cases hki : k = i
    · rw [hki] at hc; exact hclosed hc
    · exact hl.closed k ((hk.checkpointsAt hki).mp hc)

/-- An operation begins. -/
theorem Ledger.begin (hl : Ledger sb h s) (hi : s.phase i = .starting)
    (hs' : s'.phase = Function.update s.phase i (.running ⟨s.log.lastAllocatedTs + 1, []⟩))
    (hlp : s'.log.lastPersistedTs = s.log.lastPersistedTs)
    (hla : s'.log.lastAllocatedTs = s.log.lastAllocatedTs + 1)
    (hheader : s'.log.header = s.log.header) (hended : s'.ended = s.ended) : Ledger sb h s' := by
  have hk : s.Kept i s' := Ops.kept_update hs'
  have hself : s'.phase i = .running ⟨s.log.lastAllocatedTs + 1, []⟩ := by
    rw [hs', Function.update_self]
  have hout : ¬(s.phase i).Past := by rw [hi]; exact id
  have horder := hl.order
  refine ⟨hl.nodup, fun k => ?_, fun k hkc => ?_, hl.owner, fun u hu => ?_, fun k hkr => ?_,
    fun k ctx hr => ?_, by omega, fun k ctx hr => ?_, by rw [hheader]; exact hl.entries,
    fun k hc => ?_⟩
  · rw [← hl.past k]
    by_cases hki : k = i
    · rw [hki, hself, hi]; rfl
    · exact hk.past k hki
  · have hki : k ≠ i := by rintro rfl; exact hout ((hl.past k).mpr (.inr hkc))
    obtain ⟨ctx, hw, hts⟩ := hl.waits k hkc
    exact ⟨ctx, (hk.waits k hki ctx).mpr hw, by rwa [hlp]⟩
  · rw [hended]
    refine (hl.updates u hu).imp_left ?_
    rintro ⟨ctx, hr, hb⟩
    have hui : u.op ≠ i := by rintro rfl; rw [hi] at hr; cases hr
    exact ⟨ctx, (hk.running u.op hui ctx).mpr hr, hb⟩
  · have hke := hl.returned k hkr
    have hki : k ≠ i := by rintro rfl; rw [hi] at hke; cases hke
    exact (hk.ended k hki).mpr hke
  · by_cases hki : k = i
    · rw [hki, hself] at hr
      cases hr
      rw [hlp]
      exact Nat.lt_succ_of_le horder
    · rw [hlp]; exact hl.later k ctx ((hk.running k hki ctx).mp hr)
  · by_cases hki : k = i
    · rw [hki, hself] at hr
      cases hr
      simp
    · exact hl.blocks k ctx ((hk.running k hki ctx).mp hr)
  · by_cases hki : k = i
    · rw [hki] at hc
      exact absurd hc (Ops.not_checkpointsAt hself (by simp))
    · exact hl.closed k ((hk.checkpointsAt hki).mp hc)

/-- An operation writes a block. -/
theorem Ledger.sync {ctx ctx' : OpContext} {b : Nat} (hl : Ledger sb h s)
    (hi : s.phase i = .running ctx) (hlen : ctx.blockNo.length ≤ opMaxNumBlocks)
    (hrec : ctx.record b = some ctx') (hb : Home sb b) (hno : ¬s.Checkpointing) (d : BlockData) :
    Ledger sb (h.update ⟨i, b, d⟩) (s.setPhase i (.running ctx')) := by
  have hk : s.Kept i (s.setPhase i (.running ctx')) := Ops.kept_update rfl
  have hself : (s.setPhase i (.running ctx')).phase i = .running ctx' := Ops.setPhase_self ..
  have hmem := OpContext.mem_record hrec hlen
  refine ⟨hl.nodup, fun k => ?_, fun k hkc => ?_, hl.owner, fun u hu => ?_, fun k hkr => ?_,
    fun k c hr => ?_, hl.order, fun k c hr => ?_, hl.entries, fun k hc => ?_⟩
  · rw [show (h.update ⟨i, b, d⟩).groups = h.groups from rfl,
      show (h.update ⟨i, b, d⟩).current.ops = h.current.ops from rfl, ← hl.past k]
    by_cases hki : k = i
    · rw [hki, hself, hi]; rfl
    · exact hk.past k hki
  · obtain ⟨c, hw, hts⟩ := hl.waits k hkc
    have hki : k ≠ i := by
      rintro rfl
      rcases hw with hw | hw <;> rw [hi] at hw <;> cases hw
    exact ⟨c, (hk.waits k hki c).mpr hw, hts⟩
  · rcases List.mem_append.mp hu with hu | hu
    · refine (hl.updates u hu).imp_left ?_
      rintro ⟨c, hr, hbc⟩
      by_cases hui : u.op = i
      · rw [hui, hi] at hr
        cases hr
        exact ⟨ctx', by rw [hui, hself], (hmem _).mpr (.inr hbc)⟩
      · exact ⟨c, (hk.running u.op hui c).mpr hr, hbc⟩
    · rw [List.mem_singleton] at hu
      subst hu
      exact .inl ⟨ctx', hself, (hmem _).mpr (.inl rfl)⟩
  · have hke := hl.returned k hkr
    have hki : k ≠ i := by rintro rfl; rw [hi] at hke; cases hke
    exact (hk.ended k hki).mpr hke
  · by_cases hki : k = i
    · rw [hki, hself] at hr
      cases hr
      rw [OpContext.ts_record hrec]
      exact hl.later i ctx hi
    · exact hl.later k c ((hk.running k hki c).mp hr)
  · by_cases hki : k = i
    · rw [hki, hself] at hr
      cases hr
      intro x hx
      rcases (hmem x).mp hx with rfl | hx
      · exact hb
      · exact hl.blocks i ctx hi x hx
    · exact hl.blocks k c ((hk.running k hki c).mp hr)
  · have hki : k ≠ i := by
      rintro rfl
      exact Ops.not_checkpointsAt hself (by simp) hc
    exact absurd ⟨k, (hk.checkpointsAt hki).mp hc⟩ hno

/-- An operation ends: it waits for the checkpoint, or runs it and closes the group. -/
theorem Ledger.endOp {ctx : OpContext} (hl : Ledger sb h s) (hr : s.Reserved sb)
    (hi : s.phase i = .running ctx) (he : s.cacheEndOp i ctx = some s') :
    Ledger sb (h.endOp i s'.log.opCount) s' := by
  obtain ⟨header, absorbed, ph, size, hc, hlog, hphase, hended, hph⟩ := hr.cacheEndOp_cases hi he
  obtain ⟨hno, -⟩ := hr.running_accounted hi
  have hk : s.Kept i s' := Ops.kept_wakeLog hphase
  have hself : s'.phase i = ph := by rw [hphase, Function.update_self]
  have hlater := hl.later i ctx hi
  have hts : ph = .checkpointing (Log.initLogSize sb) (.logging 0) ∨ ph = .asleep ctx := by
    rcases hph with ⟨-, hph, -⟩ | ⟨-, -, hph⟩
    · exact .inl hph
    · rw [if_pos hlater] at hph
      exact .inr hph
  have hout : ¬(i ∈ h.groups.flatMap Group.ops ∨ i ∈ h.current.ops) := by
    rw [← hl.past i, hi]
    exact id
  have hnodup : (h.groups.flatMap Group.ops ++ (h.current.ops ++ [i])).Nodup := by
    rw [← List.append_assoc]
    refine hl.nodup.append (List.nodup_singleton i) ?_
    simpa using hout
  have hpast (k : Nat) : (s'.phase k).Past ↔
      k ∈ h.groups.flatMap Group.ops ∨ k ∈ h.current.ops ++ [i] := by
    by_cases hki : k = i
    · rw [hki, hself]
      rcases hts with rfl | rfl <;> simp [Phase.Past]
    · rw [hk.past k hki, hl.past k]
      simp [hki]
  have hwaits (k : Nat) (hkc : k ∈ h.current.ops) : Undone s' k := by
    obtain ⟨c, hw, hlt⟩ := hl.waits k hkc
    have hki : k ≠ i := by rintro rfl; exact hout (.inr hkc)
    exact ⟨c, (hk.waits k hki c).mpr hw, by rw [hlog]; exact hlt⟩
  have hback (k : Nat) (c : OpContext) (hkr : s'.phase k = .running c) :
      s.phase k = .running c := by
    have hki : k ≠ i := by
      rintro rfl
      rw [hself] at hkr
      rcases hts with rfl | rfl <;> cases hkr
    exact (hk.running k hki c).mp hkr
  have hupdates : ∀ u ∈ h.current.updates,
      (∃ c, s'.phase u.op = .running c ∧ u.blockNo ∈ c.blockNo) ∨
        u.op ∈ h.current.ops ++ [i] ∧ ∃ c ∈ s'.ended, u.blockNo ∈ c.blockNo := by
    intro u hu
    rw [hended]
    rcases hl.updates u hu with ⟨c, hur, hub⟩ | ⟨huc, c, hcm, hub⟩
    · by_cases hui : u.op = i
      · rw [hui, hi] at hur
        cases hur
        exact .inr ⟨by simp [hui], ctx, by simp, hub⟩
      · exact .inl ⟨c, (hk.running u.op hui c).mpr hur, hub⟩
    · exact .inr ⟨by simp [huc], c, by simp [hcm], hub⟩
  have hreturned : ∀ k ∈ h.returned, s'.phase k = .ended := by
    intro k hkr
    have hke := hl.returned k hkr
    have hki : k ≠ i := by rintro rfl; rw [hi] at hke; cases hke
    exact (hk.ended k hki).mpr hke
  have hlater' : ∀ k c, s'.phase k = .running c → s'.log.lastPersistedTs < c.ts := by
    intro k c hkr
    rw [hlog]
    exact hl.later k c (hback k c hkr)
  have hentries : ∀ b ∈ s'.log.header.entries, Home sb b := by
    intro b hb
    rw [hlog, hc.mem] at hb
    rcases hb with hb | hb
    · exact hl.entries b hb
    · exact hl.blocks i ctx hi b hb
  have hblocks (k : Nat) (c : OpContext) (hkr : s'.phase k = .running c) :=
    hl.blocks k c (hback k c hkr)
  have horder : s'.log.lastPersistedTs ≤ s'.log.lastAllocatedTs := by
    rw [hlog]
    exact hl.order
  rw [History.endOp]
  split
  case isTrue hzero =>
    have hnone (k : Nat) (c : OpContext) : s'.phase k ≠ .running c := by
      intro hkr
      have hpos := (hr.cacheEndOp hi he).counted.pos hkr
      omega
    refine ⟨?_, fun k => ?_, by simp, fun g hg u hu => ?_, by simp, hreturned, hlater', horder,
      hblocks, hentries, fun _ _ => rfl⟩
    · simpa using hnodup
    · rw [hpast k]
      simp
    · rcases List.mem_append.mp hg with hg | hg
      · exact hl.owner g hg u hu
      · rw [List.mem_singleton] at hg
        subst hg
        rcases hupdates u hu with ⟨c, hur, -⟩ | ⟨huc, -⟩
        · exact absurd hur (hnone u.op c)
        · exact huc
  case isFalse hsome =>
    rw [hlog] at hsome
    obtain ⟨-, -, hph⟩ := hph.resolve_left fun hz => hsome hz.1
    rw [if_pos hlater] at hph
    refine ⟨hnodup, hpast, fun k hkc => ?_, hl.owner, hupdates, hreturned, hlater', horder,
      hblocks, hentries, fun k hcp => ?_⟩
    · rcases List.mem_append.mp hkc with hkc | hkc
      · exact hwaits k hkc
      · rw [List.mem_singleton] at hkc
        refine ⟨ctx, .inr (by rw [hkc, hself, hph]), ?_⟩
        rw [hlog]
        exact hlater
    · have hki : k ≠ i := by
        rintro rfl
        exact Ops.not_checkpointsAt (hself.trans hph) (by simp) hcp
      exact absurd ⟨k, (hk.checkpointsAt hki).mp hcp⟩ hno

theorem checkpointStep_phase {copy : Nat} {pc : Checkpoint}
    (hi : s.phase i = .checkpointing copy pc) :
    (∃ pc', (s.checkpointStep i copy pc).phase i = .checkpointing copy pc') ∨
      pc = .finishing ∧ (s.checkpointStep i copy pc).phase i = .ended := by
  cases pc with
  | logging k => rw [Ops.checkpointStep]; split <;> exact .inl ⟨_, Ops.setPhase_self ..⟩
  | replaying k =>
    rw [Ops.checkpointStep]
    split
    · exact .inl ⟨_, Ops.setPhase_self ..⟩
    · split
      · exact .inl ⟨_, Ops.setPhase_self ..⟩
      · exact .inl ⟨_, hi⟩
  | finishing => exact .inr ⟨rfl, by simp [Ops.checkpointStep]⟩
  | _ => exact .inl ⟨_, by simp [Ops.checkpointStep, Ops.setPhase]; rfl⟩

theorem checkpointStep_header (s : Ops) (i copy : Nat) (pc : Checkpoint) :
    (s.checkpointStep i copy pc).log.header = s.log.header ∨
      (s.checkpointStep i copy pc).log.header = clearHeader s.log.header := by
  cases pc with
  | logging k => rw [Ops.checkpointStep]; split <;> exact .inl rfl
  | replaying k =>
    rw [Ops.checkpointStep]
    split
    · exact .inl rfl
    · split
      · exact .inl rfl
      · exact .inr rfl
  | _ => exact .inl rfl

/-- A step of the operation that runs the checkpoint. -/
theorem Ledger.checkpointStep {copy : Nat} {pc : Checkpoint} (hl : Ledger sb h s)
    (hr : s.Reserved sb) (hi : s.phase i = .checkpointing copy pc) :
    Ledger sb h (s.checkpointStep i copy pc) := by
  have hk := s.checkpointStep_kept i copy pc
  have hphase := checkpointStep_phase hi
  have hentries : ∀ b ∈ (s.checkpointStep i copy pc).log.header.entries,
      b ∈ s.log.header.entries := by
    rcases checkpointStep_header s i copy pc with he | he
    · rw [he]; exact fun _ hb => hb
    · rw [he]; simp [LogHeader.entries, clearHeader]
  have horder : (s.checkpointStep i copy pc).log.lastPersistedTs ≤
      (s.checkpointStep i copy pc).log.lastAllocatedTs := by
    have := hl.order
    cases pc <;> simp only [Ops.checkpointStep] <;> (try split) <;> (try split) <;>
      first | exact this | exact Nat.le_refl _
  refine hl.frame hk hentries ?_ horder (by simp [hi]) ?_ ?_ (by simp [hi]) ?_ ?_
  · by_cases hpc : pc = .finishing
    · subst hpc
      exact .inl ⟨rfl, rfl⟩
    · refine .inr ⟨fun k ctx hkr => ?_, hl.closed i ⟨copy, pc, hi, hpc⟩⟩
      have hcount := (hr.checkpointed i copy pc hi hpc).count
      have hpos := hr.counted.pos hkr
      omega
  · intro ctx
    rcases hphase with ⟨pc', hp⟩ | ⟨-, hp⟩ <;> rw [hp] <;> simp
  · rw [hi]
    rcases hphase with ⟨pc', hp⟩ | ⟨-, hp⟩ <;> rw [hp] <;> simp [Phase.Past]
  · intro hic
    obtain ⟨ctx, hw | hw, -⟩ := hl.waits i hic <;> rw [hi] at hw <;> cases hw
  · rintro ⟨c, q, hq, hne⟩
    by_cases hpc : pc = .finishing
    · obtain ⟨-, hp⟩ := hphase.resolve_left (by
        rintro ⟨pc', hp⟩
        simp [hpc, Ops.checkpointStep] at hp)
      rw [hp] at hq
      cases hq
    · exact hl.closed i ⟨copy, pc, hi, hpc⟩

/-- A step of operations keeps the ledger, but for the writes of blocks. -/
theorem Ledger.step {a : OpLabel} (hl : Ledger sb h s) (hr : s.Reserved sb)
    (ha : ∀ j b, a ≠ .sync j b) (hn : s.next a = some s') : Ledger sb (h.step a s') s' := by
  suffices hs : Ledger sb (h.group s' a) s' by
    rw [History.step]
    split
    case isTrue hend => exact hs.return hend
    case isFalse => exact hs
  cases a with
  | enter i =>
    simp only [Ops.next, Option.ite_none_right_eq_some, Option.some.injEq] at hn
    obtain ⟨hi, rfl⟩ := hn
    exact hl.frame (Ops.kept_update rfl) (fun _ hb => hb) (.inl ⟨rfl, rfl⟩) hl.order (by simp [hi])
      (by simp) (by simp [hi, Phase.Past]) (by simp [hi])
      (fun hic => absurd ((hl.past i).mpr (.inr hic)) (by simp [hi, Phase.Past]))
      fun hc => absurd hc (Ops.not_checkpointsAt (Ops.setPhase_self ..) (by simp))
  | begin i =>
    simp only [Ops.next, Option.ite_none_right_eq_some, Option.some.injEq] at hn
    obtain ⟨hi, rfl⟩ := hn
    simp only [Ops.cacheBeginOp]
    split
    · exact hl.frame (Ops.kept_update rfl) (fun _ hb => hb) (.inl ⟨rfl, rfl⟩) hl.order
        (by simp [hi]) (by simp) (by simp [hi, Phase.Past]) (by simp [hi])
        (fun hic => absurd ((hl.past i).mpr (.inr hic)) (by simp [hi, Phase.Past]))
        fun hc => absurd hc (Ops.not_checkpointsAt (Ops.setPhase_self ..) (by simp))
    · exact hl.begin hi rfl rfl rfl rfl rfl
  | sync i b => exact absurd rfl (ha i b)
  | endOp i =>
    simp only [Ops.next] at hn
    split at hn
    case h_1 ctx hi => exact hl.endOp hr hi hn
    case h_2 => cases hn
  | wait i =>
    simp only [Ops.next] at hn
    split at hn
    case h_1 ctx hi =>
      cases hn
      refine hl.frame (Ops.kept_update rfl) (fun _ hb => hb) (.inl ⟨rfl, rfl⟩) hl.order
        (by simp [hi]) ?_ ?_ (by simp [hi]) (fun hic => ?_) fun hc => ?_
      · rw [Ops.waitPersisted, Ops.setPhase_self]
        split <;> simp
      · rw [Ops.waitPersisted, Ops.setPhase_self, hi]
        split <;> simp [Phase.Past]
      · obtain ⟨c, hw, hts⟩ := hl.waits i hic
        obtain rfl : c = ctx := by
          rcases hw with hw | hw <;> rw [hi] at hw <;> cases hw
          rfl
        refine ⟨c, .inr ?_, hts⟩
        rw [Ops.waitPersisted, Ops.setPhase_self, if_pos hts]
      · refine absurd hc (Ops.not_checkpointsAt (Ops.setPhase_self ..) ?_)
        split <;> simp
    case h_2 => cases hn
  | checkpoint i =>
    simp only [Ops.next] at hn
    split at hn
    case h_1 copy pc hi =>
      cases hn
      exact hl.checkpointStep hr hi
    case h_2 => cases hn

end Ledger

/-! ### The cache and the disk of the running machine -/

/-- The steps of `checkpoint` that copy blocks or write the header. -/
def Copies : Checkpoint → Prop
  | .logging _ | .marking | .replaying _ => True
  | _ => False

/-- Operation `i` ended, and the checkpoint with its updates does not count yet. -/
def Unpersisted (s : Ops) (i : Nat) : Prop :=
  Undone s i ∨ ∃ copy pc, s.phase i = .checkpointing copy pc ∧ Copies pc

/-- The first `k` blocks of the last group are in the log. -/
structure InLogging (sb : SuperBlock) (c : BCache) (h : History) (s : Ops) (k : Nat) : Prop where
  closed : ∃ gs g, h.groups = gs ++ [g] ∧ (∀ i ∈ g.ops, Unpersisted s i) ∧
    Logging sb c s.log.header (applyGroups h.base gs) (applyGroups h.base h.groups) k

/-- How far the last checkpoint is. -/
inductive Stage (sb : SuperBlock) (c : BCache) (h : History) (s : Ops) : Prop
  | logging {i copy k : Nat} (hi : s.phase i = .checkpointing copy (.logging k))
      (hl : InLogging sb c h s k)
  | marking {i copy : Nat} (hi : s.phase i = .checkpointing copy .marking)
      (hl : InLogging sb c h s s.log.header.numBlocks)
  | replaying {i copy k : Nat} (hi : s.phase i = .checkpointing copy (.replaying k))
      (hr : Replaying sb c s.log.header (applyGroups h.base h.groups) k)
  | settled (hno : ∀ i copy pc, s.phase i = .checkpointing copy pc → ¬Copies pc)
      (hs : Settled sb c (applyGroups h.base h.groups)
        (applyUpdates (applyGroups h.base h.groups) h.current.updates))

section Stage

variable {sb : SuperBlock} {c c' : BCache} {h : History} {s s' : Ops} {i : Nat}

theorem Stage.return (hst : Stage sb c h s) (r : List Nat) :
    Stage sb c { h with returned := r } s := by
  cases hst with
  | logging hi hl => exact .logging hi ⟨hl.closed⟩
  | marking hi hl => exact .marking hi ⟨hl.closed⟩
  | replaying hi hr => exact .replaying hi hr
  | settled hno hs => exact .settled hno hs

/-- A step of an operation that neither writes nor ends, and copies no blocks. -/
theorem Stage.frame (hst : Stage sb c h s) (hk : s.Kept i s')
    (hheader : s'.log.header = s.log.header)
    (hlp : s'.log.lastPersistedTs = s.log.lastPersistedTs)
    (hi : ∀ copy pc, s.phase i = .checkpointing copy pc → ¬Copies pc)
    (hi' : ∀ copy pc, s'.phase i = .checkpointing copy pc → ¬Copies pc)
    (hw : ∀ ctx, (s.phase i).Waits ctx → s.log.lastPersistedTs < ctx.ts → (s'.phase i).Waits ctx) :
    Stage sb c h s' := by
  have hother {j copy : Nat} {pc : Checkpoint} (hj : s.phase j = .checkpointing copy pc)
      (hpc : Copies pc) : s'.phase j = .checkpointing copy pc := by
    have hji : j ≠ i := by rintro rfl; exact hi copy pc hj hpc
    exact (hk.checkpointing j hji copy pc).mpr hj
  have hunp (j : Nat) (hj : Unpersisted s j) : Unpersisted s' j := by
    rcases hj with ⟨ctx, hjw, hts⟩ | ⟨copy, pc, hjc, hpc⟩
    · refine .inl ⟨ctx, ?_, by rwa [hlp]⟩
      by_cases hji : j = i
      · rw [hji] at hjw ⊢; exact hw ctx hjw hts
      · exact (hk.waits j hji ctx).mpr hjw
    · exact .inr ⟨copy, pc, hother hjc hpc, hpc⟩
  have hlogging {k : Nat} (hl : InLogging sb c h s k) : InLogging sb c h s' k := by
    obtain ⟨gs, g, hgs, hg, hlog⟩ := hl.closed
    exact ⟨gs, g, hgs, fun j hj => hunp j (hg j hj), by rw [hheader]; exact hlog⟩
  cases hst with
  | logging hj hl => exact .logging (hother hj trivial) (hlogging hl)
  | marking hj hl => exact .marking (hother hj trivial) (by rw [hheader]; exact hlogging hl)
  | replaying hj hr => exact .replaying (hother hj trivial) (by rw [hheader]; exact hr)
  | settled hno hs =>
    refine .settled (fun j copy pc hj => ?_) hs
    by_cases hji : j = i
    · rw [hji] at hj; exact hi' copy pc hj
    · exact hno j copy pc ((hk.checkpointing j hji copy pc).mp hj)

/-- The stage while no checkpoint is running. -/
theorem Stage.settled_of_not_checkpointing (hst : Stage sb c h s) (hno : ¬s.Checkpointing) :
    Settled sb c (applyGroups h.base h.groups)
      (applyUpdates (applyGroups h.base h.groups) h.current.updates) := by
  cases hst with
  | logging hi _ => exact absurd ⟨_, _, _, hi, by simp⟩ hno
  | marking hi _ => exact absurd ⟨_, _, _, hi, by simp⟩ hno
  | replaying hi _ => exact absurd ⟨_, _, _, hi, by simp⟩ hno
  | settled _ hs => exact hs

theorem writeBlock_settled {X Y : Disk} {b : Nat} {d : BlockData} (hs : Settled sb c X Y)
    (hb : ¬InLog sb b) (hw : writeBlock c b d = some c') :
    Settled sb c' X (Function.update Y b d) := by
  simp only [writeBlock, Option.bind_eq_bind, Option.bind_eq_some_iff, Option.some.injEq] at hw
  obtain ⟨⟨c₁, p⟩, hacq, rfl⟩ := hw
  have ha := BCache.cacheAcquire_spec hs.ok hacq
  have hok₂ := ha.holds.setData_ok ha.ok d
  have hp₂ : (c₁.setData p d).Holds b p := (BCache.setData_holds d b p).mpr ha.holds
  have hok₃ := hp₂.setPinned_ok hok₂ true
  have hp₃ : ((c₁.setData p d).setPinned p true).Holds b p :=
    (BCache.setPinned_holds true b p).mpr hp₂
  refine ⟨hp₃.cacheRelease_ok hok₃ (.inl (by simp [BCache.setPinned, BCache.set])),
    BCache.quiet_of_not_holds fun x q hq => ?_, fun hcached => ?_, ?_, fun x hx => ?_⟩
  · obtain ⟨hq, hqp⟩ := (BCache.cacheRelease_holds x q).mp hq
    have hq₁ := (BCache.setData_holds d x q).mp ((BCache.setPinned_holds true x q).mp hq)
    rcases ha.back x q hq₁ with ⟨-, hqp'⟩ | hold
    · exact hqp hqp'
    · exact hs.quiet.not_holds x q hold
  · have hcached := (BCache.setData_cached d _).mp
      ((BCache.setPinned_cached true _).mp ((BCache.cacheRelease_cached _).mp hcached))
    rcases ha.cached _ hcached with he | hold
    · exact hb (he ▸ inLog_header sb)
    · exact hs.uncached hold
  · simp only [BCache.cacheRelease_device, BCache.setPinned_device, BCache.setData_device,
      ha.device]
    exact hs.disk
  · rw [hp₃.cacheRelease_view hok₃, hp₂.setPinned_view hok₂, ha.holds.setData_view ha.ok, ha.view]
    by_cases hxb : x = b
    · rw [hxb, Function.update_self, Function.update_self]
    · rw [Function.update_of_ne hxb, Function.update_of_ne hxb]
      exact hs.view x hx

/-- An operation writes a block. -/
theorem Stage.sync {ctx ctx' : OpContext} {b : Nat} {d : BlockData} (hst : Stage sb c h s)
    (hno : ¬s.Checkpointing) (hi : s.phase i = .running ctx) (hb : ¬InLog sb b)
    (hw : writeBlock c b d = some c') :
    Stage sb c' (h.update ⟨i, b, d⟩) (s.setPhase i (.running ctx')) := by
  have hs := writeBlock_settled (hst.settled_of_not_checkpointing hno) hb hw
  have hk : s.Kept i (s.setPhase i (.running ctx')) := Ops.kept_update rfl
  refine .settled (fun j copy pc hj hpc => ?_) ?_
  · have hji : j ≠ i := by rintro rfl; simp at hj
    exact hno ⟨j, copy, pc, (hk.checkpointing j hji copy pc).mp hj, by rintro rfl; exact hpc⟩
  · simp only [History.update, applyUpdates_append]
    exact hs

/-- An operation ends, and the last one starts the checkpoint. -/
theorem Stage.endOp {ctx : OpContext} (hst : Stage sb c h s) (hl : Ledger sb h s)
    (hr : s.Reserved sb) (hi : s.phase i = .running ctx) (he : s.cacheEndOp i ctx = some s') :
    Stage sb c (h.endOp i s'.log.opCount) s' := by
  obtain ⟨header, absorbed, ph, size, hc, hlog, hphase, hended, hph⟩ := hr.cacheEndOp_cases hi he
  obtain ⟨hno, -⟩ := hr.running_accounted hi
  have hs := hst.settled_of_not_checkpointing hno
  have hr' := hr.cacheEndOp hi he
  have hl' := hl.endOp hr hi he
  have hk : s.Kept i s' := Ops.kept_wakeLog hphase
  have hself : s'.phase i = ph := by rw [hphase, Function.update_self]
  rcases hph with ⟨hzero, hph, -⟩ | ⟨hsome, -, hph⟩
  · have hcount : s'.log.opCount = 0 := by rw [hlog]; exact hzero
    have hself : s'.phase i = .checkpointing (Log.initLogSize sb) (.logging 0) := hself.trans hph
    have hcp := hr'.checkpointed i _ _ hself (by simp)
    have hhead : HeaderOk sb s'.log.header := by
      refine ⟨hcp.bound, fun j hj => ?_, fun j hj => ?_⟩
      · exact (hl'.entries _ (LogHeader.mem_entries.mpr ⟨j, hj, rfl⟩)).1
      · exact (hl'.entries _ (LogHeader.mem_entries.mpr ⟨j, hj, rfl⟩)).2
    -- every block that the group wrote is in the header
    have hlogged : ∀ u ∈ h.current.updates, u.blockNo ∈ s'.log.header.entries := by
      intro u hu
      rcases hl.updates u hu with ⟨cu, hur, hub⟩ | ⟨-, cu, hcu, hub⟩
      · have hui : u.op = i := by
          by_contra hui
          have hpos := hr'.counted.pos ((hk.running u.op hui cu).mpr hur)
          omega
        rw [hui, hi] at hur
        cases hur
        exact hcp.ended 0 rfl ctx (by simp [hended]) _ hub
      · exact hcp.ended 0 rfl cu (by simp [hended, hcu]) _ hub
    rw [History.endOp, if_pos hcount]
    refine .logging hself ⟨h.groups, _, rfl, fun j hj => ?_, ?_⟩
    · rcases List.mem_append.mp hj with hj | hj
      · obtain ⟨cj, hjw, hts⟩ := hl.waits j hj
        have hji : j ≠ i := by
          rintro rfl
          rcases hjw with hjw | hjw <;> rw [hi] at hjw <;> cases hjw
        exact .inl ⟨cj, (hk.waits j hji cj).mpr hjw, by rw [hlog]; exact hts⟩
      · rw [List.mem_singleton] at hj
        rw [hj]
        exact .inr ⟨_, .logging 0, hself, trivial⟩
    · rw [applyGroups_concat]
      refine hs.logging hhead fun b _ hbe => ?_
      refine (applyUpdates_of_notMem (fun u hu hub => hbe ?_) _).symm
      rw [← hub]
      exact hlogged u hu
  · have hcount : s'.log.opCount ≠ 0 := by rw [hlog]; exact hsome
    rw [History.endOp, if_neg hcount]
    refine .settled (fun j copy pc hj hpc => ?_) hs
    by_cases hji : j = i
    · rw [hji, hself, hph] at hj
      split at hj <;> cases hj
    · exact hno ⟨j, copy, pc, (hk.checkpointing j hji copy pc).mp hj, by rintro rfl; exact hpc⟩

theorem Stage.inLogging {copy k : Nat} (hst : Stage sb c h s) (hr : s.Reserved sb)
    (hi : s.phase i = .checkpointing copy (.logging k)) : InLogging sb c h s k := by
  have honly := (hr.checkpointed i _ _ hi (by simp)).only
  cases hst with
  | logging hj hl =>
    obtain rfl := honly _ ⟨_, _, hj, by simp⟩
    rw [hi] at hj
    cases hj
    exact hl
  | marking hj _ =>
    obtain rfl := honly _ ⟨_, _, hj, by simp⟩
    rw [hi] at hj
    cases hj
  | replaying hj _ =>
    obtain rfl := honly _ ⟨_, _, hj, by simp⟩
    rw [hi] at hj
    cases hj
  | settled hno _ => exact absurd trivial (hno i _ _ hi)

theorem Stage.inMarking {copy : Nat} (hst : Stage sb c h s) (hr : s.Reserved sb)
    (hi : s.phase i = .checkpointing copy .marking) :
    InLogging sb c h s s.log.header.numBlocks := by
  have honly := (hr.checkpointed i _ _ hi (by simp)).only
  cases hst with
  | logging hj _ =>
    obtain rfl := honly _ ⟨_, _, hj, by simp⟩
    rw [hi] at hj
    cases hj
  | marking _ hl => exact hl
  | replaying hj _ =>
    obtain rfl := honly _ ⟨_, _, hj, by simp⟩
    rw [hi] at hj
    cases hj
  | settled hno _ => exact absurd trivial (hno i _ _ hi)

theorem Stage.inReplaying {copy k : Nat} (hst : Stage sb c h s) (hr : s.Reserved sb)
    (hi : s.phase i = .checkpointing copy (.replaying k)) :
    Replaying sb c s.log.header (applyGroups h.base h.groups) k := by
  have honly := (hr.checkpointed i _ _ hi (by simp)).only
  cases hst with
  | logging hj _ =>
    obtain rfl := honly _ ⟨_, _, hj, by simp⟩
    rw [hi] at hj
    cases hj
  | marking hj _ =>
    obtain rfl := honly _ ⟨_, _, hj, by simp⟩
    rw [hi] at hj
    cases hj
  | replaying hj hrep =>
    obtain rfl := honly _ ⟨_, _, hj, by simp⟩
    rw [hi] at hj
    cases hj
    exact hrep
  | settled hno _ => exact absurd trivial (hno i _ _ hi)

/-- The stage once the operation that runs the checkpoint has cleared the header. -/
theorem Stage.inSettled {copy : Nat} {pc : Checkpoint} (hst : Stage sb c h s) (hr : s.Reserved sb)
    (hi : s.phase i = .checkpointing copy pc) (hpc : ¬Copies pc) (hfin : pc ≠ .finishing) :
    Settled sb c (applyGroups h.base h.groups)
      (applyUpdates (applyGroups h.base h.groups) h.current.updates) := by
  have honly := (hr.checkpointed i _ _ hi hfin).only
  have hother {j copy : Nat} {q : Checkpoint} (hj : s.phase j = .checkpointing copy q)
      (hq : Copies q) : False := by
    obtain rfl := honly j ⟨_, _, hj, by rintro rfl; exact hq⟩
    rw [hi] at hj
    cases hj
    exact hpc hq
  cases hst with
  | logging hj _ => exact (hother hj trivial).elim
  | marking hj _ => exact (hother hj trivial).elim
  | replaying hj _ => exact (hother hj trivial).elim
  | settled _ hs => exact hs

/-- The other operations do not copy blocks while operation `i` runs the checkpoint. -/
theorem only_copies {copy : Nat} {pc : Checkpoint} (hr : s.Reserved sb) (hk : s.Kept i s')
    (hi : s.phase i = .checkpointing copy pc) (hfin : pc ≠ .finishing)
    (hi' : ∀ copy pc, s'.phase i = .checkpointing copy pc → ¬Copies pc) (j copy' : Nat)
    (q : Checkpoint) (hj : s'.phase j = .checkpointing copy' q) : ¬Copies q := by
  by_cases hji : j = i
  · rw [hji] at hj
    exact hi' copy' q hj
  · intro hq
    exact hji ((hr.checkpointed i _ _ hi hfin).only j
      ⟨_, _, (hk.checkpointing j hji copy' q).mp hj, by rintro rfl; exact hq⟩)

theorem InLogging.frame {k k' copy : Nat} {pc : Checkpoint} (hl : InLogging sb c h s k)
    (hk : s.Kept i s') (hlp : s'.log.lastPersistedTs = s.log.lastPersistedTs)
    (hheader : s'.log.header = s.log.header) (hi' : s'.phase i = .checkpointing copy pc) (hpc : Copies pc)
    (hnew : ∀ X Y, Logging sb c s.log.header X Y k → Logging sb c' s.log.header X Y k') :
    InLogging sb c' h s' k' := by
  obtain ⟨gs, g, hgs, hg, hlog⟩ := hl.closed
  refine ⟨gs, g, hgs, fun j hj => ?_, by rw [hheader]; exact hnew _ _ hlog⟩
  by_cases hji : j = i
  · exact .inr ⟨copy, pc, hji ▸ hi', hpc⟩
  · rcases hg j hj with ⟨ctx, hw, hts⟩ | ⟨copy, pc, hjc, hq⟩
    · exact .inl ⟨ctx, (hk.waits j hji ctx).mpr hw, by rwa [hlp]⟩
    · exact .inr ⟨copy, pc, (hk.checkpointing j hji copy pc).mpr hjc, hq⟩

/-- A step of the operation that runs the checkpoint. -/
theorem Stage.checkpointStep {copy : Nat} {pc : Checkpoint} (hst : Stage sb c h s)
    (hl : Ledger sb h s) (hr : s.Reserved sb) (hi : s.phase i = .checkpointing copy pc)
    (hw : checkpointWrite sb s.log.header c pc = some c') :
    Stage sb c' h (s.checkpointStep i copy pc) := by
  have hk := s.checkpointStep_kept i copy pc
  cases pc with
  | logging k =>
    have hlog := hst.inLogging hr hi
    simp only [checkpointWrite] at hw
    rw [Ops.checkpointStep] at hk ⊢
    split at hw
    case isTrue hlt =>
      rw [if_pos hlt] at hk ⊢
      refine .logging (Ops.setPhase_self ..) (hlog.frame hk rfl rfl
        (Ops.setPhase_self ..) trivial fun X Y hXY => ?_)
      obtain ⟨c₂, he, hround⟩ := hXY.round hlt
      rw [hw] at he
      cases he
      exact hround
    case isFalse hge =>
      cases hw
      rw [if_neg hge] at hk ⊢
      refine .marking (Ops.setPhase_self ..) (hlog.frame hk rfl rfl
        (Ops.setPhase_self ..) trivial fun X Y hXY => ?_)
      obtain rfl : k = s.log.header.numBlocks := Nat.le_antisymm hXY.le (by omega)
      exact hXY
  | marking =>
    obtain ⟨gs, g, hgs, -, hlog⟩ := (hst.inMarking hr hi).closed
    cases hw
    exact .replaying (Ops.setPhase_self ..) hlog.mark
  | replaying k =>
    have hrep := hst.inReplaying hr hi
    simp only [checkpointWrite] at hw
    rw [Ops.checkpointStep] at hk ⊢
    split at hw
    case isTrue hzero =>
      cases hw
      rw [if_pos hzero] at hk ⊢
      refine .settled (only_copies hr hk hi (by simp) fun copy pc hp => ?_) ?_
      · rw [Ops.setPhase_self] at hp
        cases hp
        exact id
      · rw [hl.closed i ⟨_, _, hi, by simp⟩]
        exact hrep.settled hzero
    case isFalse hne =>
      rw [if_neg hne] at hk ⊢
      split at hw
      case isTrue hlt =>
        rw [if_pos hlt]
        obtain ⟨c₂, he, hround⟩ := hrep.round hlt
        rw [hw] at he
        cases he
        exact .replaying (Ops.setPhase_self ..) hround
      case isFalse hge =>
        cases hw
        rw [if_neg hge]
        exact .replaying hi (hrep.clear (by omega))
  | finishing =>
    cases hw
    refine hst.frame hk rfl rfl ?_ ?_ ?_
    · intro copy pc hp
      rw [hi] at hp
      cases hp
      exact id
    · simp [Ops.checkpointStep]
    · intro ctx hwait
      rcases hwait with hwait | hwait <;> rw [hi] at hwait <;> cases hwait
  | persisting =>
    cases hw
    refine .settled (only_copies hr hk hi (by simp) fun copy pc hp => ?_)
      (hst.inSettled hr hi id (by simp))
    simp only [Ops.checkpointStep, Function.update_self] at hp
    cases hp
    exact id
  | waking =>
    cases hw
    refine .settled (only_copies hr hk hi (by simp) fun copy pc hp => ?_)
      (hst.inSettled hr hi id (by simp))
    simp only [Ops.checkpointStep, Function.update_self] at hp
    cases hp
    exact id
  | restoring =>
    cases hw
    refine .settled (only_copies hr hk hi (by simp) fun copy pc hp => ?_)
      (hst.inSettled hr hi id (by simp))
    simp only [Ops.checkpointStep, Function.update_self] at hp
    cases hp
    exact id

/-- A step of operations keeps the stage in order, but for the writes of blocks. -/
theorem Stage.step {a : OpLabel} (hst : Stage sb c h s) (hl : Ledger sb h s) (hr : s.Reserved sb)
    (hw : cacheStep sb s c a = some c') (hn : s.next a = some s') :
    Stage sb c' (h.step a s') s' := by
  suffices hs : Stage sb c' (h.group s' a) s' by
    rw [History.step]
    split
    · exact hs.return _
    · exact hs
  cases a with
  | enter i =>
    cases hw
    simp only [Ops.next, Option.ite_none_right_eq_some, Option.some.injEq] at hn
    obtain ⟨hi, rfl⟩ := hn
    exact hst.frame (Ops.kept_update rfl) rfl rfl (by simp [hi]) (by simp)
      (by simp [hi, Phase.Waits])
  | begin i =>
    cases hw
    simp only [Ops.next, Option.ite_none_right_eq_some, Option.some.injEq] at hn
    obtain ⟨hi, rfl⟩ := hn
    simp only [Ops.cacheBeginOp]
    split
    all_goals
      exact hst.frame (Ops.kept_update rfl) rfl rfl (by simp [hi]) (by simp [Ops.setPhase])
        (by simp [hi, Phase.Waits])
  | sync i b => cases hw
  | endOp i =>
    cases hw
    simp only [Ops.next] at hn
    split at hn
    case h_1 ctx hi => exact hst.endOp hl hr hi hn
    case h_2 => cases hn
  | wait i =>
    cases hw
    simp only [Ops.next] at hn
    split at hn
    case h_1 ctx hi =>
      cases hn
      refine hst.frame (Ops.kept_update rfl) rfl rfl (by simp [hi]) ?_ fun c hwait hts => ?_
      · rw [Ops.waitPersisted, Ops.setPhase_self]
        split <;> simp
      · obtain rfl : c = ctx := by
          rcases hwait with hwait | hwait <;> rw [hi] at hwait <;> cases hwait
          rfl
        rw [Ops.waitPersisted, Ops.setPhase_self, if_pos hts]
        exact .inr rfl
    case h_2 => cases hn
  | checkpoint i =>
    simp only [Ops.next] at hn
    simp only [cacheStep] at hw
    split at hn
    case h_1 copy pc hi =>
      cases hn
      rw [hi] at hw
      exact hst.checkpointStep hl hr hi hw
    case h_2 => cases hn

/-- The contents that a recovery restores, and the operations it restores, while the machine is
running. -/
theorem Stage.recoverable (hst : Stage sb c h s) (hl : Ledger sb h s) :
    ∃ k, Recoverable sb c.device (applyGroups h.base (h.groups.take k)) ∧
      ∀ i ∈ h.returned, i ∈ (h.groups.take k).flatMap Group.ops := by
  have hall (i : Nat) (hi : i ∈ h.returned) : i ∈ h.groups.flatMap Group.ops :=
    hl.ended_closed (hl.returned i hi)
  have hlogging {k : Nat} (hlog : InLogging sb c h s k) :
      ∃ k, Recoverable sb c.device (applyGroups h.base (h.groups.take k)) ∧
        ∀ i ∈ h.returned, i ∈ (h.groups.take k).flatMap Group.ops := by
    obtain ⟨gs, g, hgs, hg, hlog⟩ := hlog.closed
    refine ⟨gs.length, ?_, fun i hi => ?_⟩
    · rw [hgs, List.take_left]
      exact ⟨_, hlog.disk.restores⟩
    · have hmem := hall i hi
      rw [hgs, List.flatMap_append, List.mem_append] at hmem
      rw [hgs, List.take_left]
      refine hmem.resolve_right fun hig => ?_
      have hend := hl.returned i hi
      rcases hg i (by simpa using hig) with ⟨ctx, hw | hw, -⟩ | ⟨copy, pc, hp, -⟩
      · rw [hend] at hw; cases hw
      · rw [hend] at hw; cases hw
      · rw [hend] at hp; cases hp
  cases hst with
  | logging _ hlog => exact hlogging hlog
  | marking _ hlog => exact hlogging hlog
  | replaying _ hr => exact ⟨h.groups.length, by rw [List.take_length]; exact ⟨_, hr.restores⟩,
      by rwa [List.take_length]⟩
  | settled _ hs => exact ⟨h.groups.length, by rw [List.take_length]; exact ⟨_, hs.disk.restores⟩,
      by rwa [List.take_length]⟩

end Stage

/-! ### All runs -/

/-- A recovery restores the first `k` groups of the history, with every operation that
returned. -/
def Restored (h : History) (k : Nat) : Prop :=
  ∀ i ∈ h.returned, i ∈ (h.groups.take k).flatMap Group.ops

/-- Each update of a group is by an operation of the group, and no operation is in two groups. -/
structure Grouped (h : History) : Prop where
  nodup : (h.groups.flatMap Group.ops).Nodup
  owner : ∀ g ∈ h.groups, ∀ u ∈ g.updates, u.op ∈ g.ops

/-- What holds in every state. -/
def Inv (sb : SuperBlock) (w : World) : Prop :=
  match w.power with
  | .off => w.cache = .empty w.cache.device ∧ Grouped w.history ∧ ∃ k, Restored w.history k ∧
      Recoverable sb w.cache.device (applyGroups w.history.base (w.history.groups.take k))
  | .booting header i => Grouped w.history ∧ ∃ k, Restored w.history k ∧
      Replaying sb w.cache header (applyGroups w.history.base (w.history.groups.take k)) i
  | .on ops => ops.Reserved sb ∧ Ledger sb w.history ops ∧ Stage sb w.cache w.history ops

section Runs

variable {sb : SuperBlock} {w w' : World}

theorem Ledger.grouped {h : History} {s : Ops} (hl : Ledger sb h s) : Grouped h :=
  ⟨hl.nodup.of_append_left, hl.owner⟩

theorem Inv.init (h : w.Init sb) : Inv sb w := by
  obtain ⟨hzero, hempty, hoff, hstart⟩ := h
  rw [Inv, hoff, hstart]
  refine ⟨hempty, ⟨by simp [History.start], by simp [History.start]⟩, 0, by simp [Restored, History.start], ?_⟩
  exact ⟨_, AtHome.restores ⟨hzero, fun _ _ => rfl⟩⟩

theorem Inv.crash (h : Inv sb w) (hn : w.next sb .crash = some w') : Inv sb w' := by
  simp only [World.next] at hn
  split at hn
  case h_1 => cases hn
  case h_2 hoff =>
    cases hn
    rw [Inv] at h ⊢
    cases hp : w.power with
    | off => exact absurd hp hoff
    | booting header i =>
      rw [hp] at h
      obtain ⟨hg, k, hk, hr⟩ := h
      exact ⟨rfl, hg, k, hk, ⟨_, hr.restores⟩⟩
    | on ops =>
      rw [hp] at h
      obtain ⟨-, hl, hst⟩ := h
      obtain ⟨k, hr, hk⟩ := hst.recoverable hl
      exact ⟨rfl, hl.grouped, k, hk, hr⟩

theorem Inv.boot (h : Inv sb w) (hn : w.next sb .boot = some w') : Inv sb w' := by
  simp only [World.next] at hn
  split at hn
  case h_1 hp =>
    cases hn
    rw [Inv, hp] at h
    obtain ⟨hempty, hg, k, hk, hr⟩ := h
    refine ⟨hg, k, hk, ?_⟩
    have hrep := hr.replaying
    rw [← hempty] at hrep
    exact hrep
  case h_2 => cases hn

theorem Inv.recover (h : Inv sb w) (hn : w.next sb .recover = some w') : Inv sb w' := by
  simp only [World.next] at hn
  split at hn
  case h_1 header i hp =>
    rw [Inv, hp] at h
    obtain ⟨hg, k, hk, hr⟩ := h
    split at hn
    case isTrue hzero =>
      cases hn
      have hs := hr.settled hzero
      refine ⟨Ops.Reserved.init ⟨⟨header, hzero, rfl⟩, fun _ => rfl, rfl⟩, Ledger.start _ _ hzero,
        .settled (by simp) ⟨hs.ok, hs.quiet, hs.uncached, ⟨hs.disk.empty, fun _ _ => rfl⟩,
          fun b hb => ?_⟩⟩
      rw [hs.view b hb, ← hs.disk.home b hb]
      rfl
    case isFalse =>
      split at hn
      case isTrue hlt =>
        obtain ⟨c, hc, rfl⟩ := Option.map_eq_some_iff.mp hn
        obtain ⟨c', he, hround⟩ := hr.round hlt
        rw [hc] at he
        cases he
        exact ⟨hg, k, hk, hround⟩
      case isFalse hge =>
        cases hn
        exact ⟨hg, k, hk, hr.clear (by omega)⟩
  case h_2 => cases hn

theorem Inv.write {i : Nat} {b : UInt64} {d : BlockData} (h : Inv sb w)
    (hb : ¬InLog sb b.toNat) (hn : w.next sb (.write i b d) = some w') : Inv sb w' := by
  simp only [World.next] at hn
  split at hn
  case h_1 ops hp =>
    rw [Inv, hp] at h
    obtain ⟨hr, hl, hst⟩ := h
    simp only [Option.bind_eq_bind, Option.bind_eq_some_iff, Option.some.injEq] at hn
    obtain ⟨c, hc, ops', ho, rfl⟩ := hn
    have hr' := hr.next _ ho
    simp only [Ops.next] at ho
    split at ho
    case h_1 ctx hi =>
      obtain ⟨ctx', hrec, rfl⟩ := Option.map_eq_some_iff.mp ho
      obtain ⟨hno, -⟩ := hr.running_accounted hi
      exact ⟨hr', hl.sync hi (hr.recorded i ctx hi) hrec ⟨hb, b.toNat_lt⟩ hno d,
        hst.sync hno hi hb hc⟩
    case h_2 => cases ho
  case h_2 => cases hn

theorem Inv.op {a : OpLabel} (h : Inv sb w) (hn : w.next sb (.op a) = some w') : Inv sb w' := by
  simp only [World.next] at hn
  split at hn
  case h_1 ops hp =>
    rw [Inv, hp] at h
    obtain ⟨hr, hl, hst⟩ := h
    simp only [Option.bind_eq_bind, Option.bind_eq_some_iff, Option.some.injEq] at hn
    obtain ⟨c, hc, ops', ho, rfl⟩ := hn
    refine ⟨hr.next _ ho, hl.step hr (fun j b ha => ?_) ho, hst.step hl hr hc ho⟩
    rw [ha] at hc
    cases hc
  case h_2 => cases hn

theorem inv_of_reachable (h : (machine sb).ReachableUnder (World.AvoidsLog sb) w) : Inv sb w := by
  refine h.invariant (fun _ => Inv.init) fun w a w' hw ha hn => ?_
  cases a with
  | write i b d => exact hw.write ha hn
  | op a => exact hw.op hn
  | crash => exact hw.crash hn
  | boot => exact hw.boot hn
  | recover => exact hw.recover hn

end Runs

/-- However operations interleave and wherever the machine stops, also during recoveries: when
`init_bcache` completes, the blocks outside the log are the disk of the last completed
`init_bcache` with the updates of the first `k` groups, these groups contain every operation
whose `cache_end_op` has returned, every update is in the group of its operation, and no
operation is in two groups. -/
theorem crash_atomicity (sb : SuperBlock) (w w' : World) (ops : Ops)
    (h : (machine sb).ReachableUnder (World.AvoidsLog sb) w)
    (hn : (machine sb).next w .recover = some w') (hon : w'.power = .on ops) :
    ∃ k ≤ w.history.groups.length,
      (∀ b, ¬InLog sb b →
        w'.cache.device b = applyGroups w.history.base (w.history.groups.take k) b) ∧
      (∀ i ∈ w.history.returned, ∃ g ∈ w.history.groups.take k, i ∈ g.ops) ∧
      (∀ g ∈ w.history.groups, ∀ u ∈ g.updates, u.op ∈ g.ops) ∧
      (w.history.groups.flatMap Group.ops).Nodup := by
  have hinv := inv_of_reachable h
  simp only [machine, World.next] at hn
  split at hn
  case h_1 header i hp =>
    rw [Inv, hp] at hinv
    obtain ⟨hg, k, hk, hr⟩ := hinv
    split at hn
    case isTrue hzero =>
      cases hn
      refine ⟨min k w.history.groups.length, Nat.min_le_right _ _, fun b hb => ?_, fun i hi => ?_,
        hg.owner, hg.nodup⟩
      · rw [← List.take_eq_take_min]
        exact (hr.settled hzero).disk.home b hb
      · rw [← List.take_eq_take_min]
        exact List.mem_flatMap.mp (hk i hi)
    case isFalse =>
      split at hn
      · obtain ⟨c, -, rfl⟩ := Option.map_eq_some_iff.mp hn
        cases hon
      · cases hn
        cases hon
  case h_2 => cases hn

/-- The machine before its first `init_bcache`, with a disk of zeroes. -/
def zeroed : World := ⟨.empty fun _ => Bytes.zero, .off, .start fun _ => Bytes.zero⟩

/-- One operation writes block 70, and the machine stops during its checkpoint, after the header
is written, and again during the recovery. -/
def twoCrashes : List Label :=
  [.boot, .recover, .op (.enter 0), .op (.begin 0), .write 0 70 (Bytes.ofFn fun _ => 1),
    .op (.endOp 0), .op (.checkpoint 0), .op (.checkpoint 0), .op (.checkpoint 0), .crash,
    .boot, .recover, .crash, .boot, .recover, .recover]

/-- After two crashes the recovery completes with the group of the operation. -/
theorem crash_atomicity_twice : ∃ w w' ops,
    (machine mkfsSuperBlock).ReachableUnder (World.AvoidsLog mkfsSuperBlock) w ∧
    (machine mkfsSuperBlock).next w .recover = some w' ∧ w'.power = .on ops ∧
    w.history.groups.length = 1 ∧ ∃ k ≤ w.history.groups.length, ∀ b, ¬InLog mkfsSuperBlock b →
      w'.cache.device b = applyGroups w.history.base (w.history.groups.take k) b := by
  have hrun : ((machine mkfsSuperBlock).run zeroed twoCrashes).map (fun w =>
      (match w.power with | .booting h _ => h.numBlocks == 0 | _ => false) &&
        w.history.groups.length == 1) = some true := by decide +kernel
  obtain ⟨w, hw, hp⟩ := Option.map_eq_some_iff.mp hrun
  have hinit : zeroed.Init mkfsSuperBlock := by
    refine ⟨?_, rfl, rfl, rfl⟩
    simp [zeroed, readHeader, LogHeader.decode, BCache.empty]
  have hreach : (machine mkfsSuperBlock).ReachableUnder (World.AvoidsLog mkfsSuperBlock) w := by
    refine Machine.ReachableUnder.run (.init hinit) (fun _ a ha => ?_) hw
    simp only [twoCrashes, List.mem_cons, List.not_mem_nil, or_false] at ha
    rcases ha with rfl | rfl | rfl | rfl | rfl | rfl | rfl | rfl | rfl | rfl | rfl | rfl | rfl |
      rfl | rfl | rfl
    all_goals first | trivial | exact (by decide : ¬InLog mkfsSuperBlock (70 : UInt64).toNat)
  simp only [Bool.and_eq_true, beq_iff_eq] at hp
  obtain ⟨hpower, hlen⟩ := hp
  split at hpower
  case h_1 header i hb =>
    have hzero : header.numBlocks = 0 := by simpa using hpower
    have hn : (machine mkfsSuperBlock).next w .recover = some ⟨w.cache,
        .on ⟨Log.initLog mkfsSuperBlock header, fun _ => .idle, []⟩, .start w.cache.device⟩ := by
      simp [machine, World.next, hb, hzero]
    obtain ⟨k, hk, hdisk, -⟩ := crash_atomicity mkfsSuperBlock w _ _ hreach hn rfl
    exact ⟨w, _, _, hreach, hn, rfl, hlen, k, hk, hdisk⟩
  case h_2 => cases hpower

end Crash

end FtosFfs.Cache
