import FtosFfs.Cache.Crash
import FtosFfs.Fs.Journal
import Mathlib.Logic.Relation

/-! The inode layer over the log, across crashes.  A call of the inode layer in an operation leaves the
blocks that the operation recorded to be written to the block cache one at a time, and the machine can
stop between any two steps.  What a recovery leaves on disk is the disk of a moment at which no operation
ran, so no block is in two places, the bitmaps are exact, and no file has a hole. -/

namespace FtosFfs.Fs

open Lib Lib.Exec Cache Cache.Crash

/-! ### Disks -/

/-- Every block is where at most one slot has it, the bitmaps are exact, and no file has a hole. -/
structure Consistent (d : Nat → BlockData) : Prop where
  owned : BlocksOwned (diskEntry d) d
  filled : FilledDisk d

section Disks

variable {d d' : Nat → BlockData} {s t : State}

/-- The blocks of the groups are all that matters. -/
theorem Consistent.congr (h : Consistent d) (hsame : ∀ b, InGroups b → d' b = d b) : Consistent d' := by
  have he (m : Nat) (hm : IsInode m) : diskEntry d' m = diskEntry d m := by
    rw [diskEntry, hsame _ (isInodes_toBlockNo hm).1, diskEntry]
  have href : ref (diskEntry d') d' = ref (diskEntry d) d := by
    funext x
    obtain ⟨m, pl⟩ := x
    by_cases hm : IsInode m
    · exact ref_sameEntry h.owned (fun c hc => hsame c hc.1) (he m hm) pl
    · rw [ref_of_not_inUse fun hu => hm hu.1, ref_of_not_inUse fun hu => hm hu.1]
  have hbit (b : Nat) (hb : InGroups b) : blockBit d' b = blockBit d b := by
    rw [blockBit_eq, blockBit_eq, hsame]
    rw [inGroups_iff] at *
    omega
  refine ⟨h.owned.congr href hbit, fun n hn => ?_⟩
  have hn' : InUse (diskEntry d) n := ⟨hn.1, he n hn.1 ▸ hn.2⟩
  rw [he n hn.1]
  exact (h.filled n hn').congr href

theorem not_inLog {b : Nat} (hb : InGroups b) : ¬InLog sblock b := by
  rw [inGroups_iff] at hb
  rintro ⟨-, hle⟩
  have hle' : b ≤ 2 + 62 := hle
  omega

theorem Whole.consistent (h : Whole s) : Consistent s.disk := ⟨h.cached.owned, h.filled⟩

/-- The context of the running operation is not part of what memory and disk agree on. -/
theorem Whole.withCtx (h : Whole s) (c : OpContext) : Whole { s with ctx := c } :=
  ⟨h.cached.congr rfl rfl rfl rfl rfl, h.used, h.size, h.filled⟩

theorem whole_mount (h : Consistent d) (mem : Ptr → Inode) : Whole (mount sblock d mem) :=
  ⟨cached_mount h.owned, usedExact_countUsed d, by simp [mount], h.filled⟩

end Disks

/-! ### The calls -/

namespace InodeOp

/-- The call writes, with the context of an operation. -/
def logs : InodeOp → Bool
  | alloc ctx _ | allocGroup ctx _ _ | sync ctx _ _ | clear ctx _ | write ctx _ _ _ _ | insert ctx _ _ _
  | remove ctx _ _ | put ctx _ => ctx
  | _ => false

/-- The call takes no context. -/
def plain : InodeOp → Bool
  | get _ | share _ | lock _ | unlock _ | setFields _ _ _ _ => true
  | _ => false

variable {s t : State} {u : Unit} {op : InodeOp}

/-- A call with a context records the blocks that it writes, and they are blocks of the groups. -/
theorem journaled (h : Whole s) (hl : op.logs = true) (ha : op.Allowed s) (hr : Runs op.exec s u t) :
    Journaled s t := by
  cases op with
  | beginOp | endOp | get _ | share _ | lock _ | unlock _ | setFields _ _ _ _ => cases hl
  | alloc ctx type =>
    obtain rfl : ctx = true := hl
    obtain ⟨n, hr⟩ := runs_discard hr
    exact inodeAlloc_journaled hr
  | allocGroup ctx type gno =>
    obtain rfl : ctx = true := hl
    obtain ⟨n, hr⟩ := runs_discard hr
    exact inodeAllocGroup_journaled hr
  | sync ctx p doWrite =>
    obtain rfl : ctx = true := hl
    have hv := (h.cached.inode p ha.1).locked ha.2
    cases doWrite with
    | true => exact inodeSync_journaled hv (h.cached.list.isInode p ha.1) hr
    | false =>
      obtain ⟨-, rfl⟩ := (runs_inodeSync_read hv).mp hr
      exact .of_eq rfl rfl
  | clear ctx p =>
    obtain rfl : ctx = true := hl
    have hv := (h.cached.inode p ha.1).locked ha.2
    exact inodeClear_journaled hv rfl State.view_self (h.cached.inUse_view ha.1 hv)
      (h.cached.owned_view ha.1 hv) hr
  | write ctx p src off count =>
    obtain rfl : ctx = true := hl
    obtain ⟨r, hr⟩ := runs_discard hr
    exact h.inodeWrite_journaled ha.1 ((h.cached.inode p ha.1).locked ha.2) hr
  | insert ctx p name n =>
    obtain rfl : ctx = true := hl
    obtain ⟨r, hr⟩ := runs_discard hr
    exact h.inodeInsert_journaled ha.1 ((h.cached.inode p ha.1).locked ha.2) hr
  | remove ctx p index =>
    obtain rfl : ctx = true := hl
    exact h.inodeRemove_journaled ha.1 ((h.cached.inode p ha.1).locked ha.2) hr
  | put ctx p =>
    obtain rfl : ctx = true := hl
    exact h.cached.inodePut_journaled ha hr

theorem disk_inodeGet {n : Nat} {p : Ptr} (h : ListOk s) (hr : Runs (inodeGet sblock n) s p t) :
    t.disk = s.disk := by
  obtain ⟨-, ⟨-, -, rfl⟩ | ⟨-, -, rfl⟩⟩ := (runs_inodeGet h).mp hr
  · rfl
  · rfl

theorem disk_plain (h : Whole s) (hp : op.plain = true) (hr : Runs op.exec s u t) : t.disk = s.disk := by
  cases op with
  | get n =>
    obtain ⟨p, hr⟩ := runs_discard hr
    exact disk_inodeGet h.cached.list hr
  | share p =>
    obtain ⟨q, hr⟩ := runs_discard hr
    simp only [inodeShare, Fs.incrementRc, runs_bind, runs_modifyInode, runs_pure] at hr
    obtain ⟨_, _, rfl, -, rfl⟩ := hr
    rfl
  | lock p =>
    obtain ⟨-, -, -, -, rfl⟩ := runs_inodeLock.mp hr
    rfl
  | unlock p =>
    obtain ⟨-, -, rfl⟩ := runs_inodeUnlock.mp hr
    rfl
  | setFields p major minor numLinks =>
    rw [exec, runs_modifyEntry] at hr
    subst hr
    rfl
  | _ => cases hp

end InodeOp

/-! ### The machine -/

/-- The log with the cache and the device, the inode layer while the kernel is up, and the writes that
the call which runs has still to make. -/
structure Node where
  world : World
  kernel : Option State
  todo : List Update

namespace Node

/-- The steps: the machine stops, starts, and recovers; operations begin and end, and the last one runs
the checkpoint; a call of the inode layer runs on the blocks that the cache shows, and writes what it
changed. -/
inductive Step : Node → Node → Prop
  | crash {n : Node} {w : World} (hn : n.world.next sblock .crash = some w) : Step n ⟨w, none, []⟩
  | boot {n : Node} {w : World} (hn : n.world.next sblock .boot = some w) : Step n ⟨w, none, []⟩
  | recover {n : Node} {w : World} (hn : n.world.next sblock .recover = some w)
    (hoff : ∀ ops, w.power ≠ .on ops) :
    Step n ⟨w, none, []⟩
  /-- The end of `init_bcache`, and `init_inodes`. -/
  | mount {n : Node} {w : World} {ops : Ops} {mem : Ptr → Inode} {root : Ptr} {s : State}
    (hn : n.world.next sblock .recover = some w) (hon : w.power = .on ops)
    (hr : Runs (inodeGet sblock 1) (Fs.mount sblock w.cache.device mem) root s) : Step n ⟨w, some s, []⟩
  /-- A step of an operation that has no call running. -/
  | op {n : Node} {w : World} {s : State} (a : OpLabel) (hk : n.kernel = some s)
    (hn : n.world.next sblock (.op a) = some w) (hidle : ∀ u ∈ n.todo, u.op ≠ a.op) :
    Step n ⟨w, some s, n.todo⟩
  | plain {n : Node} {s t : State} (op : InodeOp) (hk : n.kernel = some s) (hidle : n.todo = [])
    (hp : op.plain = true) (ha : op.Allowed s) (hr : Runs op.exec s () t) : Step n ⟨n.world, some t, []⟩
  /-- A call in operation `i`, with its writes in any order in which it records their blocks. -/
  | call {n : Node} {s t : State} {ops : Ops} {i : Nat} {c : OpContext} (op : InodeOp) (us : List Update)
    (hk : n.kernel = some s) (hidle : n.todo = []) (hon : n.world.power = .on ops)
    (hi : ops.phase i = .running c) (hl : op.logs = true) (ha : op.Allowed s)
    (hr : Runs op.exec { s with ctx := c } () t) (hop : ∀ u ∈ us, u.op = i)
    (hdisk : t.disk = applyUpdates s.disk us)
    (hctx : recordAll true c (us.map Update.blockNo) = some t.ctx) : Step n ⟨n.world, some t, us⟩
  /-- The next write of a call. -/
  | write {n : Node} {w : World} {s : State} {u : Update} {us : List Update} (hk : n.kernel = some s)
    (htodo : n.todo = u :: us)
    (hn : n.world.next sblock (.write u.op (UInt64.ofNat u.blockNo) u.data) = some w) :
    Step n ⟨w, some s, us⟩

/-- The machine is off, and its disk is an image with an empty log. -/
inductive Reached (image : (Nat → BlockData) → Prop) : Node → Prop
  | init {w : World} (hw : w.Init sblock) (himage : image w.cache.device) : Reached image ⟨w, none, []⟩
  | step {n n' : Node} (hn : Reached image n) (hs : Step n n') : Reached image n'

theorem Reached.run {image : (Nat → BlockData) → Prop} {n n' : Node} (h : Reached image n)
    (hs : Relation.ReflTransGen Step n n') : Reached image n' := by
  induction hs with
  | refl => exact h
  | tail _ hstep ih => exact ih.step hstep

/-- Steps of operations while no call runs. -/
theorem Reached.ops {image : (Nat → BlockData) → Prop} {w w' : World} {s : State} {l : List OpLabel}
    (h : Reached image ⟨w, some s, []⟩)
    (hr : (machine sblock).run w (l.map .op) = some w') : Reached image ⟨w', some s, []⟩ := by
  induction l generalizing w with
  | nil =>
    obtain rfl := Option.some.inj hr
    exact h
  | cons a l ih =>
    obtain ⟨v, hv, hr⟩ := Option.bind_eq_some_iff.mp hr
    exact ih (h.step (.op a rfl hv (by simp))) hr

end Node

/-! ### Steps of operations -/

section Ops

variable {ops ops' : Ops} {a : OpLabel}

/-- A step of operations leaves the others where they are, but for those that wake up. -/
theorem kept_next (hn : ops.next a = some ops') : Ops.Kept ops a.op ops' := by
  cases a with
  | enter i =>
    simp only [Ops.next, Option.ite_none_right_eq_some, Option.some.injEq] at hn
    obtain ⟨-, rfl⟩ := hn
    exact Ops.kept_update rfl
  | begin i =>
    simp only [Ops.next, Option.ite_none_right_eq_some, Option.some.injEq] at hn
    obtain ⟨-, rfl⟩ := hn
    unfold Ops.cacheBeginOp
    split
    · exact Ops.kept_update rfl
    · exact Ops.kept_update rfl
  | sync i b =>
    simp only [Ops.next] at hn
    split at hn
    case h_1 =>
      obtain ⟨c, -, rfl⟩ := Option.map_eq_some_iff.mp hn
      exact Ops.kept_update rfl
    case h_2 => cases hn
  | endOp i =>
    simp only [Ops.next] at hn
    split at hn
    case h_1 c hi =>
      simp only [Ops.cacheEndOp, Option.bind_eq_bind, Option.bind_eq_some_iff] at hn
      obtain ⟨log, -, hn⟩ := hn
      split at hn
      · obtain rfl := Option.some.inj hn
        exact Ops.kept_wakeLog rfl
      · obtain rfl := Option.some.inj hn
        exact Ops.kept_wakeLog rfl
    case h_2 => cases hn
  | wait i =>
    simp only [Ops.next] at hn
    split at hn
    case h_1 =>
      obtain rfl := Option.some.inj hn
      exact Ops.kept_update rfl
    case h_2 => cases hn
  | checkpoint i =>
    simp only [Ops.next] at hn
    split at hn
    case h_1 copy pc hi =>
      obtain rfl := Option.some.inj hn
      exact Ops.checkpointStep_kept ops i copy pc
    case h_2 => cases hn

theorem checkpointStep_running {i copy : Nat} {pc : Checkpoint} {c : OpContext}
    (hi : ops.phase i = .checkpointing copy pc) : (ops.checkpointStep i copy pc).phase i ≠ .running c := by
  cases pc with
  | logging k =>
    rw [Ops.checkpointStep]
    split <;> simp [Ops.setPhase]
  | replaying k =>
    rw [Ops.checkpointStep]
    split
    · simp [Ops.setPhase]
    · split
      · simp [Ops.setPhase]
      · simp [hi]
  | marking | persisting | waking | restoring | finishing => simp [Ops.checkpointStep, Ops.setPhase]

/-- An operation that runs after a step of its own has begun in it, or was running. -/
theorem running_next {c : OpContext} (hn : ops.next a = some ops') (hc : ops'.phase a.op = .running c)
    (hsync : ∀ i b, a ≠ .sync i b) : c.blockNo = [] ∨ ops.phase a.op = .running c := by
  cases a with
  | enter i =>
    simp only [Ops.next, Option.ite_none_right_eq_some, Option.some.injEq] at hn
    obtain ⟨-, rfl⟩ := hn
    simp [OpLabel.op, Ops.setPhase] at hc
  | begin i =>
    simp only [Ops.next, Option.ite_none_right_eq_some, Option.some.injEq] at hn
    obtain ⟨-, rfl⟩ := hn
    unfold Ops.cacheBeginOp at hc
    split at hc
    · simp [OpLabel.op, Ops.setPhase] at hc
    · simp only [OpLabel.op, Function.update_self, Phase.running.injEq] at hc
      rw [← hc]
      exact .inl rfl
  | sync i b => exact absurd rfl (hsync i b)
  | endOp i =>
    simp only [Ops.next] at hn
    split at hn
    case h_1 c' hi =>
      simp only [Ops.cacheEndOp, Option.bind_eq_bind, Option.bind_eq_some_iff] at hn
      obtain ⟨log, -, hn⟩ := hn
      split at hn
      · obtain rfl := Option.some.inj hn
        simp [OpLabel.op] at hc
      · obtain rfl := Option.some.inj hn
        simp only [OpLabel.op, Ops.waitPersisted, Ops.setPhase, Function.update_self] at hc
        split at hc <;> cases hc
    case h_2 => cases hn
  | wait i =>
    simp only [Ops.next] at hn
    split at hn
    case h_1 c' hi =>
      obtain rfl := Option.some.inj hn
      simp only [OpLabel.op, Ops.waitPersisted, Ops.setPhase, Function.update_self] at hc
      split at hc <;> cases hc
    case h_2 => cases hn
  | checkpoint i =>
    simp only [Ops.next] at hn
    split at hn
    case h_1 copy pc hi =>
      obtain rfl := Option.some.inj hn
      exact .inr (absurd hc (checkpointStep_running hi))
    case h_2 => cases hn

/-- The history after a step of operations: a group is closed, or the updates stay where they are. -/
theorem history_step (h : History) (a : OpLabel) (ops : Ops) :
    (h.step a ops).base = h.base ∧
      ((∃ i g, a = .endOp i ∧ ops.log.opCount = 0 ∧ g.updates = h.current.updates ∧
          (h.step a ops).groups = h.groups ++ [g] ∧ (h.step a ops).current.updates = []) ∨
        ((h.step a ops).groups = h.groups ∧ (h.step a ops).current.updates = h.current.updates)) := by
  have hreturned : (h.step a ops).base = (h.group ops a).base ∧
      (h.step a ops).groups = (h.group ops a).groups ∧
      (h.step a ops).current = (h.group ops a).current := by
    unfold History.step
    dsimp only
    split
    · exact ⟨rfl, rfl, rfl⟩
    · exact ⟨rfl, rfl, rfl⟩
  obtain ⟨hbase, hgroups, hcurrent⟩ := hreturned
  rw [hbase, hgroups, hcurrent]
  cases a with
  | endOp i =>
    show (h.endOp i ops.log.opCount).base = _ ∧ _
    unfold History.group History.endOp
    dsimp only
    split
    case isTrue hzero =>
      exact ⟨rfl, .inl ⟨i, ⟨h.current.ops ++ [i], h.current.updates⟩, rfl, hzero, rfl, rfl, rfl⟩⟩
    case isFalse => exact ⟨rfl, .inr ⟨rfl, rfl⟩⟩
  | _ => exact ⟨rfl, .inr ⟨rfl, rfl⟩⟩

/-- What a list of syncs records. -/
theorem mem_recordAll {c c' : OpContext} {l : List Nat} (h : recordAll true c l = some c')
    (hlen : c.blockNo.length ≤ opMaxNumBlocks) (b : Nat) : b ∈ c'.blockNo ↔ b ∈ l ∨ b ∈ c.blockNo := by
  induction l generalizing c with
  | nil =>
    obtain rfl := Option.some.inj (show some c = some c' from h)
    simp
  | cons x l ih =>
    rw [recordAll_cons, Option.bind_eq_some_iff] at h
    obtain ⟨c₁, hc₁, h⟩ := h
    have hrec : c.record x = some c₁ := hc₁
    rw [ih h (OpContext.length_record hrec hlen), OpContext.mem_record hrec hlen, List.mem_cons]
    tauto

end Ops

section Recovery

variable {w w' : World} {ops : Ops}

/-- The last step of a recovery. -/
theorem recover_on (hn : w.next sblock .recover = some w') (hon : w'.power = .on ops) :
    ∃ header i, w.power = .booting header i ∧ header.numBlocks = 0 ∧
      ops = ⟨Log.initLog sblock header, fun _ => .idle, []⟩ ∧
      w' = ⟨w.cache, .on ops, .start w.cache.device⟩ := by
  simp only [World.next] at hn
  split at hn
  case h_1 header i hp =>
    split at hn
    case isTrue hzero =>
      obtain rfl := Option.some.inj hn
      obtain rfl := Power.on.inj hon
      exact ⟨header, i, hp, hzero, rfl, rfl⟩
    case isFalse =>
      split at hn
      case isTrue =>
        obtain ⟨c, -, rfl⟩ := Option.map_eq_some_iff.mp hn
        cases hon
      case isFalse =>
        obtain rfl := Option.some.inj hn
        cases hon
  case h_2 => cases hn

/-- At the end of a recovery the groups up to some point are on disk, with all operations that had returned. -/
theorem recovered_prefix (h : (machine sblock).ReachableUnder (World.AvoidsLog sblock) w)
    (hn : w.next sblock .recover = some w') (hon : w'.power = .on ops) :
    ∃ k, (∀ b, ¬InLog sblock b →
        w'.cache.device b = applyGroups w.history.base (w.history.groups.take k) b) ∧
      ∀ i ∈ w.history.returned, ∃ g ∈ w.history.groups.take k, i ∈ g.ops := by
  obtain ⟨header, i, hp, hzero, -, rfl⟩ := recover_on hn hon
  have hinv := inv_of_reachable h
  rw [Crash.Inv, hp] at hinv
  obtain ⟨-, k, hk, hr⟩ := hinv
  exact ⟨k, fun b hb => (hr.settled hzero).disk.home b hb, fun j hj => List.mem_flatMap.mp (hk j hj)⟩

end Recovery

/-! ### The invariant -/

/-- While the kernel is up: memory agrees with the blocks, and these are the blocks of the log with the
writes that are made and those that are still to be made, all of them to blocks of the groups. -/
structure Running (w : World) (s : State) (us : List Update) (ops : Ops) : Prop where
  power : w.power = .on ops
  whole : Whole s
  groups : ∀ u ∈ us, InGroups u.blockNo
  recorded : ∀ i c, ops.phase i = .running c → ∀ b ∈ c.blockNo, InGroups b
  owner : ∀ u ∈ us, ∃ c, ops.phase u.op = .running c
  disk : s.disk = applyUpdates (applyGroups w.history.base w.history.groups) (w.history.current.updates ++ us)

namespace Node

/-- What holds in every state. -/
structure Sound (n : Node) : Prop where
  reach : (machine sblock).ReachableUnder (World.AvoidsLog sblock) n.world
  settled : ∀ k, Consistent (applyGroups n.world.history.base (n.world.history.groups.take k))
  running : ∀ s, n.kernel = some s → ∃ ops, Running n.world s n.todo ops

section Sound

variable {n n' : Node} {w : World} {s t : State} {ops : Ops} {us : List Update}

theorem Sound.reserved (h : Sound n) (hon : n.world.power = .on ops) : ops.Reserved sblock := by
  have hinv := inv_of_reachable h.reach
  rw [Crash.Inv, hon] at hinv
  exact hinv.1

theorem Sound.running_on (h : Sound n) (hk : n.kernel = some s) (hon : n.world.power = .on ops) :
    Running n.world s n.todo ops := by
  obtain ⟨ops', hrun⟩ := h.running s hk
  obtain rfl : ops' = ops := Power.on.inj (hrun.power.symm.trans hon)
  exact hrun

/-- A step that leaves the history as it is, after which the kernel is down. -/
theorem Sound.down (h : Sound n) {a : Label} (ha : n.world.AvoidsLog sblock a)
    (hn : n.world.next sblock a = some w) (hhistory : w.history = n.world.history) : Sound ⟨w, none, []⟩ := by
  refine ⟨h.reach.step ha hn, fun k => ?_, by simp⟩
  rw [hhistory]
  exact h.settled k

theorem Sound.crash (h : Sound n) (hn : n.world.next sblock .crash = some w) : Sound ⟨w, none, []⟩ := by
  refine h.down (a := .crash) trivial hn ?_
  simp only [World.next] at hn
  split at hn
  case h_1 => cases hn
  case h_2 =>
    obtain rfl := Option.some.inj hn
    rfl

theorem Sound.boot (h : Sound n) (hn : n.world.next sblock .boot = some w) : Sound ⟨w, none, []⟩ := by
  refine h.down (a := .boot) trivial hn ?_
  simp only [World.next] at hn
  split at hn
  case h_1 =>
    obtain rfl := Option.some.inj hn
    rfl
  case h_2 => cases hn

theorem Sound.recover (h : Sound n) (hn : n.world.next sblock .recover = some w)
    (hoff : ∀ ops, w.power ≠ .on ops) : Sound ⟨w, none, []⟩ := by
  refine h.down (a := .recover) trivial hn ?_
  simp only [World.next] at hn
  split at hn
  case h_1 header i hp =>
    split at hn
    case isTrue =>
      obtain rfl := Option.some.inj hn
      exact absurd rfl (hoff _)
    case isFalse =>
      split at hn
      case isTrue =>
        obtain ⟨c, -, rfl⟩ := Option.map_eq_some_iff.mp hn
        rfl
      case isFalse =>
        obtain rfl := Option.some.inj hn
        rfl
  case h_2 => cases hn

/-- The disk that a recovery leaves. -/
theorem Sound.recovered (h : Sound n) (hn : n.world.next sblock .recover = some w) (hon : w.power = .on ops) :
    Consistent w.cache.device := by
  obtain ⟨k, hdisk, -⟩ := recovered_prefix h.reach hn hon
  exact (h.settled k).congr fun b hb => hdisk b (not_inLog hb)

theorem Sound.mount (h : Sound n) (hn : n.world.next sblock .recover = some w) (hon : w.power = .on ops)
    {mem : Ptr → Inode} {root : Ptr}
    (hr : Runs (inodeGet sblock 1) (Fs.mount sblock w.cache.device mem) root s) :
    Sound ⟨w, some s, []⟩ := by
  have hwhole := whole_mount (h.recovered hn hon) mem
  have hdisk : s.disk = w.cache.device := InodeOp.disk_inodeGet hwhole.cached.list hr
  have hstart : w.history = .start w.cache.device ∧ ∀ i, ops.phase i = .idle := by
    obtain ⟨header, i, -, -, rfl, rfl⟩ := recover_on hn hon
    exact ⟨rfl, fun _ => rfl⟩
  obtain ⟨hstart, hidle⟩ := hstart
  refine ⟨h.reach.step (a := .recover) trivial hn, fun k => ?_, fun s' hs' => ?_⟩
  · rw [hstart]
    show Consistent (applyGroups w.cache.device (List.take k []))
    rw [List.take_nil]
    exact h.recovered hn hon
  · obtain rfl := Option.some.inj hs'
    refine ⟨ops, hon, hwhole.inodeGet hr, by simp, fun i c hi => ?_, by simp, ?_⟩
    · rw [hidle] at hi
      cases hi
    · rw [hdisk, hstart]
      rfl

/-- A step of operations: if it closes a group, no operation runs, and the disk is the group's. -/
theorem Sound.op (h : Sound n) {a : OpLabel} (hk : n.kernel = some s)
    (hn : n.world.next sblock (.op a) = some w) (hidle : ∀ u ∈ n.todo, u.op ≠ a.op) :
      Sound ⟨w, some s, n.todo⟩ := by
  have hreach : (machine sblock).ReachableUnder (World.AvoidsLog sblock) w :=
    h.reach.step (a := .op a) trivial hn
  have hinv := inv_of_reachable hreach
  simp only [World.next] at hn
  split at hn
  case h_2 => cases hn
  case h_1 ops hon =>
    have hrun := h.running_on hk hon
    simp only [Option.bind_eq_bind, Option.bind_eq_some_iff, Option.some.injEq] at hn
    obtain ⟨c, hc, ops', ho, rfl⟩ := hn
    have hkept := kept_next ho
    have howner : ∀ u ∈ n.todo, ∃ c, ops'.phase u.op = .running c := fun u hu => by
      obtain ⟨c, hc⟩ := hrun.owner u hu
      exact ⟨c, (hkept.running u.op (hidle u hu) c).mpr hc⟩
    obtain ⟨hbase, hgroups⟩ := history_step n.world.history a ops'
    have hdisk : s.disk = applyUpdates
        (applyGroups (n.world.history.step a ops').base (n.world.history.step a ops').groups)
        ((n.world.history.step a ops').current.updates ++ n.todo) ∧
        ∀ k, Consistent (applyGroups (n.world.history.step a ops').base
          ((n.world.history.step a ops').groups.take k)) := by
      rw [hbase]
      rcases hgroups with ⟨i, g, rfl, hzero, hg, hgroups, hcurrent⟩ | ⟨hgroups, hcurrent⟩
      · have hnone : n.todo = [] := by
          apply List.eq_nil_iff_forall_not_mem.mpr
          intro u hu
          obtain ⟨c, hc⟩ := howner u hu
          exact absurd hzero (hinv.1.counted.pos hc).ne'
        have hd := hrun.disk
        rw [hnone, List.append_nil, ← hg] at hd
        rw [hgroups, hcurrent, hnone, applyGroups_concat]
        refine ⟨hd, fun k => ?_⟩
        by_cases hle : k ≤ n.world.history.groups.length
        · rw [List.take_append_of_le_length hle]
          exact h.settled k
        · rw [List.take_of_length_le, applyGroups_concat, ← hd]
          · exact hrun.whole.consistent
          · rw [List.length_append, List.length_singleton]
            omega
      · rw [hgroups, hcurrent]
        exact ⟨hrun.disk, h.settled⟩
    refine ⟨hreach, hdisk.2, fun s' hs' => ?_⟩
    obtain rfl := Option.some.inj hs'
    refine ⟨ops', rfl, hrun.whole, hrun.groups, fun i c hi => ?_, howner, hdisk.1⟩
    by_cases hia : i = a.op
    · have hsync (j b : Nat) : a ≠ .sync j b := by
        rintro rfl
        cases hc
      subst hia
      rcases running_next ho hi hsync with hnil | hold
      · rw [hnil]
        simp
      · exact hrun.recorded _ c hold
    · exact hrun.recorded i c ((hkept.running i hia c).mp hi)

theorem Sound.plain (h : Sound n) {op : InodeOp} (hk : n.kernel = some s) (hidle : n.todo = [])
    (hp : op.plain = true) (ha : op.Allowed s) (hr : Runs op.exec s () t) : Sound ⟨n.world, some t, []⟩ := by
  refine ⟨h.reach, h.settled, fun s' hs' => ?_⟩
  obtain rfl := Option.some.inj hs'
  obtain ⟨ops, hrun⟩ := h.running s hk
  refine ⟨ops, hrun.power, op.whole hrun.whole ha hr, by simp, hrun.recorded, by simp, ?_⟩
  rw [InodeOp.disk_plain hrun.whole hp hr, hrun.disk, hidle]

theorem Sound.call (h : Sound n) {op : InodeOp} {i : Nat} {c : OpContext} (hk : n.kernel = some s)
    (hidle : n.todo = []) (hon : n.world.power = .on ops) (hi : ops.phase i = .running c) (hl : op.logs = true)
    (ha : op.Allowed s) (hr : Runs op.exec { s with ctx := c } () t) (hop : ∀ u ∈ us, u.op = i)
    (hdisk : t.disk = applyUpdates s.disk us) (hctx : recordAll true c (us.map Update.blockNo) = some t.ctx) :
    Sound ⟨n.world, some t, us⟩ := by
  have hrun := h.running_on hk hon
  have hallowed : op.Allowed { s with ctx := c } := by
    cases op <;> exact ha
  have hwhole := hrun.whole.withCtx c
  have hlen := (h.reserved hon).recorded i c hi
  -- The blocks that are recorded at the end were recorded before, or are those that the call writes.
  obtain ⟨vs, hvs, -, hrec⟩ := InodeOp.journaled hwhole hl hallowed hr
  have hgroups : ∀ u ∈ us, InGroups u.blockNo := by
    intro u hu
    have hmem : u.blockNo ∈ t.ctx.blockNo :=
      (mem_recordAll hctx hlen _).mpr (.inl (List.mem_map_of_mem hu))
    rcases (mem_recordAll hrec hlen _).mp hmem with hv | hold
    · obtain ⟨v, hv, heq⟩ := List.mem_map.mp hv
      rw [← heq]
      exact hvs v hv
    · exact hrun.recorded i c hi _ hold
  refine ⟨h.reach, h.settled, fun s' hs' => ?_⟩
  obtain rfl := Option.some.inj hs'
  refine ⟨ops, hon, op.whole hwhole hallowed hr, hgroups, hrun.recorded, fun u hu => ⟨c, hop u hu ▸ hi⟩, ?_⟩
  have hd := hrun.disk
  rw [hidle, List.append_nil] at hd
  rw [hdisk, hd, applyUpdates_append]

theorem Sound.write (h : Sound n) {u : Update} (hk : n.kernel = some s) (htodo : n.todo = u :: us)
    (hn : n.world.next sblock (.write u.op (UInt64.ofNat u.blockNo) u.data) = some w) :
    Sound ⟨w, some s, us⟩ := by
  obtain ⟨ops₀, hrun₀⟩ := h.running s hk
  have hgroup : InGroups u.blockNo := hrun₀.groups u (by simp [htodo])
  have hb : (UInt64.ofNat u.blockNo).toNat = u.blockNo := by
    rw [inGroups_iff] at hgroup
    rw [UInt64.toNat_ofNat', Nat.mod_eq_of_lt]
    omega
  have havoids : World.AvoidsLog sblock n.world (.write u.op (UInt64.ofNat u.blockNo) u.data) := by
    show ¬InLog sblock (UInt64.ofNat u.blockNo).toNat
    rw [hb]
    exact not_inLog hgroup
  have hreach : (machine sblock).ReachableUnder (World.AvoidsLog sblock) w := h.reach.step havoids hn
  simp only [World.next, hb] at hn
  split at hn
  case h_2 => cases hn
  case h_1 ops hon =>
    have hrun := h.running_on hk hon
    simp only [Option.bind_eq_bind, Option.bind_eq_some_iff, Option.some.injEq] at hn
    obtain ⟨c, -, ops', ho, rfl⟩ := hn
    have hkept := kept_next ho
    simp only [Ops.next] at ho
    split at ho
    case h_2 => cases ho
    case h_1 ctx hi =>
      obtain ⟨ctx', hrec, rfl⟩ := Option.map_eq_some_iff.mp ho
      have hself : (ops.setPhase u.op (.running ctx')).phase u.op = .running ctx' := Function.update_self ..
      refine ⟨hreach, h.settled, fun s' hs' => ?_⟩
      obtain rfl := Option.some.inj hs'
      refine ⟨_, rfl, hrun.whole, fun v hv => hrun.groups v (by simp [htodo, hv]), fun i c' hi' b hb' => ?_,
        fun v hv => ?_, ?_⟩
      · by_cases hiu : i = u.op
        · subst hiu
          obtain rfl : ctx' = c' := Phase.running.inj (hself.symm.trans hi')
          rcases (OpContext.mem_record hrec ((h.reserved hon).recorded _ _ hi) b).mp hb' with rfl | hold
          · exact hgroup
          · exact hrun.recorded _ _ hi b hold
        · exact hrun.recorded i c' ((hkept.running i hiu c').mp hi') b hb'
      · by_cases hvu : v.op = u.op
        · exact ⟨ctx', hvu ▸ hself⟩
        · obtain ⟨c', hc'⟩ := hrun.owner v (by simp [htodo, hv])
          exact ⟨c', (hkept.running v.op hvu c').mpr hc'⟩
      · have hd := hrun.disk
        rw [htodo] at hd
        show s.disk = applyUpdates _ ((n.world.history.current.updates ++ [u]) ++ us)
        rw [hd, List.append_assoc, List.singleton_append]
        rfl

theorem Sound.step (h : Sound n) (hs : Step n n') : Sound n' := by
  cases hs with
  | crash hn => exact h.crash hn
  | boot hn => exact h.boot hn
  | recover hn hoff => exact h.recover hn hoff
  | mount hn hon hr => exact h.mount hn hon hr
  | op a hk hn hidle => exact h.op hk hn hidle
  | plain op hk hidle hp ha hr => exact h.plain hk hidle hp ha hr
  | call op us hk hidle hon hi hl ha hr hop hdisk hctx =>
    exact h.call hk hidle hon hi hl ha hr hop hdisk hctx
  | write hk htodo hn => exact h.write hk htodo hn

theorem sound_reached {image : (Nat → BlockData) → Prop} (himage : ∀ d, image d → Consistent d)
    (h : Reached image n) : Sound n := by
  induction h with
  | init hw hi =>
    have hstart := hw.2.2.2
    refine ⟨.init hw, fun k => ?_, by simp⟩
    rw [hstart]
    show Consistent (applyGroups _ (List.take k []))
    rw [List.take_nil]
    exact himage _ hi
  | step _ hs ih => exact ih.step hs

/-- While an operation runs, the cache shows the blocks of the inode layer. -/
theorem Sound.view (h : Sound n) (hk : n.kernel = some s) (hidle : n.todo = []) (hon : n.world.power = .on ops)
    {i : Nat} {c : OpContext} (hi : ops.phase i = .running c) {b : Nat} (hb : ¬InLog sblock b) :
    n.world.cache.view b = s.disk b := by
  have hinv := inv_of_reachable h.reach
  rw [Crash.Inv, hon] at hinv
  obtain ⟨hr, -, hstage⟩ := hinv
  have hsettled := hstage.settled_of_not_checkpointing (hr.running_accounted hi).1
  rw [hsettled.view b hb, (h.running_on hk hon).disk, hidle, List.append_nil]

/-- A write of a running operation that has room for the block in its context. -/
theorem Sound.next_write (h : Sound n) (hon : n.world.power = .on ops) {i : Nat} {c c' : OpContext}
    (hi : ops.phase i = .running c) {b : UInt64} (hrec : c.record b.toNat = some c') (d : BlockData) :
    ∃ w, n.world.next sblock (.write i b d) = some w ∧ w.power = .on (ops.setPhase i (.running c')) := by
  have hinv := inv_of_reachable h.reach
  rw [Crash.Inv, hon] at hinv
  obtain ⟨hr, -, hstage⟩ := hinv
  have hsettled := hstage.settled_of_not_checkpointing (hr.running_accounted hi).1
  obtain ⟨cache, p, hacquire, -⟩ := BCache.cacheAcquire_returns (b := b.toNat) hsettled.ok fun q =>
    hsettled.quiet.not_holds _ q
  refine ⟨⟨((cache.setData p d).setPinned p true).cacheRelease p, .on (ops.setPhase i (.running c')),
    n.world.history.update ⟨i, b.toNat, d⟩⟩, ?_, rfl⟩
  simp only [World.next, hon, writeBlock, hacquire, Option.bind_eq_bind, Option.bind_some, Ops.next, hi, hrec,
    Option.map_some]

/-- The writes of a call can be made one after the other. -/
theorem Sound.writes (h : Sound n) (hk : n.kernel = some t) (htodo : n.todo = us) {i : Nat}
    (hop : ∀ u ∈ us, u.op = i) (hon : n.world.power = .on ops) {c c' : OpContext}
    (hi : ops.phase i = .running c) (hrec : recordAll true c (us.map Update.blockNo) = some c') :
    ∃ w ops', Relation.ReflTransGen Step n ⟨w, some t, []⟩ ∧ w.power = .on ops' ∧
      ops'.phase i = .running c' := by
  induction us generalizing n ops c with
  | nil =>
    obtain rfl : c = c' := Option.some.inj hrec
    obtain ⟨world, kernel, todo⟩ := n
    cases hk
    cases htodo
    exact ⟨world, ops, .refl, hon, hi⟩
  | cons u us ih =>
    rw [List.map_cons, recordAll_cons, Option.bind_eq_some_iff] at hrec
    obtain ⟨c₁, hc₁, hrec⟩ := hrec
    have hc₁' : c.record u.blockNo = some c₁ := hc₁
    have hgroup := (h.running_on hk hon).groups u (by simp [htodo])
    have hb : (UInt64.ofNat u.blockNo).toNat = u.blockNo := by
      rw [inGroups_iff] at hgroup
      rw [UInt64.toNat_ofNat', Nat.mod_eq_of_lt]
      omega
    have hui : u.op = i := hop u (by simp)
    rw [← hb] at hc₁'
    obtain ⟨w, hn, hw⟩ := h.next_write hon hi hc₁' u.data
    rw [← hui] at hn
    have hstep : Step n ⟨w, some t, us⟩ := .write hk htodo hn
    obtain ⟨w', ops', hrun, hon', hi'⟩ := ih (h.step hstep) rfl rfl (fun v hv => hop v (by simp [hv])) hw
      (Function.update_self ..) hrec
    exact ⟨w', ops', .head hstep hrun, hon', hi'⟩

end Sound

end Node

/-! ### An image without files -/

theorem consistent_emptyImage : Consistent Mkfs.emptyImage := by
  have hok : (match Mkfs.main [] Mkfs.blank with | .ok _ => true | .error _ => false) = true := by
    decide +kernel
  unfold Mkfs.emptyImage
  cases hm : Mkfs.main [] Mkfs.blank with
  | error e =>
    rw [hm] at hok
    cases hok
  | ok r =>
    have hr : Runs (Mkfs.main []) Mkfs.blank r.1 r.2 := hm
    exact ⟨(Mkfs.main_formatted hr).owned, filledDisk_main hr (by decide)⟩

theorem consistent_of_eq_emptyImage (d : Nat → BlockData) (hd : d = Mkfs.emptyImage) : Consistent d := by
  rw [hd]
  exact consistent_emptyImage

/-- The machine on the image, off. -/
def emptyWorld : World := ⟨.empty Mkfs.emptyImage, .off, .start Mkfs.emptyImage⟩

/-- The kernel is up. -/
def mountedWorld : World :=
  ⟨.empty Mkfs.emptyImage, .on ⟨Log.initLog sblock (readHeader sblock Mkfs.emptyImage), fun _ => .idle, []⟩,
    .start Mkfs.emptyImage⟩

/-- The root directory is locked. -/
def rootLocked : State :=
  let s := mount sblock Mkfs.emptyImage fun _ => ⟨false, 0, 0, false, InodeEntry.zero⟩
  let s : State := { s with fresh := 1, list := [0], mem := Function.update s.mem 0 (s.newInode 1) }
  s.setInode 0 (s.lockedInode 0)

theorem reached_rootLocked : Node.Reached (· = Mkfs.emptyImage) ⟨mountedWorld, some rootLocked, []⟩ := by
  have hzero : (readHeader sblock Mkfs.emptyImage).numBlocks = 0 := by decide +kernel
  have hinit : emptyWorld.Init sblock := ⟨hzero, rfl, rfl, rfl⟩
  have hboot : Node.Reached (· = Mkfs.emptyImage)
      ⟨{ emptyWorld with power := .booting (readHeader sblock Mkfs.emptyImage) 0 }, none, []⟩ :=
    .step (.init hinit rfl) (.boot rfl)
  let mem : Ptr → Inode := fun _ => ⟨false, 0, 0, false, InodeEntry.zero⟩
  have hwhole := whole_mount consistent_emptyImage mem
  have hget := (runs_inodeGet (p := 0) hwhole.cached.list).mpr
    ⟨Mkfs.isInode_one, .inr ⟨by simp [mount], rfl, rfl⟩⟩
  have hrecover : World.next sblock { emptyWorld with power := .booting (readHeader sblock Mkfs.emptyImage) 0 }
      .recover = some mountedWorld := by
    simp [World.next, hzero, mountedWorld, emptyWorld, BCache.empty]
  have hmount := hboot.step (.mount hrecover rfl hget)
  refine hmount.step (.plain (.lock 0) rfl rfl rfl (by simp [InodeOp.Allowed]) (runs_inodeLock.mpr ?_))
  have htype : (diskEntry Mkfs.emptyImage 1).type ≠ inodeInvalid := by decide +kernel
  refine ⟨by simp [State.newInode], by simp [State.newInode], fun _ => by simp [mount], ?_, rfl⟩
  simpa [State.loaded, State.newInode, mount] using htype

/-- What `inode_sync` writes for the root directory. -/
def rootUpdate : Update :=
  ⟨0, toBlockNo sblock 1,
    setEntry (Mkfs.emptyImage (toBlockNo sblock 1)) (1 % inodePerBlock) (diskEntry Mkfs.emptyImage 1)⟩

theorem rootLocked_mem : rootLocked.mem 0 = ⟨true, 1, 1, true, diskEntry Mkfs.emptyImage 1⟩ := by
  simp [rootLocked, State.setInode, State.lockedInode, State.loaded, State.newInode, mount]

theorem runs_sync_rootLocked : Runs (InodeOp.sync true 0 true).exec { rootLocked with ctx := ⟨1, []⟩ } ()
    { rootLocked with
      disk := applyUpdates rootLocked.disk [rootUpdate]
      ctx := ⟨1, [toBlockNo sblock 1]⟩ } := by
  have hmem := rootLocked_mem
  refine (runs_inodeSync_write (by simp [hmem])).mpr ⟨?_, ⟨1, [toBlockNo sblock 1]⟩, ?_, ?_⟩
  · exact List.not_mem_nil
  · simp only [hmem]
    decide
  · simp only [hmem]
    rfl

namespace Node

/-- What operation `i` does, if the kernel is up. -/
def phase (w : World) (i : Nat) : Option Phase :=
  match w.power with
  | .on ops => some (ops.phase i)
  | _ => none

theorem phase_eq {w : World} {i : Nat} {ph : Phase} (h : phase w i = some ph) :
    ∃ ops, w.power = .on ops ∧ ops.phase i = ph := by
  unfold phase at h
  split at h
  case h_1 ops hon => exact ⟨ops, hon, Option.some.inj h⟩
  case h_2 => cases h

end Node

theorem reached_begun : ∃ w ops,
    (machine sblock).run mountedWorld [.op (.enter 0), .op (.begin 0)] = some w ∧
      Node.Reached (· = Mkfs.emptyImage) ⟨w, some rootLocked, []⟩ ∧ w.power = .on ops ∧
      ops.phase 0 = .running ⟨1, []⟩ := by
  have hrun : ((machine sblock).run mountedWorld [.op (.enter 0), .op (.begin 0)]).bind (Node.phase · 0) =
      some (.running ⟨1, []⟩) := by decide +kernel
  obtain ⟨w, hw, hp⟩ := Option.bind_eq_some_iff.mp hrun
  obtain ⟨ops, hon, hphase⟩ := Node.phase_eq hp
  exact ⟨w, ops, hw, reached_rootLocked.ops (l := [.enter 0, .begin 0]) hw, hon, hphase⟩

theorem not_on_of_recover {w w' : World} (h : w.next sblock .recover = some w') (ops : Ops) :
    w.power ≠ .on ops := by
  intro hon
  simp [World.next, hon] at h

/-- The write, the end of the operation, its checkpoint up to the header of the log, and the recovery up to
its last step. -/
def stopped : List Label :=
  [.write 0 65 rootUpdate.data, .op (.endOp 0), .op (.checkpoint 0), .op (.checkpoint 0), .op (.checkpoint 0),
    .crash, .boot, .recover, .recover]

/-- The recovery is at its end, after one group. -/
def replayed (w : World) : Bool :=
  match w.power with
  | .booting header _ => header.numBlocks == 0 && w.history.groups.length == 1
  | _ => false

theorem next_of_replayed {w : World} (h : replayed w = true) : w.history.groups.length = 1 ∧
    ∃ w' ops, w.next sblock .recover = some w' ∧ w'.power = .on ops := by
  unfold replayed at h
  split at h
  case h_1 header i hp =>
    simp only [Bool.and_eq_true, beq_iff_eq] at h
    exact ⟨h.2, _, _, by rw [World.next, hp]; exact if_pos h.1, rfl⟩
  case h_2 => cases h

/-! ### The file system -/

section Results

variable {image : (Nat → BlockData) → Prop} {n : Node} {s t : State} {ops : Ops}

theorem applyUpdates_storeAll (d : Nat → BlockData) (i : Nat) (us : List (Nat × BlockData)) :
    applyUpdates d (us.map fun u => ⟨i, u.1, u.2⟩) = storeAll d us := List.foldl_map ..

/-- What a call of the inode layer does to the blocks of the inode layer can be done, within its operation,
with writes through the block cache, and then the cache shows the blocks after the call. -/
theorem call_carried_out (himage : ∀ d, image d → Consistent d) (h : Node.Reached image n)
    (hk : n.kernel = some s) (hidle : n.todo = []) (hon : n.world.power = .on ops) {i : Nat} {c : OpContext}
    (hi : ops.phase i = .running c) {op : InodeOp} (hl : op.logs = true) (ha : op.Allowed s)
    (hr : Runs op.exec { s with ctx := c } () t) :
    ∃ w ops', Relation.ReflTransGen Node.Step n ⟨w, some t, []⟩ ∧ w.power = .on ops' ∧
      ops'.phase i = .running t.ctx ∧ ∀ b, ¬InLog sblock b → w.cache.view b = t.disk b := by
  have hsound := Node.sound_reached himage h
  have hwhole := (hsound.running_on hk hon).whole.withCtx c
  have hallowed : op.Allowed { s with ctx := c } := by
    cases op <;> exact ha
  obtain ⟨vs, -, hdisk, hrec⟩ := InodeOp.journaled hwhole hl hallowed hr
  let us : List Update := vs.map fun u => ⟨i, u.1, u.2⟩
  have hop : ∀ u ∈ us, u.op = i := by
    intro u hu
    obtain ⟨v, -, rfl⟩ := List.mem_map.mp hu
    rfl
  have hdisk' : t.disk = applyUpdates s.disk us := by
    rw [applyUpdates_storeAll]
    exact hdisk
  have hrec' : recordAll true c (us.map Update.blockNo) = some t.ctx := by
    rw [← hrec, List.map_map]
    rfl
  have hstep : Node.Step n ⟨n.world, some t, us⟩ := .call op us hk hidle hon hi hl ha hr hop hdisk' hrec'
  have hcalled := hsound.step hstep
  obtain ⟨w, ops', hrun, hon', hi'⟩ := hcalled.writes rfl rfl hop hon hi hrec'
  have hall := Relation.ReflTransGen.head hstep hrun
  have hdone := Node.sound_reached himage (h.run hall)
  exact ⟨w, ops', hall, hon', hi', fun b hb => hdone.view rfl rfl hon' hi' hb⟩

/-- The entry of the root directory is written in an operation. -/
theorem call_carried_out_root : ∃ n w t ops, Node.Reached (· = Mkfs.emptyImage) n ∧
    Relation.ReflTransGen Node.Step n ⟨w, some t, []⟩ ∧ w.power = .on ops ∧
      ops.phase 0 = .running ⟨1, [toBlockNo sblock 1]⟩ ∧ ∀ b, ¬InLog sblock b → w.cache.view b = t.disk b := by
  obtain ⟨v, ops, -, hreach, hon, hphase⟩ := reached_begun
  have hallowed : (InodeOp.sync true 0 true).Allowed rootLocked :=
    ⟨List.mem_singleton_self 0, by rw [rootLocked_mem]⟩
  obtain ⟨w, ops', hsteps, hon', hphase', hview⟩ := call_carried_out consistent_of_eq_emptyImage hreach rfl rfl
    hon hphase rfl hallowed runs_sync_rootLocked
  exact ⟨_, w, _, ops', hreach, hsteps, hon', hphase', hview⟩

/-- Wherever the machine stops, also in the middle of a call, a checkpoint or a recovery: while the kernel
runs, memory and blocks agree; and a recovery leaves on disk the blocks of a moment at which no operation ran,
after all operations that had returned, so that every block of a file is in one slot, the bitmaps are exact,
and no file has a hole. -/
theorem crash_consistency (himage : ∀ d, image d → Consistent d) (h : Node.Reached image n) :
    (∀ s, n.kernel = some s → Whole s) ∧
      ∀ w ops, n.world.next sblock .recover = some w → w.power = .on ops →
        Consistent w.cache.device ∧ ∃ k,
          (∀ b, ¬InLog sblock b → w.cache.device b =
            applyGroups n.world.history.base (n.world.history.groups.take k) b) ∧
          Consistent (applyGroups n.world.history.base (n.world.history.groups.take k)) ∧
          ∀ i ∈ n.world.history.returned, ∃ g ∈ n.world.history.groups.take k, i ∈ g.ops := by
  have hsound := Node.sound_reached himage h
  refine ⟨fun s hk => ?_, fun w ops hn hon => ?_⟩
  · obtain ⟨ops, hrun⟩ := hsound.running s hk
    exact hrun.whole
  · obtain ⟨k, hdisk, hreturned⟩ := recovered_prefix hsound.reach hn hon
    exact ⟨hsound.recovered hn hon, k, hdisk, hsound.settled k, hreturned⟩

/-- The machine stops during the checkpoint of an operation that wrote the entry of the root directory, after
the header of the log is written; the recovery makes the write again. -/
theorem crash_consistency_root : ∃ n w ops, Node.Reached (· = Mkfs.emptyImage) n ∧
    n.world.history.groups.length = 1 ∧ n.world.next sblock .recover = some w ∧ w.power = .on ops ∧
      Consistent w.cache.device := by
  obtain ⟨v, ops, hv, hreach, hon, hphase⟩ := reached_begun
  have hrun : (((machine sblock).run mountedWorld [.op (.enter 0), .op (.begin 0)]).bind
      ((machine sblock).run · stopped)).map replayed = some true := by decide +kernel
  rw [hv, Option.bind_some] at hrun
  obtain ⟨w, hw, hend⟩ := Option.map_eq_some_iff.mp hrun
  simp only [stopped, Machine.run, Option.bind_eq_some_iff] at hw
  obtain ⟨w₁, hwrite, w₂, hendOp, w₃, hc₁, w₄, hc₂, w₅, hc₃, w₆, hcrash, w₇, hboot, w₈, hr₁, w₉, hr₂, heq⟩ :=
    hw
  obtain rfl := Option.some.inj heq
  have hcall := hreach.step (.call (.sync true 0 true) [rootUpdate] rfl rfl hon hphase rfl
    ⟨List.mem_singleton_self 0, by rw [rootLocked_mem]⟩ runs_sync_rootLocked (by simp [rootUpdate]) rfl
    (by decide))
  have hwritten := hcall.step (.write rfl rfl hwrite)
  have hops : (machine sblock).run w₁ ([.endOp 0, .checkpoint 0, .checkpoint 0, .checkpoint 0].map .op) =
      some w₅ := by
    simp [Machine.run, hendOp, hc₁, hc₂, hc₃]
  have hended := hwritten.ops hops
  have hdown := ((hended.step (.crash hcrash)).step (.boot hboot)).step
    (.recover hr₁ (not_on_of_recover hr₂))
  obtain ⟨hlen, w', ops', hn, hon'⟩ := next_of_replayed hend
  have hlast := hdown.step (.recover hr₂ (not_on_of_recover hn))
  obtain ⟨-, hrecover⟩ := crash_consistency consistent_of_eq_emptyImage hlast
  exact ⟨_, w', ops', hlast, hlen, hn, hon', (hrecover w' ops' hn hon').1⟩

end Results

end FtosFfs.Fs
