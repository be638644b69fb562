import FtosFfs.Cache.Log

/-! The accounting of log space.  While no checkpoint is running, the space in use is one entry
for each block in the header and `OP_MAX_NUM_BLOCKS` for each operation that has not ended, so
`commit` always finds room in the header, and `cache_begin_op` sleeps only while another operation
or a checkpoint will wake it. -/

namespace FtosFfs

open Lib

/-! ### The header and `commit` -/

theorem LogHeader.blockNo_idxOf {h : LogHeader} {b : Nat} (hb : b ∈ h.entries) :
    h.blockNo (h.entries.idxOf b) = b := by
  have hlt := List.idxOf_lt_length_of_mem hb
  have hget := List.getElem_idxOf hlt
  simpa only [entries, List.getElem_map, List.getElem_range] using hget

theorem LogHeader.entries_push (h : LogHeader) (b : Nat) :
    LogHeader.entries ⟨h.numBlocks + 1, Function.update h.blockNo h.numBlocks b⟩ =
      h.entries ++ [b] := by
  simp only [entries, List.range_succ, List.map_append, List.map_singleton, Function.update_self]
  congr 1
  refine List.map_congr_left fun j hj => Function.update_of_ne ?_ _ _
  exact Nat.ne_of_lt (List.mem_range.mp hj)

namespace Cache

/-- `cache_sync` records a block once, and fails on an eleventh block. -/
theorem OpContext.record_eq (ctx : OpContext) (b : Nat)
    (hlen : ctx.blockNo.length ≤ opMaxNumBlocks) :
    ctx.record b = if b ∈ ctx.blockNo then some ctx
      else if ctx.blockNo.length < opMaxNumBlocks then
        some { ctx with blockNo := ctx.blockNo ++ [b] }
      else none := by
  rw [record]
  by_cases hb : b ∈ ctx.blockNo
  · have hlt := List.idxOf_lt_length_of_mem hb
    have hset : ctx.blockNo.set (ctx.blockNo.idxOf b) b = ctx.blockNo := by
      conv => enter [1, 3]; rw [← List.getElem_idxOf hlt]
      exact List.set_getElem_self hlt
    simp only [if_pos (Nat.lt_of_lt_of_le hlt hlen), if_pos hlt, hset, if_pos hb]
  · simp only [List.idxOf_eq_length hb, Nat.lt_irrefl, if_false, if_neg hb]

theorem OpContext.length_record {ctx ctx' : OpContext} {b : Nat} (h : ctx.record b = some ctx')
    (hlen : ctx.blockNo.length ≤ opMaxNumBlocks) : ctx'.blockNo.length ≤ opMaxNumBlocks := by
  rw [record_eq ctx b hlen] at h
  split at h
  · cases h; exact hlen
  · split at h
    · cases h; simp only [List.length_append, List.length_singleton]; omega
    · cases h

theorem OpContext.mem_record {ctx ctx' : OpContext} {b : Nat} (h : ctx.record b = some ctx')
    (hlen : ctx.blockNo.length ≤ opMaxNumBlocks) (x : Nat) :
    x ∈ ctx'.blockNo ↔ x = b ∨ x ∈ ctx.blockNo := by
  rw [record_eq ctx b hlen] at h
  split at h
  · rename_i hb
    cases h
    exact ⟨.inr, fun hx => hx.elim (fun hxb => hxb ▸ hb) id⟩
  · split at h
    · cases h; simp [or_comm]
    · cases h

theorem OpContext.ts_record {ctx ctx' : OpContext} {b : Nat} (h : ctx.record b = some ctx') :
    ctx'.ts = ctx.ts := by
  rw [record] at h
  split at h
  · cases h; rfl
  · cases h

namespace Log

/-- The header `h'` after the blocks `bs` were committed to `h`, of which `absorbed` were in the
header already. -/
structure Committed (h : LogHeader) (bs : List Nat) (h' : LogHeader) (absorbed : Nat) : Prop where
  nodup : h'.entries.Nodup
  count : h'.numBlocks + absorbed = h.numBlocks + bs.length
  le : h.numBlocks ≤ h'.numBlocks
  mem : ∀ b, b ∈ h'.entries ↔ b ∈ h.entries ∨ b ∈ bs

theorem commitBlock_spec {logSize : Nat} {h : LogHeader} (hn : h.entries.Nodup)
    (hroom : h.numBlocks < logSize) (a b : Nat) :
    ∃ h' k, commitBlock logSize (h, a) b = some (h', a + k) ∧ Committed h [b] h' k := by
  by_cases hb : b ∈ h.entries
  · have hlt : h.entries.idxOf b < h.numBlocks := by
      simpa using List.idxOf_lt_length_of_mem hb
    have hsame : Function.update h.blockNo (h.entries.idxOf b) b = h.blockNo := by
      conv => enter [1, 3]; rw [← h.blockNo_idxOf hb]
      exact Function.update_eq_self _ _
    refine ⟨h, 1, ?_, hn, rfl, Nat.le_refl _, fun x => ?_⟩
    · simp only [commitBlock, if_pos (Nat.lt_trans hlt hroom), hsame, if_pos hlt]
    · simp only [List.mem_singleton]
      exact ⟨.inl, fun hx => hx.elim id fun hxb => hxb ▸ hb⟩
  · have hidx : h.entries.idxOf b = h.numBlocks := by
      rw [List.idxOf_eq_length hb, LogHeader.length_entries]
    refine ⟨⟨h.numBlocks + 1, Function.update h.blockNo h.numBlocks b⟩, 0, ?_, ?_, ?_, ?_, ?_⟩
    · simp only [commitBlock, hidx, if_pos hroom, Nat.lt_irrefl, if_false, Nat.add_zero]
    · rw [LogHeader.entries_push]
      exact hn.append (List.nodup_singleton b) (by simpa using hb)
    · simp
    · simp
    · intro x
      rw [LogHeader.entries_push, List.mem_append]

/-- The loop of `commit` passes its assertion when there is room for every block. -/
theorem foldlM_commitBlock {logSize : Nat} (bs : List Nat) {h : LogHeader}
    (hn : h.entries.Nodup) (hroom : h.numBlocks + bs.length ≤ logSize) (a : Nat) :
    ∃ h' k, bs.foldlM (commitBlock logSize) (h, a) = some (h', a + k) ∧ Committed h bs h' k := by
  induction bs generalizing h a with
  | nil => exact ⟨h, 0, rfl, hn, rfl, Nat.le_refl _, fun b => by simp⟩
  | cons b bs ih =>
    rw [List.length_cons] at hroom
    have hfree : h.numBlocks < logSize := by omega
    obtain ⟨h₁, k₁, he₁, hc₁⟩ := commitBlock_spec hn hfree a b
    have hcount₁ := hc₁.count
    rw [List.length_singleton] at hcount₁
    obtain ⟨h₂, k₂, he₂, hc₂⟩ := ih hc₁.nodup (by omega) (a + k₁)
    have hcount₂ := hc₂.count
    refine ⟨h₂, k₁ + k₂, ?_, hc₂.nodup, ?_, Nat.le_trans hc₁.le hc₂.le, fun x => ?_⟩
    · rw [List.foldlM_cons, he₁]
      simpa [Nat.add_assoc] using he₂
    · rw [List.length_cons]
      omega
    · rw [hc₂.mem, hc₁.mem]
      simp [or_assoc]

/-- `commit` when the header has room for all blocks of the context. -/
theorem commit_spec {log : Log} (ctx : OpContext) (hn : log.header.entries.Nodup)
    (hroom : log.header.numBlocks + ctx.blockNo.length ≤ log.logSize) :
    ∃ header absorbed, log.commitBlocks ctx = some (header, absorbed) ∧
      Committed log.header ctx.blockNo header absorbed ∧
      log.commit ctx = some { log with
        header, logUsed := usizeSub log.logUsed (opMaxNumBlocks - ctx.blockNo.length + absorbed) } := by
  obtain ⟨header, absorbed, he, hc⟩ := foldlM_commitBlock ctx.blockNo hn hroom 0
  rw [Nat.zero_add] at he
  exact ⟨header, absorbed, he, hc, by rw [commit, commitBlocks, he]; rfl⟩

theorem usizeSub_eq {a b : Nat} (hb : b ≤ a) (ha : a < 2 ^ 64) : usizeSub a b = a - b := by
  rw [usizeSub, show a + 2 ^ 64 - b = a - b + 2 ^ 64 by omega, Nat.add_mod_right,
    Nat.mod_eq_of_lt (by omega)]

theorem initLogSize_le (sb : SuperBlock) : initLogSize sb ≤ logMaxSize := Nat.min_le_right _ _

end Log

/-! ### The operations other than the one that makes a step -/

namespace Phase

/-- The operation waits in `cache_end_op` for its blocks to be persisted. -/
def Waits (ph : Phase) (ctx : OpContext) : Prop := ph = .waiting ctx ∨ ph = .asleep ctx

/-- The operation has called `cache_end_op`. -/
def Past : Phase → Prop
  | waiting _ | asleep _ | checkpointing _ _ | ended => True
  | _ => False

@[simp] theorem wakeLog_waits {ph : Phase} {ctx : OpContext} :
    ph.wakeLog.Waits ctx ↔ ph.Waits ctx := by cases ph <;> simp [wakeLog, Waits]

@[simp] theorem wakeLog_past {ph : Phase} : ph.wakeLog.Past ↔ ph.Past := by
  cases ph <;> simp [wakeLog, Past]

@[simp] theorem wakeLog_eq_ended {ph : Phase} : ph.wakeLog = .ended ↔ ph = .ended := by
  cases ph <;> simp [wakeLog]

@[simp] theorem wakePersisted_waits {ph : Phase} {ctx : OpContext} :
    ph.wakePersisted.Waits ctx ↔ ph.Waits ctx := by cases ph <;> simp [wakePersisted, Waits]

@[simp] theorem wakePersisted_past {ph : Phase} : ph.wakePersisted.Past ↔ ph.Past := by
  cases ph <;> simp [wakePersisted, Past]

@[simp] theorem wakePersisted_eq_ended {ph : Phase} : ph.wakePersisted = .ended ↔ ph = .ended := by
  cases ph <;> simp [wakePersisted]

@[simp] theorem wakeLog_eq_running {ph : Phase} {ctx : OpContext} :
    ph.wakeLog = .running ctx ↔ ph = .running ctx := by cases ph <;> simp [wakeLog]

@[simp] theorem wakeLog_eq_checkpointing {ph : Phase} {copy : Nat} {pc : Checkpoint} :
    ph.wakeLog = .checkpointing copy pc ↔ ph = .checkpointing copy pc := by
  cases ph <;> simp [wakeLog]

@[simp] theorem wakeLog_ne_blocked {ph : Phase} : ph.wakeLog ≠ .blocked := by
  cases ph <;> simp [wakeLog]

@[simp] theorem wakePersisted_eq_running {ph : Phase} {ctx : OpContext} :
    ph.wakePersisted = .running ctx ↔ ph = .running ctx := by cases ph <;> simp [wakePersisted]

@[simp] theorem wakePersisted_eq_checkpointing {ph : Phase} {copy : Nat} {pc : Checkpoint} :
    ph.wakePersisted = .checkpointing copy pc ↔ ph = .checkpointing copy pc := by
  cases ph <;> simp [wakePersisted]

@[simp] theorem wakePersisted_eq_blocked {ph : Phase} :
    ph.wakePersisted = .blocked ↔ ph = .blocked := by cases ph <;> simp [wakePersisted]

end Phase

namespace Ops

/-- The operations other than `i` stay where they are, but for the sleepers that wake up. -/
structure Kept (s : Ops) (i : Nat) (s' : Ops) : Prop where
  running : ∀ k ≠ i, ∀ ctx, s'.phase k = .running ctx ↔ s.phase k = .running ctx
  checkpointing : ∀ k ≠ i, ∀ copy pc,
    s'.phase k = .checkpointing copy pc ↔ s.phase k = .checkpointing copy pc
  blocked : ∀ k ≠ i, s'.phase k = .blocked → s.phase k = .blocked
  waits : ∀ k ≠ i, ∀ ctx, (s'.phase k).Waits ctx ↔ (s.phase k).Waits ctx
  past : ∀ k ≠ i, (s'.phase k).Past ↔ (s.phase k).Past
  ended : ∀ k ≠ i, s'.phase k = .ended ↔ s.phase k = .ended

theorem kept_update {s s' : Ops} {i : Nat} {ph : Phase}
    (h : s'.phase = Function.update s.phase i ph) : Kept s i s' := by
  have hk (k : Nat) (hki : k ≠ i) : s'.phase k = s.phase k := by
    rw [h, Function.update_of_ne hki]
  exact ⟨fun k hki ctx => by rw [hk k hki], fun k hki copy pc => by rw [hk k hki],
    fun k hki hb => by rwa [hk k hki] at hb, fun k hki ctx => by rw [hk k hki],
    fun k hki => by rw [hk k hki], fun k hki => by rw [hk k hki]⟩

theorem kept_wakeLog {s s' : Ops} {i : Nat} {ph : Phase}
    (h : s'.phase = Function.update (fun k => (s.phase k).wakeLog) i ph) : Kept s i s' := by
  refine ⟨fun k hki ctx => ?_, fun k hki copy pc => ?_, fun k hki hb => ?_, fun k hki ctx => ?_,
    fun k hki => ?_, fun k hki => ?_⟩
  case refine_3 => simp [h, Function.update_of_ne hki] at hb
  all_goals simp [h, Function.update_of_ne hki]

theorem kept_wakePersisted {s s' : Ops} {i : Nat} {ph : Phase}
    (h : s'.phase = Function.update (fun k => (s.phase k).wakePersisted) i ph) : Kept s i s' := by
  refine ⟨fun k hki ctx => ?_, fun k hki copy pc => ?_, fun k hki hb => ?_, fun k hki ctx => ?_,
    fun k hki => ?_, fun k hki => ?_⟩
  case refine_3 => simpa [h, Function.update_of_ne hki] using hb
  all_goals simp [h, Function.update_of_ne hki]

theorem checkpointStep_kept (s : Ops) (i copy : Nat) (pc : Checkpoint) :
    Kept s i (s.checkpointStep i copy pc) := by
  cases pc with
  | logging k => rw [checkpointStep]; split <;> exact kept_update rfl
  | marking => exact kept_update rfl
  | replaying k =>
    rw [checkpointStep]
    split
    · exact kept_update rfl
    · split
      · exact kept_update rfl
      · exact kept_update (Function.update_eq_self i s.phase).symm
  | persisting => exact kept_update rfl
  | waking => exact kept_wakePersisted rfl
  | restoring => exact kept_update rfl
  | finishing => exact kept_wakeLog rfl

/-! ### The invariant -/

/-- The accounting while no checkpoint is running. -/
structure Accounted (sb : SuperBlock) (s : Ops) : Prop where
  size : s.log.logSize = Log.initLogSize sb
  used : s.log.logUsed = s.log.header.numBlocks + opMaxNumBlocks * s.log.opCount
  bound : s.log.logUsed ≤ Log.initLogSize sb
  ended : ∀ ctx ∈ s.ended, ∀ b ∈ ctx.blockNo, b ∈ s.log.header.entries
  empty : s.log.opCount = 0 → s.log.header.numBlocks = 0

/-- The log while operation `i` runs the checkpoint. -/
structure Checkpointed (sb : SuperBlock) (s : Ops) (i copy : Nat) (pc : Checkpoint) : Prop where
  count : s.log.opCount = 0
  size : s.log.logSize = 0
  copy : copy = Log.initLogSize sb
  bound : s.log.header.numBlocks ≤ Log.initLogSize sb
  only : ∀ j, s.CheckpointsAt j → j = i
  cleared : pc = .persisting ∨ pc = .waking ∨ pc = .restoring → s.log.header.numBlocks = 0
  ended : ∀ k, pc = .logging k → ∀ ctx ∈ s.ended, ∀ b ∈ ctx.blockNo, b ∈ s.log.header.entries

/-- `op_count` is the number of running operations. -/
def Counted (s : Ops) : Prop :=
  ∃ S : Finset Nat, (∀ i, i ∈ S ↔ ∃ ctx, s.phase i = .running ctx) ∧ S.card = s.log.opCount

structure Reserved (sb : SuperBlock) (s : Ops) : Prop where
  counted : s.Counted
  recorded : ∀ i ctx, s.phase i = .running ctx → ctx.blockNo.length ≤ opMaxNumBlocks
  nodup : s.log.header.entries.Nodup
  accounted : ¬s.Checkpointing → s.Accounted sb
  checkpointed : ∀ i copy pc, s.phase i = .checkpointing copy pc → pc ≠ .finishing →
    s.Checkpointed sb i copy pc
  blocked : opMaxNumBlocks ≤ Log.initLogSize sb → ∀ i, s.phase i = .blocked →
    0 < s.log.opCount ∨ ∃ j copy pc, s.phase j = .checkpointing copy pc

theorem Counted.pos {s : Ops} (h : s.Counted) {i : Nat} {ctx : OpContext}
    (hi : s.phase i = .running ctx) : 0 < s.log.opCount := by
  obtain ⟨S, hS, hcard⟩ := h
  rw [← hcard]
  exact Finset.card_pos.mpr ⟨i, (hS i).mpr ⟨ctx, hi⟩⟩

theorem Counted.running {s : Ops} (h : s.Counted) (hpos : 0 < s.log.opCount) :
    ∃ i ctx, s.phase i = .running ctx := by
  obtain ⟨S, hS, hcard⟩ := h
  rw [← hcard] at hpos
  obtain ⟨i, hi⟩ := Finset.card_pos.mp hpos
  exact ⟨i, (hS i).mp hi⟩

/-- No checkpoint runs while an operation is running. -/
theorem Reserved.running_accounted {sb : SuperBlock} {s : Ops} (h : s.Reserved sb) {i : Nat}
    {ctx : OpContext} (hi : s.phase i = .running ctx) : ¬s.Checkpointing ∧ s.Accounted sb := by
  have hno : ¬s.Checkpointing := by
    rintro ⟨j, copy, pc, hj, hpc⟩
    have hcount := (h.checkpointed j copy pc hj hpc).count
    exact absurd (h.counted.pos hi) (by omega)
  exact ⟨hno, h.accounted hno⟩

/-- A begin that does not find enough space has another operation or a checkpoint before it. -/
theorem Reserved.full {sb : SuperBlock} (hL : opMaxNumBlocks ≤ Log.initLogSize sb) {s : Ops}
    (h : s.Reserved sb) (hfull : s.log.logUsed + opMaxNumBlocks > s.log.logSize) :
    0 < s.log.opCount ∨ s.Checkpointing := by
  by_cases hcp : s.Checkpointing
  · exact .inr hcp
  · left
    have ha := h.accounted hcp
    by_contra hzero
    have hcount : s.log.opCount = 0 := by omega
    have hused := ha.used
    rw [ha.empty hcount, hcount] at hused
    rw [ha.size] at hfull
    omega

/-! ### Steps that leave the log alone -/

theorem Kept.checkpointsAt {s s' : Ops} {i j : Nat} (hk : Kept s i s') (hj : j ≠ i) :
    s'.CheckpointsAt j ↔ s.CheckpointsAt j := by
  simp only [CheckpointsAt, hk.checkpointing j hj]

theorem Kept.checkpointing_iff {s s' : Ops} {i : Nat} (hk : Kept s i s')
    (hi : s'.CheckpointsAt i ↔ s.CheckpointsAt i) : s'.Checkpointing ↔ s.Checkpointing := by
  refine exists_congr fun j => ?_
  by_cases hj : j = i
  · rw [hj, hi]
  · exact hk.checkpointsAt hj

/-- A step of an operation that does not touch the log, begin, end, or run a checkpoint. -/
theorem Reserved.frame {sb : SuperBlock} {s s' : Ops} {i : Nat} (h : s.Reserved sb)
    (hk : Kept s i s') (hlog : s'.log = s.log) (hended : s'.ended = s.ended)
    (hrun : (∃ ctx, s'.phase i = .running ctx) ↔ ∃ ctx, s.phase i = .running ctx)
    (hrec : ∀ ctx, s'.phase i = .running ctx → ctx.blockNo.length ≤ opMaxNumBlocks)
    (hcp : ¬s.CheckpointsAt i) (hcp' : ¬s'.CheckpointsAt i)
    (hblocked : opMaxNumBlocks ≤ Log.initLogSize sb → ∀ k, s'.phase k = .blocked →
      0 < s.log.opCount ∨ ∃ j copy pc, s'.phase j = .checkpointing copy pc) :
    s'.Reserved sb := by
  have hiff : s'.Checkpointing ↔ s.Checkpointing :=
    hk.checkpointing_iff ⟨fun hc => absurd hc hcp', fun hc => absurd hc hcp⟩
  refine ⟨?_, fun k ctx hkr => ?_, by rw [hlog]; exact h.nodup, fun hno => ?_,
    fun k copy pc hkc hpc => ?_, by rw [hlog]; exact hblocked⟩
  · obtain ⟨S, hS, hcard⟩ := h.counted
    refine ⟨S, fun k => ?_, by rw [hlog]; exact hcard⟩
    by_cases hki : k = i
    · rw [hki, hS, hrun]
    · simp only [hS, hk.running k hki]
  · by_cases hki : k = i
    · rw [hki] at hkr; exact hrec ctx hkr
    · exact h.recorded k ctx ((hk.running k hki ctx).mp hkr)
  · have ha := h.accounted (hiff.not.mp hno)
    exact ⟨by rw [hlog]; exact ha.size, by rw [hlog]; exact ha.used, by rw [hlog]; exact ha.bound,
      by rw [hlog, hended]; exact ha.ended, by rw [hlog]; exact ha.empty⟩
  · have hki : k ≠ i := by rintro rfl; exact hcp' ⟨copy, pc, hkc, hpc⟩
    have hc := h.checkpointed k copy pc ((hk.checkpointing k hki copy pc).mp hkc) hpc
    refine ⟨by rw [hlog]; exact hc.count, by rw [hlog]; exact hc.size, hc.copy,
      by rw [hlog]; exact hc.bound, fun j hj => ?_, by rw [hlog]; exact hc.cleared,
      by rw [hlog, hended]; exact hc.ended⟩
    have hji : j ≠ i := by rintro rfl; exact hcp' hj
    exact hc.only j ((hk.checkpointsAt hji).mp hj)

theorem Reserved.blocked_kept {sb : SuperBlock} {s s' : Ops} {i : Nat} (h : s.Reserved sb)
    (hk : Kept s i s') (hi : ∀ copy pc, s.phase i ≠ .checkpointing copy pc)
    (hi' : s'.phase i ≠ .blocked) (hL : opMaxNumBlocks ≤ Log.initLogSize sb) (k : Nat)
    (hb : s'.phase k = .blocked) :
    0 < s.log.opCount ∨ ∃ j copy pc, s'.phase j = .checkpointing copy pc := by
  have hki : k ≠ i := by rintro rfl; exact hi' hb
  rcases h.blocked hL k (hk.blocked k hki hb) with hpos | ⟨j, copy, pc, hj⟩
  · exact .inl hpos
  · have hji : j ≠ i := by rintro rfl; exact hi copy pc hj
    exact .inr ⟨j, copy, pc, (hk.checkpointing j hji copy pc).mpr hj⟩

/-! ### One step -/

section Step

variable {sb : SuperBlock} {s : Ops} {i : Nat}

@[simp] theorem setPhase_self (s : Ops) (i : Nat) (ph : Phase) : (s.setPhase i ph).phase i = ph :=
  Function.update_self ..

theorem not_checkpointsAt {ph : Phase} (hi : s.phase i = ph)
    (hph : ∀ copy pc, ph ≠ .checkpointing copy pc) : ¬s.CheckpointsAt i := by
  rintro ⟨copy, pc, hcp, -⟩
  exact hph copy pc (hi.symm.trans hcp)

/-- An operation outside the log, which neither runs nor checkpoints, moves to another such
place. -/
theorem Reserved.setPhase {ph : Phase} (h : s.Reserved sb)
    (hrun : ∀ ctx, s.phase i ≠ .running ctx) (hrun' : ∀ ctx, ph ≠ .running ctx)
    (hcp : ∀ copy pc, s.phase i ≠ .checkpointing copy pc)
    (hcp' : ∀ copy pc, ph ≠ .checkpointing copy pc)
    (hblocked : opMaxNumBlocks ≤ Log.initLogSize sb → ph = .blocked →
      0 < s.log.opCount ∨ s.Checkpointing) :
    (s.setPhase i ph).Reserved sb := by
  have hk : Kept s i (s.setPhase i ph) := kept_update rfl
  refine h.frame hk rfl rfl ?_ ?_ (not_checkpointsAt rfl hcp)
    (not_checkpointsAt (setPhase_self s i ph) hcp') fun hL k hb => ?_
  · simp [hrun, hrun']
  · simp [hrun']
  · by_cases hph : ph = .blocked
    · rcases hblocked hL hph with hpos | ⟨j, copy, pc, hj, -⟩
      · exact .inl hpos
      · have hji : j ≠ i := by rintro rfl; exact hcp copy pc hj
        exact .inr ⟨j, copy, pc, (hk.checkpointing j hji copy pc).mpr hj⟩
    · exact h.blocked_kept hk hcp (by simpa using hph) hL k hb

theorem Reserved.cacheBeginOp (h : s.Reserved sb)
    (hi : s.phase i = .starting) : (s.cacheBeginOp i).Reserved sb := by
  rw [Ops.cacheBeginOp]
  split
  case isTrue hfull =>
    exact h.setPhase (by simp [hi]) (by simp) (by simp [hi]) (by simp) fun hL _ => h.full hL hfull
  case isFalse hroom =>
    have hno : ¬s.Checkpointing := by
      rintro ⟨j, copy, pc, hj, hpc⟩
      have hsize := (h.checkpointed j copy pc hj hpc).size
      exact hroom (by rw [hsize, opMaxNumBlocks]; omega)
    have ha := h.accounted hno
    set s' : Ops := ⟨_, Function.update s.phase i (.running ⟨s.log.lastAllocatedTs + 1, []⟩), s.ended⟩
      with hs'
    have hk : Kept s i s' := kept_update rfl
    have hself : s'.phase i = .running ⟨s.log.lastAllocatedTs + 1, []⟩ := Function.update_self ..
    have hnocp (j : Nat) : ¬s'.CheckpointsAt j := by
      by_cases hj : j = i
      · rw [hj]; exact not_checkpointsAt hself (by simp)
      · rw [hk.checkpointsAt hj]; exact fun hc => hno ⟨j, hc⟩
    refine ⟨?_, fun k ctx hkr => ?_, h.nodup, fun _ => ⟨ha.size, ?_, ?_, ha.ended, ?_⟩,
      fun k copy pc hkc hpc => absurd ⟨copy, pc, hkc, hpc⟩ (hnocp k), fun _ k _ => .inl ?_⟩
    · obtain ⟨S, hS, hcard⟩ := h.counted
      have hiS : i ∉ S := by simp [hS, hi]
      refine ⟨insert i S, fun k => ?_, by rw [Finset.card_insert_of_notMem hiS, hcard]⟩
      by_cases hki : k = i
      · simp [hki, hself]
      · simp only [Finset.mem_insert, hki, false_or, hS, hk.running k hki]
    · by_cases hki : k = i
      · rw [hki, hself, Phase.running.injEq] at hkr
        simp [← hkr]
      · exact h.recorded k ctx ((hk.running k hki ctx).mp hkr)
    · have hused := ha.used
      simp only [hs', hused, Nat.mul_succ]
      omega
    · have hsize := ha.size
      simp only [hs']
      omega
    · simp [hs']
    · simp [hs']

theorem Reserved.sync {ctx ctx' : OpContext} {b : Nat} (h : s.Reserved sb)
    (hi : s.phase i = .running ctx) (hrec : ctx.record b = some ctx') :
    (s.setPhase i (.running ctx')).Reserved sb := by
  have hk : Kept s i (s.setPhase i (.running ctx')) := kept_update rfl
  refine h.frame hk rfl rfl ?_ ?_ (not_checkpointsAt hi (by simp))
    (not_checkpointsAt (setPhase_self s i _) (by simp)) (h.blocked_kept hk (by simp [hi]) (by simp))
  · simp [hi]
  · rintro c hc
    rw [setPhase_self, Phase.running.injEq] at hc
    exact hc ▸ OpContext.length_record hrec (h.recorded i ctx hi)

/-- The `commit` of a running operation passes its assertions and takes no more from `log_used`
than there is. -/
theorem Reserved.commit {ctx : OpContext} (h : s.Reserved sb) (hi : s.phase i = .running ctx) :
    ∃ header absorbed, s.log.commitBlocks ctx = some (header, absorbed) ∧
      Log.Committed s.log.header ctx.blockNo header absorbed ∧
      opMaxNumBlocks - ctx.blockNo.length + absorbed ≤ s.log.logUsed ∧
      s.log.commit ctx = some { s.log with
        header := header
        logUsed := header.numBlocks + opMaxNumBlocks * (s.log.opCount - 1) } := by
  obtain ⟨-, ha⟩ := h.running_accounted hi
  have hpos := h.counted.pos hi
  have hlen := h.recorded i ctx hi
  have hused := ha.used
  have hsize := ha.size
  have hbound := ha.bound
  have hmax : Log.initLogSize sb ≤ 63 := Log.initLogSize_le sb
  have hmul : opMaxNumBlocks * s.log.opCount =
      opMaxNumBlocks * (s.log.opCount - 1) + opMaxNumBlocks := by
    rw [← Nat.mul_succ, Nat.succ_eq_add_one, Nat.sub_add_cancel hpos]
  obtain ⟨header, absorbed, hblocks, hc, hcommit⟩ :=
    Log.commit_spec ctx h.nodup (by omega)
  have hcount := hc.count
  have hle := hc.le
  have hfits : opMaxNumBlocks - ctx.blockNo.length + absorbed ≤ s.log.logUsed := by omega
  refine ⟨header, absorbed, hblocks, hc, hfits, ?_⟩
  rw [hcommit, Log.usizeSub_eq hfits (by omega)]
  congr 2
  omega

/-- The state after the first region of `cache_end_op`: the operation runs the checkpoint if it
was the last one, and else waits for it. -/
theorem Reserved.cacheEndOp_cases {s' : Ops} {ctx : OpContext} (h : s.Reserved sb)
    (hi : s.phase i = .running ctx) (he : s.cacheEndOp i ctx = some s') :
    ∃ header absorbed ph size, Log.Committed s.log.header ctx.blockNo header absorbed ∧
      s'.log = ⟨header, s.log.lastAllocatedTs, s.log.lastPersistedTs, size,
        header.numBlocks + opMaxNumBlocks * (s.log.opCount - 1), s.log.opCount - 1⟩ ∧
      s'.phase = Function.update (fun k => (s.phase k).wakeLog) i ph ∧ s'.ended = ctx :: s.ended ∧
      (s.log.opCount - 1 = 0 ∧ ph = .checkpointing (Log.initLogSize sb) (.logging 0) ∧ size = 0 ∨
        s.log.opCount - 1 ≠ 0 ∧ size = Log.initLogSize sb ∧
          ph = if ctx.ts > s.log.lastPersistedTs then .asleep ctx else .ended) := by
  obtain ⟨-, ha⟩ := h.running_accounted hi
  obtain ⟨header, absorbed, -, hc, -, hcommit⟩ := h.commit hi
  rw [Ops.cacheEndOp, hcommit] at he
  simp only [Option.bind_eq_bind, Option.bind_some] at he
  split at he
  case isTrue hzero =>
    cases he
    exact ⟨header, absorbed, _, _, hc, rfl, rfl, rfl, .inl ⟨hzero, by rw [ha.size], rfl⟩⟩
  case isFalse hsome =>
    cases he
    exact ⟨header, absorbed, _, _, hc, rfl, rfl, rfl, .inr ⟨hsome, ha.size, rfl⟩⟩

theorem Reserved.cacheEndOp {s' : Ops} {ctx : OpContext} (h : s.Reserved sb)
    (hi : s.phase i = .running ctx) (he : s.cacheEndOp i ctx = some s') : s'.Reserved sb := by
  obtain ⟨hno, ha⟩ := h.running_accounted hi
  obtain ⟨header, absorbed, ph, size, hc, hlog, hphase, hended, hph⟩ := h.cacheEndOp_cases hi he
  have hpos := h.counted.pos hi
  have hused := ha.used
  have hbound := ha.bound
  have hlen := h.recorded i ctx hi
  have hmul : opMaxNumBlocks * s.log.opCount =
      opMaxNumBlocks * (s.log.opCount - 1) + opMaxNumBlocks := by
    rw [← Nat.mul_succ, Nat.succ_eq_add_one, Nat.sub_add_cancel hpos]
  have hcount := hc.count
  have hcovers : ∀ c ∈ s'.ended, ∀ b ∈ c.blockNo, b ∈ s'.log.header.entries := by
    intro c hcm b hb
    rw [hlog, hc.mem]
    rw [hended] at hcm
    rcases List.mem_cons.mp hcm with rfl | hcm
    · exact .inr hb
    · exact .inl (ha.ended c hcm b hb)
  have hk : Kept s i s' := kept_wakeLog hphase
  have hself : s'.phase i = ph := by rw [hphase, Function.update_self]
  have hcp (j : Nat) : s'.CheckpointsAt j → j = i := by
    intro hj
    by_contra hji
    exact hno ⟨j, (hk.checkpointsAt hji).mp hj⟩
  have hnew : ph = .checkpointing (Log.initLogSize sb) (.logging 0) ∨ ph = .asleep ctx ∨
      ph = .ended := by
    rcases hph with ⟨-, rfl, -⟩ | ⟨-, -, rfl⟩
    · exact .inl rfl
    · split
      · exact .inr (.inl rfl)
      · exact .inr (.inr rfl)
  refine ⟨?_, fun k c hkr => ?_, by rw [hlog]; exact hc.nodup, fun hno' => ?_,
    fun k copy pc hkc hpc => ?_, fun _ k hkb => ?_⟩
  · obtain ⟨S, hS, hcard⟩ := h.counted
    have hiS : i ∈ S := (hS i).mpr ⟨ctx, hi⟩
    refine ⟨S.erase i, fun k => ?_, by rw [Finset.card_erase_of_mem hiS, hcard, hlog]⟩
    by_cases hki : k = i
    · rcases hnew with rfl | rfl | rfl <;> simp [hki, hself]
    · simp only [Finset.mem_erase, ne_eq, hki, not_false_eq_true, true_and, hS, hk.running k hki]
  · have hki : k ≠ i := by
      rintro rfl
      rcases hnew with rfl | rfl | rfl <;> simp [hself] at hkr
    exact h.recorded k c ((hk.running k hki c).mp hkr)
  · rcases hph with ⟨-, hph, -⟩ | ⟨hsome, hsize, -⟩
    · exact absurd ⟨i, _, _, hself.trans hph, by simp⟩ hno'
    · refine ⟨by rw [hlog]; exact hsize, by rw [hlog], ?_, hcovers, fun hzero => ?_⟩
      · rw [hlog]; simp only; omega
      · rw [hlog] at hzero; exact absurd hzero hsome
  · obtain rfl := hcp k ⟨copy, pc, hkc, hpc⟩
    rw [hself] at hkc
    rcases hph with ⟨hzero, rfl, hsize⟩ | ⟨-, -, hph⟩
    · rw [Phase.checkpointing.injEq] at hkc
      obtain ⟨rfl, rfl⟩ := hkc
      refine ⟨by rw [hlog]; exact hzero, by rw [hlog]; exact hsize, rfl, ?_, hcp, by simp,
        fun _ _ => hcovers⟩
      rw [hlog]; simp only; omega
    · rw [hph] at hkc
      split at hkc <;> cases hkc
  · by_cases hki : k = i
    · rw [hki, hself] at hkb
      rcases hnew with rfl | rfl | rfl <;> cases hkb
    · simp [hphase, Function.update_of_ne hki] at hkb

/-- A step of the checkpoint before `log_size` is restored. -/
theorem Reserved.checkpoint {s' : Ops} {copy : Nat} {pc pc' : Checkpoint} (h : s.Reserved sb)
    (hi : s.phase i = .checkpointing copy pc) (hpc : pc ≠ .finishing) (hk : Kept s i s')
    (hi' : s'.phase i = .checkpointing copy pc') (hpc' : pc' ≠ .finishing)
    (hcount : s'.log.opCount = s.log.opCount) (hsize : s'.log.logSize = s.log.logSize)
    (hheader : s'.log.header = s.log.header ∧ s'.ended = s.ended ∧
        ((∃ k, pc' = .logging k) → ∃ k, pc = .logging k) ∨
      s'.log.header.numBlocks = 0 ∧ ∀ k, pc' ≠ .logging k)
    (hcleared : pc' = .persisting ∨ pc' = .waking ∨ pc' = .restoring →
      s'.log.header.numBlocks = 0) : s'.Reserved sb := by
  have hc := h.checkpointed i copy pc hi hpc
  have hcp (j : Nat) : s'.CheckpointsAt j → j = i := by
    intro hj
    by_contra hji
    exact hji (hc.only j ((hk.checkpointsAt hji).mp hj))
  refine ⟨?_, fun k ctx hkr => ?_, ?_, fun hno => absurd ⟨i, copy, pc', hi', hpc'⟩ hno,
    fun k c q hkc hq => ?_, fun _ k _ => .inr ⟨i, copy, pc', hi'⟩⟩
  · obtain ⟨S, hS, hcard⟩ := h.counted
    refine ⟨S, fun k => ?_, by rw [hcount, hcard]⟩
    by_cases hki : k = i
    · simp [hki, hS, hi, hi']
    · simp only [hS, hk.running k hki]
  · have hki : k ≠ i := by rintro rfl; simp [hi'] at hkr
    exact h.recorded k ctx ((hk.running k hki ctx).mp hkr)
  · rcases hheader with ⟨hhead, -⟩ | ⟨hzero, -⟩
    · rw [hhead]; exact h.nodup
    · simp [LogHeader.entries, hzero]
  · obtain rfl := hcp k ⟨c, q, hkc, hq⟩
    rw [hi', Phase.checkpointing.injEq] at hkc
    obtain ⟨rfl, rfl⟩ := hkc
    refine ⟨by rw [hcount, hc.count], by rw [hsize, hc.size], hc.copy, ?_, hcp, hcleared,
      fun m hm => ?_⟩
    · rcases hheader with ⟨hhead, -⟩ | ⟨hzero, -⟩
      · rw [hhead]; exact hc.bound
      · omega
    · rcases hheader with ⟨hhead, hend, hlog⟩ | ⟨-, hlog⟩
      · obtain ⟨k', rfl⟩ := hlog ⟨m, hm⟩
        rw [hhead, hend]
        exact hc.ended k' rfl
      · exact absurd hm (hlog m)

theorem Reserved.checkpointStep {copy : Nat} {pc : Checkpoint} (h : s.Reserved sb)
    (hi : s.phase i = .checkpointing copy pc) : (s.checkpointStep i copy pc).Reserved sb := by
  cases pc with
  | logging k =>
    rw [Ops.checkpointStep]
    split
    all_goals
      exact h.checkpoint hi (by simp) (kept_update rfl) (setPhase_self ..) (by simp) rfl rfl
        (.inl ⟨rfl, rfl, by simp⟩) (by simp)
  | marking =>
    exact h.checkpoint hi (by simp) (kept_update rfl) (setPhase_self ..) (by simp) rfl rfl
      (.inl ⟨rfl, rfl, by simp⟩) (by simp)
  | replaying k =>
    rw [Ops.checkpointStep]
    split
    case isTrue hzero =>
      exact h.checkpoint hi (by simp) (kept_update rfl) (setPhase_self ..) (by simp) rfl rfl
        (.inl ⟨rfl, rfl, by simp⟩) fun _ => hzero
    case isFalse =>
      split
      · exact h.checkpoint hi (by simp) (kept_update rfl) (setPhase_self ..) (by simp) rfl rfl
          (.inl ⟨rfl, rfl, by simp⟩) (by simp)
      · exact h.checkpoint hi (by simp) (kept_update (Function.update_eq_self i s.phase).symm) hi
          (by simp) rfl rfl (.inr ⟨rfl, by simp⟩) fun _ => rfl
  | persisting =>
    have hc := h.checkpointed i copy _ hi (by simp)
    exact h.checkpoint hi (by simp) (kept_update rfl) (Function.update_self ..) (by simp) rfl rfl
      (.inl ⟨rfl, rfl, by simp⟩) fun _ => hc.cleared (.inl rfl)
  | waking =>
    have hc := h.checkpointed i copy _ hi (by simp)
    have hself : (s.checkpointStep i copy .waking).phase i = .checkpointing copy .restoring := by
      simp [Ops.checkpointStep]
    exact h.checkpoint hi (by simp) (kept_wakePersisted rfl) hself (by simp) rfl rfl
      (.inl ⟨rfl, rfl, by simp⟩) fun _ => hc.cleared (.inr (.inl rfl))
  | restoring =>
    have hc := h.checkpointed i copy _ hi (by simp)
    have hzero : s.log.header.numBlocks = 0 := hc.cleared (.inr (.inr rfl))
    rw [Ops.checkpointStep]
    set s' : Ops := ⟨_, Function.update s.phase i (.checkpointing copy .finishing), []⟩ with hs'
    have hk : Kept s i s' := kept_update rfl
    have hself : s'.phase i = .checkpointing copy .finishing := Function.update_self ..
    have hno (j : Nat) : ¬s'.CheckpointsAt j := by
      intro hj
      by_cases hji : j = i
      · obtain ⟨c, q, hq, hne⟩ := hj
        rw [hji, hself, Phase.checkpointing.injEq] at hq
        exact hne hq.2.symm
      · exact hji (hc.only j ((hk.checkpointsAt hji).mp hj))
    refine ⟨?_, fun k ctx hkr => ?_, h.nodup, fun _ => ⟨hc.copy, ?_, Nat.zero_le _, by simp [hs'],
      fun _ => hzero⟩, fun k c q hkc hq => absurd ⟨c, q, hkc, hq⟩ (hno k),
      fun _ k _ => .inr ⟨i, copy, _, hself⟩⟩
    · obtain ⟨S, hS, hcard⟩ := h.counted
      refine ⟨S, fun k => ?_, hcard⟩
      by_cases hki : k = i
      · simp [hki, hS, hi, hself]
      · simp only [hS, hk.running k hki]
    · have hki : k ≠ i := by rintro rfl; simp [hself] at hkr
      exact h.recorded k ctx ((hk.running k hki ctx).mp hkr)
    · simp [hs', hzero, hc.count]
  | finishing =>
    refine h.frame (kept_wakeLog rfl) rfl rfl ?_ ?_ ?_ ?_ fun _ k hkb => ?_
    · simp [Ops.checkpointStep, hi]
    · simp [Ops.checkpointStep]
    · rintro ⟨c, q, hq, hne⟩
      rw [hi, Phase.checkpointing.injEq] at hq
      exact hne hq.2.symm
    · have hself : (s.checkpointStep i copy .finishing).phase i = .ended := by
        simp [Ops.checkpointStep]
      exact not_checkpointsAt hself (by simp)
    · by_cases hki : k = i
      · simp [Ops.checkpointStep, hki] at hkb
      · simp [Ops.checkpointStep, Function.update_of_ne hki] at hkb

theorem Reserved.next {s' : Ops} (h : s.Reserved sb) (a : OpLabel) (hn : s.next a = some s') :
    s'.Reserved sb := by
  cases a with
  | enter i =>
    simp only [Ops.next, Option.ite_none_right_eq_some, Option.some.injEq] at hn
    obtain ⟨hi, rfl⟩ := hn
    exact h.setPhase (by simp [hi]) (by simp) (by simp [hi]) (by simp) (by simp)
  | begin i =>
    simp only [Ops.next, Option.ite_none_right_eq_some, Option.some.injEq] at hn
    obtain ⟨hi, rfl⟩ := hn
    exact h.cacheBeginOp hi
  | sync i b =>
    simp only [Ops.next] at hn
    split at hn
    case h_1 ctx hi =>
      obtain ⟨ctx', hrec, rfl⟩ := Option.map_eq_some_iff.mp hn
      exact h.sync hi hrec
    case h_2 => cases hn
  | endOp i =>
    simp only [Ops.next] at hn
    split at hn
    case h_1 ctx hi => exact h.cacheEndOp hi hn
    case h_2 => cases hn
  | wait i =>
    simp only [Ops.next] at hn
    split at hn
    case h_1 ctx hi =>
      cases hn
      refine h.setPhase (by simp [hi]) ?_ (by simp [hi]) ?_ ?_
      all_goals split <;> simp
    case h_2 => cases hn
  | checkpoint i =>
    simp only [Ops.next] at hn
    split at hn
    case h_1 copy pc hi =>
      cases hn
      exact h.checkpointStep hi
    case h_2 => cases hn

theorem Reserved.init (h : s.Init sb) : s.Reserved sb := by
  obtain ⟨⟨header, hzero, hlog⟩, hidle, hended⟩ := h
  refine ⟨⟨∅, by simp [hidle], by simp [hlog, Log.initLog]⟩, by simp [hidle], ?_, fun _ => ?_,
    by simp [hidle], by simp [hidle]⟩
  · simp [hlog, Log.initLog, LogHeader.entries, hzero]
  · refine ⟨by rw [hlog]; rfl, ?_, ?_, by simp [hended], fun _ => ?_⟩
    all_goals simp [hlog, Log.initLog, hzero]

theorem reserved_of_reachable (h : (opsMachine sb).Reachable s) : s.Reserved sb :=
  h.invariant (fun _ => Reserved.init) fun _ a _ hs => hs.next a

end Step

/-- In every state that operations reach: while no checkpoint is running the log space is
accounted for and the header has no duplicates and holds every block of the operations that ended
since the last checkpoint; the `commit` of a running operation passes its assertions and does not
underflow; and `cache_begin_op` finds too little space, or is asleep, only while another operation
is running or a checkpoint has not finished. -/
theorem log_reservation (sb : SuperBlock) (hL : opMaxNumBlocks ≤ Log.initLogSize sb) (s : Ops)
    (h : (opsMachine sb).Reachable s) :
    (¬s.Checkpointing →
      s.log.logUsed = s.log.header.numBlocks + opMaxNumBlocks * s.log.opCount ∧
      s.log.logUsed ≤ Log.initLogSize sb ∧ s.log.header.entries.Nodup ∧
      (∀ ctx ∈ s.ended, ∀ b ∈ ctx.blockNo, b ∈ s.log.header.entries) ∧
      (s.log.opCount = 0 → s.log.header.numBlocks = 0 ∧ s.log.logUsed = 0)) ∧
    (∀ i ctx, s.phase i = .running ctx → ctx.blockNo.length ≤ opMaxNumBlocks ∧
      ∃ header absorbed, s.log.commitBlocks ctx = some (header, absorbed) ∧
        opMaxNumBlocks - ctx.blockNo.length + absorbed ≤ s.log.logUsed) ∧
    (s.log.logUsed + opMaxNumBlocks > s.log.logSize →
      (∃ i ctx, s.phase i = .running ctx) ∨ s.Checkpointing) ∧
    (∀ i, s.phase i = .blocked → (∃ j ctx, s.phase j = .running ctx) ∨
      ∃ j copy pc, s.phase j = .checkpointing copy pc) := by
  have hr := reserved_of_reachable h
  refine ⟨fun hno => ?_, fun i ctx hi => ⟨hr.recorded i ctx hi, ?_⟩, fun hfull => ?_,
    fun i hi => ?_⟩
  · have ha := hr.accounted hno
    refine ⟨ha.used, ha.bound, hr.nodup, ha.ended, fun hzero => ⟨ha.empty hzero, ?_⟩⟩
    simp [ha.used, ha.empty hzero, hzero]
  · obtain ⟨header, absorbed, hblocks, -, hfits, -⟩ := hr.commit hi
    exact ⟨header, absorbed, hblocks, hfits⟩
  · exact (hr.full hL hfull).imp hr.counted.running id
  · exact (hr.blocked hL i hi).imp hr.counted.running id

/-- The operations just after `init_bcache` on a disk with an empty log. -/
def booted (sb : SuperBlock) : Ops := ⟨Log.initLog sb ⟨0, fun _ => 0⟩, fun _ => .idle, []⟩

theorem booted_init (sb : SuperBlock) : (booted sb).Init sb :=
  ⟨⟨_, rfl, rfl⟩, fun _ => rfl, rfl⟩

/-- With the shipped geometry: one operation has ended, and a second one is about to end, with a
block of its own and a block of the first. -/
theorem log_reservation_two : ∃ s, (opsMachine mkfsSuperBlock).Reachable s ∧
    s.phase 1 = .running ⟨2, [71, 72]⟩ ∧ s.log.header.entries = [70, 71] ∧
    ∃ header absorbed, s.log.commitBlocks ⟨2, [71, 72]⟩ = some (header, absorbed) ∧
      opMaxNumBlocks - 2 + absorbed ≤ s.log.logUsed := by
  have hr : ((opsMachine mkfsSuperBlock).run (booted mkfsSuperBlock)
      [.enter 0, .begin 0, .enter 1, .begin 1, .sync 0 70, .sync 0 71, .sync 1 71, .sync 1 72,
        .endOp 0]).map (fun s => decide (s.phase 1 = .running ⟨2, [71, 72]⟩ ∧
          s.log.header.entries = [70, 71])) = some true := by decide +kernel
  obtain ⟨s, hs, hp⟩ := Machine.Reachable.of_run (booted_init _) hr
  obtain ⟨hphase, hentries⟩ := of_decide_eq_true hp
  obtain ⟨-, hcommit, -, -⟩ := log_reservation mkfsSuperBlock (by decide) s hs
  exact ⟨s, hs, hphase, hentries, (hcommit 1 _ hphase).2⟩

end Ops

end Cache

end FtosFfs
