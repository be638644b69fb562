import FtosFfs.Fs.Ops
import FtosFfs.Cache.Reservation

/-! References to inodes: `inode_get`, `inode_share`, `inode_lock`, `inode_unlock`, and `inode_put` on
inodes in use, in any order and over any leftover memory.  `inode_put` decides by the entry in
memory, loaded or not, whether it frees the inode. -/

namespace FtosFfs.Fs

open Lib Lib.Exec Cache

variable {s s' : State} {p : Ptr} {n : Nat} {d : Nat → BlockData}

/-- The calls, `put` with the context of its caller. -/
inductive HandleOp
  | get (inodeNo : Nat)
  | share (p : Ptr)
  | lock (p : Ptr)
  | unlock (p : Ptr)
  | put (ctx : Option OpContext) (p : Ptr)

/-- A context as `cache_begin_op` and `cache_sync` leave it. -/
def OpContext.Ok (c : OpContext) : Prop := c.blockNo.Nodup ∧ c.blockNo.length ≤ opMaxNumBlocks

instance (c : OpContext) : Decidable (OpContext.Ok c) := inferInstanceAs (Decidable (_ ∧ _))

/-- `inode_put` with a context or without. -/
def putWith (ctx : Option OpContext) (p : Ptr) : M Unit := do
  match ctx with
  | some c =>
    modify fun s => { s with ctx := c }
    inodePut sblock true p
  | none => inodePut sblock false p

namespace HandleOp

/-- References are to inodes in use, and contexts are those of operations. -/
def Allowed (s : State) : HandleOp → Prop
  | get n => InUse (diskEntry s.disk) n
  | share p | lock p | unlock p => p ∈ s.list
  | put ctx p => p ∈ s.list ∧ ∀ c ∈ ctx, OpContext.Ok c

instance (s : State) : (op : HandleOp) → Decidable (op.Allowed s)
  | get _ => inferInstanceAs (Decidable (InUse _ _))
  | share _ | lock _ | unlock _ => inferInstanceAs (Decidable (_ ∈ _))
  | put _ _ => inferInstanceAs (Decidable (_ ∧ _))

def exec : HandleOp → M Unit
  | get n => discard (inodeGet sblock n)
  | share p => discard (inodeShare p)
  | lock p => inodeLock sblock p
  | unlock p => inodeUnlock p
  | put ctx p => putWith ctx p

end HandleOp

/-- The calls on the disk `d`, over any memory. -/
def handles (d : Nat → BlockData) : Machine State HandleOp where
  init s := ∃ mem, s = mount sblock d mem
  next s op := if op.Allowed s then after op.exec s else none

/-! ### Invariant -/

/-- Memory and disk agree, and all referenced inodes are in use. -/
structure Handled (s : State) : Prop where
  cached : Cached ∅ s
  inUse : ∀ p ∈ s.list, InUse (diskEntry s.disk) (s.mem p).inodeNo

/-- A change of one object that leaves the disk and the list as they are. -/
theorem Handled.setInode (h : Handled s) {ip : Inode} (hc : Cached ∅ (s.setInode p ip))
    (hno : ip.inodeNo = (s.mem p).inodeNo) : Handled (s.setInode p ip) := by
  refine ⟨hc, fun q hq => ?_⟩
  by_cases hqp : q = p
  · subst hqp
    rw [State.mem_setInode_same, hno]
    exact h.inUse q hq
  · rw [State.mem_setInode_ne _ hqp]
    exact h.inUse q hq

theorem putWith_runs {ctx : Option OpContext} {u : Unit} :
    Runs (putWith ctx p) s u s' ↔
      Runs (inodePut sblock ctx.isSome p) { s with ctx := ctx.getD s.ctx } u s' := by
  cases ctx with
  | none => rfl
  | some c =>
    simp only [putWith, runs_bind, runs_modify, Option.isSome_some, Option.getD_some]
    constructor
    · rintro ⟨_, _, rfl, h⟩
      exact h
    · exact fun h => ⟨⟨⟩, _, rfl, h⟩

theorem Handled.withCtx (h : Handled s) (c : OpContext) : Handled { s with ctx := c } :=
  ⟨h.cached.congr rfl rfl rfl rfl rfl, h.inUse⟩

theorem Handled.loaded (h : Handled s) (hp : p ∈ s.list) :
    s.loaded p = diskEntry s.disk (s.mem p).inodeNo := by
  unfold State.loaded
  split
  case isTrue hv => exact (h.cached.inode p hp).clean hv (by simp)
  case isFalse => rfl

/-- With memory and disk in agreement, what `inode_put` frees is the inode on disk. -/
theorem Handled.inodePut_spec (h : Handled s) (hp : p ∈ s.list) {ctx : Bool} {u : Unit}
    (hr : Runs (inodePut sblock ctx p) s u s') :
    ((s.mem p).isLast = false ∧ s' = s.dropped p) ∨
      ((s.mem p).isLast = true ∧ (s.mem p).locked = false ∧
        ∃ t, FreeDone ctx p (s.mem p).inodeNo (diskEntry s.disk) s t ∧ s' = t.dropped p) := by
  have hspec := h.cached.inodePut_spec hp hr
  rw [h.loaded hp, Function.update_eq_self] at hspec
  rcases hspec with hkept | ⟨hl, hk, -, t, hd, rfl⟩
  · exact .inl hkept
  · exact .inr ⟨hl, hk, t, hd, rfl⟩

theorem Handled.inodePut (h : Handled s) (hp : p ∈ s.list) {ctx : Bool} {u : Unit}
    (hr : Runs (inodePut sblock ctx p) s u s') : Handled s' := by
  obtain ⟨hc, hmem⟩ := h.cached.inodePut hp hr
  refine ⟨hc, fun q hq => ?_⟩
  rcases h.inodePut_spec hp hr with ⟨-, rfl⟩ | ⟨hl, -, t, hd, rfl⟩
  · have hq' : q ∈ s.list := by
      have hlist : (s.dropped p).list = if (s.mem p).rc - 1 ≤ 0 then s.list.erase p else s.list := rfl
      rw [hlist] at hq
      split at hq
      · exact List.mem_of_mem_erase hq
      · exact hq
    by_cases hqp : q = p
    · subst hqp
      rw [show ((s.dropped q).mem q).inodeNo = (s.mem q).inodeNo by simp [State.dropped]]
      exact h.inUse q hq'
    · rw [hmem q hqp]
      exact h.inUse q hq'
  · have hfreed := h.cached.freed hp hl (by
      rw [h.loaded hp, Function.update_eq_self]
      exact hd)
    rw [hfreed.2.1, h.cached.list.nodup.mem_erase_iff] at hq
    rw [hmem q hq.1]
    have hu := h.inUse q hq.2
    have hne : (s.mem q).inodeNo ≠ (s.mem p).inodeNo :=
      fun heq => hq.1 (h.cached.list.inj q hq.2 p hp heq)
    refine ⟨hu.1, ?_⟩
    have hent : diskEntry (t.dropped p).disk (s.mem q).inodeNo = _ := hd.entries _ hu.1
    rw [hent, if_neg hne]
    exact hu.2

theorem HandleOp.handled {op : HandleOp} {u : Unit} (h : Handled s) (ha : op.Allowed s)
    (hr : Runs op.exec s u s') : Handled s' := by
  cases op with
  | get n =>
    obtain ⟨p, hr⟩ := runs_discard hr
    obtain ⟨hc, hp, hno⟩ := h.cached.inodeGet hr
    obtain ⟨-, ⟨hp, -, rfl⟩ | ⟨-, rfl, rfl⟩⟩ := (runs_inodeGet h.cached.list).mp hr
    · exact h.setInode hc rfl
    · refine ⟨hc, fun q hq => ?_⟩
      rcases List.mem_cons.mp hq with rfl | hq
      · rw [hno]
        exact ha
      · have hne : q ≠ s.fresh := Nat.ne_of_lt (h.cached.list.fresh q hq)
        simp only [Function.update_of_ne hne]
        exact h.inUse q hq
  | share p =>
    obtain ⟨q, hr⟩ := runs_discard hr
    simp only [inodeShare, Fs.incrementRc, runs_bind, runs_modifyInode, runs_pure] at hr
    obtain ⟨_, _, rfl, -, rfl⟩ := hr
    exact h.setInode (h.cached.incrementRc ha) rfl
  | lock p =>
    obtain ⟨hc, rfl⟩ := h.cached.inodeLock ha hr
    exact h.setInode hc rfl
  | unlock p =>
    obtain ⟨hc, rfl⟩ := h.cached.inodeUnlock ha hr
    exact h.setInode hc rfl
  | put ctx p => exact (h.withCtx (ctx.getD s.ctx)).inodePut ha.1 (putWith_runs.mp hr)

theorem handles_handled (hd : BlocksOwned (diskEntry d) d) (hs : (handles d).Reachable s) :
    Handled s := by
  refine hs.invariant ?_ ?_
  · rintro s ⟨mem, rfl⟩
    exact ⟨cached_mount hd, by simp [mount]⟩
  · intro s op s' h hn
    simp only [handles, Option.ite_none_right_eq_some] at hn
    obtain ⟨ha, hn⟩ := hn
    obtain ⟨u, hr⟩ := after_eq_some.mp hn
    exact op.handled h ha hr

/-! ### The record of an operation -/

/-- A context has room for the syncs of a list of blocks when it records at most
`OP_MAX_NUM_BLOCKS` blocks with them. -/
theorem recordAll_isSome {c : OpContext} (hc : OpContext.Ok c) (l : List Nat) :
    (recordAll true c l).isSome ↔ (c.blockNo ++ l).toFinset.card ≤ opMaxNumBlocks := by
  induction l generalizing c with
  | nil =>
    rw [List.append_nil, List.toFinset_card_of_nodup hc.1]
    exact ⟨fun _ => hc.2, fun _ => rfl⟩
  | cons b l ih =>
    rw [recordAll_cons, recorded, if_pos rfl, OpContext.record_eq c b hc.2]
    by_cases hb : b ∈ c.blockNo
    · have hset : (c.blockNo ++ b :: l).toFinset = (c.blockNo ++ l).toFinset := by
        ext x
        simp only [List.mem_toFinset, List.mem_append, List.mem_cons]
        constructor
        · rintro (h | rfl | h)
          · exact .inl h
          · exact .inl hb
          · exact .inr h
        · rintro (h | h)
          · exact .inl h
          · exact .inr (.inr h)
      rw [if_pos hb, Option.bind_some, ih hc, hset]
    · have hnew : (c.blockNo ++ [b]).Nodup := by
        rw [List.nodup_append]
        refine ⟨hc.1, by simp, fun x hx y hy => ?_⟩
        rw [List.mem_singleton] at hy
        rintro rfl
        exact hb (hy ▸ hx)
      rw [if_neg hb]
      by_cases hlt : c.blockNo.length < opMaxNumBlocks
      · have hok : OpContext.Ok ⟨c.ts, c.blockNo ++ [b]⟩ :=
          ⟨hnew, by rw [List.length_append]; exact hlt⟩
        rw [if_pos hlt, Option.bind_some, ih hok, List.append_assoc, List.singleton_append]
      · rw [if_neg hlt]
        simp only [Option.bind_none, Option.isSome_none, Bool.false_eq_true, false_iff, not_le]
        calc opMaxNumBlocks < (c.blockNo ++ [b]).length := by
              rw [List.length_append, List.length_singleton]
              omega
          _ = (c.blockNo ++ [b]).toFinset.card := (List.toFinset_card_of_nodup hnew).symm
          _ ≤ (c.blockNo ++ b :: l).toFinset.card := by
              refine Finset.card_le_card fun x hx => ?_
              simp only [List.mem_toFinset, List.mem_append, List.mem_cons, List.not_mem_nil,
                or_false] at hx ⊢
              tauto

/-! ### When `inode_put` frees -/

theorem mem_blocksOf {e : InodeEntry} {b : Nat} (hb : b ≠ 0) :
    b ∈ blocksOf e d ↔ ∃ pl, blockOf e d pl = b := by
  have htable : b ∈ tableBlocks e d ↔ ∃ pl, (pl = .table ∨ ∃ k, pl = .slot k) ∧ blockOf e d pl = b := by
    unfold tableBlocks
    split
    case isTrue h0 =>
      simp only [List.not_mem_nil, false_iff]
      rintro ⟨pl, rfl | ⟨k, rfl⟩, h⟩ <;> simp [blockOf, h0] at h <;> exact hb h.symm
    case isFalse h0 =>
      simp only [List.mem_append, List.mem_map, List.mem_range, List.mem_singleton]
      constructor
      · rintro (⟨k, -, rfl⟩ | rfl)
        · exact ⟨.slot k, .inr ⟨k, rfl⟩, by simp [blockOf, h0]⟩
        · exact ⟨.table, .inl rfl, rfl⟩
      · rintro ⟨pl, rfl | ⟨k, rfl⟩, h⟩
        · exact .inr h.symm
        · simp only [blockOf, h0, if_false] at h
          refine .inl ⟨k, ?_, h⟩
          by_contra hk
          rw [getAddr_of_le (Nat.not_lt.mp hk)] at h
          exact hb h.symm
  simp only [blocksOf, List.mem_append, htable, List.mem_map, List.mem_range]
  constructor
  · rintro (⟨i, -, h⟩ | ⟨pl, -, h⟩)
    · exact ⟨.direct i, h⟩
    · exact ⟨pl, h⟩
  · rintro ⟨pl, h⟩
    cases pl with
    | direct i =>
      refine .inl ⟨i, ?_, h⟩
      by_contra hi
      rw [blockOf, addr_of_le (Nat.not_lt.mp hi)] at h
      exact hb h.symm
    | table => exact .inr ⟨.table, .inl rfl, h⟩
    | slot k => exact .inr ⟨.slot k, .inr ⟨k, rfl⟩, h⟩

/-- Inode `n` is freed on disk: its entry is cleared and invalid, the bits of its blocks are clear,
and everything else is as it was. -/
structure IsFreed (n : Nat) (d d' : Nat → BlockData) : Prop where
  entry : diskEntry d' n = freedEntry (diskEntry d n)
  other : ∀ m, IsInode m → m ≠ n → diskEntry d' m = diskEntry d m
  bit : ∀ b, InGroups b →
    blockBit d' b = if b ∈ blocksOf (diskEntry d n) d then false else blockBit d b
  data : ∀ c, ¬IsBitmap c → ¬IsInodes c → d' c = d c

theorem FreeDone.isFreed {ctx : Bool} (hn : InUse (diskEntry s.disk) n)
    (ho : BlocksOwned (diskEntry s.disk) s.disk) (h : FreeDone ctx p n (diskEntry s.disk) s s') :
    IsFreed n s.disk s'.disk := by
  have hdata (c : Nat) (hc : IsData c) : s'.disk c = s.disk c :=
    h.same c hc.not_bitmap hc.not_inodes
  have href : ref (Function.update (diskEntry s.disk) n (freedEntry (diskEntry s.disk n))) s'.disk =
      withoutInode (ref (diskEntry s.disk) s.disk) n := by
    rw [ref_freed hn, ref_cleared hn s'.disk hdata ho]
  have howns := h.owned.owns
  rw [href] at howns
  constructor
  case entry => exact (h.entries n hn.1).trans (if_pos rfl)
  case other => exact fun m hm hmn => (h.entries m hm).trans (if_neg hmn)
  case data => exact h.same
  case bit =>
    intro b hb
    have hb0 : b ≠ 0 := by
      rw [inGroups_iff] at hb
      omega
    by_cases hd : IsData b
    · rw [Bool.eq_iff_iff, howns.exact b hd]
      split
      case isTrue hmem =>
        obtain ⟨pl, hpl⟩ := (mem_blocksOf hb0).mp hmem
        rw [← ref_of_inUse hn] at hpl
        simp only [Bool.false_eq_true, iff_false]
        rintro ⟨⟨m, pl'⟩, hj⟩
        unfold withoutInode at hj
        split at hj
        case isTrue => exact hb0 hj.symm
        case isFalse hmn =>
          have := ho.owns.distinct (m, pl') (n, pl) (by rw [hj]; exact hb0) (by rw [hj, hpl])
          exact hmn (congrArg Prod.fst this)
      case isFalse hmem =>
        rw [ho.owns.exact b hd]
        constructor
        · rintro ⟨j, hj⟩
          unfold withoutInode at hj
          split at hj
          case isTrue => exact absurd hj.symm hb0
          case isFalse => exact ⟨j, hj⟩
        · rintro ⟨⟨m, pl⟩, hj⟩
          refine ⟨(m, pl), ?_⟩
          have hmn : m ≠ n := by
            rintro rfl
            rw [ref_of_inUse hn] at hj
            exact hmem ((mem_blocksOf hb0).mpr ⟨pl, hj⟩)
          rw [withoutInode, if_neg hmn, hj]
    · rw [h.owned.metaUsed b hb hd, ho.metaUsed b hb hd, if_neg]
      intro hmem
      obtain ⟨pl, hpl⟩ := (mem_blocksOf hb0).mp hmem
      exact hd (hpl ▸ ho.isData pl hn (by rw [hpl]; exact hb0))

/-- `inode_put` that finds the last reference frees the inode, if it can lock it and record the
blocks. -/
theorem Handled.put_frees (h : Handled s) (hp : p ∈ s.list) {ctx : Bool} {c : OpContext}
    (hl : (s.mem p).isLast = true) (hk : (s.mem p).locked = false)
    (hrec : recordAll ctx s.ctx (freedRecord (diskEntry s.disk (s.mem p).inodeNo) s.disk
      (s.mem p).inodeNo) = some c) :
    ∃ s', Runs (Fs.inodePut sblock ctx p) s () s' ∧ IsFreed (s.mem p).inodeNo s.disk s'.disk := by
  have hu := h.inUse p hp
  obtain ⟨t, ht⟩ := freeInode_returns rfl (h.loaded hp).symm hu h.cached.owned
    (h.cached.list.rc p hp) hk h.cached.held hrec
  obtain ⟨-, -, -, hdone⟩ := freeInode_spec rfl hu.1 (h.loaded hp).symm h.cached.owned ht
  have hfreed : IsFreed (s.mem p).inodeNo s.disk t.disk := hdone.isFreed hu h.cached.owned
  refine ⟨t.dropped p, ?_, hfreed⟩
  rw [runs_inodePut, if_pos hl]
  exact ⟨t, ht, rfl⟩

theorem put_keeps {ctx : Bool} (hl : (s.mem p).isLast = false) :
    Runs (inodePut sblock ctx p) s () (s.dropped p) := by
  rw [runs_inodePut, if_neg (by simp [hl])]

/-- `inode_put` is to free the inode at `p`: this is the last reference, and no link is left on
disk. -/
def MustFree (s : State) (p : Ptr) : Prop :=
  (s.mem p).rc ≤ 1 ∧ (diskEntry s.disk (s.mem p).inodeNo).numLinks = 0

/-- `inode_put` returns, frees the inode on disk if it is to be freed, and leaves the disk as it is
otherwise. -/
def PutsRight (ctx : Option OpContext) (s : State) (p : Ptr) : Prop :=
  ∃ s', Runs (putWith ctx p) s () s' ∧
    (MustFree s p → IsFreed (s.mem p).inodeNo s.disk s'.disk) ∧
    (¬MustFree s p → s'.disk = s.disk)

/-- The context has room for the blocks that the freeing of the inode at `p` syncs. -/
def HasRoom (ctx : Option OpContext) (s : State) (p : Ptr) : Prop :=
  ∀ c ∈ ctx, (c.blockNo ++ freedRecord (diskEntry s.disk (s.mem p).inodeNo) s.disk
    (s.mem p).inodeNo).toFinset.card ≤ opMaxNumBlocks

/-- The link count in memory decides as the one on disk does. -/
def Decides (s : State) (p : Ptr) : Prop :=
  1 < (s.mem p).rc ∨ (s.mem p).valid = true ∨
    ((s.mem p).entry.numLinks = 0 ↔ (diskEntry s.disk (s.mem p).inodeNo).numLinks = 0)

theorem Handled.isLast_iff (h : Handled s) (hp : p ∈ s.list) :
    ((s.mem p).isLast = true ↔ MustFree s p) ↔ Decides s p := by
  simp only [Inode.isLast, decide_eq_true_eq, MustFree, Decides]
  by_cases hrc : (s.mem p).rc ≤ 1
  · have hrc' : ¬1 < (s.mem p).rc := by omega
    cases hv : (s.mem p).valid with
    | true => simp [hrc, (h.cached.inode p hp).clean hv (by simp)]
    | false => simp [hrc, hrc']
  · have hrc' : 1 < (s.mem p).rc := by omega
    simp [hrc, hrc']

theorem hasRoom_iff {ctx : Option OpContext} (hc : ∀ c ∈ ctx, OpContext.Ok c) :
    HasRoom ctx s p ↔ ∃ c, recordAll ctx.isSome (ctx.getD s.ctx)
      (freedRecord (diskEntry s.disk (s.mem p).inodeNo) s.disk (s.mem p).inodeNo) = some c := by
  cases ctx with
  | none =>
    simp [HasRoom, recordAll_false]
  | some c =>
    simp only [HasRoom, Option.mem_some_iff, forall_eq', Option.isSome_some, Option.getD_some]
    rw [← recordAll_isSome (hc c rfl), Option.isSome_iff_exists]

/-- `inode_put` frees exactly the inodes that it is to free if and only if the link count in memory
decides as the one on disk does and, for an inode to be freed, the caller does not hold its lock and
its context has room for the freeing. -/
theorem putsRight_iff (hd : BlocksOwned (diskEntry d) d) (hs : (handles d).Reachable s)
    (hp : p ∈ s.list) {ctx : Option OpContext} (hc : ∀ c ∈ ctx, OpContext.Ok c) :
    PutsRight ctx s p ↔
      Decides s p ∧ (MustFree s p → (s.mem p).locked = false ∧ HasRoom ctx s p) := by
  have h := handles_handled hd hs
  have h' := h.withCtx (ctx.getD s.ctx)
  have hu := h.inUse p hp
  unfold PutsRight
  simp only [putWith_runs, hasRoom_iff hc, ← h.isLast_iff hp]
  constructor
  · rintro ⟨s', hr, hfree, hkeep⟩
    rcases h'.inodePut_spec hp hr with ⟨hl, rfl⟩ | ⟨hl, hk, t, hdone, rfl⟩
    · -- Nothing was freed, so there was nothing to free.
      have hl' : (s.mem p).isLast = false := hl
      have hnot : ¬MustFree s p := by
        intro hm
        have htype := congrArg InodeEntry.type (hfree hm).entry
        exact hu.2 htype
      simp [hl', hnot]
    · have hl' : (s.mem p).isLast = true := hl
      have hm : MustFree s p := by
        by_contra hm
        have hdisk : t.disk = s.disk := hkeep hm
        have hentry := (hdone.entries _ hu.1).trans (if_pos rfl)
        rw [hdisk] at hentry
        exact hu.2 (congrArg InodeEntry.type hentry)
      exact ⟨by simp [hl', hm], fun _ => ⟨hk, t.ctx, hdone.record⟩⟩
  · rintro ⟨hdec, hroom⟩
    by_cases hm : MustFree s p
    · obtain ⟨hk, c, hrec⟩ := hroom hm
      obtain ⟨s', hr, hfreed⟩ := h'.put_frees hp (hdec.mpr hm) hk hrec
      exact ⟨s', hr, fun _ => hfreed, fun h => absurd hm h⟩
    · have hl : (s.mem p).isLast = false := by
        by_contra hl
        exact hm (hdec.mp (by simpa using hl))
      exact ⟨_, put_keeps hl, fun h => absurd h hm, fun _ => rfl⟩

/-- The state after `inode_get` of inode `n` on disk `d`, over memory that holds `e`. -/
def firstHandle (d : Nat → BlockData) (n : Nat) (e : InodeEntry) : State :=
  { mount sblock d fun _ => ⟨false, 0, 0, false, e⟩ with
    fresh := 1
    list := [0]
    mem := Function.update (fun _ => ⟨false, 0, 0, false, e⟩) 0 ⟨false, 1, n, false, e⟩ }

theorem reachable_firstHandle (hd : BlocksOwned (diskEntry d) d) (hn : InUse (diskEntry d) n)
    (e : InodeEntry) : (handles d).Reachable (firstHandle d n e) := by
  have hc : Cached ∅ (mount sblock d fun _ => ⟨false, 0, 0, false, e⟩) := cached_mount hd
  have hget : Runs (inodeGet sblock n) (mount sblock d fun _ => ⟨false, 0, 0, false, e⟩) 0
      (firstHandle d n e) :=
    (runs_inodeGet hc.list).mpr ⟨hn.1, .inr ⟨by simp [mount], rfl, rfl⟩⟩
  have hinit : (handles d).init (mount sblock d fun _ => ⟨false, 0, 0, false, e⟩) := ⟨_, rfl⟩
  refine .step (a := .get n) (.init hinit) trivial ?_
  refine (if_pos hn).trans (after_eq_some.mpr ⟨(), ?_⟩)
  exact runs_map.mpr ⟨0, hget, rfl⟩

/-- The root directory of the empty image, with a reference over memory that holds `e`. -/
def rootHandle (e : InodeEntry) : State := firstHandle Mkfs.emptyImage 1 e

theorem reachable_rootHandle (e : InodeEntry) :
    (handles Mkfs.emptyImage).Reachable (rootHandle e) :=
  reachable_firstHandle Mkfs.builds_emptyImage.owned ⟨Mkfs.isInode_one, by decide +kernel⟩ e

/-- Over memory that holds a link count of 0, `inode_put` frees the root directory, whose link count
on disk is 1. -/
theorem put_frees_linked : BlocksOwned (diskEntry Mkfs.emptyImage) Mkfs.emptyImage ∧
    ∃ s p, (handles Mkfs.emptyImage).Reachable s ∧ p ∈ s.list ∧
      (diskEntry s.disk (s.mem p).inodeNo).numLinks = 1 ∧ ¬PutsRight none s p := by
  refine ⟨Mkfs.builds_emptyImage.owned, rootHandle InodeEntry.zero, 0, reachable_rootHandle _,
    by decide, by decide +kernel, ?_⟩
  rintro ⟨s', hr, -, hkeep⟩
  have hlinks : (diskEntry (rootHandle InodeEntry.zero).disk 1).numLinks ≠ 0 := by decide +kernel
  have htype : (diskEntry (rootHandle InodeEntry.zero).disk 1).type ≠ inodeInvalid := by
    decide +kernel
  have hfreed : (after (putWith none 0) (rootHandle InodeEntry.zero)).map
      (fun s' => (diskEntry s'.disk 1).type) = some inodeInvalid := by decide +kernel
  rw [after_eq_some.mpr ⟨(), hr⟩, Option.map_some, hkeep fun hm => hlinks hm.2] at hfreed
  exact htype (Option.some.inj hfreed)

/-- Over memory that holds a link count of 1, `inode_put` leaves the root directory alone. -/
theorem putsRight_root : PutsRight none (rootHandle { InodeEntry.zero with numLinks := 1 }) 0 :=
  (putsRight_iff Mkfs.builds_emptyImage.owned (reachable_rootHandle _) (by decide) (by simp)).mpr
    ⟨.inr (.inr (by decide +kernel)), fun h => absurd h.2 (by decide +kernel)⟩

/-- The empty image with an unlinked regular file without blocks as inode 2. -/
def unlinkedImage : Nat → BlockData := storeEntry Mkfs.emptyImage 2 (newEntry inodeRegular)

theorem isInode_two : IsInode 2 := isInode_iff.mpr ⟨by omega, by omega⟩

theorem unlinkedImage_owned : BlocksOwned (diskEntry unlinkedImage) unlinkedImage :=
  Mkfs.builds_emptyImage.owned.claim isInode_two (by decide +kernel)

end FtosFfs.Fs
