import FtosFfs.Fs.Filewrite
import FtosFfs.Fs.Handles

/-! The blocks that `inode_put` syncs when it frees an inode, and the operation of `fileclose` against
the limit of `OP_MAX_NUM_BLOCKS` blocks. -/

namespace FtosFfs.Fs

open Lib Lib.Exec Cache

variable {α β : Type} {s t u : State} {p : Ptr} {n f : Nat} {E : Nat → InodeEntry} {dirty : Set Nat}

/-! ### Calls that only sync with their context -/

/-- The call does with a context what it does without, but for the record. -/
def Replays (x : Bool → M α) : Prop := ∀ s a t, Runs (x false) s a t → ∃ l, Syncs x s a t l

namespace Replays

theorem pure (a : α) : Replays fun _ => Pure.pure a := by
  intro s b t hr
  obtain ⟨rfl, rfl⟩ := runs_pure.mp hr
  exact ⟨[], .pure a s⟩

theorem bind {x : Bool → M α} {f : Bool → α → M β} (hx : Replays x)
    (hf : ∀ a, Replays fun ctx => f ctx a) : Replays fun ctx => x ctx >>= f ctx := by
  intro s b t hr
  obtain ⟨a, u, h1, h2⟩ := runs_bind.mp hr
  obtain ⟨l, hl⟩ := hx s a u h1
  obtain ⟨m, hm⟩ := hf a u b t h2
  exact ⟨l ++ m, hl.bind hm⟩

theorem get {f : Bool → State → M α} (hctx : ∀ ctx s c, f ctx { s with ctx := c } = f ctx s)
    (hf : ∀ s, Replays fun ctx => f ctx s) : Replays fun ctx => MonadState.get >>= f ctx := by
  intro s a t hr
  obtain ⟨_, _, hget, hr⟩ := runs_bind.mp hr
  obtain ⟨rfl, rfl⟩ := runs_get.mp hget
  obtain ⟨l, hl⟩ := hf s s a t hr
  exact ⟨l, .get (fun ctx c => hctx ctx s c) hl⟩

theorem modify {f : State → State} (hf : ∀ s c, f { s with ctx := c } = { f s with ctx := c }) :
    Replays fun _ => modifyThe State f := by
  intro s _ t hr
  obtain rfl := runs_modify.mp hr
  exact ⟨[], .modify (hf s)⟩

theorem require (c : Prop) [Decidable c] : Replays fun _ => assert c := by
  intro s _ t hr
  obtain ⟨hc, rfl⟩ := runs_require.mp hr
  exact ⟨[], .require hc s⟩

theorem throw (e : Fault) : Replays fun _ => (MonadExcept.throw e : M α) :=
  fun _ _ _ hr => absurd hr runs_throw

theorem ite {c : Prop} [Decidable c] {x y : Bool → M α} (hx : Replays x) (hy : Replays y) :
    Replays fun ctx => if c then x ctx else y ctx := by
  split
  · exact hx
  · exact hy

theorem when {c : Prop} [Decidable c] {x : Bool → M Unit} (hx : Replays x) :
    Replays fun ctx => Exec.when c (x ctx) :=
  ite hx (pure ())

theorem forM {f : Bool → β → M PUnit} (hf : ∀ b, Replays fun ctx => f ctx b) (l : List β) :
    Replays fun ctx => l.forM (f ctx) := by
  induction l with
  | nil => exact pure _
  | cons b l ih => exact bind (hf b) fun _ => ih

theorem acquire (b : Nat) : Replays fun _ => cacheAcquire b := by
  intro s _ t hr
  obtain ⟨hb, rfl, rfl⟩ := runs_cacheAcquire.mp hr
  exact ⟨[], .acquire hb⟩

theorem release (b : Nat) : Replays fun _ => cacheRelease b := modify fun _ _ => rfl

theorem writeBack (b : Nat) (d : BlockData) : Replays fun ctx => Fs.writeBack ctx b d := by
  intro s _ t hr
  obtain ⟨c, hc, rfl⟩ := runs_writeBack.mp hr
  cases hc
  exact ⟨[b], .writeBack b d s⟩

end Replays

theorem replays_inodeSync (p : Ptr) (doWrite : Bool) :
    Replays fun ctx => inodeSync sblock ctx p doWrite := by
  unfold inodeSync
  refine .get (fun _ _ _ => rfl) fun s => .bind (.acquire _) fun block => ?_
  exact .ite (.writeBack _ _) (.ite (.bind (.modify fun _ _ => rfl) fun _ => .release _) (.release _))

theorem replays_cacheFree (b : Nat) : Replays fun ctx => cacheFree sblock ctx b := by
  unfold cacheFree
  refine .bind (.acquire _) fun bitmap => .bind (.require _) fun _ => ?_
  exact .bind (.modify fun _ _ => rfl) fun _ => .writeBack _ _

theorem replays_freeAddr (addr : UInt32) : Replays fun ctx => freeAddr sblock ctx addr :=
  .when (replays_cacheFree _)

theorem replays_inodeClear (p : Ptr) : Replays fun ctx => inodeClear sblock ctx p := by
  have htable (iaddr : Nat) : Replays fun ctx => clearTable sblock ctx p iaddr := by
    unfold clearTable
    refine .bind (.acquire _) fun block => .bind (.forM (fun i => replays_freeAddr _) _) fun _ => ?_
    exact .bind (.release _) fun _ => .bind (replays_cacheFree _) fun _ => .modify fun _ _ => rfl
  unfold inodeClear
  refine .get (fun _ _ _ => rfl) fun s => .bind (.forM (fun i => replays_freeAddr _) _) fun _ => ?_
  refine .bind (.modify fun _ _ => rfl) fun _ => .bind (.when (htable _)) fun _ => ?_
  exact .bind (.modify fun _ _ => rfl) fun _ => replays_inodeSync p true

theorem replays_inodeLock (p : Ptr) : Replays fun _ => inodeLock sblock p := by
  have hload : Replays fun _ => inodeSync sblock false p false := by
    unfold inodeSync
    refine .get (fun _ _ _ => rfl) fun s => .bind (.acquire _) fun block => ?_
    simp only [Bool.false_eq_true, and_false, if_false]
    exact .ite (.bind (.modify fun _ _ => rfl) fun _ => .release _) (.release _)
  unfold inodeLock
  refine .get (fun _ _ _ => rfl) fun s => .bind (.require _) fun _ => .ite (.throw _) ?_
  refine .bind (.modify fun _ _ => rfl) fun _ => .bind (.when hload) fun _ => ?_
  exact .get (fun _ _ _ => rfl) fun t => .require _

theorem replays_inodeUnlock (p : Ptr) : Replays fun _ => inodeUnlock p := by
  unfold inodeUnlock
  refine .get (fun _ _ _ => rfl) fun s => .bind (.require _) fun _ => .bind (.require _) fun _ => ?_
  exact .modify fun _ _ => rfl

theorem replays_freeInode (p : Ptr) : Replays fun ctx => freeInode sblock ctx p := by
  unfold freeInode
  refine .bind (replays_inodeLock p) fun _ => .bind (replays_inodeClear p) fun _ => ?_
  refine .bind (.modify fun _ _ => rfl) fun _ => .bind (replays_inodeSync p true) fun _ => ?_
  exact replays_inodeUnlock p

/-! ### The freeing of an inode -/

/-- What the freeing of an inode syncs. -/
theorem freeInode_syncs (hno : (s.mem p).inodeNo = n) (hE : E n = s.loaded p) (hn : InUse E n)
    (ho : BlocksOwned E s.disk) (hrc : 0 < (s.mem p).rc) (hk : (s.mem p).locked = false)
    (hheld : s.held = []) :
    ∃ t, Syncs (fun ctx => freeInode sblock ctx p) s () t (freedRecord (E n) s.disk n) := by
  obtain ⟨t, hplain⟩ : ∃ t, Runs (freeInode sblock false p) s () t :=
    freeInode_returns hno hE hn ho hrc hk hheld (recordAll_false _ _)
  obtain ⟨l, hl⟩ := replays_freeInode p s () t hplain
  refine ⟨t, hplain, fun c => ?_⟩
  rw [hl.logged c]
  -- Both records are the one that the run leaves.
  have hleft {c' : OpContext} (hc : recordAll true c l = some c') :
      recordAll true c (freedRecord (E n) s.disk n) = some c' := by
    have hrun : Runs (freeInode sblock true p) { s with ctx := c } () { t with ctx := c' } := by
      unfold Runs
      rw [hl.logged c, hc]
    exact (freeInode_spec (s := { s with ctx := c }) hno hn.1 hE ho hrun).2.2.2.record
  cases hrec : recordAll true c (freedRecord (E n) s.disk n) with
  | some c' =>
    cases hc : recordAll true c l with
    | some c'' =>
      rw [hleft hc] at hrec
      cases hrec
      rfl
    | none =>
      obtain ⟨t', hrun⟩ := freeInode_returns (s := { s with ctx := c }) hno hE hn ho hrc hk hheld hrec
      unfold Runs at hrun
      rw [hl.logged c, hc] at hrun
      cases hrun
  | none =>
    cases hc : recordAll true c l with
    | some c' =>
      rw [hleft hc] at hrec
      cases hrec
    | none => rfl

theorem dropRef_syncs (s : State) (p : Ptr) : Syncs (fun _ => dropRef p) s () (s.dropped p) [] :=
  .silent (fun _ => runs_dropRef.mpr rfl) rfl

theorem SameBlocks.freedRecord {e e' : InodeEntry} (h : SameBlocks e e') (d : Nat → BlockData) (n : Nat) :
    Fs.freedRecord e' d n = Fs.freedRecord e d n := by
  unfold Fs.freedRecord blocksOf tableBlocks InodeEntry.addr
  rw [h.addrs, h.indirect]

/-- What `inode_put` syncs. -/
theorem Cached.inodePut_syncs (h : Cached dirty s) (hp : p ∈ s.list) (hv : (s.mem p).valid = true)
    (hk : (s.mem p).locked = false) (hno : (s.mem p).inodeNo = n) :
    ∃ t, Syncs (fun ctx => Fs.inodePut sblock ctx p) s () t
      (if (s.mem p).isLast then freedRecord (diskEntry s.disk n) s.disk n else []) := by
  subst hno
  have hloaded : s.view p (s.mem p).inodeNo = s.loaded p := by
    rw [State.view_self, State.loaded, if_pos hv]
  rw [← ((h.inode p hp).sameBlocks_view hv (s.mem p).inodeNo).freedRecord]
  unfold Fs.inodePut
  cases hl : (s.mem p).isLast with
  | true =>
    obtain ⟨t, hfree⟩ := freeInode_syncs rfl hloaded (h.inUse_view hp hv) (h.owned_view hp hv)
      (h.list.rc p hp) hk h.held
    refine ⟨t.dropped p, .get (fun _ _ => rfl) ?_⟩
    simp only [hl, Exec.when, if_true]
    have hall := hfree.bind (f := fun _ _ => dropRef p) (dropRef_syncs t p)
    rwa [List.append_nil] at hall
  | false =>
    refine ⟨s.dropped p, .get (fun _ _ => rfl) ?_⟩
    simp only [hl, Exec.when, Bool.false_eq_true, if_false]
    exact (Syncs.pure () s).bind (dropRef_syncs s p)

/-- `inode_put` leaves the entries and the blocks of the other inodes as they are. -/
theorem Cached.inodePut_others {u : Unit} {ctx : Bool} (h : Cached dirty s) (hp : p ∈ s.list)
    (hr : Runs (Fs.inodePut sblock ctx p) s u t) (hn : IsInode n) (hne : n ≠ (s.mem p).inodeNo) :
    diskEntry t.disk n = diskEntry s.disk n ∧
      ∀ pl, ref (diskEntry t.disk) t.disk (n, pl) = ref (diskEntry s.disk) s.disk (n, pl) := by
  rcases h.inodePut_spec hp hr with ⟨-, rfl⟩ | ⟨-, -, -, v, hd, rfl⟩
  · exact ⟨rfl, fun _ => rfl⟩
  · have hentry : diskEntry v.disk n = diskEntry s.disk n := (hd.entries n hn).trans (if_neg hne)
    exact ⟨hentry, ref_sameEntry h.owned (fun c hc => hd.same c hc.not_bitmap hc.not_inodes) hentry⟩

/-- `inode_put` takes at most its own object from the list. -/
theorem Cached.mem_list_inodePut {u : Unit} {ctx : Bool} {q : Ptr} (h : Cached dirty s) (hp : p ∈ s.list)
    (hr : Runs (Fs.inodePut sblock ctx p) s u t) (hq : q ∈ s.list) (hne : q ≠ p) : q ∈ t.list := by
  rcases h.inodePut_spec hp hr with ⟨-, rfl⟩ | ⟨hl, -, -, v, hd, rfl⟩
  · unfold State.dropped
    dsimp only
    split
    · exact (List.mem_erase_of_ne hne).mpr hq
    · exact hq
  · rw [(h.freed hp hl hd).2.1]
    exact (List.mem_erase_of_ne hne).mpr hq

/-- The groups that the blocks of inode `n` lie in, its index block included. -/
def blockGroups (d : Nat → BlockData) (n : Nat) : Finset Nat :=
  (((blocksOf (diskEntry d n) d).filter (· ≠ 0)).map groupOf).toFinset

theorem card_bitmapsOf (d : Nat → BlockData) (n : Nat) :
    (bitmapsOf (blocksOf (diskEntry d n) d)).toFinset.card = (blockGroups d n).card :=
  card_map_bitmapOf _

theorem isBitmap_bitmapsOf {d : Nat → BlockData} (ho : BlocksOwned (diskEntry d) d)
    (hn : InUse (diskEntry d) n) {x : Nat} (hx : x ∈ bitmapsOf (blocksOf (diskEntry d n) d)) :
    IsBitmap x := by
  obtain ⟨b, hb, rfl⟩ := List.mem_map.mp hx
  obtain ⟨hmem, h0⟩ := List.mem_filter.mp hb
  have hb0 : b ≠ 0 := by simpa using h0
  obtain ⟨pl, rfl⟩ := (mem_blocksOf hb0).mp hmem
  exact isBitmap_bitmapOf (ho.isData pl hn hb0).1

/-- The freeing of an inode syncs a bitmap for each group of its blocks, and the block of the inode. -/
theorem card_freedRecord {d : Nat → BlockData} (ho : BlocksOwned (diskEntry d) d)
    (hn : InUse (diskEntry d) n) :
    (freedRecord (diskEntry d n) d n).toFinset.card = (blockGroups d n).card + 1 := by
  have hset : (freedRecord (diskEntry d n) d n).toFinset =
      (bitmapsOf (blocksOf (diskEntry d n) d)).toFinset ∪ {toBlockNo sblock n} := by
    unfold freedRecord
    simp
  have hnot : toBlockNo sblock n ∉ bitmapsOf (blocksOf (diskEntry d n) d) := fun hmem =>
    (isInodes_toBlockNo hn.1).not_bitmap (isBitmap_bitmapsOf ho hn hmem)
  rw [hset, Finset.card_union_of_disjoint (by simpa using hnot), card_bitmapsOf, Finset.card_singleton]

/-! ### `fileclose` -/

/-- An operation with a single call fails in `cache_sync` exactly if the call syncs too many blocks. -/
theorem inOp_decided {x : Bool → M α} {a : α} {l : List Nat}
    (hroom : s.log.logUsed + opMaxNumBlocks ≤ s.log.logSize) (h : Syncs x s.begun a t l) :
    (l.toFinset.card ≤ opMaxNumBlocks → Avoids .overflow (inOp (x true)) s) ∧
    (¬l.toFinset.card ≤ opMaxNumBlocks → inOp (x true) s = .error .overflow) := by
  have hbegin : Runs cacheBeginOp s () s.begun := cacheBeginOp_returns hroom
  have hrecord := recordAll_isSome (c := s.begun.ctx) ⟨List.nodup_nil, Nat.zero_le _⟩ l
  rw [show s.begun.ctx.blockNo ++ l = l from rfl] at hrecord
  constructor
  · intro hle
    obtain ⟨c, hc⟩ := Option.isSome_iff_exists.mp (hrecord.mpr hle)
    exact .after hbegin (.after (h.runs hc) (.bind (never_cacheEndOp _) fun _ _ _ => .pure _))
  · intro hlarge
    have hnone := Option.not_isSome_iff_eq_none.mp fun hsome => hlarge (hrecord.mp hsome)
    exact (bind_eq_of_runs hbegin).trans (bind_eq_error (h.eq_overflow hnone))

/-- An open file to be closed, in a state where an operation can begin. -/
structure CloseReady (s : State) (f : Nat) : Prop where
  cached : Cached Set.univ s
  room : s.log.logUsed + opMaxNumBlocks ≤ s.log.logSize
  listed : (s.file f).type = .inode → (s.file f).ip ∈ s.list
  loaded : (s.file f).type = .inode → (s.mem (s.file f).ip).valid = true
  unlocked : (s.file f).type = .inode → (s.mem (s.file f).ip).locked = false

/-- The call of `fileclose` that deletes the file: the last descriptor of the last open file for an
inode without links. -/
structure LastClose (s : State) (f : Nat) : Prop where
  ref : (s.file f).ref = 1
  inode : (s.file f).type = .inode
  rc : (s.mem (s.file f).ip).rc = 1
  links : (s.mem (s.file f).ip).entry.numLinks = 0

theorem CloseReady.decided (h : CloseReady s f) :
    ((LastClose s f → (blockGroups s.disk (s.mem (s.file f).ip).inodeNo).card + 1 ≤ opMaxNumBlocks) →
      fileclose sblock f s ≠ .error .overflow) ∧
    (LastClose s f → ¬(blockGroups s.disk (s.mem (s.file f).ip).inodeNo).card + 1 ≤ opMaxNumBlocks →
      fileclose sblock f s = .error .overflow) := by
  set n := (s.mem (s.file f).ip).inodeNo with hn
  set s₁ : State := { s with file := Function.update s.file f { s.file f with ref := 0, type := .none } }
    with hs₁
  have hget : Runs (MonadState.get : M State) s s s := runs_get.mpr ⟨rfl, rfl⟩
  have hclose : Runs (modifyFile f fun file => { file with ref := 0, type := .none }) s () s₁ :=
    runs_modify.mpr rfl
  -- The operation of the last descriptor of an inode.
  have hop (htype : (s.file f).type = .inode) : ∃ t, Syncs (fun ctx => inodePut sblock ctx (s.file f).ip)
      s₁.begun () t (if (s.mem (s.file f).ip).isLast then freedRecord (diskEntry s.disk n) s.disk n else []) :=
    Cached.inodePut_syncs (h.cached.congr rfl rfl rfl rfl rfl) (h.listed htype) (h.loaded htype)
      (h.unlocked htype) rfl
  have hlast (htype : (s.file f).type = .inode) (href : (s.file f).ref = 1) :
      (s.mem (s.file f).ip).isLast = true ↔ LastClose s f := by
    have hrc := h.cached.list.rc _ (h.listed htype)
    simp only [Inode.isLast, decide_eq_true_eq]
    constructor
    · exact fun hl => ⟨href, htype, by omega, hl.2⟩
    · exact fun hl => ⟨by rw [hl.rc], hl.links⟩
  have hcard (hl : LastClose s f) :
      (freedRecord (diskEntry s.disk n) s.disk n).toFinset.card = (blockGroups s.disk n).card + 1 :=
    card_freedRecord h.cached.owned
      ((h.cached.inode _ (h.listed hl.inode)).inUse (h.loaded hl.inode))
  unfold fileclose
  constructor
  · intro hsmall
    refine Avoids.get (.bind (.require (by simp)) fun _ t hreq => ?_)
    obtain ⟨href, rfl⟩ := runs_require.mp hreq
    refine .ite (fun _ => Never.modify _ s) fun hzero => .after hclose (.when fun htype => ?_)
    have href' : (s.file f).ref = 1 := by omega
    obtain ⟨t, hsyncs⟩ := hop htype
    refine (inOp_decided (s := s₁) h.room hsyncs).1 ?_
    split
    case isTrue hl => exact hcard ((hlast htype href').mp hl) ▸ hsmall ((hlast htype href').mp hl)
    case isFalse => exact Nat.zero_le _
  · intro hl hlarge
    have href : Runs (assert (¬(s.file f).ref < 1)) s () s := runs_require.mpr ⟨by rw [hl.ref]; decide, rfl⟩
    rw [bind_eq_of_runs hget, bind_eq_of_runs href, if_neg (by rw [hl.ref]; decide)]
    rw [bind_eq_of_runs hclose, Exec.when, if_pos hl.inode]
    obtain ⟨t, hsyncs⟩ := hop hl.inode
    rw [if_pos ((hlast hl.inode hl.ref).mpr hl)] at hsyncs
    exact (inOp_decided (s := s₁) h.room hsyncs).2 (by rw [hcard hl]; exact hlarge)

end FtosFfs.Fs
