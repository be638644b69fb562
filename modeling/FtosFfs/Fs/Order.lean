import FtosFfs.Fs.Grow
import FtosFfs.Fs.Ops
import FtosFfs.Fs.Watched
import FtosFfs.Lib.Agree

/-! The order in which the inode layer acquires blocks: a call that stops with a fault of our choice
at every `cache_acquire` out of order does the same as the call of the code. -/

namespace FtosFfs.Fs

open Lib Lib.Exec Cache

/-- A block may be acquired: it is not held, at most one block is held, and no bitmap block. -/
def InOrder (s : State) (b : Nat) : Prop :=
  b ∉ s.held ∧ s.held.length < 2 ∧ ∀ c ∈ s.held, ¬IsBitmap c

instance (s : State) (b : Nat) : Decidable (InOrder s b) :=
  inferInstanceAs (Decidable (_ ∧ _ ∧ _))

/-- `cache_acquire`, with the fault `e` when the call is out of order. -/
def acquireInOrder (e : Fault) (b : Nat) : M BlockData := do
  if InOrder (← get) b then cacheAcquire b else throw e

/-- The calls of the inode layer that acquire blocks. -/
inductive AcquireOp
  | alloc (ctx : Bool) (type : UInt16)
  | allocGroup (ctx : Bool) (type : UInt16) (gno : Nat)
  | sync (ctx : Bool) (p : Ptr) (doWrite : Bool)
  | clear (ctx : Bool) (p : Ptr)
  | map (ctx : Bool) (p : Ptr) (offset : Nat)
  | read (p : Ptr) (dest : Nat → UInt8) (offset count : Nat)
  | write (ctx : Bool) (p : Ptr) (src : Nat → UInt8) (offset count : Nat)
  | insert (ctx : Bool) (p : Ptr) (name : List UInt8) (inodeNo : Nat)
  | put (ctx : Bool) (p : Ptr)

namespace AcquireOp

/-- The inode is referenced, and loaded where its lock is held. -/
def Allowed (s : State) : AcquireOp → Prop
  | clear _ p | map _ p _ | read p _ _ _ | write _ p _ _ _ | insert _ p _ _ =>
    p ∈ s.list ∧ (s.mem p).valid = true
  | sync _ p _ | put _ p => p ∈ s.list
  | _ => True

def exec : AcquireOp → M Unit
  | alloc ctx type => discard (inodeAlloc sblock ctx type)
  | allocGroup ctx type gno => discard (inodeAllocGroup sblock ctx type gno)
  | sync ctx p doWrite => inodeSync sblock ctx p doWrite
  | clear ctx p => inodeClear sblock ctx p
  | map ctx p offset => discard (inodeMap sblock ctx p offset)
  | read p dest offset count => discard (inodeRead sblock p dest offset count)
  | write ctx p src offset count => discard (inodeWrite sblock ctx p src offset count)
  | insert ctx p name inodeNo => discard (inodeInsert sblock ctx p name inodeNo)
  | put ctx p => inodePut sblock ctx p

/-- The call with `acquire` for every `cache_acquire`. -/
def execWith (acquire : Nat → M BlockData) : AcquireOp → M Unit
  | alloc ctx type => discard (Watched.inodeAlloc acquire sblock ctx type)
  | allocGroup ctx type gno => discard (Watched.inodeAllocGroup acquire sblock ctx type gno)
  | sync ctx p doWrite => Watched.inodeSync acquire sblock ctx p doWrite
  | clear ctx p => Watched.inodeClear acquire sblock ctx p
  | map ctx p offset => discard (Watched.inodeMap acquire sblock ctx p offset)
  | read p dest offset count => discard (Watched.inodeRead acquire sblock p dest offset count)
  | write ctx p src offset count => discard (Watched.inodeWrite acquire sblock ctx p src offset count)
  | insert ctx p name inodeNo => discard (Watched.inodeInsert acquire sblock ctx p name inodeNo)
  | put ctx p => Watched.inodePut acquire sblock ctx p

theorem execWith_cacheAcquire (op : AcquireOp) : op.execWith cacheAcquire = op.exec := by
  cases op with
  | alloc => rw [execWith, Watched.inodeAlloc_cacheAcquire, exec]
  | allocGroup => rw [execWith, Watched.inodeAllocGroup_cacheAcquire, exec]
  | sync => rw [execWith, Watched.inodeSync_cacheAcquire, exec]
  | clear => rw [execWith, Watched.inodeClear_cacheAcquire, exec]
  | map => rw [execWith, Watched.inodeMap_cacheAcquire, exec]
  | read => rw [execWith, Watched.inodeRead_cacheAcquire, exec]
  | write => rw [execWith, Watched.inodeWrite_cacheAcquire, exec]
  | insert => rw [execWith, Watched.inodeInsert_cacheAcquire, exec]
  | put => rw [execWith, Watched.inodePut_cacheAcquire, exec]

end AcquireOp

variable {s s' : State} {ctx : Bool} {p : Ptr} {b n g : Nat} {e : Fault} {E : Nat → InodeEntry}

/-- At most one block is held, and that is a data block. -/
structure HoldsData (s : State) : Prop where
  one : s.held.length ≤ 1
  data : ∀ c ∈ s.held, IsData c

theorem holdsData_nil (h : s.held = []) : HoldsData s := by
  constructor
  · rw [h]
    exact Nat.zero_le 1
  · rw [h]
    nofun

theorem holdsData_one (h : s.held = [b]) (hb : IsData b) : HoldsData s := by
  constructor
  · rw [h]
    exact Nat.le_refl 1
  · rw [h]
    intro c hc
    rwa [List.mem_singleton.mp hc]

theorem HoldsData.agree (h : HoldsData s) (hb : b ∉ s.held) :
    Agree (acquireInOrder e b) (cacheAcquire b) s := by
  have hin : InOrder s b :=
    ⟨hb, Nat.lt_of_le_of_lt h.one (by decide), fun c hc => (h.data c hc).not_bitmap⟩
  refine (bind_eq_of_runs (runs_get.mpr ⟨rfl, rfl⟩)).trans ?_
  rw [if_pos hin]

/-- Nothing is held when the block is acquired. -/
theorem agree_first (h : s.held = []) : Agree (acquireInOrder e b) (cacheAcquire b) s :=
  (holdsData_nil h).agree (by rw [h]; exact List.not_mem_nil)

theorem not_data_bitmapBlock {h i : Nat} (hi : i < 1000) : ¬IsData (bitmapBlock sblock h i) := by
  rw [isData_iff, bitmapBlock_eq]
  omega

/-! ### Allocation -/

theorem agree_allocIn {bound : Nat} (hq : HoldsData s) (hu : HeldUsed s) (hm : MetaUsed s.disk) (hg : g < 10)
    (hbound : bound ≤ 1000) : Agree (Watched.allocIn (acquireInOrder e) sblock ctx g 0 bound)
      (allocIn sblock ctx g 0 bound) s := by
  have hbitmap : bitmapBlock sblock g 0 ∉ s.held := fun h =>
    not_data_bitmapBlock (by decide) (hq.data _ h)
  refine (hq.agree hbitmap).bind fun bitmap t hr => ?_
  obtain ⟨-, rfl, rfl⟩ := runs_cacheAcquire.mp hr
  cases hf : (List.range bound).find? fun j => !bitmapGet (s.disk (bitmapBlock sblock g 0)) j with
  | none => exact .refl _ _
  | some j =>
    have hj : j < bound := by simpa using List.mem_of_find?_eq_some hf
    have hget : bitmapGet (s.disk (bitmapBlock sblock g 0)) j = false := by
      simpa using List.find?_some hf
    have ha := allocated_of_bit hg (by omega) hm hget
    refine Agree.after fun _ t hr => ?_
    obtain ⟨c, -, rfl⟩ := runs_writeBack.mp hr
    -- the bitmap block is released, and the new block was free
    have hheld : (bitmapBlock sblock g 0 :: s.held).erase (bitmapBlock sblock g 0) = s.held :=
      List.erase_cons_head ..
    have hnew : sblock.bgStart + g * sblock.blocksPerGroup + 0 + j ∉ s.held := by
      intro h
      have hused := (hu _ h).2
      rw [ha.free] at hused
      cases hused
    refine Agree.andThen (HoldsData.agree ?_ ?_) _
    · constructor
      · exact (congrArg List.length hheld).trans_le hq.one
      · exact fun c hc => hq.data c (hheld ▸ hc)
    · exact fun h => hnew (hheld ▸ h)

/-- The rounds of an allocation over the bitmap blocks of one group. -/
theorem agree_searchGroup (bound : Nat → Nat) (hq : HoldsData s) (hu : HeldUsed s) (hm : MetaUsed s.disk)
    (hg : g < 10) (hbound : bound 0 ≤ 1000) :
    Agree (Exec.search (fun i => Watched.allocIn (acquireInOrder e) sblock ctx g i (bound i))
        (bitmapStarts sblock))
      (Exec.search (fun i => allocIn sblock ctx g i (bound i)) (bitmapStarts sblock)) s := by
  rw [bitmapStarts_sblock]
  refine Agree.search (I := (· = s)) rfl fun i hi t ht => ?_
  obtain rfl : i = 0 := List.mem_singleton.mp hi
  subst ht
  exact ⟨agree_allocIn hq hu hm hg hbound, fun t' hr => (allocIn_spec hg hm hbound hr).2⟩

theorem agree_cacheAllocg (hq : HoldsData s) (hu : HeldUsed s) (hm : MetaUsed s.disk) :
    Agree (Watched.cacheAllocg (acquireInOrder e) sblock ctx g) (cacheAllocg sblock ctx g) s := by
  refine Agree.require fun hg => Agree.andThen ?_ _
  exact agree_searchGroup (fun _ => min bitPerBlock sblock.blocksPerGroup) hq hu hm hg
    (Nat.min_le_right ..)

theorem agree_cacheAlloc (hq : HoldsData s) (hu : HeldUsed s) (hm : MetaUsed s.disk) :
    Agree (Watched.cacheAlloc (acquireInOrder e) sblock ctx) (cacheAlloc sblock ctx) s := by
  let bound (i : Nat) : Nat := min bitPerBlock (sblock.blocksPerGroup - i)
  have hbound : bound 0 ≤ 1000 := Nat.min_le_right ..
  refine Agree.andThen (Agree.search (I := (· = s)) rfl fun g hg t ht => ?_) _
  subst ht
  have hlt : g < 10 := List.mem_range.mp hg
  exact ⟨agree_searchGroup bound hq hu hm hlt hbound, fun t' hr => (searchGroup_spec bound hlt hm hbound hr).2⟩

theorem heldUsed_nil (h : s.held = []) : HeldUsed s := by
  intro c hc
  rw [h] at hc
  cases hc

theorem agree_allocNear (h : s.held = []) (hm : MetaUsed s.disk) :
    Agree (Watched.allocNear (acquireInOrder e) sblock ctx g) (allocNear sblock ctx g) s := by
  refine (agree_cacheAllocg (holdsData_nil h) (heldUsed_nil h) hm).bind fun b t hr => ?_
  obtain ⟨hob, hb⟩ := cacheAllocg_spec hm hr
  refine Agree.ite (fun h0 => ?_) fun _ => .refl _ _
  obtain ⟨-, rfl⟩ := hb.resolve_right fun ha => ha.data.pos h0
  exact agree_cacheAlloc (holdsData_nil h) (heldUsed_nil h) hm

theorem agree_cacheFree (hq : HoldsData s) :
    Agree (Watched.cacheFree (acquireInOrder e) sblock ctx b) (cacheFree sblock ctx b) s :=
  (hq.agree fun h => not_data_bitmapBlock (Nat.mod_lt _ (by decide)) (hq.data _ h)).andThen _

theorem held_cacheFree {u : Unit} (hr : Runs (cacheFree sblock ctx b) s u s') : s'.held = s.held := by
  simp only [cacheFree, runs_bind, runs_cacheAcquire, runs_require, runs_modify, runs_writeBack] at hr
  obtain ⟨_, _, ⟨-, rfl, rfl⟩, _, _, ⟨-, rfl⟩, _, _, rfl, c, -, rfl⟩ := hr
  exact List.erase_cons_head ..

theorem agree_freeAddr {a : UInt32} (hq : HoldsData s) :
    Agree (Watched.freeAddr (acquireInOrder e) sblock ctx a) (freeAddr sblock ctx a) s :=
  Agree.when fun _ => agree_cacheFree hq

theorem held_freeAddr {a : UInt32} {u : Unit} (hr : Runs (freeAddr sblock ctx a) s u s') :
    s'.held = s.held := by
  obtain ⟨-, hr⟩ | ⟨-, rfl⟩ := runs_when.mp hr
  · exact held_cacheFree hr
  · rfl

/-! ### Inodes -/

theorem agree_claimInode {type : UInt16} (h : s.held = []) :
    Agree (Watched.claimInode (acquireInOrder e) sblock ctx type n) (claimInode sblock ctx type n) s :=
  (agree_first h).andThen _

/-- A round without a hit changes nothing. -/
theorem claimInode_miss {type : UInt16} (hr : Runs (claimInode sblock ctx type n) s none s') :
    s' = s := by
  simp only [claimInode, runs_bind, runs_cacheAcquire] at hr
  obtain ⟨_, _, ⟨-, rfl, rfl⟩, hr⟩ := hr
  split at hr
  case isTrue =>
    obtain ⟨_, _, -, hr⟩ := runs_bind.mp hr
    cases (runs_pure.mp hr).1
  case isFalse =>
    simp only [runs_bind, runs_cacheRelease, runs_pure, List.erase_cons_head] at hr
    obtain ⟨_, _, rfl, -, rfl⟩ := hr
    rfl

theorem agree_inodeAlloc {type : UInt16} (h : s.held = []) :
    Agree (Watched.inodeAlloc (acquireInOrder e) sblock ctx type) (inodeAlloc sblock ctx type) s := by
  refine Agree.require fun _ => Agree.andThen ?_ _
  refine Agree.search (I := (· = s)) rfl fun n _ t ht => ?_
  subst ht
  exact ⟨agree_claimInode h, fun t' hr => claimInode_miss hr⟩

theorem agree_claimFrom {type : UInt16} (h : s.held = []) :
    Agree (Watched.claimFrom (acquireInOrder e) sblock ctx type g) (claimFrom sblock ctx type g) s := by
  have hmiss (i n : Nat) (t : State) (hr : Runs (do
      let tino := n + i * (ninodes / ngroups)
      assert (tino ≤ ninodes)
      claimInode sblock ctx type tino) s none t) : t = s := by
    obtain ⟨_, _, hassert, hr⟩ := runs_bind.mp hr
    obtain ⟨-, rfl⟩ := runs_require.mp hassert
    exact claimInode_miss hr
  refine Agree.andThen (Agree.search (I := (· = s)) rfl fun i _ t ht => ?_) _
  subst ht
  constructor
  · refine Agree.search (I := (· = t)) rfl fun n _ t' ht => ?_
    subst ht
    exact ⟨Agree.require fun _ => agree_claimInode h, fun t'' hr => hmiss i n t'' hr⟩
  · intro t' hr
    obtain ⟨-, rfl⟩ | ⟨_, _, _, hnone, -⟩ := hr.search fun n _ t'' => hmiss i n t''
    · rfl
    · cases hnone

theorem agree_inodeAllocGroup {type : UInt16} (h : s.held = []) :
    Agree (Watched.inodeAllocGroup (acquireInOrder e) sblock ctx type g)
      (inodeAllocGroup sblock ctx type g) s := by
  unfold Watched.inodeAllocGroup inodeAllocGroup
  refine Agree.require fun _ => Agree.ite (fun _ => ?_) fun _ => agree_claimFrom h
  refine Agree.after fun a t hr => ?_
  obtain ⟨rfl, rfl⟩ := runs_get.mp hr
  generalize emptiestGroup s.usedBlock g = r
  obtain ⟨i, used, gno⟩ := r
  exact Agree.ite (fun _ => .refl _ _) fun _ => agree_claimFrom h

theorem agree_inodeSync {doWrite : Bool} (h : s.held = []) :
    Agree (Watched.inodeSync (acquireInOrder e) sblock ctx p doWrite) (inodeSync sblock ctx p doWrite) s :=
  Agree.get ((agree_first h).andThen _)

theorem agree_inodeLock (h : s.held = []) :
    Agree (Watched.inodeLock (acquireInOrder e) sblock p) (inodeLock sblock p) s := by
  refine Agree.get (Agree.require fun _ => Agree.ite (fun _ => .refl _ _) fun _ => ?_)
  refine Agree.after fun _ t hr => Agree.andThen (Agree.when fun _ => ?_) _
  obtain rfl := runs_modifyInode.mp hr
  exact agree_inodeSync h

/-- The frees of the blocks of a table, and of the table. -/
theorem agree_clearTable (h : s.held = []) (hb : IsData b) :
    Agree (Watched.clearTable (acquireInOrder e) sblock ctx p b) (clearTable sblock ctx p b) s := by
  refine (agree_first h).bind fun block t hr => ?_
  obtain ⟨-, -, rfl⟩ := runs_cacheAcquire.mp hr
  have hone : (b :: s.held) = [b] := by rw [h]
  refine (Agree.forM (I := fun t => t.held = [b]) hone (fun i t ht => ?_) _).bind fun _ t hr => ?_
  · exact ⟨agree_freeAddr (holdsData_one ht hb), fun t' hr => (held_freeAddr hr).trans ht⟩
  · have ht : t.held = [b] := hr.forM (I := fun _ t => t.held = [b]) hone
      fun _ _ _ _ ht hr => (held_freeAddr hr).trans ht
    refine Agree.after fun _ t' hr => Agree.andThen (agree_cacheFree (holdsData_nil ?_)) _
    obtain rfl := runs_cacheRelease.mp hr
    show t.held.erase b = []
    rw [ht, List.erase_cons_head]

theorem held_clearTable {u : Unit} (h : s.held = []) (hr : Runs (clearTable sblock ctx p b) s u s') :
    s'.held = [] := by
  simp only [clearTable, runs_bind, runs_cacheAcquire, runs_cacheRelease, runs_modifyEntry] at hr
  obtain ⟨_, _, ⟨-, rfl, rfl⟩, _, t, hloop, _, _, rfl, _, t', hfree, rfl⟩ := hr
  have ht : t.held = [b] := hloop.forM (I := fun _ t => t.held = [b]) (by rw [h])
    fun _ _ _ _ ht hr => (held_freeAddr hr).trans ht
  refine (held_cacheFree hfree).trans ?_
  show t.held.erase b = []
  rw [ht, List.erase_cons_head]

theorem agree_inodeClear (h : s.held = [])
    (hb : (s.mem p).entry.indirect ≠ 0 → IsData (s.mem p).entry.indirect.toNat) :
    Agree (Watched.inodeClear (acquireInOrder e) sblock ctx p) (inodeClear sblock ctx p) s := by
  refine Agree.get ?_
  refine (Agree.forM (I := fun t => t.held = []) h (fun i t ht => ?_) _).bind fun _ t hr => ?_
  · exact ⟨agree_freeAddr (holdsData_nil ht), fun t' hr => (held_freeAddr hr).trans ht⟩
  have ht : t.held = [] := hr.forM (I := fun _ t => t.held = []) h
    fun _ _ _ _ ht hr => (held_freeAddr hr).trans ht
  refine Agree.after fun _ t₁ hr => ?_
  have ht₁ : t₁.held = [] := by rwa [runs_modifyEntry.mp hr]
  refine (Agree.when fun h0 => agree_clearTable ht₁ (hb h0)).bind fun _ t₂ hr => ?_
  have ht₂ : t₂.held = [] := by
    obtain ⟨-, hr⟩ | ⟨-, rfl⟩ := runs_when.mp hr
    · exact held_clearTable ht₁ hr
    · exact ht₁
  refine Agree.after fun _ t₃ hr => ?_
  have ht₃ : t₃.held = [] := by rwa [runs_modifyEntry.mp hr]
  exact agree_inodeSync ht₃

/-! ### Blocks of an inode -/

theorem agree_mapDirect {index : Nat} (h : s.held = []) (hm : MetaUsed s.disk) :
    Agree (Watched.mapDirect (acquireInOrder e) sblock ctx p index) (mapDirect sblock ctx p index) s :=
  Agree.get (Agree.ite (fun _ => (agree_allocNear h hm).andThen _) fun _ => .refl _ _)

theorem agree_mapTable (h : s.held = []) (hm : MetaUsed s.disk) :
    Agree (Watched.mapTable (acquireInOrder e) sblock ctx p) (mapTable sblock ctx p) s :=
  Agree.get (Agree.ite (fun _ => (agree_allocNear h hm).andThen _) fun _ => .refl _ _)

/-- The table is held while a block for its slot is allocated; it is in use, so the new block is
another one. -/
theorem agree_mapSlot {k : Nat} {modified : Bool} (h : s.held = []) (hn : InUse E n)
    (ho : BlocksOwned E s.disk) (h0 : (E n).indirect ≠ 0) :
    Agree (Watched.mapSlot (acquireInOrder e) sblock ctx (E n).indirect.toNat k modified)
      (mapSlot sblock ctx (E n).indirect.toNat k modified) s := by
  refine (agree_first h).bind fun block t hr => Agree.ite (fun _ => Agree.get ?_) fun _ => .refl _ _
  obtain ⟨-, -, ht⟩ := runs_cacheAcquire.mp hr
  have hdata : IsData (E n).indirect.toNat := ho.isData_table hn h0
  have hheld : t.held = [(E n).indirect.toNat] := by rw [ht, h]
  have hdisk : t.disk = s.disk := by rw [ht]
  have hused : HeldUsed t := by
    intro c hc
    rw [hheld, List.mem_singleton] at hc
    subst hc
    have href : ref E s.disk (n, .table) = (E n).indirect.toNat := ref_of_inUse hn
    have hbit := ho.owns.used_ref (i := (n, .table)) (by rw [href]; exact hdata.pos)
    rw [href] at hbit
    exact ⟨hdata, hdisk ▸ hbit⟩
  cases tableGroup sblock t.usedBlock k with
  | none => exact .refl _ _
  | some g => exact (agree_cacheAllocg (holdsData_one hheld hdata) hused (hdisk ▸ ho.metaUsed)).andThen _

theorem agree_inodeMap {off : Nat} (h : s.held = []) (hE : E n = (s.mem p).entry) (hn : InUse E n)
    (ho : BlocksOwned E s.disk) :
    Agree (Watched.inodeMap (acquireInOrder e) sblock ctx p off) (inodeMap sblock ctx p off) s := by
  refine Agree.ite (fun _ => agree_mapDirect h ho.metaUsed) fun _ => Agree.require fun _ => ?_
  refine (agree_mapTable h ho.metaUsed).bind fun modified t hr => Agree.get ?_
  obtain ⟨e', hmeta, hframe, hne, howned, -⟩ := mapTable_spec hE hn ho hr
  have hn' : InUse (Function.update E n e') n := (inUse_update (by rw [hmeta.type, hE])).mpr hn
  have hself : Function.update E n e' n = e' := Function.update_self ..
  rw [show (t.mem p).entry = Function.update E n e' n by rw [hframe.inode, hself]]
  exact agree_mapSlot (hframe.held.trans h) hn' howned (by rwa [hself])

/-! ### Reads and writes -/

theorem agree_readLoop {offset stop fuel start : Nat} {dest : Nat → UInt8} (h : s.held = [])
    (hE : E n = (s.mem p).entry) (hn : InUse E n) (ho : BlocksOwned E s.disk) :
    Agree (Watched.readLoop (acquireInOrder e) sblock p offset stop fuel start dest)
      (readLoop sblock p offset stop fuel start dest) s := by
  induction fuel generalizing start dest with
  | zero => exact .refl _ _
  | succ fuel ih =>
    refine Agree.ite (fun _ => (agree_inodeMap h hE hn ho).bind fun r t hr => ?_) fun _ => .refl _ _
    obtain ⟨b, modified⟩ := r
    refine Agree.require fun hmod => ?_
    obtain ⟨-, e', hm⟩ := inodeMap_spec hE hn ho hr
    obtain ⟨rfl, -⟩ := hm.same hmod
    refine (agree_first h).bind fun block t hr => Agree.after fun _ t' hr' => ?_
    obtain ⟨-, -, rfl⟩ := runs_cacheAcquire.mp hr
    have ht' := runs_cacheRelease.mp hr'
    simp only [List.erase_cons_head] at ht'
    subst ht'
    exact ih

theorem agree_inodeRead {dest : Nat → UInt8} {offset count : Nat} (h : s.held = [])
    (hE : E n = (s.mem p).entry) (hn : InUse E n) (ho : BlocksOwned E s.disk) :
    Agree (Watched.inodeRead (acquireInOrder e) sblock p dest offset count)
      (inodeRead sblock p dest offset count) s := by
  refine Agree.get (Agree.ite (fun _ => .refl _ _) fun _ => Agree.require fun _ => ?_)
  exact (agree_readLoop h hE hn ho).andThen _

/-- Every round of `inode_write` leaves the blocks owned, and none held. -/
theorem agree_writeLoop {src : Nat → UInt8} {off stop fuel start : Nat} {m : Bool} (h : s.held = [])
    (hE : E n = (s.mem p).entry) (hn : InUse E n) (ho : BlocksOwned E s.disk) :
    Agree (Watched.writeLoop (acquireInOrder e) sblock ctx p src off stop fuel start m)
      (writeLoop sblock ctx p src off stop fuel start m) s := by
  induction fuel generalizing s start m E with
  | zero => exact .refl _ _
  | succ fuel ih =>
    refine Agree.ite (fun hlt => (agree_inodeMap h hE hn ho).bind fun r t hr => ?_) fun _ => .refl _ _
    obtain ⟨b, m₁⟩ := r
    obtain ⟨-, e₁, hm⟩ := inodeMap_spec hE hn ho hr
    have ht : t.held = [] := hm.frame.held.trans h
    refine (agree_first ht).bind fun block t₁ hr₁ => Agree.after fun _ t₂ hr₂ => ?_
    obtain ⟨-, rfl, rfl⟩ := runs_cacheAcquire.mp hr₁
    obtain ⟨c, -, ht₂⟩ := runs_writeBack.mp hr₂
    have hmem : t₂.mem = t.mem := by rw [ht₂]
    have hdisk : BlocksOwned (Function.update E n e₁) t₂.disk := by
      rw [ht₂]
      exact hm.mapped.owned.store hm.mapped.here.symm
    have hheld : t₂.held = [] := by
      rw [ht₂]
      show (b :: t.held).erase b = []
      rw [List.erase_cons_head, ht]
    refine ih hheld ?_ ((inUse_update (by rw [hm.fields.type, hE])).mpr hn) hdisk
    rw [hmem, hm.frame.inode, Function.update_self]

theorem agree_inodeWrite {src : Nat → UInt8} {offset count : Nat} (h : s.held = [])
    (hE : E n = (s.mem p).entry) (hn : InUse E n) (ho : BlocksOwned E s.disk) :
    Agree (Watched.inodeWrite (acquireInOrder e) sblock ctx p src offset count)
      (inodeWrite sblock ctx p src offset count) s := by
  refine Agree.get (Agree.ite (fun _ => Agree.require fun _ => ?_) fun _ => Agree.require fun _ =>
    Agree.require fun hmax => ?_)
  · refine Agree.after fun _ t hr => (agree_inodeLock ?_).andThen _
    obtain ⟨-, -, rfl⟩ := runs_inodeUnlock.mp hr
    exact h
  · refine (agree_writeLoop h hE hn ho).bind fun m t hr => Agree.after fun _ t₁ hr₁ => ?_
    obtain ⟨e', -, hframe, -⟩ := writeLoop_spec hn hE ho (Nat.le_refl offset) (Nat.le_refl _) hr
    have ht₁ : t₁.held = [] := by
      obtain ⟨-, hr₁⟩ | ⟨-, rfl⟩ := runs_when.mp hr₁
      · rw [runs_modifyEntry.mp hr₁]
        exact hframe.held.trans h
      · exact hframe.held.trans h
    exact (Agree.when fun _ => agree_inodeSync ht₁).andThen _

theorem agree_scan {whole : Bool} {hit : DirEntry → Bool} {k off : Nat} {dentry : DirEntry}
    (h : s.held = []) (hE : E n = (s.mem p).entry) (hn : InUse E n) (ho : BlocksOwned E s.disk) :
    Agree (Watched.scan (acquireInOrder e) sblock p whole hit k off dentry)
      (scan sblock p whole hit k off dentry) s := by
  induction k generalizing off dentry with
  | zero => exact .refl _ _
  | succ k ih =>
    refine (agree_inodeRead h hE hn ho).bind fun r t hr => ?_
    obtain ⟨rfl, -⟩ := inodeRead_spec hE hn ho hr
    obtain ⟨count, buf⟩ := r
    exact Agree.require fun _ => Agree.ite (fun _ => .refl _ _) fun _ => ih

theorem agree_inodeInsert {name : List UInt8} {m : Nat} (h : s.held = [])
    (hE : E n = (s.mem p).entry) (hn : InUse E n) (ho : BlocksOwned E s.disk) :
    Agree (Watched.inodeInsert (acquireInOrder e) sblock ctx p name m)
      (inodeInsert sblock ctx p name m) s := by
  refine Agree.get (Agree.require fun _ => (agree_scan h hE hn ho).bind fun found t hr => ?_)
  obtain ⟨rfl, -⟩ := scan_spec hE hn ho hr
  exact (agree_inodeWrite h hE hn ho).andThen _

/-! ### The calls -/

namespace Cached

variable {dirty : Set Nat}

theorem isData_indirect (h : Cached dirty s) (hp : p ∈ s.list) (hv : (s.mem p).valid = true)
    (h0 : (s.mem p).entry.indirect ≠ 0) : IsData (s.mem p).entry.indirect.toNat := by
  have hdata := (h.owned_view hp hv).isData_table (h.inUse_view hp hv)
  rw [State.view_self] at hdata
  exact hdata h0

/-- `inode_put` loads an inode before it frees its blocks. -/
theorem agree_inodePut (h : Cached dirty s) (hp : p ∈ s.list) :
    Agree (Watched.inodePut (acquireInOrder e) sblock ctx p) (Fs.inodePut sblock ctx p) s := by
  refine Agree.get (Agree.andThen (Agree.when fun _ => ?_) _)
  refine (agree_inodeLock h.held).bind fun _ t hr => ?_
  obtain ⟨ht, heq⟩ := h.inodeLock hp hr
  have hp' : p ∈ t.list := by
    rw [heq]
    exact hp
  have hv : (t.mem p).valid = true := by
    rw [heq, State.mem_setInode_same]
    rfl
  refine (agree_inodeClear ht.held (ht.isData_indirect hp' hv)).bind fun _ t₁ hr => ?_
  obtain ⟨ht₁, -⟩ := ht.inodeClear hp' hv hr
  refine Agree.after fun _ t₂ hr => ?_
  have ht₂ : t₂.held = [] := by
    rw [runs_modifyEntry.mp hr]
    exact ht₁.held
  exact (agree_inodeSync ht₂).andThen _

/-- The call with acquires in order and with those of the code. -/
theorem agree_execWith {op : AcquireOp} (h : Cached dirty s) (ha : op.Allowed s) :
    Agree (op.execWith (acquireInOrder e)) (op.execWith cacheAcquire) s := by
  rw [AcquireOp.execWith_cacheAcquire]
  cases op with
  | alloc ctx type => exact (agree_inodeAlloc h.held).discard
  | allocGroup ctx type gno => exact (agree_inodeAllocGroup h.held).discard
  | sync ctx p doWrite => exact agree_inodeSync h.held
  | clear ctx p => exact agree_inodeClear h.held (h.isData_indirect ha.1 ha.2)
  | map ctx p offset =>
    exact (agree_inodeMap h.held State.view_self (h.inUse_view ha.1 ha.2)
      (h.owned_view ha.1 ha.2)).discard
  | read p dest offset count =>
    exact (agree_inodeRead h.held State.view_self (h.inUse_view ha.1 ha.2)
      (h.owned_view ha.1 ha.2)).discard
  | write ctx p src offset count =>
    exact (agree_inodeWrite h.held State.view_self (h.inUse_view ha.1 ha.2)
      (h.owned_view ha.1 ha.2)).discard
  | insert ctx p name m =>
    exact (agree_inodeInsert h.held State.view_self (h.inUse_view ha.1 ha.2)
      (h.owned_view ha.1 ha.2)).discard
  | put ctx p => exact h.agree_inodePut ha

/-- A call that returns has released every block. -/
theorem released {u : Unit} {op : AcquireOp} (h : Cached Set.univ s) (ha : op.Allowed s)
    (hr : Runs op.exec s u s') : s'.held = [] := by
  cases op with
  | alloc ctx type =>
    exact (InodeOp.cached h (show (InodeOp.alloc ctx type).Allowed s from trivial) hr).held
  | allocGroup ctx type gno =>
    exact (InodeOp.cached h (show (InodeOp.allocGroup ctx type gno).Allowed s from trivial) hr).held
  | sync ctx p doWrite =>
    cases hv : (s.mem p).valid with
    | false =>
      obtain ⟨-, rfl⟩ := (runs_inodeSync_load hv).mp hr
      exact h.held
    | true =>
      cases doWrite with
      | false =>
        obtain ⟨-, rfl⟩ := (runs_inodeSync_read hv).mp hr
        exact h.held
      | true => exact (h.inodeSync ha hv hr).1.held
  | clear ctx p => exact (h.inodeClear ha.1 ha.2 hr).1.held
  | map ctx p offset =>
    obtain ⟨⟨b, m⟩, hr⟩ := runs_discard hr
    obtain ⟨-, e', hm⟩ := inodeMap_spec State.view_self (h.inUse_view ha.1 ha.2) (h.owned_view ha.1 ha.2) hr
    exact hm.frame.held.trans h.held
  | read p dest offset count =>
    obtain ⟨r, hr⟩ := runs_discard hr
    obtain ⟨rfl, -⟩ := inodeRead_spec State.view_self (h.inUse_view ha.1 ha.2) (h.owned_view ha.1 ha.2) hr
    exact h.held
  | write ctx p src offset count =>
    obtain ⟨r, hr⟩ := runs_discard hr
    by_cases hdev : (s.mem p).entry.type = inodeDevice
    · obtain ⟨-, rfl⟩ := h.inodeWrite_device ha.1 hdev hr
      exact h.held
    · exact (h.inodeWrite ha.1 ha.2 hdev hr).2.1.held
  | insert ctx p name m =>
    obtain ⟨r, hr⟩ := runs_discard hr
    exact (h.inodeInsert ha.1 ha.2 hr).2.1.held
  | put ctx p => exact (h.inodePut ha hr).1.held

end Cached

/-- In a well-formed state, where no block is held, a call does the same when every acquire out of
order is a fault, whatever the fault is: it acquires no block that it holds, holds at most two blocks,
and acquires none while it holds a bitmap block.  A call that returns has released every block. -/
theorem acquires_in_order (op : AcquireOp) (e : Fault) (h : Cached Set.univ s) (ha : op.Allowed s) :
    op.execWith (acquireInOrder e) s = op.exec s ∧ ∀ u s', Runs op.exec s u s' → s'.held = [] := by
  constructor
  · have hagree : Agree (op.execWith (acquireInOrder e)) (op.execWith cacheAcquire) s := h.agree_execWith ha
    rwa [AcquireOp.execWith_cacheAcquire] at hagree
  · exact fun _ _ hr => h.released ha hr

/-- `inode_map` for the first slot of the table of the root directory: the table is held while the
block for the slot is allocated. -/
theorem acquires_in_order_table : ∃ s, (inodeOps Mkfs.Builds).Reachable s ∧
    (AcquireOp.map true 0 6144).execWith (acquireInOrder .overflow) s = (AcquireOp.map true 0 6144).exec s ∧
    ∀ u s', Runs (AcquireOp.map true 0 6144).exec s u s' → s'.held = [] := by
  let mem : Ptr → Inode := fun _ => ⟨false, 0, 0, false, InodeEntry.zero⟩
  let start : Option State := after (inodeGet sblock 1) (mount sblock Mkfs.emptyImage mem)
  have hrun : (start.bind fun s => ((inodeOps Mkfs.Builds).run s [.beginOp, .lock 0]).map fun s =>
      decide (0 ∈ s.list ∧ (s.mem 0).valid = true)) = some true := by decide +kernel
  obtain ⟨s₀, hs₀, hrun⟩ := Option.bind_eq_some_iff.mp hrun
  obtain ⟨root, hroot⟩ := after_eq_some.mp hs₀
  have hinit : (inodeOps Mkfs.Builds).init s₀ := ⟨_, _, root, Mkfs.builds_emptyImage, hroot⟩
  obtain ⟨s, hs, hallowed⟩ := Machine.Reachable.of_run hinit hrun
  rw [decide_eq_true_eq] at hallowed
  exact ⟨s, hs, acquires_in_order (.map true 0 6144) .overflow
    (inodeOps_cached (fun _ => Mkfs.Builds.owned) hs) hallowed⟩

end FtosFfs.Fs
