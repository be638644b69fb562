import FtosFfs.Fs.Counts
import FtosFfs.Fs.Handles
import FtosFfs.Fs.Holes
import Mathlib.Data.List.DropRight
import Mathlib.Data.List.TakeWhile

/-! `namex` inside an operation: the inodes that it goes through, when it returns, and that it leaves
the operation alone then.  Two of its exits begin an operation of their own and never return. -/

namespace FtosFfs.Fs

open Lib Lib.Exec Cache

variable {s s' t s₀ : State} {p q cwd : Ptr} {base c : Ptr → Nat} {L : Set Ptr} {u : Unit}
  {d : Nat → BlockData} {parent : Bool} {n m : Nat} {path name rest : List UInt8}

/-! ### The walk on disk -/

/-- Inode `n` is a directory. -/
def IsDir (d : Nat → BlockData) (n : Nat) : Prop := (diskEntry d n).type = inodeDirectory

instance (d : Nat → BlockData) (n : Nat) : Decidable (IsDir d n) := inferInstanceAs (Decidable (_ = _))

/-- What `inode_lookup` finds in directory `n`: the inode number and the index of the entry. -/
def dirLookup (d : Nat → BlockData) (n : Nat) (name : List UInt8) : Option (Nat × Nat) :=
  lookupIn (fileByte (diskEntry d) d n) (diskEntry d n).numBytes.toNat name

/-- `namex` stops before it looks up an element with the rest `rest` after it. -/
def StopsAt (parent : Bool) (rest : List UInt8) : Prop := (parent = true ∧ rest = []) ∨ rest = [dot]

/-- The rounds of `namex` at inode `n` with `path` left, and what it returns in the end: the inode
and the last element that it took. -/
inductive Walk (d : Nat → BlockData) (parent : Bool) :
    Nat → List UInt8 → List UInt8 → Option (Nat × List UInt8) → Prop
  | done {n : Nat} {path name : List UInt8} (hpath : skipelem path = none)
      (hmode : parent = false) : Walk d parent n path name (some (n, name))
  | stop {n : Nat} {path name rest elem : List UInt8} (hpath : skipelem path = some (rest, elem))
      (hdir : IsDir d n) (hstop : StopsAt parent rest) : Walk d parent n path name (some (n, elem))
  | missing {n : Nat} {path name rest elem : List UInt8}
      (hpath : skipelem path = some (rest, elem)) (hdir : IsDir d n)
      (hstop : ¬StopsAt parent rest) (hnone : dirLookup d n elem = none) :
      Walk d parent n path name none
  | next {n m k : Nat} {path name rest elem : List UInt8} {r : Option (Nat × List UInt8)}
      (hpath : skipelem path = some (rest, elem)) (hdir : IsDir d n)
      (hstop : ¬StopsAt parent rest) (hfound : dirLookup d n elem = some (m, k))
      (hrest : Walk d parent m rest elem r) : Walk d parent n path name r

/-! ### The state along the walk -/

/-- References and locks aside, the state is as in `s₀`: every inode in memory has the entry that it has
there, which agrees with the disk on block numbers and sizes. -/
structure Along (s₀ : State) (c : Ptr → Nat) (L : Set Ptr) (s : State) : Prop where
  refs : Refs s₀ c L s
  cached : Cached Set.univ s
  size : ∀ n, (s₀.entryOf n).numBytes = (diskEntry s₀.disk n).numBytes
  fresh : ∀ p ∈ s₀.list, p < s₀.fresh
  stays : ∀ p ∈ s₀.list, p ∈ s.list
  loaded : ∀ p ∈ s.list, s.loaded p = s₀.entryOf (s.mem p).inodeNo
  disk : s.disk = s₀.disk
  log : s.log = s₀.log
  ctx : s.ctx = s₀.ctx

/-- The loaded inodes have the sizes that they have on disk. -/
def SizesAgree (s : State) : Prop :=
  ∀ p ∈ s.list, (s.mem p).valid = true →
    (s.mem p).entry.numBytes = (diskEntry s.disk (s.mem p).inodeNo).numBytes

theorem SizesAgree.entryOf (h : SizesAgree s) (n : Nat) :
    (s.entryOf n).numBytes = (diskEntry s.disk n).numBytes := by
  unfold State.entryOf
  split
  case h_1 p hf =>
    have hpm := List.find?_some hf
    simp only [Bool.and_eq_true, decide_eq_true_eq] at hpm
    rw [← hpm.2]
    exact h p (List.mem_of_find?_eq_some hf) hpm.1
  case h_2 => rfl

/-- The inodes in use have links or references. -/
def Linked (s : State) : Prop :=
  ∀ n, InUse (diskEntry s.disk) n →
    (diskEntry s.disk n).numLinks ≠ 0 ∨ ∃ p ∈ s.list, (s.mem p).inodeNo = n

/-- A running operation. -/
structure InOp (s : State) : Prop where
  count : 0 < s.log.opCount
  persisted : s.log.lastPersistedTs ≤ s.log.lastAllocatedTs

theorem State.loaded_congr (hmem : s'.mem q = s.mem q) (hd : s'.disk = s.disk) :
    s'.loaded q = s.loaded q := by
  unfold State.loaded
  rw [hmem, hd]

namespace Along

theorem mem (h : Along s₀ c L s) (hp : 0 < c p) : p ∈ s.list := h.refs.mem p hp

theorem entry (h : Along s₀ c L s) (hp : 0 < c p) (hv : (s.mem p).valid = true) :
    (s.mem p).entry = s₀.entryOf (s.mem p).inodeNo := by
  rw [← h.loaded p (h.mem hp), State.loaded, if_pos hv]

theorem entry_type (h : Along s₀ c L s) (hp : 0 < c p) (hv : (s.mem p).valid = true) :
    (s.mem p).entry.type = (diskEntry s₀.disk (s.mem p).inodeNo).type := by
  rw [((h.cached.inode p (h.mem hp)).same hv).type, h.disk]

theorem entry_size (h : Along s₀ c L s) (hp : 0 < c p) (hv : (s.mem p).valid = true) :
    (s.mem p).entry.numBytes = (diskEntry s₀.disk (s.mem p).inodeNo).numBytes := by
  rw [h.entry hp hv, h.size]

/-- A change of one object that leaves its number and its entry as they are. -/
theorem setInode (h : Along s₀ c L s) {c' : Ptr → Nat} {L' : Set Ptr} {ip : Inode}
    (hrefs : Refs s₀ c' L' (s.setInode p ip)) (hc : Cached Set.univ (s.setInode p ip))
    (hno : ip.inodeNo = (s.mem p).inodeNo)
    (hloaded : (if ip.valid then ip.entry else diskEntry s.disk ip.inodeNo) = s.loaded p) :
    Along s₀ c' L' (s.setInode p ip) := by
  refine ⟨hrefs, hc, h.size, h.fresh, h.stays, fun q hq => ?_, h.disk, h.log, h.ctx⟩
  by_cases hqp : q = p
  · subst hqp
    unfold State.loaded
    rw [State.mem_setInode_same, hno, ← h.loaded q hq, ← hloaded, ← hno]
    rfl
  · rw [State.mem_setInode_ne _ hqp, ← h.loaded q hq]
    exact State.loaded_congr (State.mem_setInode_ne _ hqp) rfl

theorem lock (h : Along s₀ c L s) (hp : 0 < c p) (hr : Runs (inodeLock sblock p) s u s') :
    p ∉ L ∧ Along s₀ c (insert p L) s' ∧ InUse (diskEntry s₀.disk) (s.mem p).inodeNo ∧
      (s'.mem p).inodeNo = (s.mem p).inodeNo ∧ (s'.mem p).valid = true ∧
      (s'.mem p).entry.type = (diskEntry s₀.disk (s.mem p).inodeNo).type := by
  obtain ⟨hpL, hrefs⟩ := h.refs.inodeLock hp hr
  obtain ⟨hc, rfl⟩ := h.cached.inodeLock (h.mem hp) hr
  have hmem : (s.setInode p (s.lockedInode p)).mem p = s.lockedInode p := State.mem_setInode_same _
  have h1 : Along s₀ c (insert p L) (s.setInode p (s.lockedInode p)) := h.setInode hrefs hc rfl (if_pos rfl)
  have hno : ((s.setInode p (s.lockedInode p)).mem p).inodeNo = (s.mem p).inodeNo := by
    rw [hmem]
    rfl
  have hv : ((s.setInode p (s.lockedInode p)).mem p).valid = true := by
    rw [hmem]
    rfl
  have hu := (hc.inode p (h.mem hp)).inUse hv
  have htype := h1.entry_type hp hv
  rw [hno] at hu htype
  rw [h1.disk] at hu
  exact ⟨hpL, h1, hu, hno, hv, htype⟩

theorem unlock (h : Along s₀ c (insert p L) s) (hp : 0 < c p) (hpL : p ∉ L)
    (hr : Runs (inodeUnlock p) s u s') :
    Along s₀ c L s' ∧ s'.mem p = { s.mem p with locked := false } ∧
      ∀ q, (s'.mem q).inodeNo = (s.mem q).inodeNo := by
  have hrefs := h.refs.inodeUnlock hp hpL hr
  obtain ⟨hc, rfl⟩ := h.cached.inodeUnlock (h.mem hp) hr
  refine ⟨h.setInode hrefs hc rfl rfl, State.mem_setInode_same _, fun q => ?_⟩
  by_cases hq : q = p
  · rw [hq, State.mem_setInode_same]
  · rw [State.mem_setInode_ne _ hq]

theorem get (h : Along s₀ c L s) (hr : Runs (inodeGet sblock n) s q s') :
    Along s₀ (bump c q) L s' ∧ (s'.mem q).inodeNo = n ∧
      ∀ p ∈ s.list, (s'.mem p).valid = (s.mem p).valid ∧ (s'.mem p).entry = (s.mem p).entry ∧
        (s'.mem p).inodeNo = (s.mem p).inodeNo := by
  have hrefs := h.refs.inodeGet hr
  obtain ⟨hc, -, hno⟩ := h.cached.inodeGet hr
  obtain ⟨-, ⟨hq, -, rfl⟩ | ⟨hnew, rfl, rfl⟩⟩ := (runs_inodeGet h.cached.list).mp hr
  · refine ⟨h.setInode hrefs hc rfl rfl, hno, fun p hp => ?_⟩
    by_cases hpq : p = q
    · rw [hpq, State.mem_setInode_same]
      exact ⟨rfl, rfl, rfl⟩
    · rw [State.mem_setInode_ne _ hpq]
      exact ⟨rfl, rfl, rfl⟩
  · have hold (p : Ptr) (hp : p ∈ s.list) :
        Function.update s.mem s.fresh (s.newInode n) p = s.mem p :=
      Function.update_of_ne (Nat.ne_of_lt (h.cached.list.fresh p hp)) ..
    refine ⟨⟨hrefs, hc, h.size, h.fresh, fun p hp => List.mem_cons_of_mem _ (h.stays p hp), fun p hp => ?_,
      h.disk, h.log, h.ctx⟩, hno, fun p hp => ?_⟩
    · rcases List.mem_cons.mp hp with rfl | hp
      · -- The new object is of an inode that had none, and is not loaded.
        have hmem : Function.update s.mem s.fresh (s.newInode n) s.fresh = s.newInode n :=
          Function.update_self ..
        have hfresh : s₀.entryOf n = diskEntry s₀.disk n := by
          refine State.entryOf_disk fun p hp hpn => hnew p (h.stays p hp) ?_
          rw [h.refs.inodeNo p (h.fresh p hp)]
          exact hpn
        dsimp only
        rw [hmem]
        refine Eq.trans (b := diskEntry s.disk n) ?_ (by rw [h.disk]; exact hfresh.symm)
        unfold State.loaded
        dsimp only
        simp only [hmem]
        rfl
      · dsimp only
        rw [hold p hp, ← h.loaded p hp]
        exact State.loaded_congr (hold p hp) rfl
    · dsimp only
      rw [hold p hp]
      exact ⟨rfl, rfl, rfl⟩

theorem share (h : Along s₀ c L s) (hp : 0 < c p) (hr : Runs (inodeShare p) s q s') :
    q = p ∧ Along s₀ (bump c p) L s' ∧ (s'.mem p).inodeNo = (s.mem p).inodeNo := by
  obtain ⟨rfl, hrefs⟩ := h.refs.inodeShare hp hr
  simp only [inodeShare, incrementRc, runs_bind, runs_modifyInode, runs_pure] at hr
  obtain ⟨_, _, rfl, -, rfl⟩ := hr
  refine ⟨rfl, h.setInode hrefs (h.cached.incrementRc (h.mem hp)) rfl rfl, ?_⟩
  rw [State.mem_setInode_same]

theorem put (h : Along s₀ (bump c p) L s) (hpL : p ∉ L) (hlast : (s.mem p).isLast = false)
    (hbase : ∀ q ∈ s₀.list, 0 < c q) {ctx : Bool} (hr : Runs (inodePut sblock ctx p) s u s') :
    Along s₀ c L s' ∧ ∀ q, (s'.mem q).inodeNo = (s.mem q).inodeNo := by
  have hrefs := h.refs.inodePut hpL hr
  rw [runs_inodePut, if_neg (by simp [hlast])] at hr
  subst hr
  have hno (q : Ptr) : ((s.dropped p).mem q).inodeNo = (s.mem q).inodeNo := by
    by_cases hq : q = p
    · rw [hq, State.mem_dropped_same]
    · exact congrArg Inode.inodeNo (State.mem_setInode_ne _ hq)
  refine ⟨⟨hrefs, h.cached.dropped (h.mem bump_pos), h.size, h.fresh,
    fun q hq => hrefs.mem q (hbase q hq), fun q hq => ?_, h.disk, h.log, h.ctx⟩, hno⟩
  have hloaded : (s.dropped p).loaded q = s.loaded q := by
    by_cases hqp : q = p
    · rw [hqp]
      unfold State.loaded
      rw [State.mem_dropped_same]
      rfl
    · exact State.loaded_congr (State.mem_setInode_ne _ hqp) rfl
  rw [hloaded, hno, h.loaded q (State.mem_list_of_dropped hq)]

/-- The blocks of the files are those on disk. -/
theorem ref_view (h : Along s₀ c L s) (hp : 0 < c p) (hv : (s.mem p).valid = true) :
    ref (s.view p) = ref (diskEntry s₀.disk) := by
  rw [h.cached.ref_view (h.mem hp) hv, h.disk]

theorem bytes_eq (h : Along s₀ c L s) (hp : 0 < c p) (hv : (s.mem p).valid = true) :
    s.bytes p = fileByte (diskEntry s₀.disk) s₀.disk (s.mem p).inodeNo := by
  funext i
  unfold State.bytes
  rw [fileByte, h.ref_view hp hv, h.disk, fileByte]

theorem size_eq (h : Along s₀ c L s) (hp : 0 < c p) (hv : (s.mem p).valid = true) :
    s.size p = (diskEntry s₀.disk (s.mem p).inodeNo).numBytes.toNat :=
  congrArg UInt32.toNat (h.entry_size hp hv)

theorem lookup (h : Along s₀ c L s) (hp : 0 < c p) (hv : (s.mem p).valid = true)
    {r : Option (Nat × Nat)} (hr : Runs (inodeLookup sblock p name) s r s') :
    s = s' ∧ r = dirLookup s₀.disk (s.mem p).inodeNo name := by
  obtain ⟨rfl, -, rfl⟩ := h.cached.inodeLookup (h.mem hp) hv hr
  exact ⟨rfl, by rw [h.bytes_eq hp hv, h.size_eq hp hv, dirLookup]⟩

/-- The reference that the walk gives back was not the last one to an inode without links. -/
theorem not_last (h₀ : Refs s₀ base ∅ s₀) (hlinked : Linked s₀) (h : Along s₀ c L s)
    (hc : ∀ q, base q ≤ c q) (hp : base p < c p) (hv : (s.mem p).valid = true) :
    (s.mem p).isLast = false := by
  have hpos : 0 < c p := Nat.lt_of_le_of_lt (Nat.zero_le _) hp
  have hmem := h.mem hpos
  by_contra hlast
  simp only [Inode.isLast, decide_eq_false_iff_not, not_not] at hlast
  obtain ⟨hrc, hlinks⟩ := hlast
  rw [h.refs.rc p hmem] at hrc
  have hu := (h.cached.inode p hmem).inUse hv
  rw [h.disk] at hu
  -- An inode with other references has at least two.
  have hnone (q : Ptr) (hq : q ∈ s₀.list) : (s₀.mem q).inodeNo ≠ (s.mem p).inodeNo := by
    intro hqno
    have hbase : 0 < base q := by
      have := h₀.list.rc q hq
      rw [h₀.rc q hq] at this
      exact Int.natCast_pos.mp this
    have hqs : q ∈ s.list := h.mem (Nat.lt_of_lt_of_le hbase (hc q))
    have hsame : (s.mem q).inodeNo = (s.mem p).inodeNo := by
      rw [h.refs.inodeNo q (h₀.list.fresh q hq)]
      exact hqno
    obtain rfl := h.cached.list.inj q hqs p hmem hsame
    omega
  rw [h.entry hpos hv, State.entryOf_disk hnone] at hlinks
  rcases hlinked _ hu with hne | ⟨q, hq, hqno⟩
  · exact hne hlinks
  · exact hnone q hq hqno

end Along

/-! ### The operation of its own -/

theorem ts_recordAll {ctx : Bool} {c c' : OpContext} {l : List Nat}
    (h : recordAll ctx c l = some c') : c'.ts = c.ts := by
  induction l generalizing c with
  | nil => exact congrArg OpContext.ts (Option.some.inj h).symm
  | cons b l ih =>
    rw [recordAll_cons, Option.bind_eq_some_iff] at h
    obtain ⟨c₁, hc₁, h⟩ := h
    rw [ih h]
    unfold recorded at hc₁
    split at hc₁
    case isTrue => exact OpContext.ts_record hc₁
    case isFalse => exact congrArg OpContext.ts (Option.some.inj hc₁).symm

/-- `inode_put` neither begins nor ends an operation. -/
theorem Cached.log_inodePut {dirty : Set Nat} {ctx : Bool} (h : Cached dirty s) (hp : p ∈ s.list)
    (hr : Runs (Fs.inodePut sblock ctx p) s u s') : s'.log = s.log ∧ s'.ctx.ts = s.ctx.ts := by
  rcases h.inodePut_spec hp hr with ⟨-, rfl⟩ | ⟨-, -, -, t, hd, rfl⟩
  · exact ⟨rfl, rfl⟩
  · exact ⟨hd.frame.log, ts_recordAll hd.record⟩

theorem Log.commit_fields {log log' : Log} {ctx : OpContext} (h : log.commit ctx = some log') :
    log'.opCount = log.opCount ∧ log'.lastPersistedTs = log.lastPersistedTs := by
  unfold Log.commit at h
  obtain ⟨⟨header, absorbed⟩, -, h⟩ := Option.bind_eq_some_iff.mp h
  cases h
  exact ⟨rfl, rfl⟩

/-- The operation that `namex` begins inside that of its caller sleeps in its end: the caller's
operation is not over, and nobody persists the new one. -/
theorem putInOp_sleeps {dirty : Set Nat} (h : Cached dirty s) (hp : p ∈ s.list) (hop : InOp s) :
    ¬Runs (putInOp sblock p) s u s' := by
  intro hr
  obtain ⟨_, t, hbegin, hr⟩ := runs_bind.mp hr
  obtain ⟨_, t', hput, hend⟩ := runs_bind.mp hr
  have ht : t.disk = s.disk ∧ t.held = s.held ∧ t.list = s.list ∧ t.mem = s.mem ∧
      t.fresh = s.fresh ∧ t.log.opCount = s.log.opCount + 1 ∧
      t.log.lastPersistedTs = s.log.lastPersistedTs ∧ t.ctx.ts = s.log.lastAllocatedTs + 1 := by
    obtain ⟨_, _, hget, hbegin⟩ := runs_bind.mp hbegin
    obtain ⟨rfl, rfl⟩ := runs_get.mp hget
    obtain ⟨-, hbegin⟩ | ⟨-, hbegin⟩ := runs_ite.mp hbegin
    · exact absurd hbegin runs_throw
    · obtain rfl := runs_set.mp hbegin
      exact ⟨rfl, rfl, rfl, rfl, rfl, rfl, rfl, rfl⟩
  obtain ⟨hdisk, hheld, hlist, hmem, hfresh, hcount, hpersisted, hts⟩ := ht
  obtain ⟨hlog, hts'⟩ := (h.congr hdisk hheld hlist hmem hfresh).log_inodePut (hlist ▸ hp) hput
  obtain ⟨_, _, hget, hend⟩ := runs_bind.mp hend
  obtain ⟨rfl, rfl⟩ := runs_get.mp hget
  split at hend
  case h_1 => exact absurd hend runs_throw
  case h_2 log hcommit =>
    obtain ⟨hc, hp'⟩ := Log.commit_fields hcommit
    rw [hlog] at hc hp'
    have := hop.count
    have := hop.persisted
    dsimp only at hend
    rw [if_neg (by omega), if_pos (by omega)] at hend
    exact absurd hend runs_throw

/-! ### The walk of `namex` -/

/-- The state in which a system call that runs alone resolves a path. -/
structure Resolving (base : Ptr → Nat) (s : State) : Prop where
  refs : Refs s base ∅ s
  cached : Cached Set.univ s
  size : SizesAgree s
  linked : Linked s
  op : InOp s

theorem Resolving.along (h : Resolving base s) : Along s base ∅ s :=
  ⟨h.refs, h.cached, h.size.entryOf, h.cached.list.fresh, fun _ hp => hp,
    fun _ hp => h.cached.loaded_eq hp, rfl, rfl, rfl⟩

/-- The objects in memory have references. -/
theorem Resolving.base_pos (h : Resolving base s) (hp : p ∈ s.list) : 0 < base p := by
  have hrc := h.cached.list.rc p hp
  rw [h.refs.rc p hp] at hrc
  exact Int.natCast_pos.mp hrc

/-- The result of `namex` by inode number. -/
def State.result (s : State) (r : Option (Ptr × List UInt8)) : Option (Nat × List UInt8) :=
  r.map fun q => ((s.mem q.1).inodeNo, q.2)

theorem lt_bump : base p < bump base p p := by simp

theorem le_bump (q : Ptr) : base q ≤ bump base p q := by
  rw [bump_apply]
  exact Nat.le_add_right ..

/-- From a directory `namex` goes on to inode `m`, and gives the directory back without freeing it. -/
theorem Resolving.goOn (h₀ : Resolving base s₀) {t₁ t₂ : State} {m : Nat}
    (h : Along s₀ (bump base p) (insert p ∅) t)
    (hv : (t.mem p).valid = true) (hget : Runs (inodeGet sblock m) t q t₁)
    (hunlock : Runs (inodeUnlock p) t₁ () t₂) :
    (t₂.mem p).isLast = false ∧ ∀ t₃, Runs (inodePut sblock true p) t₂ () t₃ →
      Along s₀ (bump base q) ∅ t₃ ∧ (t₃.mem q).inodeNo = m := by
  obtain ⟨h₁, hno, hold⟩ := h.get hget
  rw [bump_comm] at h₁
  obtain ⟨h₂, hmem, hnos⟩ := h₁.unlock bump_pos (by simp) hunlock
  have hlive : (t₂.mem p).isLast = false := by
    refine h₂.not_last h₀.refs h₀.linked (fun q => Nat.le_trans (le_bump q) (le_bump q))
      (Nat.lt_of_le_of_lt (le_bump p) lt_bump) ?_
    rw [hmem]
    exact (hold p (h.mem bump_pos)).1.trans hv
  refine ⟨hlive, fun t₃ hput => ?_⟩
  obtain ⟨h₃, hnos'⟩ := h₂.put (by simp) hlive
    (fun q hq => Nat.lt_of_lt_of_le (h₀.base_pos hq) (le_bump q)) hput
  exact ⟨h₃, by rw [hnos', hnos, hno]⟩

/-- A `namex` that returns has gone along a walk and left the operation alone. -/
theorem Resolving.namexFrom (h₀ : Resolving base s₀) {fuel : Nat}
    {r : Option (Ptr × List UInt8)} (h : Along s₀ (bump base p) ∅ s)
    (hr : Runs (namexFrom sblock parent fuel p path name) s r s') :
    Walk s₀.disk parent (s.mem p).inodeNo path name (s'.result r) ∧
      Along s₀ (Refs.taken base (r.map (·.1))) ∅ s' := by
  induction fuel generalizing p path name s with
  | zero => exact absurd hr runs_throw
  | succ fuel ih =>
    have hop (t : State) (ht : Along s₀ (bump base p) ∅ t) : InOp t :=
      ⟨ht.log ▸ h₀.op.count, ht.log ▸ h₀.op.persisted⟩
    unfold Fs.namexFrom at hr
    split at hr
    case h_1 hpath =>
      obtain ⟨-, hr⟩ | ⟨hmode, hr⟩ := runs_ite.mp hr
      · obtain ⟨_, t, hput, -⟩ := runs_bind.mp hr
        exact absurd hput (putInOp_sleeps h.cached (h.mem bump_pos) (hop s h))
      · obtain ⟨rfl, rfl⟩ := runs_pure.mp hr
        exact ⟨.done hpath (by simpa using hmode), h⟩
    case h_2 rest elem hpath =>
      obtain ⟨_, t, hlock, hr⟩ := runs_bind.mp hr
      obtain ⟨-, h1, -, hno, hv, htype⟩ := h.lock bump_pos hlock
      obtain ⟨_, _, hget, hr⟩ := runs_bind.mp hr
      obtain ⟨rfl, rfl⟩ := runs_get.mp hget
      rw [htype] at hr
      obtain ⟨-, hr⟩ | ⟨hdir, hr⟩ := runs_ite.mp hr
      · -- Not a directory.
        obtain ⟨_, t1, hunlock, hr⟩ := runs_bind.mp hr
        obtain ⟨_, t2, hput, -⟩ := runs_bind.mp hr
        obtain ⟨h2, -, -⟩ := h1.unlock bump_pos (by simp) hunlock
        exact absurd hput (putInOp_sleeps h2.cached (h2.mem bump_pos) (hop t1 h2))
      have hdir : IsDir s₀.disk (s.mem p).inodeNo := not_not.mp hdir
      have hstop {t1 : State} (hstop : StopsAt parent rest)
          (hunlock : Runs (inodeUnlock p) t () t1) (hr : r = some (p, elem)) :
          Walk s₀.disk parent (s.mem p).inodeNo path name (t1.result r) ∧
            Along s₀ (Refs.taken base (r.map (·.1))) ∅ t1 := by
        obtain ⟨h2, -, hnos⟩ := h1.unlock bump_pos (by simp) hunlock
        subst hr
        refine ⟨?_, h2⟩
        have hres : t1.result (some (p, elem)) = some ((s.mem p).inodeNo, elem) := by
          unfold State.result
          rw [Option.map_some, hnos, hno]
        rw [hres]
        exact .stop hpath hdir hstop
      obtain ⟨hlast, hr⟩ | ⟨hlast, hr⟩ := runs_ite.mp hr
      · obtain ⟨_, t1, hunlock, hr⟩ := runs_bind.mp hr
        obtain ⟨rfl, rfl⟩ := runs_pure.mp hr
        exact hstop (.inl hlast) hunlock rfl
      obtain ⟨hdot, hr⟩ | ⟨hdot, hr⟩ := runs_ite.mp hr
      · obtain ⟨_, t1, hunlock, hr⟩ := runs_bind.mp hr
        obtain ⟨rfl, rfl⟩ := runs_pure.mp hr
        exact hstop (.inr hdot) hunlock rfl
      have hgoes : ¬StopsAt parent rest := by
        rintro (hc | hc)
        · exact hlast hc
        · exact hdot hc
      obtain ⟨found, t1, hlook, hr⟩ := runs_bind.mp hr
      obtain ⟨rfl, hfound⟩ := h1.lookup bump_pos hv hlook
      rw [hno] at hfound
      cases found with
      | none =>
        obtain ⟨_, t2, hunlock, hr⟩ := runs_bind.mp hr
        obtain ⟨_, t3, hput, hr⟩ := runs_bind.mp hr
        obtain ⟨rfl, rfl⟩ := runs_pure.mp hr
        obtain ⟨h2, hmem, -⟩ := h1.unlock bump_pos (by simp) hunlock
        have hlive := h2.not_last h₀.refs h₀.linked le_bump lt_bump (by rw [hmem]; exact hv)
        refine ⟨.missing hpath hdir hgoes hfound.symm, (h2.put (by simp) hlive ?_ hput).1⟩
        exact fun q hq => h₀.base_pos hq
      | some mk =>
        obtain ⟨m, k⟩ := mk
        obtain ⟨found', t2, hlook', hr⟩ := runs_bind.mp hr
        obtain ⟨rfl, hfound'⟩ := h1.lookup bump_pos hv hlook'
        rw [hno, ← hfound] at hfound'
        subst hfound'
        obtain ⟨next, t3, hnext, hr⟩ := runs_bind.mp hr
        obtain ⟨_, t4, hunlock, hr⟩ := runs_bind.mp hr
        obtain ⟨_, t5, hput, hr⟩ := runs_bind.mp hr
        obtain ⟨h2, hnextno⟩ := (h₀.goOn h1 hv hnext hunlock).2 t5 hput
        obtain ⟨hwalk, halong⟩ := ih h2 hr
        rw [hnextno] at hwalk
        exact ⟨.next hpath hdir hgoes hfound.symm hwalk, halong⟩

/-- The inode at which the walk starts. -/
def startNo (s : State) (cwd : Ptr) (path : List UInt8) : Nat :=
  if path.head? = some slash then 1 else (s.mem cwd).inodeNo

theorem Along.start (h : Along s₀ base ∅ s₀) (hcwd : 0 < base cwd)
    (hr : Runs (namexStart sblock cwd path) s₀ p s') :
    Along s₀ (bump base p) ∅ s' ∧ (s'.mem p).inodeNo = startNo s₀ cwd path := by
  unfold namexStart at hr
  unfold startNo
  split
  case isTrue hslash =>
    rw [if_pos hslash] at hr
    obtain ⟨h1, hno, -⟩ := h.get hr
    exact ⟨h1, hno⟩
  case isFalse hslash =>
    rw [if_neg hslash] at hr
    obtain ⟨rfl, h1, hno⟩ := h.share hcwd hr
    exact ⟨h1, hno⟩

theorem Resolving.namex (h₀ : Resolving base s₀) (hcwd : 0 < base cwd)
    {r : Option (Ptr × List UInt8)} (hr : Runs (namex sblock cwd path parent) s₀ r s') :
    Walk s₀.disk parent (startNo s₀ cwd path) path [] (s'.result r) ∧
      Along s₀ (Refs.taken base (r.map (·.1))) ∅ s' := by
  obtain ⟨p, t, hstart, hr⟩ := runs_bind.mp hr
  obtain ⟨h1, hno⟩ := h₀.along.start hcwd hstart
  rw [← hno]
  exact h₀.namexFrom h1 hr

/-! ### When `namex` returns -/

/-- The directories have no holes, and their entries name inodes in use. -/
structure TreeOk (d : Nat → BlockData) : Prop where
  filled : ∀ n, InUse (diskEntry d) n → IsDir d n →
    Filled n 0 (diskEntry d n).numBytes.toNat (diskEntry d) d
  entries : ∀ n name m k, InUse (diskEntry d) n → IsDir d n → dirLookup d n name = some (m, k) →
    InUse (diskEntry d) m
  root : InUse (diskEntry d) 1

namespace Along

theorem lock_returns (h : Along s₀ c L s) (hp : 0 < c p) (hpL : p ∉ L)
    (hu : InUse (diskEntry s₀.disk) (s.mem p).inodeNo) :
    ∃ s', Runs (inodeLock sblock p) s () s' := by
  refine ⟨_, runs_inodeLock.mpr ⟨h.cached.list.rc p (h.mem hp), ?_, ?_, ?_, rfl⟩⟩
  · have := h.refs.locks p (h.mem hp)
    simpa [hpL] using this
  · simp [h.cached.held]
  · rw [h.cached.loaded_eq (h.mem hp), (h.cached.sameBlocks_entryOf _).type, h.disk]
    exact hu.2

theorem unlock_returns (h : Along s₀ c (insert p L) s) (hp : 0 < c p) :
    ∃ s', Runs (inodeUnlock p) s () s' :=
  ⟨_, runs_inodeUnlock.mpr ⟨(h.refs.locks p (h.mem hp)).mpr (by simp),
    h.cached.list.rc p (h.mem hp), rfl⟩⟩

theorem get_returns (h : Along s₀ c L s) (hm : IsInode m) :
    ∃ q s', Runs (inodeGet sblock m) s q s' := by
  by_cases hin : ∃ q ∈ s.list, (s.mem q).inodeNo = m
  · obtain ⟨q, hq, hqm⟩ := hin
    exact ⟨q, _, (runs_inodeGet h.cached.list).mpr ⟨hm, .inl ⟨hq, hqm, rfl⟩⟩⟩
  · refine ⟨s.fresh, _, (runs_inodeGet h.cached.list).mpr ⟨hm, .inr ⟨fun q hq hqm => ?_, rfl, rfl⟩⟩⟩
    exact hin ⟨q, hq, hqm⟩

theorem lookup_returns (ht : TreeOk s₀.disk) (h : Along s₀ c L s) (hp : 0 < c p)
    (hv : (s.mem p).valid = true) (hdir : IsDir s₀.disk (s.mem p).inodeNo) (name : List UInt8) :
    Runs (inodeLookup sblock p name) s (dirLookup s₀.disk (s.mem p).inodeNo name) s := by
  have hself : s.view p (s.mem p).inodeNo = (s.mem p).entry := State.view_self
  have hu := h.cached.inUse_view (h.mem hp) hv
  have hu' := (h.cached.inode p (h.mem hp)).inUse hv
  have htype : (s.mem p).entry.type = inodeDirectory := (h.entry_type hp hv).trans hdir
  obtain ⟨r, hscan⟩ : ∃ r, Runs (scan sblock p false (named name)
      (((s.mem p).entry.numBytes.toNat + 15) / 16) 0 DirEntry.zero) s r s := by
    refine scan_returns hself hu (h.cached.owned_view (h.mem hp) hv) h.cached.held ?_ ?_ ?_ (by simp)
    · rw [hself]
      exact Cached.ne_device htype
    · rw [h.disk] at hu' ⊢
      rw [hself, h.entry_size hp hv]
      refine (ht.filled _ hu' hdir).mono (fun k hk => ?_) (Nat.le_refl _)
      rw [h.ref_view hp hv]
      exact hk
    · rw [hself]
      omega
  have hrun : Runs (inodeLookup sblock p name) s _ s :=
    runs_bind.mpr ⟨s, s, runs_get.mpr ⟨rfl, rfl⟩, runs_bind.mpr ⟨(), s,
      runs_require.mpr ⟨htype, rfl⟩, runs_bind.mpr ⟨r, s, hscan, runs_pure.mpr ⟨rfl, rfl⟩⟩⟩⟩
  rw [← (h.lookup hp hv hrun).2]
  exact hrun

end Along

/-- `skipelem` splits a path into slashes, the element, more slashes, and the rest. -/
theorem skipelem_some {elem : List UInt8} (h : skipelem path = some (rest, elem)) :
    ∃ a w b, path = a ++ (w ++ (b ++ rest)) ∧ (∀ x ∈ a, x = slash) ∧ w ≠ [] ∧ slash ∉ w ∧
      (∀ x ∈ b, x = slash) ∧ (b = [] → rest = []) ∧ elem = w.take fileNameMaxLength := by
  have hslash (l : List UInt8) : ∀ x ∈ l.takeWhile (· = slash), x = slash := fun x hx => by
    simpa using List.mem_takeWhile_imp hx
  have hhead (f : UInt8 → Bool) (l l' : List UInt8) (x : UInt8) (hl : l.dropWhile f = x :: l') :
      f x = false := by
    have := List.head?_dropWhile_not f l
    rwa [hl] at this
  unfold skipelem at h
  cases hp : path.dropWhile (· = slash) with
  | nil =>
    rw [hp] at h
    cases h
  | cons x l =>
    rw [hp] at h
    obtain ⟨rfl, rfl⟩ := Prod.mk.inj (Option.some.inj h)
    have hx : x ≠ slash := by simpa using hhead _ path l x hp
    refine ⟨path.takeWhile (· = slash), _, ((x :: l).dropWhile (· ≠ slash)).takeWhile (· = slash),
      ?_, hslash _, ?_, ?_, hslash _, fun hb => ?_, rfl⟩
    · rw [List.takeWhile_append_dropWhile, List.takeWhile_append_dropWhile, ← hp,
        List.takeWhile_append_dropWhile]
    · simp [hx]
    · intro hm
      simpa using List.mem_takeWhile_imp hm
    · cases hr : (x :: l).dropWhile (· ≠ slash) with
      | nil => rfl
      | cons y l' =>
        have hy : y = slash := by simpa using hhead _ (x :: l) l' y hr
        rw [hr] at hb
        simp [hy] at hb

theorem length_skipelem {elem : List UInt8} (h : skipelem path = some (rest, elem)) :
    rest.length < path.length := by
  obtain ⟨a, w, b, rfl, -, hw, -⟩ := skipelem_some h
  have := List.length_pos_of_ne_nil hw
  simp only [List.length_append]
  omega

/-- What `skipelem` leaves of a path does not start with a slash. -/
theorem skipelem_rest {elem : List UInt8} (h : skipelem path = some (rest, elem)) (hne : rest ≠ []) :
    skipelem rest ≠ none := by
  have hrest : rest.dropWhile (· = slash) = rest := by
    unfold skipelem at h
    split at h
    case h_1 => cases h
    case h_2 =>
      obtain ⟨rfl, -⟩ := Prod.mk.inj (Option.some.inj h)
      exact List.dropWhile_idempotent _ _
  unfold skipelem
  rw [hrest]
  cases rest with
  | nil => exact absurd rfl hne
  | cons => exact nofun

/-- A `namex` with a walk on the disk returns. -/
theorem Walk.returns (ht : TreeOk s₀.disk) (h₀ : Resolving base s₀) {r : Option (Nat × List UInt8)}
    (hw : Walk s₀.disk parent n path name r) (hu : InUse (diskEntry s₀.disk) n)
    (h : Along s₀ (bump base p) ∅ s) (hno : (s.mem p).inodeNo = n) {fuel : Nat}
    (hfuel : path.length < fuel) :
    ∃ r' s', Runs (Fs.namexFrom sblock parent fuel p path name) s r' s' := by
  induction hw generalizing p s fuel with
  | @done n path name hpath hmode =>
    obtain ⟨fuel, rfl⟩ : ∃ k, fuel = k + 1 := ⟨fuel - 1, by omega⟩
    refine ⟨some (p, name), s, ?_⟩
    unfold Fs.namexFrom
    rw [hpath]
    exact runs_ite.mpr (.inr ⟨by simp [hmode], runs_pure.mpr ⟨rfl, rfl⟩⟩)
  | @stop n path name rest elem hpath hdir hstop =>
    obtain ⟨fuel, rfl⟩ : ∃ k, fuel = k + 1 := ⟨fuel - 1, by omega⟩
    subst hno
    obtain ⟨t, hlock⟩ := h.lock_returns bump_pos (by simp) hu
    obtain ⟨-, h1, -, hno, -, htype⟩ := h.lock bump_pos hlock
    obtain ⟨t1, hunlock⟩ := h1.unlock_returns bump_pos
    refine ⟨some (p, elem), t1, ?_⟩
    unfold Fs.namexFrom
    rw [hpath]
    refine runs_bind.mpr ⟨_, t, hlock, runs_bind.mpr ⟨t, t, runs_get.mpr ⟨rfl, rfl⟩, ?_⟩⟩
    rw [htype]
    refine runs_ite.mpr (.inr ⟨not_not.mpr hdir, ?_⟩)
    have hend : Runs (do inodeUnlock p; pure (some (p, elem))) t (some (p, elem)) t1 :=
      runs_bind.mpr ⟨_, t1, hunlock, runs_pure.mpr ⟨rfl, rfl⟩⟩
    by_cases hlast : parent = true ∧ rest = []
    · exact runs_ite.mpr (.inl ⟨hlast, hend⟩)
    · exact runs_ite.mpr (.inr ⟨hlast, runs_ite.mpr (.inl ⟨hstop.resolve_left hlast, hend⟩)⟩)
  | @missing n path name rest elem hpath hdir hstop hnone =>
    obtain ⟨fuel, rfl⟩ : ∃ k, fuel = k + 1 := ⟨fuel - 1, by omega⟩
    subst hno
    obtain ⟨t, hlock⟩ := h.lock_returns bump_pos (by simp) hu
    obtain ⟨-, h1, -, hno, hv, htype⟩ := h.lock bump_pos hlock
    have hlook := h1.lookup_returns ht bump_pos hv (hno ▸ hdir) elem
    rw [hno, hnone] at hlook
    obtain ⟨t1, hunlock⟩ := h1.unlock_returns bump_pos
    obtain ⟨h2, hmem, -⟩ := h1.unlock bump_pos (by simp) hunlock
    have hlive := h2.not_last h₀.refs h₀.linked le_bump lt_bump (by rw [hmem]; exact hv)
    refine ⟨none, t1.dropped p, ?_⟩
    unfold Fs.namexFrom
    rw [hpath]
    refine runs_bind.mpr ⟨_, t, hlock, runs_bind.mpr ⟨t, t, runs_get.mpr ⟨rfl, rfl⟩, ?_⟩⟩
    rw [htype]
    refine runs_ite.mpr (.inr ⟨not_not.mpr hdir, ?_⟩)
    refine runs_ite.mpr (.inr ⟨fun hc => hstop (.inl hc), ?_⟩)
    refine runs_ite.mpr (.inr ⟨fun hc => hstop (.inr hc), ?_⟩)
    refine runs_bind.mpr ⟨none, t, hlook, runs_bind.mpr ⟨_, t1, hunlock, ?_⟩⟩
    exact runs_bind.mpr ⟨_, _, put_keeps hlive, runs_pure.mpr ⟨rfl, rfl⟩⟩
  | @next n m k path name rest elem r hpath hdir hstop hfound hrest ih =>
    obtain ⟨fuel, rfl⟩ : ∃ k, fuel = k + 1 := ⟨fuel - 1, by omega⟩
    subst hno
    have hm := ht.entries _ _ _ _ hu hdir hfound
    obtain ⟨t, hlock⟩ := h.lock_returns bump_pos (by simp) hu
    obtain ⟨-, h1, -, hno, hv, htype⟩ := h.lock bump_pos hlock
    have hlook := h1.lookup_returns ht bump_pos hv (hno ▸ hdir) elem
    rw [hno, hfound] at hlook
    obtain ⟨q, t1, hget⟩ := h1.get_returns hm.1
    have h2 := (h1.get hget).1
    rw [bump_comm] at h2
    obtain ⟨t2, hunlock⟩ := h2.unlock_returns bump_pos
    obtain ⟨hlive, hgone⟩ := h₀.goOn h1 hv hget hunlock
    have hput : Runs (inodePut sblock true p) t2 () (t2.dropped p) := put_keeps hlive
    obtain ⟨h3, hqno⟩ := hgone _ hput
    have hlen : rest.length < fuel := by
      have := length_skipelem hpath
      omega
    obtain ⟨r', s', hrun⟩ := ih hm h3 hqno hlen
    refine ⟨r', s', ?_⟩
    unfold Fs.namexFrom
    rw [hpath]
    refine runs_bind.mpr ⟨_, t, hlock, runs_bind.mpr ⟨t, t, runs_get.mpr ⟨rfl, rfl⟩, ?_⟩⟩
    rw [htype]
    refine runs_ite.mpr (.inr ⟨not_not.mpr hdir, ?_⟩)
    refine runs_ite.mpr (.inr ⟨fun hc => hstop (.inl hc), ?_⟩)
    refine runs_ite.mpr (.inr ⟨fun hc => hstop (.inr hc), ?_⟩)
    refine runs_bind.mpr ⟨_, t, hlook, runs_bind.mpr ⟨_, t, hlook, ?_⟩⟩
    refine runs_bind.mpr ⟨q, t1, hget, runs_bind.mpr ⟨_, t2, hunlock, ?_⟩⟩
    exact runs_bind.mpr ⟨_, _, hput, hrun⟩

end FtosFfs.Fs
