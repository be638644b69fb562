import FtosFfs.Fs.Dir
import FtosFfs.Fs.BlockOps
import FtosFfs.Fs.Listing

/-! The inode operations in any order as a machine, and the ownership of blocks over its runs. -/

namespace FtosFfs.Fs

open Lib Lib.Exec Cache

/-- The operations of `InodeTree`, atomic operations, and the stores to `entry` of a locked inode
that `create` and `sys_unlink` make. -/
inductive InodeOp
  | beginOp
  | endOp
  | alloc (ctx : Bool) (type : UInt16)
  | allocGroup (ctx : Bool) (type : UInt16) (gno : Nat)
  | get (inodeNo : Nat)
  | share (p : Ptr)
  | lock (p : Ptr)
  | unlock (p : Ptr)
  | setFields (p : Ptr) (major minor numLinks : UInt16)
  | sync (ctx : Bool) (p : Ptr) (doWrite : Bool)
  | clear (ctx : Bool) (p : Ptr)
  | write (ctx : Bool) (p : Ptr) (src : Nat → UInt8) (offset count : Nat)
  | insert (ctx : Bool) (p : Ptr) (name : List UInt8) (inodeNo : Nat)
  | remove (ctx : Bool) (p : Ptr) (index : Nat)
  | put (ctx : Bool) (p : Ptr)

namespace InodeOp

/-- What the callers of the operations see to: the inode is referenced, and locked where `inode.h`
demands it. -/
def Allowed (s : State) : InodeOp → Prop
  | share p | lock p | unlock p | put _ p => p ∈ s.list
  | setFields p _ _ _ | sync _ p _ | clear _ p | write _ p _ _ _ | insert _ p _ _ | remove _ p _ =>
    p ∈ s.list ∧ (s.mem p).locked = true
  | _ => True

instance (s : State) : (op : InodeOp) → Decidable (op.Allowed s)
  | share _ | lock _ | unlock _ | put _ _ => inferInstanceAs (Decidable (_ ∈ _))
  | setFields _ _ _ _ | sync _ _ _ | clear _ _ | write _ _ _ _ _ | insert _ _ _ _ | remove _ _ _ =>
    inferInstanceAs (Decidable (_ ∧ _))
  | beginOp | endOp | alloc _ _ | allocGroup _ _ _ | get _ => inferInstanceAs (Decidable True)

def exec : InodeOp → M Unit
  | beginOp => cacheBeginOp
  | endOp => cacheEndOp
  | alloc ctx type => discard (inodeAlloc sblock ctx type)
  | allocGroup ctx type gno => discard (inodeAllocGroup sblock ctx type gno)
  | get inodeNo => discard (inodeGet sblock inodeNo)
  | share p => discard (inodeShare p)
  | lock p => inodeLock sblock p
  | unlock p => inodeUnlock p
  | setFields p major minor numLinks => modifyEntry p fun e => { e with major, minor, numLinks }
  | sync ctx p doWrite => inodeSync sblock ctx p doWrite
  | clear ctx p => inodeClear sblock ctx p
  | write ctx p src offset count => discard (inodeWrite sblock ctx p src offset count)
  | insert ctx p name inodeNo => discard (inodeInsert sblock ctx p name inodeNo)
  | remove ctx p index => inodeRemove sblock ctx p index
  | put ctx p => inodePut sblock ctx p

end InodeOp

/-- The inode layer after `init_inodes` on an image with property `image`. -/
def inodeOps (image : (Nat → BlockData) → Prop) : Machine State InodeOp where
  init s := ∃ disk mem root, image disk ∧ Runs (inodeGet sblock 1) (mount sblock disk mem) root s
  next s op := if op.Allowed s then after op.exec s else none

/-- The entry of inode `n`: the one in memory if the inode is loaded, the one on disk otherwise. -/
def State.entryOf (s : State) (n : Nat) : InodeEntry :=
  match s.list.find? fun p => (s.mem p).valid && decide ((s.mem p).inodeNo = n) with
  | some p => (s.mem p).entry
  | none => diskEntry s.disk n

variable {s s' : State} {u : Unit}

theorem Cached.sameBlocks_entryOf {dirty : Set Nat} (h : Cached dirty s) (m : Nat) :
    SameBlocks (diskEntry s.disk m) (s.entryOf m) := by
  unfold State.entryOf
  split
  case h_1 p hf =>
    have hp := List.mem_of_find?_eq_some hf
    have hpm := List.find?_some hf
    simp only [Bool.and_eq_true, decide_eq_true_eq] at hpm
    obtain ⟨hv, rfl⟩ := hpm
    exact (h.inode p hp).same hv
  case h_2 => exact .refl _

/-- The entry that `inode_lock` finds. -/
theorem Cached.loaded_eq {dirty : Set Nat} {p : Ptr} (h : Cached dirty s) (hp : p ∈ s.list) :
    s.loaded p = s.entryOf (s.mem p).inodeNo := by
  unfold State.entryOf
  split
  case h_1 q hf =>
    have hq := List.mem_of_find?_eq_some hf
    have hqm := List.find?_some hf
    simp only [Bool.and_eq_true, decide_eq_true_eq] at hqm
    obtain rfl := h.list.inj q hq p hp hqm.2
    exact if_pos hqm.1
  case h_2 hf =>
    have hv := List.find?_eq_none.mp hf p hp
    exact if_neg (by simpa using hv)

/-- The entry of a loaded inode is the one in memory. -/
theorem Cached.entryOf_loaded {dirty : Set Nat} {p : Ptr} (h : Cached dirty s) (hp : p ∈ s.list)
    (hv : (s.mem p).valid = true) : s.entryOf (s.mem p).inodeNo = (s.mem p).entry := by
  rw [← h.loaded_eq hp, State.loaded, if_pos hv]

/-- The entry of an inode that is not in memory is the one on disk. -/
theorem State.entryOf_disk {n : Nat} (h : ∀ p ∈ s.list, (s.mem p).inodeNo ≠ n) :
    s.entryOf n = diskEntry s.disk n := by
  unfold State.entryOf
  split
  case h_1 p hf =>
    have hpm := List.find?_some hf
    simp only [Bool.and_eq_true, decide_eq_true_eq] at hpm
    exact absurd hpm.2 (h p (List.mem_of_find?_eq_some hf))
  case h_2 => rfl

theorem Cached.owned_entryOf {dirty : Set Nat} (h : Cached dirty s) :
    BlocksOwned s.entryOf s.disk :=
  h.owned.resync (fun m _ => h.sameBlocks_entryOf m) fun _ _ => rfl

theorem cached_mount {disk : Nat → BlockData} {mem : Ptr → Inode} {dirty : Set Nat}
    (ho : BlocksOwned (diskEntry disk) disk) : Cached dirty (mount sblock disk mem) := by
  refine ⟨⟨List.nodup_nil, ?_, ?_, ?_, ?_⟩, rfl, ho, ?_⟩ <;> simp [mount]

/-- Every operation keeps the agreement of memory and disk up to fields other than block
numbers. -/
theorem InodeOp.cached {op : InodeOp} (h : Cached Set.univ s) (ha : op.Allowed s)
    (hr : Runs op.exec s u s') : Cached Set.univ s' := by
  have huniv {dirty : Set Nat} (h : Cached dirty s') : Cached Set.univ s' := h.mono (Set.subset_univ _)
  cases op with
  | beginOp =>
    obtain ⟨h1, h2, h3, h4, h5, -⟩ := runs_cacheBeginOp hr
    exact h.congr h1 h2 h3 h4 h5
  | endOp =>
    obtain ⟨h1, h2, h3, h4, h5, -⟩ := runs_cacheEndOp hr
    exact h.congr h1 h2 h3 h4 h5
  | alloc ctx type =>
    obtain ⟨n, hr⟩ := runs_discard hr
    rcases (inodeAlloc_spec hr).2 with ⟨-, rfl⟩ | hc
    · exact h
    · exact h.claimed hc
  | allocGroup ctx type gno =>
    obtain ⟨n, hr⟩ := runs_discard hr
    rcases (inodeAllocGroup_spec hr).2 with ⟨-, rfl⟩ | hc
    · exact h
    · exact h.claimed hc
  | get n =>
    obtain ⟨p, hr⟩ := runs_discard hr
    exact (h.inodeGet hr).1
  | share p =>
    obtain ⟨q, hr⟩ := runs_discard hr
    simp only [inodeShare, Fs.incrementRc, runs_bind, runs_modifyInode, runs_pure] at hr
    obtain ⟨_, _, rfl, -, rfl⟩ := hr
    exact h.incrementRc ha
  | lock p => exact (h.inodeLock ha hr).1
  | unlock p => exact (h.inodeUnlock ha hr).1
  | setFields p major minor numLinks =>
    rw [exec, runs_modifyEntry] at hr
    subst hr
    exact h.setEntry ha.1 ⟨rfl, rfl, rfl⟩ trivial
  | sync ctx p doWrite =>
    have hv := (h.inode p ha.1).locked ha.2
    cases doWrite with
    | true => exact huniv (h.inodeSync ha.1 hv hr).1
    | false =>
      obtain ⟨-, rfl⟩ := (runs_inodeSync_read hv).mp hr
      exact h
  | clear ctx p => exact huniv (h.inodeClear ha.1 ((h.inode p ha.1).locked ha.2) hr).1
  | write ctx p src off count =>
    obtain ⟨r, hr⟩ := runs_discard hr
    by_cases hdev : (s.mem p).entry.type = inodeDevice
    · obtain ⟨-, rfl⟩ := h.inodeWrite_device ha.1 hdev hr
      exact h
    · exact (h.inodeWrite ha.1 ((h.inode p ha.1).locked ha.2) hdev hr).2.1
  | insert ctx p name n =>
    obtain ⟨r, hr⟩ := runs_discard hr
    exact (h.inodeInsert ha.1 ((h.inode p ha.1).locked ha.2) hr).2.1
  | remove ctx p index => exact (h.inodeRemove ha.1 ((h.inode p ha.1).locked ha.2) hr).2.1
  | put ctx p => exact (h.inodePut ha hr).1

/-- Memory and disk agree in every state of the inode layer on an image whose blocks are owned. -/
theorem inodeOps_cached {image : (Nat → BlockData) → Prop}
    (himage : ∀ disk, image disk → BlocksOwned (diskEntry disk) disk)
    (hs : (inodeOps image).Reachable s) : Cached Set.univ s := by
  refine hs.invariant ?_ ?_
  · rintro s ⟨disk, mem, root, hi, hr⟩
    exact ((cached_mount (himage disk hi)).inodeGet hr).1
  · intro s op s' h hn
    simp only [inodeOps, Option.ite_none_right_eq_some] at hn
    obtain ⟨ha, hn⟩ := hn
    obtain ⟨u, hr⟩ := after_eq_some.mp hn
    exact op.cached h ha hr

/-- In every state of the inode layer on an image of `mkfs`, no block is in two slots of the inodes in
use, every block in a slot is in a data area, and the bitmap bits of the data areas are set for
exactly these blocks. -/
theorem inodeOps_blocks_owned (hs : (inodeOps Mkfs.Builds).Reachable s) :
    (∀ i j, ref s.entryOf s.disk i ≠ 0 → ref s.entryOf s.disk i = ref s.entryOf s.disk j → i = j) ∧
    (∀ i, ref s.entryOf s.disk i ≠ 0 → IsData (ref s.entryOf s.disk i)) ∧
    ∀ b, IsData b → (blockBit s.disk b = true ↔ ∃ i, ref s.entryOf s.disk i = b) := by
  have ho := (inodeOps_cached (fun _ => Mkfs.Builds.owned) hs).owned_entryOf
  exact ⟨ho.owns.distinct, ho.owns.inArea, ho.owns.exact⟩

/-- A byte written past the first block of the root directory of an empty image: the new block 70 is
in direct slot 1 of inode 1. -/
theorem inodeOps_blocks_owned_write : ∃ s, (inodeOps Mkfs.Builds).Reachable s ∧
    ref s.entryOf s.disk (1, .direct 1) = 70 ∧ IsData (ref s.entryOf s.disk (1, .direct 1)) ∧
    (blockBit s.disk 70 = true ↔ ∃ i, ref s.entryOf s.disk i = 70) := by
  let mem : Ptr → Inode := fun _ => ⟨false, 0, 0, false, InodeEntry.zero⟩
  let start : Option State := after (inodeGet sblock 1) (mount sblock Mkfs.emptyImage mem)
  have hrun : (start.bind fun s => ((inodeOps Mkfs.Builds).run s [.beginOp, .lock 0,
      .write true 0 (fun _ => 7) 512 1, .unlock 0, .endOp]).map fun s =>
        decide (ref s.entryOf s.disk (1, .direct 1) = 70)) = some true := by decide +kernel
  obtain ⟨s₀, hs₀, hrun⟩ := Option.bind_eq_some_iff.mp hrun
  obtain ⟨root, hroot⟩ := after_eq_some.mp hs₀
  have hinit : (inodeOps Mkfs.Builds).init s₀ := ⟨_, _, root, Mkfs.builds_emptyImage, hroot⟩
  obtain ⟨s, hs, h70⟩ := Machine.Reachable.of_run hinit hrun
  rw [decide_eq_true_eq] at h70
  obtain ⟨-, harea, hexact⟩ := inodeOps_blocks_owned hs
  have hd := harea (1, .direct 1) (by rw [h70]; decide)
  exact ⟨s, hs, h70, hd, hexact 70 (by rw [← h70]; exact hd)⟩

end FtosFfs.Fs
