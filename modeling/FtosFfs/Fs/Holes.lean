import FtosFfs.Fs.Ops
import FtosFfs.Fs.Fits

/-! No file has a hole below its size, over the runs of the inode layer on an image of `mkfs`, unless
the entries of the root directory fill its blocks exactly. -/

namespace FtosFfs.Fs

open Lib Lib.Exec Cache

variable {s s' : State} {ctx : Bool} {p : Ptr} {n m : Nat} {u : Unit} {dirty : Set Nat}
  {E E' : Nat → InodeEntry} {d d' : Nat → BlockData}

/-! ### Holes -/

/-- Every block of a file below its size is there when every byte below it has a block. -/
theorem filled_iff {size : Nat} : Filled n 0 size E d ↔
    ∀ i < (size + blockSize - 1) / blockSize, ref E d (n, place i) ≠ 0 := by
  constructor
  · intro h i hi
    have hi' : i < (size + 512 - 1) / 512 := hi
    have hb := h (i * blockSize) (Nat.zero_le _) (by show i * 512 < size; omega)
    rwa [Nat.mul_div_cancel i (by decide)] at hb
  · intro h i _ hi
    refine h _ ?_
    show i / 512 < (size + 512 - 1) / 512
    omega

theorem Filled.mono {size size' : Nat} (h : Filled n 0 size E d)
    (href : ∀ k, ref E d (n, place k) ≠ 0 → ref E' d' (n, place k) ≠ 0) (hle : size' ≤ size) :
    Filled n 0 size' E' d' :=
  fun i h0 hi => href _ (h i h0 (by omega))

/-- The slots of an inode whose entry and table are as before. -/
theorem ref_sameEntry (ho : BlocksOwned (diskEntry d) d) (hsame : ∀ c, IsData c → d' c = d c)
    (he : diskEntry d' m = diskEntry d m) (pl : Place) :
    ref (diskEntry d') d' (m, pl) = ref (diskEntry d) d (m, pl) := by
  have hu : InUse (diskEntry d') m ↔ InUse (diskEntry d) m := by rw [InUse, InUse, he]
  simp only [ref]
  by_cases hm : InUse (diskEntry d) m
  · rw [if_pos hm, if_pos (hu.mpr hm), he]
    exact congrFun (blockOf_congr fun h0 => hsame _ (ho.isData_table hm h0)) pl
  · rw [if_neg hm, if_neg fun h => hm (hu.mp h)]

/-- The files on disk have blocks for all bytes below their sizes, the entries in memory have the
sizes on disk, and `used_block` is exact. -/
structure Whole (s : State) : Prop where
  cached : Cached Set.univ s
  used : UsedExact s.disk s.usedBlock
  size : ∀ p ∈ s.list, (s.mem p).valid = true →
    (s.mem p).entry.numBytes = (diskEntry s.disk (s.mem p).inodeNo).numBytes
  filled : ∀ n, InUse (diskEntry s.disk) n →
    Filled n 0 (diskEntry s.disk n).numBytes.toNat (diskEntry s.disk) s.disk

namespace Whole

/-- A step that leaves the disk as it is. -/
theorem sameDisk (h : Whole s) (hc : Cached Set.univ s') (hd : s'.disk = s.disk)
    (hu : s'.usedBlock = s.usedBlock)
    (hsize : ∀ p ∈ s'.list, (s'.mem p).valid = true →
      (s'.mem p).entry.numBytes = (diskEntry s.disk (s'.mem p).inodeNo).numBytes) : Whole s' := by
  refine ⟨hc, by rw [hd, hu]; exact h.used, by rw [hd]; exact hsize, ?_⟩
  rw [hd]
  exact h.filled

/-- A change of one object that leaves the disk as it is. -/
theorem setInode (h : Whole s) {ip : Inode} (hc : Cached Set.univ (s.setInode p ip))
    (hno : ip.inodeNo = (s.mem p).inodeNo)
    (hsize : ip.valid = true → ip.entry.numBytes = (diskEntry s.disk ip.inodeNo).numBytes) :
    Whole (s.setInode p ip) := by
  refine h.sameDisk hc rfl rfl fun q hq hv => ?_
  by_cases hqp : q = p
  · subst hqp
    rw [State.mem_setInode_same] at hv ⊢
    exact hsize hv
  · rw [State.mem_setInode_ne _ hqp] at hv ⊢
    exact h.size q hq hv

/-- A change of inode `n` on disk, and of the object at `p` if it is the one of inode `n`. -/
theorem change (h : Whole s) (hc : Cached Set.univ s') (hu : UsedExact s'.disk s'.usedBlock)
    (hlist : ∀ q ∈ s'.list, q ∈ s.list ∧ (q = p ∨ s'.mem q = s.mem q))
    (hp : p ∈ s'.list → (s'.mem p).valid = true →
      (s'.mem p).entry.numBytes = (diskEntry s'.disk (s'.mem p).inodeNo).numBytes)
    (hno : ∀ q ∈ s.list, q ≠ p → (s.mem q).inodeNo ≠ n)
    (hentries : ∀ m, IsInode m → m ≠ n → diskEntry s'.disk m = diskEntry s.disk m)
    (hfilled : ∀ m, InUse (diskEntry s.disk) m → m ≠ n → ∀ k,
      ref (diskEntry s.disk) s.disk (m, place k) ≠ 0 →
      ref (diskEntry s'.disk) s'.disk (m, place k) ≠ 0)
    (hn : InUse (diskEntry s'.disk) n →
      Filled n 0 (diskEntry s'.disk n).numBytes.toNat (diskEntry s'.disk) s'.disk) : Whole s' := by
  refine ⟨hc, hu, fun q hq hv => ?_, fun m hm => ?_⟩
  · by_cases hqp : q = p
    · subst hqp
      exact hp hq hv
    · obtain ⟨hqs, hmem⟩ := hlist q hq
      rw [hmem.resolve_left hqp] at hv ⊢
      rw [hentries _ (h.cached.list.isInode q hqs) (hno q hqs hqp)]
      exact h.size q hqs hv
  · by_cases hmn : m = n
    · subst hmn
      exact hn hm
    · have he := hentries m hm.1 hmn
      have hm' : InUse (diskEntry s.disk) m := ⟨hm.1, he ▸ hm.2⟩
      rw [he]
      exact (h.filled m hm').mono (hfilled m hm' hmn) (Nat.le_refl _)

/-- The object of an inode other than the one at `p` has another number. -/
theorem ne_of_ne (h : Whole s) (hp : p ∈ s.list) (q : Ptr) (hq : q ∈ s.list) (hqp : q ≠ p) :
    (s.mem q).inodeNo ≠ (s.mem p).inodeNo :=
  fun heq => hqp (h.cached.list.inj q hq p hp heq)

theorem claimed {type : UInt16} (h : Whole s) (hc : Claimed type n s s') : Whole s' := by
  have hdata (c : Nat) (hd : IsData c) : s'.disk c = s.disk c := hc.sameData c hd.not_inodes
  have hentries (m : Nat) (hm : IsInode m) (hmn : m ≠ n) : diskEntry s'.disk m = diskEntry s.disk m :=
    (hc.entries hm).trans (if_neg hmn)
  refine ⟨h.cached.claimed hc, hc.frame.used h.used, fun q hq hv => ?_, fun m hm => ?_⟩
  · rw [hc.frame.list] at hq
    rw [hc.frame.mem] at hv ⊢
    have hqn : (s.mem q).inodeNo ≠ n := fun heq =>
      ((h.cached.inode q hq).inUse hv).2 (heq ▸ hc.free)
    rw [hentries _ (h.cached.list.isInode q hq) hqn]
    exact h.size q hq hv
  · by_cases hmn : m = n
    · have hsize : (diskEntry s'.disk m).numBytes.toNat = 0 := by
        rw [hc.entries hm.1, if_pos hmn]
        rfl
      rw [hsize]
      exact .nothing (Nat.le_refl _)
    · have he := hentries m hm.1 hmn
      have hm' : InUse (diskEntry s.disk) m := ⟨hm.1, he ▸ hm.2⟩
      rw [he]
      refine (h.filled m hm').mono (fun k hk => ?_) (Nat.le_refl _)
      rwa [ref_sameEntry h.cached.owned hdata he]

/-- `inode_sync` stores an entry with the block numbers and the size that are on disk. -/
theorem inodeSync (h : Whole s) (hp : p ∈ s.list) (hv : (s.mem p).valid = true)
    (hr : Runs (inodeSync sblock ctx p true) s u s') : Whole s' := by
  have hn := h.cached.list.isInode p hp
  obtain ⟨hc, hframe, c, rfl⟩ := h.cached.inodeSync hp hv hr
  have hentry (m : Nat) (hm : IsInode m) := diskEntry_storeEntry (d := s.disk)
    (e := (s.mem p).entry) hn hm
  have hself := (hentry _ hn).trans (if_pos rfl)
  have hblocks (m : Nat) (hm : IsInode m) : SameBlocks (diskEntry s.disk m)
      (diskEntry (storeEntry s.disk (s.mem p).inodeNo (s.mem p).entry) m) := by
    rw [hentry m hm]
    split
    case isTrue hmn =>
      rw [hmn]
      exact (h.cached.inode p hp).same hv
    case isFalse => exact .refl _
  have hdata := sameData_storeEntry (d := s.disk) (e := (s.mem p).entry) hn
  have href : ref (diskEntry (storeEntry s.disk (s.mem p).inodeNo (s.mem p).entry))
      (storeEntry s.disk (s.mem p).inodeNo (s.mem p).entry) = ref (diskEntry s.disk) s.disk := by
    rw [ref_sameBlocks hblocks, hdata.ref h.cached.owned]
  refine h.change (n := (s.mem p).inodeNo) (p := p) (hc.mono (Set.subset_univ _))
    (hdata.usedExact h.used) (fun q hq => ⟨hq, .inr rfl⟩) ?_ (h.ne_of_ne hp) ?_ ?_ ?_
  · intro _ _
    exact congrArg InodeEntry.numBytes hself.symm
  · exact fun m hm hmn => (hentry m hm).trans (if_neg hmn)
  · intro m _ _ k hk
    rwa [href]
  · intro _
    have hsize := h.size p hp hv
    have hu := (h.cached.inode p hp).inUse hv
    refine (h.filled _ hu).mono (fun k hk => by rwa [href]) (Nat.le_of_eq ?_)
    rw [hself, hsize]

theorem inodeClear (h : Whole s) (hp : p ∈ s.list) (hv : (s.mem p).valid = true)
    (hr : Runs (inodeClear sblock ctx p) s u s') : Whole s' := by
  obtain ⟨hc, hdone⟩ := h.cached.inodeClear hp hv hr
  have hn := h.cached.list.isInode p hp
  have hself := (hdone.entries _ hn).trans (if_pos rfl)
  have hinode := hdone.frame.inode
  have hlist : s'.list = s.list := hdone.frame.list
  refine h.change (n := (s.mem p).inodeNo) (p := p) (hc.mono (Set.subset_univ _))
    (hdone.frame.used h.used) ?_ ?_ (h.ne_of_ne hp) ?_ ?_ ?_
  · intro q hq
    rw [hlist] at hq
    refine ⟨hq, ?_⟩
    by_cases hqp : q = p
    · exact .inl hqp
    · exact .inr (hdone.frame.other hqp)
  · intro _ _
    rw [hinode, hself]
  · exact fun m hm hmn => (hdone.entries m hm).trans (if_neg hmn)
  · intro m hm hmn k hk
    rwa [ref_sameEntry h.cached.owned (fun c hd => hdone.same c hd.not_bitmap hd.not_inodes)
      ((hdone.entries m hm.1).trans (if_neg hmn))]
  · intro _
    rw [hself]
    exact .nothing (Nat.le_refl _)

theorem ref_view (h : Whole s) (hp : p ∈ s.list) (hv : (s.mem p).valid = true) :
    ref (s.view p) s.disk = ref (diskEntry s.disk) s.disk :=
  congrFun (h.cached.ref_view hp hv) s.disk

/-- A write keeps the blocks that files have, and puts blocks where it writes. -/
theorem writeDone (h : Whole s) (hp : p ∈ s.list) (hv : (s.mem p).valid = true)
    {src : Nat → UInt8} {off count : Nat} {e' : InodeEntry}
    (hw : WriteDone p (s.mem p).inodeNo src off count (s.view p) s s' e')
    (hc : Cached Set.univ s') : Whole s' := by
  have hn := h.cached.list.isInode p hp
  have hsize := h.size p hp hv
  have hlist : s'.list = s.list := hw.frame.list
  have hinode := hw.frame.inode
  have hgrown : e'.numBytes = grownSize (s.mem p).entry off count := hw.fields.numBytes
  have hdisk : (diskEntry s'.disk (s.mem p).inodeNo).numBytes = e'.numBytes := by
    rcases hw.synced with hs | ⟨-, he, hs⟩
    · rw [hs]
    · rw [hs, he, hsize]
  have hview := h.ref_view hp hv
  have href : ref (diskEntry s'.disk) s'.disk =
      ref (Function.update (s.view p) (s.mem p).inodeNo e') s'.disk :=
    ref_sameBlocks fun m hm => h.cached.sameBlocks_write hp hv hw hm
  have hkept (m k : Nat) (hk : ref (diskEntry s.disk) s.disk (m, place k) ≠ 0) :
      ref (diskEntry s'.disk) s'.disk (m, place k) ≠ 0 := by
    rw [← hview] at hk
    rwa [href, hw.wrote.refs m k hk]
  refine h.change (n := (s.mem p).inodeNo) (p := p) hc (hw.frame.used h.used) ?_ ?_ (h.ne_of_ne hp)
    hw.entries ?_ ?_
  · intro q hq
    rw [hlist] at hq
    refine ⟨hq, ?_⟩
    by_cases hqp : q = p
    · exact .inl hqp
    · exact .inr (hw.frame.other hqp)
  · intro _ _
    rw [hinode, hdisk]
  · exact fun m _ _ k hk => hkept m k hk
  · intro _ i _ hi
    have hu := (h.cached.inode p hp).inUse hv
    rw [hdisk, hgrown] at hi
    by_cases hold : i < (s.mem p).entry.numBytes.toNat
    · rw [hsize] at hold
      exact hkept _ _ (h.filled _ hu i (Nat.zero_le _) hold)
    · have hmax : off + count ≤ 71680 := hw.bound.2
      have hi' : i < off + count := by
        unfold grownSize at hi
        split at hi
        case isTrue => rwa [UInt32.toNat_ofNat', Nat.mod_eq_of_lt (by omega)] at hi
        case isFalse => exact absurd hi hold
      rw [href]
      exact hw.filled h.used i (by have := hw.bound.1; omega) hi'

theorem inodeWrite (h : Whole s) (hp : p ∈ s.list) (hv : (s.mem p).valid = true)
    {src : Nat → UInt8} {off count r : Nat} (hr : Runs (inodeWrite sblock ctx p src off count) s r s') :
    Whole s' := by
  by_cases hdev : (s.mem p).entry.type = inodeDevice
  · obtain ⟨-, rfl⟩ := h.cached.inodeWrite_device hp hdev hr
    exact h
  · obtain ⟨-, hc, -, e', hw⟩ := h.cached.inodeWrite hp hv hdev hr
    exact h.writeDone hp hv hw hc

theorem inodePut (h : Whole s) (hp : p ∈ s.list) (hr : Runs (inodePut sblock ctx p) s u s') :
    Whole s' := by
  have hput := h.cached.inodePut hp hr
  rcases h.cached.inodePut_spec hp hr with ⟨-, rfl⟩ | ⟨hl, -, -, t, hd, rfl⟩
  · refine h.sameDisk hput.1 rfl rfl fun q hq hv => ?_
    have hqs : q ∈ s.list := State.mem_list_of_dropped hq
    by_cases hqp : q = p
    · subst hqp
      rw [State.mem_dropped_same] at hv ⊢
      exact h.size q hqs hv
    · rw [hput.2 q hqp] at hv ⊢
      exact h.size q hqs hv
  · obtain ⟨-, hlist, hother⟩ := h.cached.freed hp hl hd
    have hn := h.cached.list.isInode p hp
    have hself : diskEntry (t.dropped p).disk (s.mem p).inodeNo = _ :=
      (hd.entries _ hn).trans (if_pos rfl)
    have hentries (m : Nat) (hm : IsInode m) (hmn : m ≠ (s.mem p).inodeNo) :
        diskEntry (t.dropped p).disk m = diskEntry s.disk m := (hd.entries m hm).trans (if_neg hmn)
    have hnot : p ∉ (t.dropped p).list := by
      rw [hlist]
      exact h.cached.list.nodup.not_mem_erase
    refine h.change (n := (s.mem p).inodeNo) (p := p) hput.1 (hd.frame.used h.used) ?_
      (fun hp' => absurd hp' hnot) (h.ne_of_ne hp) hentries ?_ ?_
    · intro q hq
      have hqp : q ≠ p := by
        rintro rfl
        exact hnot hq
      rw [hlist] at hq
      exact ⟨List.mem_of_mem_erase hq, .inr (hother q hqp)⟩
    · have hdata (c : Nat) (hdc : IsData c) : (t.dropped p).disk c = s.disk c :=
        hd.same c hdc.not_bitmap hdc.not_inodes
      intro m hm hmn k hk
      rwa [ref_sameEntry h.cached.owned hdata (hentries m hm.1 hmn)]
    · intro hu
      exact absurd (by rw [hself]; rfl) hu.2

theorem inodeGet (h : Whole s) (hr : Runs (inodeGet sblock n) s p s') : Whole s' := by
  have hc := (h.cached.inodeGet hr).1
  obtain ⟨-, ⟨hp, -, rfl⟩ | ⟨-, rfl, rfl⟩⟩ := (runs_inodeGet h.cached.list).mp hr
  · exact h.setInode hc rfl (h.size p hp)
  · refine h.sameDisk hc rfl rfl fun q hq hv => ?_
    by_cases hqf : q = s.fresh
    · subst hqf
      simp [State.newInode] at hv
    · have hq' : q ∈ s.list := (List.mem_cons.mp hq).resolve_left hqf
      simp only [Function.update_of_ne hqf] at hv ⊢
      exact h.size q hq' hv

theorem filled_view (h : Whole s) (hp : p ∈ s.list) (hv : (s.mem p).valid = true) :
    Filled (s.mem p).inodeNo 0 (s.mem p).entry.numBytes.toNat (s.view p) s.disk := by
  have hu := (h.cached.inode p hp).inUse hv
  rw [h.size p hp hv]
  exact (h.filled _ hu).congr (h.ref_view hp hv)

/-- The size of an inode is the one on disk. -/
theorem numBytes_entryOf (h : Whole s) (n : Nat) :
    (s.entryOf n).numBytes = (diskEntry s.disk n).numBytes := by
  unfold State.entryOf
  split
  case h_1 p hf =>
    have hp := List.mem_of_find?_eq_some hf
    have hpm := List.find?_some hf
    simp only [Bool.and_eq_true, decide_eq_true_eq] at hpm
    obtain ⟨hv, rfl⟩ := hpm
    exact h.size p hp hv
  case h_2 => rfl

/-! ### Reads -/

/-- A read within the file of a loaded inode returns. -/
theorem inodeRead_returns (h : Whole s) (hp : p ∈ s.list) (hv : (s.mem p).valid = true)
    (hdev : (s.mem p).entry.type ≠ inodeDevice) {dest : Nat → UInt8} {off count : Nat}
    (hoff : off ≤ s.size p) : ∃ r, Runs (inodeRead sblock p dest off count) s r s := by
  have hf := h.filled_view hp hv
  refine Fs.inodeRead_returns State.view_self (h.cached.inUse_view hp hv) h.cached.held ?_ ?_ ?_
  · rwa [State.view_self]
  · rwa [State.view_self]
  · intro i _ hi
    rw [State.view_self] at hi
    unfold readCount at hi
    exact hf i (Nat.zero_le _) (by unfold State.size at hoff; omega)

/-- A search through the entries of a directory returns. -/
theorem scan_returns (h : Whole s) (hp : p ∈ s.list) (hv : (s.mem p).valid = true)
    (hdir : (s.mem p).entry.type = inodeDirectory) (hit : DirEntry → Bool) :
    ∃ r, Runs (scan sblock p false hit ((s.size p + 15) / 16) 0 DirEntry.zero) s r s := by
  refine Fs.scan_returns State.view_self (h.cached.inUse_view hp hv) (h.cached.owned_view hp hv)
    h.cached.held ?_ ?_ ?_ nofun
  · rw [State.view_self]
    exact Cached.ne_device hdir
  · rw [State.view_self]
    exact h.filled_view hp hv
  · intro hk
    rw [State.view_self]
    unfold State.size at hk ⊢
    omega

end Whole

/-! ### Runs -/

/-- Every operation of the inode layer keeps the files free of holes. -/
theorem InodeOp.whole {op : InodeOp} (h : Whole s) (ha : op.Allowed s) (hr : Runs op.exec s u s') :
    Whole s' := by
  have hc := op.cached h.cached ha hr
  cases op with
  | beginOp =>
    obtain ⟨h1, -, h3, h4, -, h6⟩ := runs_cacheBeginOp hr
    refine h.sameDisk hc h1 h6 ?_
    rw [h3, h4]
    exact h.size
  | endOp =>
    obtain ⟨h1, -, h3, h4, -, h6⟩ := runs_cacheEndOp hr
    refine h.sameDisk hc h1 h6 ?_
    rw [h3, h4]
    exact h.size
  | alloc ctx type =>
    obtain ⟨n, hr⟩ := runs_discard hr
    rcases (inodeAlloc_spec hr).2 with ⟨-, rfl⟩ | hclaim
    · exact h
    · exact h.claimed hclaim
  | allocGroup ctx type gno =>
    obtain ⟨n, hr⟩ := runs_discard hr
    rcases (inodeAllocGroup_spec hr).2 with ⟨-, rfl⟩ | hclaim
    · exact h
    · exact h.claimed hclaim
  | get n =>
    obtain ⟨p, hr⟩ := runs_discard hr
    exact h.inodeGet hr
  | share p =>
    obtain ⟨q, hr⟩ := runs_discard hr
    simp only [inodeShare, Fs.incrementRc, runs_bind, runs_modifyInode, runs_pure] at hr
    obtain ⟨_, _, rfl, -, rfl⟩ := hr
    exact h.setInode hc rfl (h.size p ha)
  | lock p =>
    obtain ⟨-, -, -, -, rfl⟩ := runs_inodeLock.mp hr
    refine h.setInode hc rfl fun _ => ?_
    show (s.loaded p).numBytes = _
    unfold State.loaded
    split
    case isTrue hv => exact h.size p ha hv
    case isFalse => rfl
  | unlock p =>
    obtain ⟨-, -, rfl⟩ := runs_inodeUnlock.mp hr
    exact h.setInode hc rfl (h.size p ha)
  | setFields p major minor numLinks =>
    rw [exec, runs_modifyEntry] at hr
    subst hr
    exact h.setInode hc rfl (h.size p ha.1)
  | sync ctx p doWrite =>
    have hv := (h.cached.inode p ha.1).locked ha.2
    cases doWrite with
    | true => exact h.inodeSync ha.1 hv hr
    | false =>
      obtain ⟨-, rfl⟩ := (runs_inodeSync_read hv).mp hr
      exact h
  | clear ctx p => exact h.inodeClear ha.1 ((h.cached.inode p ha.1).locked ha.2) hr
  | write ctx p src off count =>
    obtain ⟨r, hr⟩ := runs_discard hr
    exact h.inodeWrite ha.1 ((h.cached.inode p ha.1).locked ha.2) hr
  | insert ctx p name n =>
    obtain ⟨r, hr⟩ := runs_discard hr
    have hv := (h.cached.inode p ha.1).locked ha.2
    obtain ⟨-, hc', -, e', hw⟩ := h.cached.inodeInsert ha.1 hv hr
    exact h.writeDone ha.1 hv hw hc'
  | remove ctx p index =>
    have hv := (h.cached.inode p ha.1).locked ha.2
    obtain ⟨-, hc', ⟨-, rfl⟩ | ⟨-, e', hw⟩⟩ := h.cached.inodeRemove ha.1 hv hr
    · exact h
    · exact h.writeDone ha.1 hv hw hc'
  | put ctx p => exact h.inodePut ha hr

/-- The files on disk have blocks for all bytes below their sizes. -/
def FilledDisk (d : Nat → BlockData) : Prop :=
  ∀ n, InUse (diskEntry d) n → Filled n 0 (diskEntry d n).numBytes.toNat (diskEntry d) d

theorem inodeOps_whole {image : (Nat → BlockData) → Prop}
    (himage : ∀ disk, image disk → BlocksOwned (diskEntry disk) disk ∧ FilledDisk disk)
    (hs : (inodeOps image).Reachable s) : Whole s := by
  refine hs.invariant ?_ ?_
  · rintro s ⟨disk, mem, root, hi, hr⟩
    obtain ⟨ho, hf⟩ := himage disk hi
    have hmount : Whole (mount sblock disk mem) :=
      ⟨cached_mount ho, usedExact_countUsed disk, by simp [mount], hf⟩
    exact hmount.inodeGet hr
  · intro s op s' h hn
    simp only [inodeOps, Option.ite_none_right_eq_some] at hn
    obtain ⟨ha, hn⟩ := hn
    obtain ⟨u, hr⟩ := after_eq_some.mp hn
    exact op.whole h ha hr

/-- Every inode in use that is no device has all blocks below its size. -/
def NoHoles (s : State) : Prop :=
  ∀ n, InUse s.entryOf n → (s.entryOf n).type ≠ inodeDevice →
    ∀ i < ((s.entryOf n).numBytes.toNat + blockSize - 1) / blockSize,
      ref s.entryOf s.disk (n, place i) ≠ 0

/-- The reads of loaded inodes and the searches of loaded directories return, a read where the end that it asks
for does not wrap around. -/
def ReadsReturn (s : State) : Prop :=
  ∀ p ∈ s.list, (s.mem p).valid = true →
    ((s.mem p).entry.type ≠ inodeDevice → ∀ dest off count, off ≤ s.size p → off + count < 2 ^ 64 →
      ∃ r, Runs (inodeRead sblock p dest off count) s r s) ∧
    ((s.mem p).entry.type = inodeDirectory → ∀ hit,
      ∃ r, Runs (scan sblock p false hit ((s.size p + 15) / 16) 0 DirEntry.zero) s r s)

theorem Whole.noHoles (h : Whole s) : NoHoles s := by
  intro n hu _
  rw [← filled_iff]
  have hblocks (m : Nat) (hm : IsInode m) := h.cached.sameBlocks_entryOf m
  have href : ref s.entryOf s.disk = ref (diskEntry s.disk) s.disk := ref_sameBlocks hblocks
  have hu' : InUse (diskEntry s.disk) n := ⟨hu.1, (hblocks n hu.1).type ▸ hu.2⟩
  rw [h.numBytes_entryOf]
  exact (h.filled n hu').congr href

theorem Whole.readsReturn (h : Whole s) : ReadsReturn s :=
  fun _ hp hv => ⟨fun hdev _ _ _ hoff _ => h.inodeRead_returns hp hv hdev hoff,
    fun hdir hit => h.scan_returns hp hv hdir hit⟩

/-! ### Images of `mkfs` -/

section

variable {inputs : List Mkfs.Input} {img : Mkfs.Image}

theorem length_rootEntries (inputs : List Mkfs.Input) :
    (Mkfs.rootEntries inputs).length = inputs.length + 2 := by
  simp only [Mkfs.rootEntries, List.length_append, Mkfs.length_inputEntries, Nat.add_comm]
  rfl

/-- The root directory has a block more than its entries take when these fill their blocks. -/
theorem root_blocks (hr : Runs (Mkfs.main inputs) Mkfs.blank u img) :
    ((diskEntry img.disk 1).numBytes.toNat + blockSize - 1) / blockSize =
      (inputs.length + 2) / 32 + 1 := by
  rw [(Mkfs.main_formatted hr).size, length_rootEntries]
  show ((16 * (inputs.length + 2) / 512 + 1) * 512 + 512 - 1) / 512 = (inputs.length + 2) / 32 + 1
  omega

theorem filledDisk_main (hr : Runs (Mkfs.main inputs) Mkfs.blank u img)
    (hne : (inputs.length + 2) % 32 ≠ 0) : FilledDisk img.disk := by
  have hh := Mkfs.main_holds hr
  have hroot := hh.root
  rw [List.length_map] at hroot
  intro n hu
  by_cases hn : n = 1
  · subst hn
    rw [filled_iff] at hroot ⊢
    intro i hi
    rw [root_blocks hr] at hi
    refine hroot i ?_
    show i < (16 * (inputs.length + 2) + 512 - 1) / 512
    omega
  · exact hh.filled n hu hn

/-- The inode layer right after it is mounted. -/
theorem init_mounted (disk : Nat → BlockData) : ∃ s, (inodeOps (· = disk)).init s ∧ s.disk = disk ∧
    s.entryOf = diskEntry disk := by
  let mem : Ptr → Inode := fun _ => ⟨false, 0, 0, false, InodeEntry.zero⟩
  have hl : ListOk (mount sblock disk mem) := by
    refine ⟨List.nodup_nil, ?_, ?_, ?_, ?_⟩ <;> simp [mount]
  have hget := (runs_inodeGet (p := (mount sblock disk mem).fresh) hl).mpr
    ⟨Mkfs.isInode_one, .inr ⟨by simp [mount], rfl, rfl⟩⟩
  refine ⟨_, ⟨disk, mem, _, rfl, hget⟩, rfl, ?_⟩
  funext n
  unfold State.entryOf
  simp [mount, State.newInode]

/-- The root directory has a hole when its entries fill their blocks. -/
theorem hole_main (hr : Runs (Mkfs.main inputs) Mkfs.blank u img)
    (heq : (inputs.length + 2) % 32 = 0) :
    ∃ s, (inodeOps (· = img.disk)).Reachable s ∧ ¬NoHoles s := by
  obtain ⟨s, hinit, hdisk, hentry⟩ := init_mounted img.disk
  have hf := Mkfs.main_formatted hr
  have hbeyond := (Mkfs.main_holds hr).rootBeyond ((inputs.length + 2) / 32) (by
    rw [List.length_map]
    show 16 * (inputs.length + 2) ≤ (inputs.length + 2) / 32 * 512
    omega)
  refine ⟨s, .init hinit, fun hn => ?_⟩
  unfold NoHoles at hn
  rw [hentry, hdisk] at hn
  refine hn 1 ⟨Mkfs.isInode_one, ?_⟩ ?_ ((inputs.length + 2) / 32) ?_ hbeyond
  · rw [hf.type]
    decide
  · rw [hf.type]
    decide
  · rw [root_blocks hr]
    omega

/-- On an image of `mkfs`, the files stay free of holes, and reads and searches never meet an unmapped
block, exactly when the entries of the root directory do not fill their blocks. -/
theorem inodeOps_noHoles_iff (hr : Runs (Mkfs.main inputs) Mkfs.blank u img) :
    (∀ s, (inodeOps (· = img.disk)).Reachable s → NoHoles s ∧ ReadsReturn s) ↔
      (inputs.length + 2) % 32 ≠ 0 := by
  constructor
  · intro h heq
    obtain ⟨s, hs, hn⟩ := hole_main hr heq
    exact hn (h s hs).1
  · intro hne s hs
    have himage (disk : Nat → BlockData) (hd : disk = img.disk) :
        BlocksOwned (diskEntry disk) disk ∧ FilledDisk disk := by
      subst hd
      exact ⟨(Mkfs.main_formatted hr).owned, filledDisk_main hr hne⟩
    have hw := inodeOps_whole himage hs
    exact ⟨hw.noHoles, hw.readsReturn⟩

end

/-- With no input files, the two entries of the root directory leave room in its block. -/
theorem inodeOps_noHoles_none : ∃ img, Runs (Mkfs.main []) Mkfs.blank () img ∧
    ∀ s, (inodeOps (· = img.disk)).Reachable s → NoHoles s ∧ ReadsReturn s := by
  obtain ⟨img, hr⟩ : ∃ img, Runs (Mkfs.main []) Mkfs.blank () img :=
    Mkfs.main_returns (by decide) (by simp) (by decide)
  exact ⟨img, hr, (inodeOps_noHoles_iff hr).mpr (by decide)⟩

/-- The root directory of an image with 30 empty files has a hole. -/
theorem inodeOps_hole_thirty : ∃ inputs : List Mkfs.Input, inputs.length = 30 ∧
    ∃ img, Runs (Mkfs.main inputs) Mkfs.blank () img ∧
      ∃ s, (inodeOps (· = img.disk)).Reachable s ∧ ¬NoHoles s := by
  let inputs : List Mkfs.Input := (List.range 30).map fun i => ⟨[UInt8.ofNat (65 + i)], []⟩
  have hlen : inputs.length = 30 := by simp [inputs]
  obtain ⟨img, hr⟩ : ∃ img, Runs (Mkfs.main inputs) Mkfs.blank () img :=
    Mkfs.main_returns (by rw [hlen]; decide) (by simp [inputs]) (by rw [hlen]; decide)
  exact ⟨inputs, hlen, img, hr, hole_main hr (by rw [hlen])⟩

end FtosFfs.Fs
