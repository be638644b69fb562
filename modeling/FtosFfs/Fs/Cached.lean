import FtosFfs.Fs.InodeAlloc
import FtosFfs.Fs.Put
import FtosFfs.Fs.Read

/-! The in-memory inodes and the disk together: the entry of a loaded inode holds the block numbers
of its entry on disk, and equals it unless the inode is dirty.  What the calls of the inode layer
do to this arrangement. -/

namespace FtosFfs.Fs

open Lib Lib.Exec Cache

variable {s s' : State} {ctx : Bool} {p q : Ptr} {n m : Nat} {u : Unit} {dirty dirty' : Set Nat}

/-- An in-memory inode agrees with the disk `d`. -/
structure Inode.Ok (ip : Inode) (dirty : Set Nat) (d : Nat → BlockData) : Prop where
  locked : ip.locked = true → ip.valid = true
  inUse : ip.valid = true → InUse (diskEntry d) ip.inodeNo
  same : ip.valid = true → SameBlocks (diskEntry d ip.inodeNo) ip.entry
  clean : ip.valid = true → ip.inodeNo ∉ dirty → ip.entry = diskEntry d ip.inodeNo

/-- No block is held, every block is owned by the slot that holds its number, and the in-memory
inodes agree with the disk, those in `dirty` up to fields other than block numbers. -/
structure Cached (dirty : Set Nat) (s : State) : Prop where
  list : ListOk s
  held : s.held = []
  owned : BlocksOwned (diskEntry s.disk) s.disk
  inode : ∀ p ∈ s.list, (s.mem p).Ok dirty s.disk

/-- The entries on disk, but for the inode at `p` its entry in memory. -/
def State.view (s : State) (p : Ptr) : Nat → InodeEntry :=
  Function.update (diskEntry s.disk) (s.mem p).inodeNo (s.mem p).entry

@[simp] theorem State.view_self : s.view p (s.mem p).inodeNo = (s.mem p).entry :=
  Function.update_self ..

theorem Inode.Ok.congr {ip : Inode} {d d' : Nat → BlockData} (h : ip.Ok dirty d)
    (he : diskEntry d' ip.inodeNo = diskEntry d ip.inodeNo)
    (hd : ip.inodeNo ∈ dirty → ip.inodeNo ∈ dirty') : ip.Ok dirty' d' := by
  constructor
  case locked => exact h.locked
  case inUse =>
    intro hv
    refine ⟨(h.inUse hv).1, ?_⟩
    rw [he]
    exact (h.inUse hv).2
  case same => exact fun hv => by rw [he]; exact h.same hv
  case clean => exact fun hv hn => by rw [he]; exact h.clean hv fun hm => hn (hd hm)

theorem Inode.Ok.sameBlocks_view (h : (s.mem p).Ok dirty s.disk) (hv : (s.mem p).valid = true)
    (m : Nat) : SameBlocks (diskEntry s.disk m) (s.view p m) := by
  unfold State.view
  rw [Function.update_apply]
  split
  case isTrue hm =>
    rw [hm]
    exact h.same hv
  case isFalse => exact .refl _

theorem Inode.eta_locked {ip : Inode} (hk : ip.locked = true) (hv : ip.valid = true) :
    { ip with locked := true, valid := true } = ip := by
  cases ip
  simp only at hk hv
  rw [hk, hv]

namespace Cached

/-- The entries of the disk and of one loaded inode own the blocks. -/
theorem owned_view (h : Cached dirty s) (hp : p ∈ s.list) (hv : (s.mem p).valid = true) :
    BlocksOwned (s.view p) s.disk :=
  h.owned.resync (fun m _ => (h.inode p hp).sameBlocks_view hv m) fun _ _ => rfl

theorem inUse_view (h : Cached dirty s) (hp : p ∈ s.list) (hv : (s.mem p).valid = true) :
    InUse (s.view p) (s.mem p).inodeNo := by
  have hu := (h.inode p hp).inUse hv
  refine ⟨hu.1, ?_⟩
  rw [((h.inode p hp).sameBlocks_view hv _).type]
  exact hu.2

theorem view_clean (h : Cached dirty s) (hp : p ∈ s.list) (hv : (s.mem p).valid = true)
    (hn : (s.mem p).inodeNo ∉ dirty) : s.view p = diskEntry s.disk := by
  rw [State.view, (h.inode p hp).clean hv hn, Function.update_eq_self]

theorem mono (h : Cached dirty s) (hd : dirty ⊆ dirty') : Cached dirty' s :=
  ⟨h.list, h.held, h.owned, fun p hp => (h.inode p hp).congr rfl fun hm => hd hm⟩

/-- The blocks of the files with the entry of one loaded inode are those on disk. -/
theorem ref_view (h : Cached dirty s) (hp : p ∈ s.list) (hv : (s.mem p).valid = true) :
    ref (s.view p) = ref (diskEntry s.disk) := by
  funext d
  exact ref_sameBlocks fun m _ => (h.inode p hp).sameBlocks_view hv m

/-- A change of one object and of its inode on disk. -/
theorem change (h : Cached dirty s) (hp : p ∈ s.list) {ip : Inode}
    (hf : OnBlocks (s.setInode p ip) s')
    (hno : ip.inodeNo = (s.mem p).inodeNo) (hrc : 0 < ip.rc)
    (hentries : ∀ m, IsInode m → m ≠ ip.inodeNo → diskEntry s'.disk m = diskEntry s.disk m)
    (ho : BlocksOwned (diskEntry s'.disk) s'.disk) (hip : ip.Ok dirty' s'.disk)
    (hd : ∀ m ∈ dirty, m ≠ ip.inodeNo → m ∈ dirty') : Cached dirty' s' := by
  have hlist : s'.list = s.list := hf.list
  have hmem (q : Ptr) : s'.mem q = if q = p then ip else s.mem q := by
    rw [hf.mem]
    exact Function.update_apply ..
  have hnos (q : Ptr) : (s'.mem q).inodeNo = (s.mem q).inodeNo := by
    rw [hmem]
    split
    case isTrue hq => rw [hq, hno]
    case isFalse => rfl
  constructor
  case list =>
    constructor
    case nodup => rw [hlist]; exact h.list.nodup
    case fresh => rw [hlist, hf.fresh]; exact h.list.fresh
    case rc =>
      intro q hq
      rw [hlist] at hq
      rw [hmem]
      split
      case isTrue => exact hrc
      case isFalse => exact h.list.rc q hq
    case isInode =>
      intro q hq
      rw [hlist] at hq
      rw [hnos]
      exact h.list.isInode q hq
    case inj =>
      intro q hq r hr hqr
      rw [hlist] at hq hr
      rw [hnos, hnos] at hqr
      exact h.list.inj q hq r hr hqr
  case held => rw [hf.held]; exact h.held
  case owned => exact ho
  case inode =>
    intro q hq
    rw [hlist] at hq
    rw [hmem]
    split
    case isTrue => exact hip
    case isFalse hqp =>
      have hne : (s.mem q).inodeNo ≠ ip.inodeNo :=
        fun heq => hqp (h.list.inj q hq p hp (heq.trans hno))
      exact (h.inode q hq).congr (hentries _ (h.list.isInode q hq) hne) fun hm => hd _ hm hne

/-- A change of one object that leaves the disk as it is. -/
theorem setInode (h : Cached dirty s) (hp : p ∈ s.list) {ip : Inode}
    (hno : ip.inodeNo = (s.mem p).inodeNo) (hrc : 0 < ip.rc) (hip : ip.Ok dirty s.disk) :
    Cached dirty (s.setInode p ip) :=
  h.change hp (.refl _) hno hrc (fun _ _ _ => rfl) h.owned hip fun _ hm _ => hm

/-- The object of an inode leaves the list, after a change of its inode on disk. -/
theorem remove (h : Cached dirty s) (hp : p ∈ s.list) (hlist : s'.list = s.list.erase p)
    (hmem : ∀ q, q ≠ p → s'.mem q = s.mem q) (hfresh : s'.fresh = s.fresh) (hheld : s'.held = s.held)
    (hentries : ∀ m, IsInode m → m ≠ (s.mem p).inodeNo →
      diskEntry s'.disk m = diskEntry s.disk m)
    (ho : BlocksOwned (diskEntry s'.disk) s'.disk) : Cached dirty s' := by
  have hsub (q : Ptr) (hq : q ∈ s'.list) : q ∈ s.list ∧ q ≠ p ∧ s'.mem q = s.mem q := by
    rw [hlist, h.list.nodup.mem_erase_iff] at hq
    exact ⟨hq.2, hq.1, hmem q hq.1⟩
  constructor
  case list =>
    constructor
    case nodup => rw [hlist]; exact h.list.nodup.erase p
    case fresh => exact fun q hq => by rw [hfresh]; exact h.list.fresh q (hsub q hq).1
    case rc =>
      intro q hq
      rw [(hsub q hq).2.2]
      exact h.list.rc q (hsub q hq).1
    case isInode =>
      intro q hq
      rw [(hsub q hq).2.2]
      exact h.list.isInode q (hsub q hq).1
    case inj =>
      intro q hq r hr hqr
      rw [(hsub q hq).2.2, (hsub r hr).2.2] at hqr
      exact h.list.inj q (hsub q hq).1 r (hsub r hr).1 hqr
  case held => rw [hheld]; exact h.held
  case owned => exact ho
  case inode =>
    intro q hq
    rw [(hsub q hq).2.2]
    have hne : (s.mem q).inodeNo ≠ (s.mem p).inodeNo :=
      fun heq => (hsub q hq).2.1 (h.list.inj q (hsub q hq).1 p hp heq)
    exact (h.inode q (hsub q hq).1).congr (hentries _ (h.list.isInode q (hsub q hq).1) hne) id

/-- A change of the log, the context, `used_block`, and the open files. -/
theorem congr (h : Cached dirty s) (hdisk : s'.disk = s.disk) (hheld : s'.held = s.held)
    (hlist : s'.list = s.list) (hmem : s'.mem = s.mem) (hfresh : s'.fresh = s.fresh) :
    Cached dirty s' := by
  obtain ⟨⟨h1, h2, h3, h4, h5⟩, h6, h7, h8⟩ := h
  rw [← hlist, ← hmem] at *
  rw [← hfresh] at h2
  rw [← hheld] at h6
  rw [← hdisk] at h7 h8
  exact ⟨⟨h1, h2, h3, h4, h5⟩, h6, h7, h8⟩

/-! ### The calls -/

theorem incrementRc (h : Cached dirty s) (hp : p ∈ s.list) :
    Cached dirty (s.setInode p { s.mem p with rc := (s.mem p).rc + 1 }) := by
  have hok := h.inode p hp
  refine h.setInode hp rfl ?_ ⟨hok.locked, hok.inUse, hok.same, hok.clean⟩
  have := h.list.rc p hp
  show 0 < (s.mem p).rc + 1
  omega

theorem inodeGet (h : Cached dirty s) (hr : Runs (inodeGet sblock n) s p s') :
    Cached dirty s' ∧ p ∈ s'.list ∧ (s'.mem p).inodeNo = n := by
  obtain ⟨hn, ⟨hp, hpn, rfl⟩ | ⟨hno, rfl, rfl⟩⟩ := (runs_inodeGet h.list).mp hr
  · exact ⟨h.incrementRc hp, hp, by simpa using hpn⟩
  · have hnew : Function.update s.mem s.fresh (s.newInode n) s.fresh = s.newInode n :=
      Function.update_self ..
    have hold (q : Ptr) (hq : q ∈ s.list) :
        Function.update s.mem s.fresh (s.newInode n) q = s.mem q :=
      Function.update_of_ne (Nat.ne_of_lt (h.list.fresh q hq)) ..
    refine ⟨⟨h.list.cons hn hno, h.held, h.owned, ?_⟩, by simp, by simp [State.newInode]⟩
    intro q hq
    rcases List.mem_cons.mp hq with rfl | hq
    · simp only [hnew]
      constructor <;> simp [State.newInode]
    · simp only [hold q hq]
      exact h.inode q hq

/-- The entry that `inode_lock` finds is one of an inode in use. -/
theorem lockedInode_ok (h : Cached dirty s) (hp : p ∈ s.list)
    (ht : (s.loaded p).type ≠ inodeInvalid) : (s.lockedInode p).Ok dirty s.disk := by
  have hok := h.inode p hp
  cases hv : (s.mem p).valid with
  | true =>
    have hl : s.loaded p = (s.mem p).entry := if_pos hv
    constructor
    case locked => exact fun _ => rfl
    case inUse => exact fun _ => hok.inUse hv
    case same => exact fun _ => by simp only [State.lockedInode, hl]; exact hok.same hv
    case clean => exact fun _ hn => by simp only [State.lockedInode, hl]; exact hok.clean hv hn
  | false =>
    have hl : s.loaded p = diskEntry s.disk (s.mem p).inodeNo := if_neg (by simp [hv])
    constructor
    case locked => exact fun _ => rfl
    case inUse => exact fun _ => ⟨h.list.isInode p hp, by rw [hl] at ht; exact ht⟩
    case same => exact fun _ => by simp only [State.lockedInode, hl]; exact .refl _
    case clean => exact fun _ _ => by simp only [State.lockedInode, hl]

theorem inodeLock (h : Cached dirty s) (hp : p ∈ s.list) (hr : Runs (inodeLock sblock p) s u s') :
    Cached dirty s' ∧ s' = s.setInode p (s.lockedInode p) := by
  obtain ⟨hrc, -, -, ht, rfl⟩ := runs_inodeLock.mp hr
  exact ⟨h.setInode hp rfl hrc (h.lockedInode_ok hp ht), rfl⟩

theorem inodeUnlock (h : Cached dirty s) (hp : p ∈ s.list) (hr : Runs (inodeUnlock p) s u s') :
    Cached dirty s' ∧ s' = s.setInode p { s.mem p with locked := false } := by
  obtain ⟨-, hrc, rfl⟩ := runs_inodeUnlock.mp hr
  have hok := h.inode p hp
  exact ⟨h.setInode hp rfl hrc ⟨(fun hk => nomatch hk), hok.inUse, hok.same, hok.clean⟩, rfl⟩

/-- A change of an entry in memory only, which leaves its block numbers as they are. -/
theorem setEntry (h : Cached dirty s) (hp : p ∈ s.list) {e : InodeEntry}
    (he : SameBlocks (s.mem p).entry e) (hd : (s.mem p).inodeNo ∈ dirty) :
    Cached dirty (s.setInode p { s.mem p with entry := e }) := by
  have hok := h.inode p hp
  refine h.setInode hp rfl (h.list.rc p hp) ⟨hok.locked, hok.inUse, fun hv => ?_, fun _ hn => absurd hd hn⟩
  have hs := hok.same hv
  exact ⟨he.type.trans hs.type, he.addrs.trans hs.addrs, he.indirect.trans hs.indirect⟩

/-- `inode_sync` makes the disk agree with the memory. -/
theorem inodeSync (h : Cached dirty s) (hp : p ∈ s.list) (hv : (s.mem p).valid = true)
    (hr : Runs (inodeSync sblock ctx p true) s u s') :
    Cached (dirty \ {(s.mem p).inodeNo}) s' ∧ OnEntry p (s.mem p).entry s s' ∧
      ∃ c, s' = { s with
        disk := storeEntry s.disk (s.mem p).inodeNo (s.mem p).entry, ctx := c } := by
  obtain ⟨-, c, -, rfl⟩ := (runs_inodeSync_write hv).mp hr
  have hok := h.inode p hp
  have hn := h.list.isInode p hp
  have hentries (m : Nat) (hm : IsInode m) := diskEntry_storeEntry (d := s.disk) (e := (s.mem p).entry) hn hm
  have hframe : OnEntry p (s.mem p).entry s { s with
      disk := storeEntry s.disk (s.mem p).inodeNo (s.mem p).entry, ctx := c } := by
    unfold OnEntry
    rw [State.setInode_self]
    exact ⟨rfl, rfl, rfl, rfl, rfl, rfl, rfl,
      (sameData_storeEntry hn).usedExact⟩
  have hself := hentries _ hn
  rw [if_pos rfl] at hself
  refine ⟨h.change hp hframe rfl (h.list.rc p hp) ?_ ?_ ?_ ?_, hframe, c, rfl⟩
  · intro m hm hmn
    rw [hentries m hm, if_neg hmn]
  · refine (h.owned_view hp hv).resync (fun m hm => ?_) (sameData_storeEntry hn)
    rw [hentries m hm, State.view, Function.update_apply]
    exact .refl _
  · constructor
    case locked => exact hok.locked
    case inUse =>
      intro _
      refine ⟨hn, ?_⟩
      rw [hself]
      rw [← State.view_self]
      exact (h.inUse_view hp hv).2
    case same => exact fun _ => by rw [hself]; exact .refl _
    case clean => exact fun _ _ => hself.symm
  · exact fun m hm hmn => ⟨hm, hmn⟩

/-- `inode_write` to a device leaves the state as it is. -/
theorem inodeWrite_device (h : Cached dirty s) (hp : p ∈ s.list) {src : Nat → UInt8}
    {off count r : Nat} (hdev : (s.mem p).entry.type = inodeDevice)
    (hr : Runs (inodeWrite sblock ctx p src off count) s r s') : r = count ∧ s' = s := by
  simp only [Fs.inodeWrite, runs_bind, runs_get] at hr
  obtain ⟨_, _, ⟨rfl, rfl⟩, hr⟩ := hr
  rw [if_pos hdev] at hr
  simp only [runs_bind, runs_require, runs_pure, runs_inodeUnlock, runs_inodeLock] at hr
  obtain ⟨_, _, ⟨-, rfl⟩, _, _, ⟨hk, hrc, rfl⟩, _, _, ⟨-, -, -, -, rfl⟩, rfl, rfl⟩ := hr
  refine ⟨rfl, ?_⟩
  have hv := (h.inode p hp).locked hk
  have hself : (s.setInode p { s.mem p with locked := false }).lockedInode p = s.mem p := by
    simp only [State.lockedInode, State.loaded, State.mem_setInode_same, hv, if_true]
    exact Inode.eta_locked hk hv
  rw [hself, State.setInode_setInode, State.setInode_self]

/-- The entries on disk after `inode_write` hold the block numbers that the inode has then. -/
theorem sameBlocks_write (h : Cached dirty s) (hp : p ∈ s.list) (hv : (s.mem p).valid = true)
    {src : Nat → UInt8} {off count : Nat} {e' : InodeEntry}
    (hw : WriteDone p (s.mem p).inodeNo src off count (s.view p) s s' e') (hm : IsInode m) :
    SameBlocks (Function.update (s.view p) (s.mem p).inodeNo e' m) (diskEntry s'.disk m) := by
  by_cases hmn : m = (s.mem p).inodeNo
  · rw [hmn, Function.update_self]
    rcases hw.synced with hs | ⟨-, he, hs⟩
    · rw [hs]
      exact .refl _
    · rw [hs, he]
      exact ((h.inode p hp).same hv).symm
  · rw [Function.update_of_ne hmn, State.view, Function.update_of_ne hmn, hw.entries m hm hmn]
    exact .refl _

/-- `inode_write` writes the entry back when the file grows, and otherwise unless nothing of it
changed. -/
theorem inodeWrite (h : Cached dirty s) (hp : p ∈ s.list) (hv : (s.mem p).valid = true)
    {src : Nat → UInt8} {off count r : Nat} (hdev : (s.mem p).entry.type ≠ inodeDevice)
    (hr : Runs (inodeWrite sblock ctx p src off count) s r s') :
    r = count ∧ Cached dirty s' ∧
      ((s.mem p).entry.numBytes.toNat < off + count → Cached (dirty \ {(s.mem p).inodeNo}) s') ∧
      ∃ e', WriteDone p (s.mem p).inodeNo src off count (s.view p) s s' e' := by
  have hn := h.inUse_view hp hv
  obtain ⟨rfl, e', hw⟩ := inodeWrite_spec hv rfl State.view_self hn (h.owned_view hp hv) hdev hr
  have hok := h.inode p hp
  have htype : e'.type = (s.mem p).entry.type := hw.fields.type
  have hsame : SameBlocks (diskEntry s'.disk (s.mem p).inodeNo) e' := by
    have hs := (h.sameBlocks_write hp hv hw hn.1).symm
    rwa [Function.update_self] at hs
  have hinUse : InUse (diskEntry s'.disk) (s.mem p).inodeNo := by
    refine ⟨hn.1, ?_⟩
    rw [← hsame.type, htype, ← State.view_self]
    exact hn.2
  have howned : BlocksOwned (diskEntry s'.disk) s'.disk :=
    hw.wrote.owned.resync (fun m hm => h.sameBlocks_write hp hv hw hm) fun _ _ => rfl
  refine ⟨rfl, ?_, fun hgrow => ?_, e', hw⟩
  · refine h.change hp hw.frame rfl (h.list.rc p hp) hw.entries howned ?_ fun _ hm _ => hm
    refine ⟨hok.locked, fun _ => hinUse, fun _ => hsame, fun _ hd => ?_⟩
    rcases hw.synced with hs | ⟨-, he, hs⟩
    · exact hs.symm
    · exact he.trans ((hok.clean hv hd).trans hs.symm)
  · refine h.change hp hw.frame rfl (h.list.rc p hp) hw.entries howned ?_ fun m hm hmn => ⟨hm, hmn⟩
    refine ⟨hok.locked, fun _ => hinUse, fun _ => hsame, fun _ _ => ?_⟩
    rcases hw.synced with hs | ⟨hle, -, -⟩
    · exact hs.symm
    · omega

theorem inodeClear (h : Cached dirty s) (hp : p ∈ s.list) (hv : (s.mem p).valid = true)
    (hr : Runs (inodeClear sblock ctx p) s u s') :
    Cached (dirty \ {(s.mem p).inodeNo}) s' ∧
      ClearDone ctx p (s.mem p).inodeNo (s.view p) s s' := by
  have hn := h.inUse_view hp hv
  have hc := inodeClear_spec hv rfl State.view_self hn (h.owned_view hp hv) hr
  have hok := h.inode p hp
  have hself := hc.entries _ hn.1
  rw [if_pos rfl] at hself
  refine ⟨h.change hp hc.frame rfl (h.list.rc p hp) ?_ ?_ ?_ fun m hm hmn => ⟨hm, hmn⟩, hc⟩
  · intro m hm hmn
    rw [hc.entries m hm, if_neg hmn]
  · refine hc.owned.resync (fun m hm => ?_) fun _ _ => rfl
    rw [hc.entries m hm, Function.update_apply]
    split
    case isTrue => exact .refl _
    case isFalse hmn =>
      rw [State.view, Function.update_of_ne hmn]
      exact .refl _
  · refine ⟨hok.locked, fun _ => ⟨hn.1, ?_⟩, fun _ => ?_, fun _ _ => hself.symm⟩
    · rw [hself]
      exact hn.2
    · rw [hself]
      exact .refl _

/-- `inode_alloc` does not touch the inodes in memory. -/
theorem claimed {type : UInt16} (h : Cached dirty s) (hc : Claimed type n s s') :
    Cached dirty s' := by
  constructor
  case list =>
    obtain ⟨h1, h2, h3, h4, h5⟩ := h.list
    rw [← hc.frame.list, ← hc.frame.mem] at *
    rw [← hc.frame.fresh] at h2
    exact ⟨h1, h2, h3, h4, h5⟩
  case held => rw [hc.frame.held]; exact h.held
  case owned => exact hc.owned h.owned
  case inode =>
    intro p hp
    rw [hc.frame.list] at hp
    rw [hc.frame.mem]
    have hok := h.inode p hp
    cases hv : (s.mem p).valid with
    | true =>
      refine hok.congr ?_ id
      rw [hc.entries (h.list.isInode p hp), if_neg]
      intro heq
      exact (hok.inUse hv).2 (heq ▸ hc.free)
    | false =>
      have hk : (s.mem p).locked = false := by
        by_contra hk
        rw [hok.locked (by simpa using hk)] at hv
        cases hv
      constructor <;> simp [hv, hk]

/-- The entries on disk, but for the inode at `p` the entry that `inode_lock` finds. -/
theorem owned_loaded (h : Cached dirty s) (hp : p ∈ s.list) :
    BlocksOwned (Function.update (diskEntry s.disk) (s.mem p).inodeNo (s.loaded p)) s.disk := by
  cases hv : (s.mem p).valid with
  | true =>
    rw [State.loaded, if_pos hv]
    exact h.owned_view hp hv
  | false =>
    rw [State.loaded, if_neg (by simp [hv]), Function.update_eq_self]
    exact h.owned

theorem dropped (h : Cached dirty s) (hp : p ∈ s.list) : Cached dirty (s.dropped p) := by
  by_cases hrc : (s.mem p).rc - 1 ≤ 0
  · refine h.remove hp (if_pos hrc) (fun q hq => State.mem_setInode_ne _ hq) rfl rfl
      (fun _ _ _ => rfl) h.owned
  · have hok := h.inode p hp
    have hset : Cached dirty (s.setInode p { s.mem p with rc := (s.mem p).rc - 1 }) :=
      h.setInode hp rfl (by show 0 < (s.mem p).rc - 1; omega)
        ⟨hok.locked, hok.inUse, hok.same, hok.clean⟩
    exact hset.congr rfl rfl (if_neg hrc) rfl rfl

/-- What `inode_put` has done when it returns. -/
theorem inodePut_spec (h : Cached dirty s) (hp : p ∈ s.list)
    (hr : Runs (inodePut sblock ctx p) s u s') :
    ((s.mem p).isLast = false ∧ s' = s.dropped p) ∨
      ((s.mem p).isLast = true ∧ (s.mem p).locked = false ∧
        InUse (Function.update (diskEntry s.disk) (s.mem p).inodeNo (s.loaded p))
          (s.mem p).inodeNo ∧
        ∃ t, FreeDone ctx p (s.mem p).inodeNo
          (Function.update (diskEntry s.disk) (s.mem p).inodeNo (s.loaded p)) s t ∧
        s' = t.dropped p) := by
  rw [runs_inodePut] at hr
  split at hr
  case isTrue hl =>
    obtain ⟨t, hf, rfl⟩ := hr
    obtain ⟨hu, -, hk, hd⟩ := freeInode_spec rfl (h.list.isInode p hp) (Function.update_self ..)
      (h.owned_loaded hp) hf
    exact .inr ⟨hl, hk, hu, t, hd, rfl⟩
  case isFalse hl => exact .inl ⟨by simpa using hl, hr⟩

/-- The object of an inode that is freed leaves the list. -/
theorem freed (h : Cached dirty s) (hp : p ∈ s.list) {t : State} (hl : (s.mem p).isLast = true)
    (hd : FreeDone ctx p (s.mem p).inodeNo
      (Function.update (diskEntry s.disk) (s.mem p).inodeNo (s.loaded p)) s t) :
    Cached dirty (t.dropped p) ∧ (t.dropped p).list = s.list.erase p ∧
      ∀ q, q ≠ p → (t.dropped p).mem q = s.mem q := by
  have hmem : t.mem = Function.update s.mem p (s.freedInode p) := hd.frame.mem
  have hrc : (t.mem p).rc - 1 ≤ 0 := by
    simp only [Inode.isLast, decide_eq_true_eq] at hl
    rw [hmem, Function.update_self]
    show (s.mem p).rc - 1 ≤ 0
    omega
  have hlist : (t.dropped p).list = s.list.erase p := (if_pos hrc).trans (by rw [hd.frame.list]; rfl)
  have hother (q : Ptr) (hq : q ≠ p) : (t.dropped p).mem q = s.mem q := by
    refine (State.mem_setInode_ne _ hq).trans ?_
    rw [hmem, Function.update_of_ne hq]
  refine ⟨h.remove hp hlist hother hd.frame.fresh hd.frame.held ?_ ?_, hlist, hother⟩
  · intro m hm hmn
    exact (hd.entries m hm).trans (if_neg hmn)
  · refine hd.owned.resync (fun m hm => ?_) fun _ _ => rfl
    have hm' : diskEntry (t.dropped p).disk m = _ := hd.entries m hm
    rw [hm', Function.update_apply]
    split
    case isTrue => exact .refl _
    case isFalse hmn =>
      rw [Function.update_of_ne hmn]
      exact .refl _

/-- `inode_put` keeps the agreement, and changes no object but its own. -/
theorem inodePut (h : Cached dirty s) (hp : p ∈ s.list) (hr : Runs (inodePut sblock ctx p) s u s') :
    Cached dirty s' ∧ ∀ q, q ≠ p → s'.mem q = s.mem q := by
  rcases h.inodePut_spec hp hr with ⟨-, rfl⟩ | ⟨hl, -, -, t, hd, rfl⟩
  · exact ⟨h.dropped hp, fun q hq => State.mem_setInode_ne _ hq⟩
  · exact ⟨(h.freed hp hl hd).1, (h.freed hp hl hd).2.2⟩

end Cached

end FtosFfs.Fs
