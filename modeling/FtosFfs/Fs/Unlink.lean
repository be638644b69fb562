import FtosFfs.Fs.Freed
import FtosFfs.Fs.Idle

/-! `sys_unlink` against the limit of `OP_MAX_NUM_BLOCKS` blocks: the blocks that the removal of a
directory entry syncs, with those of the file that it deletes. -/

namespace FtosFfs.Fs

open Lib Lib.Exec Cache

variable {s t : State} {p q cwd : Ptr} {n m k off count b : Nat} {E : Nat → InodeEntry}
  {src : Nat → UInt8} {path name : List UInt8} {dirty : Set Nat}

/-! ### Writes to a block that is there -/

theorem inodeMap_mapped_syncs (hE : E n = (s.mem p).entry) (hn : InUse E n) (hheld : s.held = [])
    (hb : HasByte E s.disk n off) : Syncs (fun ctx => inodeMap sblock ctx p off) s
      (ref E s.disk (n, place (off / blockSize)), false) s [] := by
  constructor
  · exact inodeMap_returns hE hn hheld hb
  · exact fun c => inodeMap_returns (s := { s with ctx := c }) hE hn hheld hb

/-- A write below the size of a file and inside of one of its blocks changes and syncs this block. -/
theorem inodeWrite_mapped_syncs (src : Nat → UInt8) (hE : E n = (s.mem p).entry) (hn : InUse E n)
    (hheld : s.held = [])
    (hdev : (s.mem p).entry.type ≠ inodeDevice) (hcount : 0 < count)
    (hsize : off + count ≤ (s.mem p).entry.numBytes.toNat) (hmax : off + count ≤ inodeMaxBytes)
    (hinside : off % blockSize + count ≤ blockSize) (hb : HasByte E s.disk n off) :
    ∃ x, Syncs (fun ctx => inodeWrite sblock ctx p src off count) s count
      { s with disk := Function.update s.disk (ref E s.disk (n, place (off / blockSize))) x }
      [ref E s.disk (n, place (off / blockSize))] := by
  set b := ref E s.disk (n, place (off / blockSize)) with hbdef
  set x := (s.disk b).splice (off % blockSize) (min (off + count - off) (blockSize - off % blockSize))
    fun i => src (off - off + i) with hx
  refine ⟨x, .get (fun _ _ => rfl) ?_⟩
  simp only [if_neg hdev]
  set u : State := { s with disk := Function.update s.disk b x } with hu
  have hwrite := Syncs.writeBack b x { s with held := b :: s.held }
  rw [List.erase_cons_head] at hwrite
  have hloop : Syncs (fun ctx => writeLoop sblock ctx p src off (off + count) count off false) s false u
      [b] := by
    obtain ⟨fuel, rfl⟩ : ∃ fuel, count = fuel + 1 := ⟨count - 1, by omega⟩
    unfold writeLoop
    simp only [if_pos (show off < off + (fuel + 1) by omega)]
    have hrest : Syncs (fun ctx => writeLoop sblock ctx p src off (off + (fuel + 1)) fuel
        (off + min (off + (fuel + 1) - off) (blockSize - off % blockSize)) (false || false)) u false u
        [] := by
      cases fuel with
      | zero => exact .pure _ _
      | succ fuel =>
        unfold writeLoop
        simp only [if_neg (show ¬off + min (off + (fuel + 1 + 1) - off) (blockSize - off % blockSize) <
          off + (fuel + 1 + 1) by omega)]
        exact .pure _ _
    exact (inodeMap_mapped_syncs hE hn hheld hb).bind ((Syncs.acquire (by simp [hheld])).bind
      (hwrite.bind hrest))
  have hgrow : Syncs (fun _ => Exec.when (off + count > (s.mem p).entry.numBytes.toNat)
      (modifyEntry p fun e => { e with numBytes := UInt32.ofNat (off + count) })) u () u [] := by
    simp only [Exec.when, if_neg (Nat.not_lt.mpr hsize)]
    exact .pure () u
  have hsync : Syncs (fun ctx => Exec.when (off + count > (s.mem p).entry.numBytes.toNat ∨ false = true)
      (inodeSync sblock ctx p true)) u () u [] := by
    simp only [Exec.when, if_neg (show ¬(off + count > (s.mem p).entry.numBytes.toNat ∨ false = true) by
      simpa using hsize)]
    exact .pure () u
  exact (Syncs.require (show off ≤ (s.mem p).entry.numBytes.toNat by omega) s).bind
    ((Syncs.require hmax s).bind (hloop.bind (hgrow.bind (hsync.bind (.pure count u)))))

/-! ### The steps of the removal -/

/-- The state after `inode_sync` of the inode at `p` with the link count `x`. -/
def State.relinked (s : State) (p : Ptr) (x : UInt16) : State :=
  { s.setInode p { s.mem p with entry := { (s.mem p).entry with numLinks := x } } with
    disk := storeEntry s.disk (s.mem p).inodeNo { (s.mem p).entry with numLinks := x } }

theorem Cached.relink_syncs (h : Cached dirty s) (hp : p ∈ s.list) (hv : (s.mem p).valid = true) :
    Syncs (fun ctx => do
      modifyEntry p fun e => { e with numLinks := e.numLinks - 1 }
      Fs.inodeSync sblock ctx p true) s () (s.relinked p ((s.mem p).entry.numLinks - 1))
      [toBlockNo sblock (s.mem p).inodeNo] ∧
    Cached dirty (s.relinked p ((s.mem p).entry.numLinks - 1)) ∧
    ref (diskEntry (s.relinked p ((s.mem p).entry.numLinks - 1)).disk)
      (s.relinked p ((s.mem p).entry.numLinks - 1)).disk = ref (diskEntry s.disk) s.disk := by
  have hno := (h.inode p hp).inUse hv
  have hsame := (h.inode p hp).same hv
  have hset : Cached (insert (s.mem p).inodeNo dirty) (s.setInode p { s.mem p with
      entry := { (s.mem p).entry with numLinks := (s.mem p).entry.numLinks - 1 } }) :=
    (h.mono (Set.subset_insert _ _)).setEntry hp ⟨rfl, rfl, rfl⟩ (Set.mem_insert _ _)
  have hsync := inodeSync_syncs (s := s.setInode p { s.mem p with
    entry := { (s.mem p).entry with numLinks := (s.mem p).entry.numLinks - 1 } }) (p := p)
    (by rw [State.mem_setInode_same]; exact hv) (by rw [hset.held]; exact List.not_mem_nil)
  rw [State.mem_setInode_same] at hsync
  refine ⟨(Syncs.modify fun _ => rfl).bind hsync, ?_, ?_⟩
  · have hcached := (hset.inodeSync hp (by rw [State.mem_setInode_same]; exact hv) hsync.plain).1
    rw [State.mem_setInode_same] at hcached
    exact hcached.mono fun m hm => hm.1.resolve_left hm.2
  · have hstore : ref (diskEntry (storeEntry s.disk (s.mem p).inodeNo
        { (s.mem p).entry with numLinks := (s.mem p).entry.numLinks - 1 })) =
        ref (diskEntry s.disk) := by
      funext d
      refine ref_sameBlocks fun m hm => ?_
      rw [diskEntry_storeEntry hno.1 hm]
      split
      case isTrue heq =>
        subst heq
        exact ⟨hsame.type, hsame.addrs, hsame.indirect⟩
      case isFalse => exact .refl _
    show ref (diskEntry (storeEntry s.disk _ _)) (storeEntry s.disk _ _) = _
    rw [hstore, (sameData_storeEntry hno.1).ref h.owned]

theorem unlock_syncs (h : Cached dirty s) (hp : p ∈ s.list) (hk : (s.mem p).locked = true) :
    Syncs (fun _ => inodeUnlock p) s () (s.setInode p { s.mem p with locked := false }) [] ∧
      Cached dirty (s.setInode p { s.mem p with locked := false }) := by
  have hrun : Runs (inodeUnlock p) s () (s.setInode p { s.mem p with locked := false }) :=
    runs_inodeUnlock.mpr ⟨hk, h.list.rc p hp, rfl⟩
  refine ⟨.silent (fun c => ?_) rfl, (h.inodeUnlock hp hrun).1⟩
  exact runs_inodeUnlock.mpr ⟨hk, h.list.rc p hp, rfl⟩

/-! ### The removal -/

/-- The part of `unlinkEntry` for the directory, with a context or without. -/
def unlinkDir (sb : SuperBlock) (ctx : Bool) (dp ip : Ptr) (off : Nat) : M Unit := do
  let _ ← inodeWrite sb ctx dp DirEntry.zero.byte (off * 16) 16
  Exec.when (((← get).mem ip).entry.type = inodeDirectory) do
    modifyEntry dp fun e => { e with numLinks := e.numLinks - 1 }
    inodeSync sb ctx dp true
  inodeUnlock dp
  inodePut sb ctx dp

/-- The part of `unlinkEntry` for the inode. -/
def unlinkInode (sb : SuperBlock) (ctx : Bool) (ip : Ptr) : M Unit := do
  (do
    modifyEntry ip fun e => { e with numLinks := e.numLinks - 1 }
    inodeSync sb ctx ip true)
  inodeUnlock ip
  inodePut sb ctx ip

theorem unlinkEntry_eq (dp ip : Ptr) (off : Nat) : unlinkEntry sblock dp ip off = (do
    unlinkDir sblock true dp ip off
    unlinkInode sblock true ip) := by
  unfold unlinkEntry unlinkDir unlinkInode unlockPut
  simp only [bind_assoc]

/-- The directory `p` and the inode `q` that its entry `k` names, both locked, before the removal. -/
structure Removing (p q : Ptr) (n m k : Nat) (s : State) : Prop where
  cached : Cached Set.univ s
  listed : p ∈ s.list ∧ q ∈ s.list ∧ p ≠ q
  numbers : (s.mem p).inodeNo = n ∧ (s.mem q).inodeNo = m
  valid : (s.mem p).valid = true ∧ (s.mem q).valid = true
  locked : (s.mem p).locked = true ∧ (s.mem q).locked = true
  dir : IsDir s.disk n
  here : HasByte (diskEntry s.disk) s.disk n (k * 16)
  size : k * 16 + 16 ≤ (s.mem p).entry.numBytes.toNat
  stays : (s.mem p).isLast = false

/-- The last reference to the inode at `p` goes with its last link. -/
def Inode.Goes (ip : Inode) : Prop := ip.rc ≤ 1 ∧ ip.entry.numLinks = 1

instance (ip : Inode) : Decidable ip.Goes := inferInstanceAs (Decidable (_ ∧ _))

theorem Inode.isLast_relinked {ip : Inode} {locked : Bool} :
    { ip with locked, entry := { ip.entry with numLinks := ip.entry.numLinks - 1 } }.isLast = true ↔
      ip.Goes := by
  simp only [Inode.isLast, decide_eq_true_eq]
  exact and_congr_right fun _ => UInt16.sub_eq_iff_eq_add.trans (by rw [UInt16.zero_add])

/-- The blocks of a file are below `INODE_MAX_BLOCKS`. -/
theorem lt_of_ref {d : Nat → BlockData} (h : ref E d (n, place k) ≠ 0) : k < inodeMaxBlocks := by
  by_contra hk
  have hk' : 12 + 128 ≤ k := Nat.not_lt.mp hk
  have hpl : place k = .slot (k - inodeNumDirect) := if_neg (show ¬k < 12 by omega)
  refine h ?_
  unfold ref
  split
  · rw [hpl, blockOf, getAddr_of_le (show 128 ≤ k - inodeNumDirect from Nat.le_sub_of_add_le' hk')]
    simp
  · rfl

theorem mem_bitmapsOf_blocksOf {d : Nat → BlockData} (hn : InUse (diskEntry d) n) {x : Nat} :
    x ∈ bitmapsOf (blocksOf (diskEntry d n) d) ↔
      ∃ pl, ref (diskEntry d) d (n, pl) ≠ 0 ∧ bitmapOf (ref (diskEntry d) d (n, pl)) = x := by
  simp only [bitmapsOf, List.mem_map, List.mem_filter, decide_eq_true_eq, ref_of_inUse hn]
  constructor
  · rintro ⟨b, ⟨hmem, hb⟩, rfl⟩
    obtain ⟨pl, rfl⟩ := (mem_blocksOf hb).mp hmem
    exact ⟨pl, hb, rfl⟩
  · rintro ⟨pl, hb, rfl⟩
    exact ⟨_, ⟨(mem_blocksOf hb).mpr ⟨pl, rfl⟩, hb⟩, rfl⟩

/-- The unlock and the put of the inode at `p` sync the bitmaps of its blocks and the block of the inode if
they free it, and leave the other inodes as they are. -/
theorem Cached.leave_syncs (h : Cached dirty s) (hp : p ∈ s.list) (hv : (s.mem p).valid = true)
    (hk : (s.mem p).locked = true) (hno : (s.mem p).inodeNo = n) :
    ∃ t l, Syncs (fun ctx => do
        Fs.inodeUnlock p
        Fs.inodePut sblock ctx p) s () t l ∧
      (∀ x, x ∈ l ↔ (s.mem p).isLast = true ∧
        (x ∈ bitmapsOf (blocksOf (diskEntry s.disk n) s.disk) ∨ x = toBlockNo sblock n)) ∧
      Cached dirty t ∧ (∀ q, q ≠ p → t.mem q = s.mem q ∧ (q ∈ s.list → q ∈ t.list)) ∧
      ∀ m, IsInode m → m ≠ n → ∀ pl,
        ref (diskEntry t.disk) t.disk (m, pl) = ref (diskEntry s.disk) s.disk (m, pl) := by
  subst hno
  obtain ⟨hunlock, h₁⟩ := unlock_syncs h hp hk
  set s₁ := s.setInode p { s.mem p with locked := false } with hs₁
  have hmem₁ : s₁.mem p = { s.mem p with locked := false } := State.mem_setInode_same _
  obtain ⟨t, hput⟩ := h₁.inodePut_syncs (p := p) hp (by rw [hmem₁]; exact hv) (by rw [hmem₁])
    (congrArg Inode.inodeNo hmem₁)
  have hlast : (s₁.mem p).isLast = (s.mem p).isLast := by rw [hmem₁]; rfl
  obtain ⟨hcached, hmem⟩ := h₁.inodePut (show p ∈ s₁.list from hp) hput.plain
  refine ⟨t, _, hunlock.bind hput, fun x => ?_, hcached, fun q hq => ⟨?_, fun hqs => ?_⟩, fun m hm hne => ?_⟩
  · rw [List.nil_append, hlast]
    cases (s.mem p).isLast
    case false => simp
    case true => simp [freedRecord, hs₁, State.setInode]
  · exact (hmem q hq).trans (State.mem_setInode_ne _ hq)
  · exact h₁.mem_list_inodePut hp hput.plain hqs hq
  · exact (h₁.inodePut_others (show p ∈ s₁.list from hp) hput.plain hm (by rw [hmem₁]; exact hne)).2

/-- The part for the directory syncs the block of the entry and, if a directory is removed, the block of
the directory's inode, with the bitmaps of its blocks if the directory goes too. -/
theorem Removing.dir_syncs (h : Removing p q n m k s) :
    ∃ t l, Syncs (fun ctx => unlinkDir sblock ctx p q k) s () t l ∧
      (∀ x, x ∈ l ↔ x = ref (diskEntry s.disk) s.disk (n, place (k * 16 / blockSize)) ∨
        (IsDir s.disk m ∧ x = toBlockNo sblock n) ∨
        (IsDir s.disk m ∧ (s.mem p).Goes) ∧ x ∈ bitmapsOf (blocksOf (diskEntry s.disk n) s.disk)) ∧
      Cached Set.univ t ∧
      (∀ pl, ref (diskEntry t.disk) t.disk (m, pl) = ref (diskEntry s.disk) s.disk (m, pl)) ∧
      t.mem q = s.mem q ∧ q ∈ t.list := by
  obtain ⟨hcached, ⟨hp, hq, hpq⟩, ⟨hnop, hnoq⟩, ⟨hvp, hvq⟩, ⟨hkp, hkq⟩, hdir, hhere, hsize, hstays⟩ := h
  have hok := hcached.inode p hp
  have hup : InUse (diskEntry s.disk) n := hnop ▸ hok.inUse hvp
  have hmn : m ≠ n := by
    rintro rfl
    exact hpq (hcached.list.inj p hp q hq (hnop.trans hnoq.symm))
  have hmu : IsInode m := hnoq ▸ hcached.list.isInode q hq
  -- The entry.
  have hview : ref (s.view p) s.disk = ref (diskEntry s.disk) s.disk := congrFun (hcached.ref_view hp hvp) _
  have hmax : k * 16 + 16 ≤ inodeMaxBytes := by
    have hlt : k * 16 / 512 < 140 := lt_of_ref hhere
    show k * 16 + 16 ≤ 71680
    omega
  have hinside : k * 16 % blockSize + 16 ≤ blockSize := by
    show k * 16 % 512 + 16 ≤ 512
    omega
  have hdev : (s.mem p).entry.type ≠ inodeDevice :=
    Cached.ne_device (((hok.same hvp).type).trans (hnop.symm ▸ hdir))
  obtain ⟨x, hw⟩ := inodeWrite_mapped_syncs (E := s.view p) (n := n) DirEntry.zero.byte
    (hnop ▸ State.view_self) (hnop ▸ hcached.inUse_view hp hvp) hcached.held hdev (by decide : 0 < 16)
    hsize hmax hinside (by unfold HasByte; rw [hview]; exact hhere)
  rw [hview] at hw
  set b := ref (diskEntry s.disk) s.disk (n, place (k * 16 / blockSize)) with hb
  set s₁ : State := { s with disk := Function.update s.disk b x } with hs₁
  have hc₁ : Cached Set.univ s₁ := (hcached.inodeWrite hp hvp hdev hw.plain).2.1
  have hmeta := hcached.owned.not_meta hb
  have href₁ : ref (diskEntry s₁.disk) s₁.disk = ref (diskEntry s.disk) s.disk := by
    rw [ref_sameBlocks (E := diskEntry s.disk) fun j hj => by
      rw [show diskEntry s₁.disk j = diskEntry s.disk j from diskEntry_update hmeta.1 hj]
      exact .refl _]
    exact ref_store hcached.owned hb
  -- The link count of the directory.
  have hdirq : (s₁.mem q).entry.type = inodeDirectory ↔ IsDir s.disk m := by
    unfold IsDir
    rw [← hnoq, ← ((hcached.inode q hq).same hvq).type]
  obtain ⟨s₂, hsync₂, hc₂, href₂, hmem₂, hlist₂, hvalid₂, hno₂, hk₂, hlast₂⟩ : ∃ s₂, Syncs (fun ctx =>
      Exec.when ((s₁.mem q).entry.type = inodeDirectory) do
        modifyEntry p fun e => { e with numLinks := e.numLinks - 1 }
        inodeSync sblock ctx p true) s₁ () s₂ (if IsDir s.disk m then [toBlockNo sblock n] else []) ∧
      Cached Set.univ s₂ ∧ ref (diskEntry s₂.disk) s₂.disk = ref (diskEntry s.disk) s.disk ∧
      s₂.mem q = s.mem q ∧ s₂.list = s.list ∧ (s₂.mem p).valid = true ∧ (s₂.mem p).inodeNo = n ∧
      (s₂.mem p).locked = true ∧ ((s₂.mem p).isLast = true ↔ IsDir s.disk m ∧ (s.mem p).Goes) := by
    by_cases hm : IsDir s.disk m
    · obtain ⟨hsync, hc, href⟩ := hc₁.relink_syncs hp hvp
      have hmem : (s₁.relinked p ((s₁.mem p).entry.numLinks - 1)).mem p = { s.mem p with
          entry := { (s.mem p).entry with numLinks := (s.mem p).entry.numLinks - 1 } } :=
        State.mem_setInode_same _
      refine ⟨_, ?_, hc, href.trans href₁, State.mem_setInode_ne _ (Ne.symm hpq), rfl, ?_, ?_, ?_, ?_⟩
      · simp only [Exec.when, if_pos (hdirq.mpr hm), if_pos hm]
        rw [← hnop]
        exact hsync
      · rw [hmem]
        exact hvp
      · rw [hmem]
        exact hnop
      · rw [hmem]
        exact hkp
      · rw [hmem, and_iff_right hm]
        exact Inode.isLast_relinked
    · refine ⟨s₁, ?_, hc₁, href₁, rfl, rfl, hvp, hnop, hkp, ?_⟩
      · simp only [Exec.when, if_neg (fun hc => hm (hdirq.mp hc)), if_neg hm]
        exact .pure () s₁
      · rw [show (s₁.mem p).isLast = false from hstays]
        simp [hm]
  obtain ⟨t, l, hleave, hl, hc₃, hmem₃, href₃⟩ := hc₂.leave_syncs (hlist₂ ▸ hp) hvalid₂ hk₂ hno₂
  have hall := hw.bind (f := fun ctx _ => do
    Exec.when (((← get).mem q).entry.type = inodeDirectory) do
      modifyEntry p fun e => { e with numLinks := e.numLinks - 1 }
      inodeSync sblock ctx p true
    inodeUnlock p
    inodePut sblock ctx p) (.get (fun _ _ => rfl) (hsync₂.bind hleave))
  have hup₂ : InUse (diskEntry s₂.disk) n := hno₂ ▸ (hc₂.inode p (hlist₂ ▸ hp)).inUse hvalid₂
  refine ⟨t, _, hall, fun y => ?_, hc₃, fun pl => ?_, ?_, ?_⟩
  · rw [List.singleton_append, List.mem_cons, List.mem_append, hl, hlast₂, mem_bitmapsOf_blocksOf hup₂,
      mem_bitmapsOf_blocksOf hup, href₂]
    refine or_congr_right ?_
    by_cases hm : IsDir s.disk m
    · rw [if_pos hm, List.mem_singleton, and_iff_right hm, and_iff_right hm]
      exact or_congr_right' fun hne => and_congr_right fun _ => or_iff_left hne
    · simp [hm]
  · rw [href₃ m hmu hmn, href₂]
  · exact (hmem₃ q (Ne.symm hpq)).1.trans hmem₂
  · exact (hmem₃ q (Ne.symm hpq)).2 (hlist₂ ▸ hq)

/-- The part for the inode syncs its block, and the bitmaps of its blocks if it is deleted. -/
theorem Cached.unlinkInode_syncs (h : Cached dirty s) (hq : q ∈ s.list) (hv : (s.mem q).valid = true)
    (hk : (s.mem q).locked = true) (hno : (s.mem q).inodeNo = m) :
    ∃ t l, Syncs (fun ctx => unlinkInode sblock ctx q) s () t l ∧ ∀ x, x ∈ l ↔ x = toBlockNo sblock m ∨
      (s.mem q).Goes ∧ x ∈ bitmapsOf (blocksOf (diskEntry s.disk m) s.disk) := by
  subst hno
  have hu := (h.inode q hq).inUse hv
  obtain ⟨hrelink, hc₁, href⟩ := h.relink_syncs hq hv
  set s₁ := s.relinked q ((s.mem q).entry.numLinks - 1) with hs₁
  have hmem₁ : s₁.mem q = { s.mem q with
      entry := { (s.mem q).entry with numLinks := (s.mem q).entry.numLinks - 1 } } :=
    State.mem_setInode_same _
  obtain ⟨t, l, hleave, hl, -⟩ := hc₁.leave_syncs (p := q) (n := (s.mem q).inodeNo) hq
    (by rw [hmem₁]; exact hv) (by rw [hmem₁]; exact hk) (by rw [hmem₁])
  refine ⟨t, _, hrelink.bind hleave, fun y => ?_⟩
  have hu₁ : InUse (diskEntry s₁.disk) (s.mem q).inodeNo := by
    have hu := (hc₁.inode q hq).inUse (by rw [hmem₁]; exact hv)
    rwa [hmem₁] at hu
  have hgoes : (s₁.mem q).isLast = true ↔ (s.mem q).Goes := by
    rw [hmem₁]
    exact Inode.isLast_relinked
  rw [List.singleton_append, List.mem_cons, hl, hgoes, mem_bitmapsOf_blocksOf hu₁, mem_bitmapsOf_blocksOf hu,
    href]
  exact or_congr_right' fun hne => and_congr_right fun _ => or_iff_left hne

/-! ### `sys_unlink` -/

/-- What `inode_empty` finds in directory `n`. -/
def dirEmpty (d : Nat → BlockData) (n : Nat) : Bool :=
  emptyIn (fileByte (diskEntry d) d n) (diskEntry d n).numBytes.toNat

theorem Along.empty_returns {s₀ : State} {c : Ptr → Nat} {L : Set Ptr} (ht : TreeOk s₀.disk)
    (h : Along s₀ c L s) (hp : 0 < c p) (hv : (s.mem p).valid = true)
    (hdir : IsDir s₀.disk (s.mem p).inodeNo)
    (hsize : 16 ∣ (diskEntry s₀.disk (s.mem p).inodeNo).numBytes.toNat) :
    Runs (inodeEmpty sblock p) s (dirEmpty s₀.disk (s.mem p).inodeNo) s := by
  have hself : s.view p (s.mem p).inodeNo = (s.mem p).entry := State.view_self
  have hu := h.cached.inUse_view (h.mem hp) hv
  have hu' := (h.cached.inode p (h.mem hp)).inUse hv
  have hentry := h.entry_size hp hv
  have htype : (s.mem p).entry.type = inodeDirectory := (h.entry_type hp hv).trans hdir
  obtain ⟨r, hscan⟩ : ∃ r, Runs (scan sblock p true (fun dentry => dentry.inodeNo ≠ 0)
      (((s.mem p).entry.numBytes.toNat - 2 * 16 + 15) / 16) (2 * 16) DirEntry.zero) s r s := by
    rw [← hentry] at hsize
    refine scan_returns hself hu (h.cached.owned_view (h.mem hp) hv) h.cached.held ?_ ?_ ?_ ?_
    · rw [hself]
      exact Cached.ne_device htype
    · rw [h.disk] at hu' ⊢
      rw [hself, hentry]
      refine (ht.filled _ hu' hdir).mono (fun k hk => ?_) (Nat.le_refl _)
      rw [h.ref_view hp hv]
      exact hk
    · rw [hself]
      omega
    · rw [hself]
      omega
  have hrun : Runs (inodeEmpty sblock p) s r.isNone s := by
    unfold inodeEmpty
    simp only [runs_bind, runs_get, runs_require]
    exact ⟨s, s, ⟨rfl, rfl⟩, (), s, ⟨htype, rfl⟩, r, s, hscan, runs_pure.mpr ⟨rfl, rfl⟩⟩
  obtain ⟨-, -, hr⟩ := h.cached.inodeEmpty (h.mem hp) hv hrun
  have hsame : emptyIn (s.bytes p) (s.size p) = dirEmpty s₀.disk (s.mem p).inodeNo := by
    rw [h.bytes_eq hp hv, h.size_eq hp hv, dirEmpty]
  rw [← hsame, ← hr]
  exact hrun

/-- A path to a regular file or to an empty directory, inode `m`, which entry `k` of directory `n`
names. -/
structure Removal (s : State) (cwd : Ptr) (path name : List UInt8) (n m k : Nat) : Prop where
  walk : Walk s.disk true (startNo s cwd path) path [] (some (n, name))
  plain : ¬(name = [dot] ∨ name = [dot, dot])
  found : dirLookup s.disk n name = some (m, k)
  kind : (diskEntry s.disk m).type = inodeRegular ∨ IsDir s.disk m ∧ dirEmpty s.disk m = true
  other : m ≠ n
  links : (s.entryOf m).numLinks ≠ 0
  size : 16 ∣ (diskEntry s.disk n).numBytes.toNat
  dirSize : IsDir s.disk m → 16 ∣ (diskEntry s.disk m).numBytes.toNat

/-- Inode `n` goes with its only link: nobody refers to it. -/
def Deletes (s : State) (n : Nat) : Prop :=
  (diskEntry s.disk n).numLinks = 1 ∧ ∀ p ∈ s.list, (s.mem p).inodeNo ≠ n

instance (s : State) (n : Nat) : Decidable (Deletes s n) := inferInstanceAs (Decidable (_ ∧ _))

/-- The groups with blocks that the removal of inode `m` from directory `n` frees: those of `m` and, if
`m` is a directory, those of `n`. -/
def unlinkGroups (s : State) (n m : Nat) : Finset Nat :=
  (if Deletes s m then blockGroups s.disk m else ∅) ∪
    if IsDir s.disk m ∧ Deletes s n then blockGroups s.disk n else ∅

/-- The number of blocks that the removal of inode `m` from directory `n` syncs. -/
def unlinkSize (s : State) (n m : Nat) : Nat :=
  (unlinkGroups s n m).card + 2 + if IsDir s.disk m ∧ toBlockNo sblock n ≠ toBlockNo sblock m then 1 else 0

/-- An inode with one more reference than between system calls goes if nobody else refers to it. -/
theorem Idle.goes_iff (h : Idle s) {c : Ptr → Nat} {L : Set Ptr} (ha : Along s.begun c L t)
    (hle : ∀ q, s.counts q ≤ c q) (hc : c p = s.counts p + 1) (hv : (t.mem p).valid = true) :
    (t.mem p).Goes ↔ Deletes s (t.mem p).inodeNo := by
  have hpos : 0 < c p := by omega
  have hentry : (t.mem p).entry = s.entryOf (t.mem p).inodeNo := ha.entry hpos hv
  have hrc : (t.mem p).rc = ((s.counts p + 1 : Nat) : Int) := by rw [ha.refs.rc p (ha.mem hpos), hc]
  have halone : (t.mem p).rc ≤ 1 ↔ ∀ q ∈ s.list, (s.mem q).inodeNo ≠ (t.mem p).inodeNo := by
    rw [hrc]
    constructor
    · intro hle1 q hq hqno
      have hposq : 0 < s.counts q := h.counts_pos hq
      have hqt : q ∈ t.list := ha.mem (Nat.lt_of_lt_of_le hposq (hle q))
      have hsame : (t.mem q).inodeNo = (t.mem p).inodeNo := by
        rw [ha.refs.inodeNo q (h.cached.list.fresh q hq)]
        exact hqno
      obtain rfl := ha.cached.list.inj q hqt p (ha.mem hpos) hsame
      omega
    · intro hnone
      have hp : p ∉ s.list := fun hp => hnone p hp (ha.refs.inodeNo p (h.cached.list.fresh p hp)).symm
      rw [State.counts, if_neg hp]
      simp
  unfold Inode.Goes Deletes
  rw [halone, and_comm, hentry]
  exact and_congr_left fun hnone => by rw [State.entryOf_disk hnone]

/-- `sys_unlink` up to the removal. -/
theorem Idle.unlink_removing (h : Idle s) (hcwd : cwd ∈ s.list) (hrem : Removal s cwd path name n m k) :
    ∃ p q t, unlink sblock cwd path s.begun = (do unlinkEntry sblock p q k; pure 0 : M Int) t ∧
      Removing p q n m k t ∧ t.disk = s.disk ∧ t.ctx = s.begun.ctx ∧
      ((t.mem p).Goes ↔ Deletes s n) ∧ ((t.mem q).Goes ↔ Deletes s m) := by
  have hn : InUse (diskEntry s.disk) n := hrem.walk.inUse h.tree (h.inUse_startNo hcwd)
  have hdir : IsDir s.disk n := hrem.walk.isDir
  have hm : InUse (diskEntry s.disk) m := h.tree.entries _ _ _ _ hn hdir hrem.found
  have htree : TreeOk s.begun.disk := h.tree
  obtain ⟨p, t₁, hparent, hpno, h₁⟩ := h.nameiparent_returns hcwd hrem.walk
  obtain ⟨t₂, hlock⟩ := h₁.lock_returns bump_pos (by simp) (by rw [hpno]; exact hn)
  obtain ⟨-, h₂, -, hno₂, hv₂, -⟩ := h₁.lock bump_pos hlock
  rw [hpno] at hno₂
  have hlook := h₂.lookup_returns htree bump_pos hv₂ (by rw [hno₂]; exact hdir) name
  rw [hno₂, show dirLookup s.begun.disk n name = some (m, k) from hrem.found] at hlook
  obtain ⟨q, t₃, hget⟩ := h₂.get_returns hm.1
  obtain ⟨h₃, hqno, hold⟩ := h₂.get hget
  obtain ⟨hv₃, -, hno₃⟩ := hold p (h₂.mem bump_pos)
  have hpq : p ≠ q := by
    rintro rfl
    exact hrem.other (hqno.symm.trans (hno₃.trans hno₂))
  obtain ⟨t₄, hlockq⟩ := h₃.lock_returns bump_pos (by simpa using Ne.symm hpq) (by rw [hqno]; exact hm)
  obtain ⟨-, h₄, -, hno₄, hv₄, htype₄⟩ := h₃.lock bump_pos hlockq
  rw [hqno] at hno₄ htype₄
  have hpos : 0 < bump (bump s.counts p) q p := by
    rw [bump_of_ne hpq]
    exact bump_pos
  have hmem₄ : t₄.mem p = t₃.mem p := by
    rw [(h₃.cached.inodeLock (h₃.mem bump_pos) hlockq).2]
    exact State.mem_setInode_ne _ hpq
  have hlinks : Runs (assert (¬(t₄.mem q).entry.numLinks < 1)) t₄ () t₄ := by
    refine runs_require.mpr ⟨fun hlt => hrem.links ?_, rfl⟩
    rw [h₄.entry bump_pos hv₄, hno₄] at hlt
    exact UInt16.lt_one_iff.mp hlt
  have hrefused : Runs (unlinkRefused sblock q) t₄ false t₄ := by
    refine runs_bind.mpr ⟨t₄, t₄, runs_get.mpr ⟨rfl, rfl⟩, ?_⟩
    rw [htype₄]
    split
    case isTrue htype =>
      have hempty := h₄.empty_returns htree bump_pos hv₄ (by rw [hno₄]; exact htype)
        (by rw [hno₄]; exact hrem.dirSize htype)
      rw [hno₄] at hempty
      rcases hrem.kind with hreg | ⟨-, hnone⟩
      · exact absurd (hreg.symm.trans htype) (by decide)
      · refine runs_bind.mpr ⟨true, t₄, ?_, runs_pure.mpr ⟨rfl, rfl⟩⟩
        exact hnone ▸ hempty
    case isFalse => exact runs_pure.mpr ⟨rfl, rfl⟩
  have hget₄ : Runs (MonadState.get : M State) t₄ t₄ t₄ := runs_get.mpr ⟨rfl, rfl⟩
  have hno₄p : (t₄.mem p).inodeNo = n := by rw [hmem₄, hno₃, hno₂]
  have hv₄p : (t₄.mem p).valid = true := by rw [hmem₄, hv₃, hv₂]
  have hcounts (r : Ptr) : s.counts r ≤ bump (bump s.counts p) q r := Nat.le_trans (le_bump r) (le_bump r)
  have hgoesp := h.goes_iff h₄ hcounts (p := p) (by simp [bump_of_ne hpq]) hv₄p
  have hgoesq := h.goes_iff h₄ hcounts (p := q) (by simp [bump_of_ne (Ne.symm hpq)]) hv₄
  rw [hno₄p] at hgoesp
  rw [hno₄] at hgoesq
  refine ⟨p, q, t₄, ?_, ?_, h₄.disk, h₄.ctx, hgoesp, hgoesq⟩
  · unfold unlink
    rw [bind_eq_of_runs hparent]
    dsimp only
    rw [bind_eq_of_runs hlock, if_neg hrem.plain, bind_eq_of_runs hlook]
    refine (bind_eq_of_runs hget).trans ?_
    rw [bind_eq_of_runs hlockq, bind_eq_of_runs hget₄, bind_eq_of_runs hlinks, bind_eq_of_runs hrefused,
      if_neg Bool.false_ne_true]
    rfl
  · have hlt : s.counts p < bump (bump s.counts p) q p := by
      rw [bump_of_ne hpq]
      exact lt_bump
    obtain ⟨count, hcount⟩ := hrem.size
    obtain ⟨hk, -⟩ := lookupIn_some hcount hrem.found
    refine ⟨h₄.cached, ⟨h₄.mem hpos, h₄.mem bump_pos, hpq⟩, ⟨hno₄p, hno₄⟩, ⟨hv₄p, hv₄⟩, ⟨?_, ?_⟩, ?_, ?_, ?_,
      h₄.not_last h.resolving.refs h.resolving.linked hcounts hlt hv₄p⟩
    · exact (h₄.refs.locks p (h₄.mem hpos)).mpr (by simp)
    · exact (h₄.refs.locks q (h₄.mem bump_pos)).mpr (by simp)
    · exact h₄.disk ▸ hdir
    · rw [h₄.disk]
      refine h.tree.filled n hn hdir (k * 16) (Nat.zero_le _) ?_
      omega
    · rw [h₄.entry_size hpos hv₄p, hno₄p]
      show k * 16 + 16 ≤ (diskEntry s.disk n).numBytes.toNat
      omega

/-- The blocks that the removal syncs: that of the entry, that of the directory's inode if a directory
is removed, that of the removed inode, and the bitmaps of the blocks of the inodes that go. -/
theorem Removing.syncs (h : Removing p q n m k s) :
    ∃ t l, Syncs (fun ctx => do unlinkDir sblock ctx p q k; unlinkInode sblock ctx q) s () t l ∧
      ∀ x, x ∈ l ↔ x = ref (diskEntry s.disk) s.disk (n, place (k * 16 / blockSize)) ∨
        (IsDir s.disk m ∧ x = toBlockNo sblock n) ∨ x = toBlockNo sblock m ∨
        (s.mem q).Goes ∧ x ∈ bitmapsOf (blocksOf (diskEntry s.disk m) s.disk) ∨
        (IsDir s.disk m ∧ (s.mem p).Goes) ∧ x ∈ bitmapsOf (blocksOf (diskEntry s.disk n) s.disk) := by
  obtain ⟨u, l, hdirs, hdl, hcached, href, hmem, hq⟩ := h.dir_syncs
  obtain ⟨t, l', hinode, hl⟩ := hcached.unlinkInode_syncs (m := m) hq (by rw [hmem]; exact h.valid.2)
    (by rw [hmem]; exact h.locked.2) (by rw [hmem]; exact h.numbers.2)
  have hu : InUse (diskEntry s.disk) m := h.numbers.2 ▸ (h.cached.inode q h.listed.2.1).inUse h.valid.2
  have hu' : InUse (diskEntry u.disk) m := by
    have := (hcached.inode q hq).inUse (by rw [hmem]; exact h.valid.2)
    rwa [hmem, h.numbers.2] at this
  refine ⟨t, _, hdirs.bind hinode, fun x => ?_⟩
  have hmaps : x ∈ bitmapsOf (blocksOf (diskEntry u.disk m) u.disk) ↔
      x ∈ bitmapsOf (blocksOf (diskEntry s.disk m) s.disk) := by
    rw [mem_bitmapsOf_blocksOf hu', mem_bitmapsOf_blocksOf hu]
    simp only [href]
  rw [List.mem_append, hdl, hl, hmem, hmaps, or_assoc, or_assoc]
  exact or_congr_right (or_congr_right (or_comm.trans or_assoc))

/-- The number of blocks of a list with a block `b`, inode blocks `i`, if `dir`, and `j`, and the bitmaps
`maps`. -/
theorem card_kinds {l maps : List Nat} {b i j : Nat} {dir : Prop} [Decidable dir]
    (hl : ∀ x, x ∈ l ↔ x = b ∨ (dir ∧ x = i) ∨ x = j ∨ x ∈ maps) (hbi : b ≠ i) (hbj : b ≠ j)
    (hb : b ∉ maps) (hi : i ∉ maps) (hj : j ∉ maps) :
    l.toFinset.card = maps.toFinset.card + 2 + if dir ∧ i ≠ j then 1 else 0 := by
  have hset : l.toFinset = maps.toFinset ∪ ({b, j} ∪ if dir then {i} else ∅) := by
    ext x
    rw [List.mem_toFinset, hl]
    by_cases hdir : dir
    · simp [hdir]
      tauto
    · simp [hdir]
  have hpair : ({b, j} : Finset Nat).card = 2 := Finset.card_pair hbj
  have hinodes : ({b, j} ∪ if dir then {i} else ∅ : Finset Nat).card =
      2 + if dir ∧ i ≠ j then 1 else 0 := by
    by_cases hdir : dir
    · by_cases hij : i = j
      · have hsub : ({i} : Finset Nat) ⊆ {b, j} := by simp [hij]
        rw [if_pos hdir, Finset.union_eq_left.mpr hsub, hpair, if_neg fun h => h.2 hij]
      · rw [if_pos hdir, if_pos ⟨hdir, hij⟩, Finset.card_union_of_disjoint, hpair, Finset.card_singleton]
        simp [hbi.symm, hij]
    · rw [if_neg hdir, if_neg fun h => hdir h.1, Finset.union_empty, hpair]
  have hmaps (x : Nat) (hx : x ∈ maps) : x ∉ ({b, j} ∪ if dir then {i} else ∅ : Finset Nat) := by
    have hxb : x ≠ b := fun h => hb (h ▸ hx)
    have hxi : x ≠ i := fun h => hi (h ▸ hx)
    have hxj : x ≠ j := fun h => hj (h ▸ hx)
    split
    · simp [hxb, hxi, hxj]
    · simp [hxb, hxj]
  rw [hset, Finset.card_union_of_disjoint, hinodes, Nat.add_assoc]
  exact Finset.disjoint_left.mpr fun x hx => hmaps x (List.mem_toFinset.mp hx)

/-- The bitmaps of the blocks of the inodes that go with the removal of inode `m` from directory `n`. -/
def unlinkMaps (s : State) (n m : Nat) : List Nat :=
  (if Deletes s m then bitmapsOf (blocksOf (diskEntry s.disk m) s.disk) else []) ++
    if IsDir s.disk m ∧ Deletes s n then bitmapsOf (blocksOf (diskEntry s.disk n) s.disk) else []

theorem mem_unlinkMaps {x : Nat} : x ∈ unlinkMaps s n m ↔
    Deletes s m ∧ x ∈ bitmapsOf (blocksOf (diskEntry s.disk m) s.disk) ∨
      (IsDir s.disk m ∧ Deletes s n) ∧ x ∈ bitmapsOf (blocksOf (diskEntry s.disk n) s.disk) := by
  unfold unlinkMaps
  rw [List.mem_append]
  refine or_congr ?_ ?_
  · split <;> simp [*]
  · split <;> simp [*]

/-- There is one bitmap for each group. -/
theorem card_unlinkMaps : (unlinkMaps s n m).toFinset.card = (unlinkGroups s n m).card := by
  have hsplit : unlinkMaps s n m = bitmapsOf
      ((if Deletes s m then blocksOf (diskEntry s.disk m) s.disk else []) ++
        if IsDir s.disk m ∧ Deletes s n then blocksOf (diskEntry s.disk n) s.disk else []) := by
    unfold unlinkMaps bitmapsOf
    rw [List.filter_append, List.map_append]
    congr 1
    · split <;> rfl
    · split <;> rfl
  rw [hsplit, bitmapsOf, card_map_bitmapOf, List.filter_append, List.map_append, List.toFinset_append]
  unfold unlinkGroups blockGroups
  congr 2
  · split <;> rfl
  · split <;> rfl

/-- `sys_unlink` of a file fails in `cache_sync` exactly if the removal syncs too many blocks. -/
theorem Idle.unlink_decided (h : Idle s) (hcwd : cwd ∈ s.list) (hrem : Removal s cwd path name n m k) :
    (unlinkSize s n m ≤ opMaxNumBlocks → Avoids .overflow (unlink sblock cwd path) s.begun) ∧
    (¬unlinkSize s n m ≤ opMaxNumBlocks → unlink sblock cwd path s.begun = .error .overflow) := by
  obtain ⟨p, q, t, hrun, hready, hdisk, hctx, hgoesp, hgoesq⟩ := h.unlink_removing hcwd hrem
  obtain ⟨u, l, hsyncs, hl⟩ := hready.syncs
  have hnu : InUse (diskEntry s.disk) n := hrem.walk.inUse h.tree (h.inUse_startNo hcwd)
  have hmu : InUse (diskEntry s.disk) m := h.tree.entries _ _ _ _ hnu hrem.walk.isDir hrem.found
  have howned : BlocksOwned (diskEntry s.disk) s.disk := h.cached.owned
  have hdata : IsData (ref (diskEntry s.disk) s.disk (n, place (k * 16 / blockSize))) := by
    rw [← hdisk]
    exact hready.cached.owned.owns.inArea _ hready.here
  have hbitmap (x : Nat) (hx : x ∈ unlinkMaps s n m) : IsBitmap x := by
    rcases mem_unlinkMaps.mp hx with ⟨-, hx⟩ | ⟨-, hx⟩
    · exact isBitmap_bitmapsOf howned hmu hx
    · exact isBitmap_bitmapsOf howned hnu hx
  have hn := isInodes_toBlockNo hnu.1
  have hm := isInodes_toBlockNo hmu.1
  have hbn : ref (diskEntry s.disk) s.disk (n, place (k * 16 / blockSize)) ≠ toBlockNo sblock n :=
    fun heq => hdata.not_inodes (heq.symm ▸ hn)
  have hbm : ref (diskEntry s.disk) s.disk (n, place (k * 16 / blockSize)) ≠ toBlockNo sblock m :=
    fun heq => hdata.not_inodes (heq.symm ▸ hm)
  have hcard : l.toFinset.card = unlinkSize s n m := by
    rw [unlinkSize, ← card_unlinkMaps]
    refine card_kinds (fun x => ?_) hbn hbm (fun hx => hdata.not_bitmap (hbitmap _ hx))
      (fun hx => hn.not_bitmap (hbitmap _ hx)) fun hx => hm.not_bitmap (hbitmap _ hx)
    rw [hl, hgoesp, hgoesq, hdisk, mem_unlinkMaps]
  have hrecord := recordAll_isSome (c := t.ctx) (by rw [hctx]; exact ⟨List.nodup_nil, Nat.zero_le _⟩) l
  rw [show t.ctx.blockNo ++ l = l by rw [hctx]; rfl, hcard] at hrecord
  constructor
  · intro hle
    obtain ⟨c, hc⟩ := Option.isSome_iff_exists.mp (hrecord.mpr hle)
    unfold Avoids
    rw [hrun, unlinkEntry_eq]
    exact Avoids.after (hsyncs.runs hc) (.pure _)
  · intro hlarge
    rw [hrun, unlinkEntry_eq]
    exact bind_eq_error (hsyncs.eq_overflow (Option.not_isSome_iff_eq_none.mp fun hsome =>
      hlarge (hrecord.mp hsome)))

/-- `sys_unlink` of a regular file or of an empty directory does not fail in `cache_sync` exactly if the
removal syncs at most `OP_MAX_NUM_BLOCKS` blocks, and `fileclose` exactly if it does not delete the file
or the deletion does. -/
theorem delete_avoids_overflow (s : State) :
    (∀ (i : Nat) (cwd : Ptr) (path name : List UInt8) (n m k : Nat), Idle s →
      (s.proc i).cwd = some cwd → cwd ∈ s.list → Removal s cwd (argstr path) name n m k →
      (sysUnlink sblock i path s ≠ .error .overflow ↔ unlinkSize s n m ≤ opMaxNumBlocks)) ∧
    ∀ f : Nat, CloseReady s f →
      (fileclose sblock f s ≠ .error .overflow ↔
        (LastClose s f →
          (blockGroups s.disk (s.mem (s.file f).ip).inodeNo).card + 1 ≤ opMaxNumBlocks)) := by
  constructor
  · intro i cwd path name n m k h hproc hcwd hrem
    obtain ⟨hsmall, hlarge⟩ := h.unlink_decided hcwd hrem
    have hget : Runs (getCwd i) s cwd s := runs_getCwd.mpr ⟨hproc, rfl⟩
    have hbegin : Runs cacheBeginOp s () s.begun := cacheBeginOp_returns h.room
    unfold sysUnlink
    constructor
    · intro hne
      by_contra hnot
      refine hne ((bind_eq_of_runs hget).trans ((bind_eq_of_runs hbegin).trans ?_))
      exact bind_eq_error (hlarge hnot)
    · intro hle
      exact Avoids.after hget (.after hbegin (.bind (hsmall hle) fun _ u _ =>
        .bind (never_cacheEndOp u) fun _ _ _ => .pure _))
  · intro f h
    obtain ⟨hsmall, hlarge⟩ := h.decided
    exact ⟨fun hne hl => by_contra fun hnot => hne (hlarge hl hnot), hsmall⟩

/-- An empty file `f` as the input of `mkfs`. -/
def emptyFile : Mkfs.Input := ⟨[102], []⟩

/-- The path to the file of the image with the empty file `f`, which is closed. -/
theorem removal_emptyFile {img : Mkfs.Image} (hr : Runs (Mkfs.main [emptyFile]) Mkfs.blank () img)
    (links : UInt16) : Removal ((booted img.disk [1]).withLinks 0 links) 0 [102] [102] 1 2 2 := by
  have h := Mkfs.main_formatted hr
  set s := (booted img.disk [1]).withLinks 0 links with hs
  have hdisk : s.disk = img.disk := rfl
  have hfile := h.file 2 (by decide) (by decide)
  have hsize : (diskEntry img.disk 1).numBytes.toNat = 16 * 32 := h.size
  have hnames : NamesOk [emptyFile] := by
    refine ⟨?_, ?_, ?_, List.pairwise_singleton _ _⟩ <;>
    · intro input hinput
      rw [List.mem_singleton.mp hinput]
      decide
  have hnamed (k : Nat) (hk : k ≤ 2) : named [102] ((Mkfs.rootEntries [emptyFile]).getD k DirEntry.zero) =
      decide (k = 2) := named_rootEntries (i := 0) hnames (by decide) rfl hk
  constructor
  case walk =>
    have hskip : skipelem [102] = some ([], [102]) := by decide
    exact .stop hskip h.type (.inl ⟨rfl, rfl⟩)
  case plain => decide
  case found =>
    rw [hdisk]
    cases hlook : dirLookup img.disk 1 [102] with
    | none =>
      have hmiss := lookupIn_none hsize hlook 2 (by decide)
      rw [h.listed, hnamed 2 (by decide)] at hmiss
      cases hmiss
    | some mk =>
      obtain ⟨m, k⟩ := mk
      obtain ⟨-, rfl, hhit, hbefore⟩ := lookupIn_some hsize hlook
      have hk : k ≤ 2 := by
        by_contra hlt
        have hmiss := hbefore 2 (by omega)
        rw [h.listed, hnamed 2 (by decide)] at hmiss
        cases hmiss
      rw [h.listed] at hhit ⊢
      obtain rfl : k = 2 := by
        rw [hnamed k hk] at hhit
        exact of_decide_eq_true hhit
      rfl
  case kind => exact .inl hfile.1
  case other => decide
  case links =>
    have hentry : s.entryOf 2 = diskEntry img.disk 2 := by
      refine State.entryOf_disk fun p hp hno => ?_
      rw [List.mem_singleton.mp hp] at hno
      exact absurd hno (by decide : ¬(1 : Nat) = 2)
    rw [hentry, hfile.2]
    decide
  case size =>
    rw [hdisk, hsize]
    decide
  case dirSize => exact fun hdir => absurd (hdir.symm.trans hfile.1) (by decide)

/-- A file without a byte has at most an index block. -/
theorem card_blockGroups_le {d : Nat → BlockData} (hn : InUse (diskEntry d) n)
    (h : ∀ k, ref (diskEntry d) d (n, place k) = 0) : (blockGroups d n).card ≤ 1 := by
  refine Finset.card_le_one.mpr fun g hg g' hg' => ?_
  have htable (g : Nat) (hg : g ∈ blockGroups d n) : g = groupOf (diskEntry d n).indirect.toNat := by
    obtain ⟨b, hb, rfl⟩ := List.mem_map.mp (List.mem_toFinset.mp hg)
    obtain ⟨hmem, h0⟩ := List.mem_filter.mp hb
    have hb0 : b ≠ 0 := by simpa using h0
    obtain ⟨pl, rfl⟩ := (mem_blocksOf hb0).mp hmem
    rw [← ref_of_inUse hn] at hb0
    cases pl with
    | table => rfl
    | direct i =>
      by_cases hi : i < inodeNumDirect
      · exact absurd (by rw [← h i, place, if_pos hi]) hb0
      · rw [ref_of_inUse hn, blockOf, addr_of_le (Nat.not_lt.mp hi)] at hb0
        exact absurd rfl hb0
    | slot k =>
      have hk := h (k + inodeNumDirect)
      rw [place, if_neg (Nat.not_lt.mpr (Nat.le_add_left ..)), Nat.add_sub_cancel] at hk
      exact absurd hk hb0
  rw [htable g hg, htable g' hg']

/-- A mounted disk with inode `n` open as file 0 and loaded. -/
def loaded (disk : Nat → BlockData) (n : Nat) : State := {
  opened disk n with
  mem := fun _ => ⟨false, 1, n, true, diskEntry disk n⟩ }

theorem closeReady_loaded {d : Nat → BlockData} (ho : BlocksOwned (diskEntry d) d)
    (hu : InUse (diskEntry d) n) : CloseReady (loaded d n) 0 := by
  constructor
  case cached =>
    refine ⟨⟨?_, ?_, ?_, ?_, ?_⟩, rfl, ho, ?_⟩
    · exact List.nodup_singleton _
    · intro p hp
      rw [List.mem_singleton.mp hp]
      exact Nat.zero_lt_one
    · exact fun p _ => Int.zero_lt_one
    · exact fun p _ => hu.1
    · intro p hp q hq _
      rw [List.mem_singleton.mp hp, List.mem_singleton.mp hq]
    · exact fun p _ => ⟨nofun, fun _ => hu, fun _ => .refl _, fun _ _ => rfl⟩
  case room =>
    show 0 + 10 ≤ Log.initLogSize sblock
    decide
  case listed => exact fun _ => List.mem_singleton.mpr rfl
  case loaded => exact fun _ => rfl
  case unlocked => exact fun _ => rfl

theorem diskEntry_unlinkedImage : diskEntry unlinkedImage 2 = newEntry inodeRegular := by
  rw [unlinkedImage, diskEntry_storeEntry isInode_two isInode_two, if_pos rfl]

/-- Removing the name of the closed file, after another directory was made in the root, and closing an
unlinked one delete the file. -/
theorem delete_avoids_overflow_empty : (∃ img, Runs (Mkfs.main [emptyFile]) Mkfs.blank () img ∧
      Deletes ((booted img.disk [1]).withLinks 0 2) 2 ∧
      sysUnlink sblock 0 [102] ((booted img.disk [1]).withLinks 0 2) ≠ .error .overflow) ∧
    LastClose (loaded unlinkedImage 2) 0 ∧ fileclose sblock 0 (loaded unlinkedImage 2) ≠ .error .overflow := by
  have hten : opMaxNumBlocks = 10 := rfl
  constructor
  · obtain ⟨img, hr⟩ : ∃ img, Runs (Mkfs.main [emptyFile]) Mkfs.blank () img :=
      Mkfs.main_returns (by decide) (by decide) (by decide)
    have h := Mkfs.main_formatted hr
    have hholds := Mkfs.main_holds hr
    have hroot : InUse (diskEntry img.disk) 1 := ⟨Mkfs.isInode_one, by rw [h.type]; decide⟩
    have hfile : InUse (diskEntry img.disk) 2 :=
      ⟨isInode_two, by rw [(h.file 2 (by decide) (by decide)).1]; decide⟩
    have hlisted : 0 ∈ (booted img.disk [1]).list := List.mem_range.mpr Nat.zero_lt_one
    have hidle : Idle (booted img.disk [1]) := by
      refine idle_booted h (filledDisk_main hr (by decide)) (by decide) fun n hn => ?_
      rw [List.mem_singleton.mp hn]
      exact hroot
    have hdel : Deletes ((booted img.disk [1]).withLinks 0 2) 2 := by
      refine ⟨(h.file 2 (by decide) (by decide)).2, fun p hp hno => ?_⟩
      rw [List.mem_singleton.mp hp] at hno
      exact absurd hno (by decide : ¬(1 : Nat) = 2)
    have hgroups : (blockGroups img.disk 2).card ≤ 1 := by
      refine card_blockGroups_le hfile fun k => hholds.beyond 2 hfile (by decide) k ?_
      rw [hholds.size 0 [] rfl]
      exact Nat.zero_le _
    refine ⟨img, hr, hdel, ((delete_avoids_overflow _).1 0 0 [102] [102] 1 2 2 (hidle.withLinks hlisted 2) rfl
      hlisted (removal_emptyFile hr 2)).mpr ?_⟩
    have hnodir : ¬IsDir img.disk 2 := fun hdir =>
      absurd (hdir.symm.trans (h.file 2 (by decide) (by decide)).1) (by decide)
    have hsize : unlinkSize ((booted img.disk [1]).withLinks 0 2) 1 2 = (blockGroups img.disk 2).card + 2 := by
      unfold unlinkSize unlinkGroups
      rw [if_pos hdel, if_neg fun hc => hnodir hc.1, if_neg fun hc => hnodir hc.1, Finset.union_empty]
      rfl
    rw [hsize, hten]
    omega
  · have huse : InUse (diskEntry unlinkedImage) 2 := by
      refine ⟨isInode_two, ?_⟩
      rw [diskEntry_unlinkedImage]
      exact (by decide : inodeRegular ≠ inodeInvalid)
    have hlast : LastClose (loaded unlinkedImage 2) 0 := by
      refine ⟨rfl, rfl, rfl, ?_⟩
      show (diskEntry unlinkedImage 2).numLinks = 0
      rw [diskEntry_unlinkedImage]
      rfl
    refine ⟨hlast, ((delete_avoids_overflow _).2 0 (closeReady_loaded unlinkedImage_owned huse)).mpr
      fun _ => ?_⟩
    have hgroups : (blockGroups unlinkedImage 2).card ≤ 1 := by
      refine card_blockGroups_le huse fun k => ?_
      rw [ref_of_inUse huse, diskEntry_unlinkedImage]
      cases place k with
      | direct i =>
        show ((newEntry inodeRegular).addr i).toNat = 0
        unfold InodeEntry.addr
        split <;> rfl
      | table | slot => rfl
    show (blockGroups unlinkedImage 2).card + 1 ≤ opMaxNumBlocks
    omega

/-! ### A file with a block in each group -/

/-- The image with an unlinked file after the last blocks of the first `i` groups are allocated. -/
def spreadDisk : Nat → Nat → BlockData
  | 0 => unlinkedImage
  | i + 1 =>
    Function.update
      (Function.update (spreadDisk i) (bitmapBlock sblock i 0)
        (bitmapSet (spreadDisk i (bitmapBlock sblock i 0)) 999))
      (sblock.bgStart + i * sblock.blocksPerGroup + 0 + 999) Bytes.zero

/-- The entry of the file with these blocks. -/
def spreadEntry (i : Nat) : InodeEntry := {
  newEntry inodeRegular with
  addrs := fun j => if j.1 < i then UInt32.ofNat (65 + j.1 * 1000 + 999) else 0 }

/-- The file has all its blocks on the disk. -/
structure Spread (i : Nat) : Prop where
  owned : BlocksOwned (Function.update (diskEntry unlinkedImage) 2 (spreadEntry i)) (spreadDisk i)
  inodes : ∀ c, IsInodes c → spreadDisk i c = unlinkedImage c
  clear : ∀ j < 10, i ≤ j → bitmapGet (spreadDisk i (bitmapBlock sblock j 0)) 999 = false

theorem spread_zero : Spread 0 := by
  have hentry : diskEntry unlinkedImage 2 = spreadEntry 0 := diskEntry_unlinkedImage.trans rfl
  constructor
  case owned =>
    rw [← hentry, Function.update_eq_self]
    exact unlinkedImage_owned
  case inodes => exact fun _ _ => rfl
  case clear =>
    have hclear : ∀ j < 10, bitmapGet (unlinkedImage (bitmapBlock sblock j 0)) 999 = false := by
      decide +kernel
    exact fun j hj _ => hclear j hj

theorem Spread.succ {i : Nat} (h : Spread i) (hi : i < 10) : Spread (i + 1) := by
  have halloc : Allocated (65 + i * 1000 + 0 + 999) (spreadDisk i) (spreadDisk (i + 1)) :=
    allocated_of_bit hi (by decide) h.owned.metaUsed (h.clear i hi (Nat.le_refl i))
  have hdirect : i < inodeNumDirect := Nat.lt_trans hi (by decide)
  have huse : InUse (Function.update (diskEntry unlinkedImage) 2 (spreadEntry i)) 2 := by
    refine ⟨isInode_two, ?_⟩
    rw [Function.update_self]
    exact (by decide : inodeRegular ≠ inodeInvalid)
  have hzero : (Function.update (diskEntry unlinkedImage) 2 (spreadEntry i) 2).addr i = 0 := by
    rw [Function.update_self]
    simp [InodeEntry.addr, spreadEntry, hdirect]
  have hentry : InodeEntry.setAddrs (spreadEntry i) i (UInt32.ofNat (65 + i * 1000 + 0 + 999)) =
      spreadEntry (i + 1) := by
    unfold InodeEntry.setAddrs spreadEntry
    congr 1
    funext j
    by_cases hj : j.1 = i
    · simp [hj]
    · have hlt : j.1 < i + 1 ↔ j.1 < i := by omega
      simp [hj, hlt]
  have hmapped := mapped_direct h.owned halloc huse hdirect hzero
  rw [Function.update_self, Function.update_idem, hentry] at hmapped
  constructor
  case owned => exact hmapped.owned
  case inodes => exact fun c hc => (halloc.inodes hc).trans (h.inodes c hc)
  case clear =>
    intro j hj hle
    have hother : bitmapBlock sblock j 0 ≠ bitmapBlock sblock i 0 := by
      rw [bitmapBlock_eq, bitmapBlock_eq]
      omega
    have hdata : bitmapBlock sblock j 0 ≠ sblock.bgStart + i * sblock.blocksPerGroup + 0 + 999 := by
      rw [bitmapBlock_eq]
      show _ ≠ 65 + i * 1000 + 0 + 999
      omega
    rw [spreadDisk, Function.update_of_ne hdata, Function.update_of_ne hother]
    exact h.clear j hj (Nat.le_of_succ_le hle)

theorem spread_all : Spread 10 := by
  have hall (i : Nat) (hi : i ≤ 10) : Spread i := by
    induction i with
    | zero => exact spread_zero
    | succ i ih => exact (ih (Nat.le_of_succ_le hi)).succ hi
  exact hall 10 (Nat.le_refl _)

/-- An unlinked file of 5120 bytes, as inode 2, with a block in each group. -/
def spreadImage : Nat → BlockData := storeEntry (spreadDisk 10) 2 { spreadEntry 10 with numBytes := 5120 }

theorem diskEntry_spreadImage : diskEntry spreadImage 2 = { spreadEntry 10 with numBytes := 5120 } := by
  rw [spreadImage, diskEntry_storeEntry isInode_two isInode_two, if_pos rfl]

theorem closeReady_spreadImage : CloseReady (loaded spreadImage 2) 0 := by
  have howned : BlocksOwned (diskEntry spreadImage) spreadImage := by
    refine spread_all.owned.resync (fun m hm => ?_) (sameData_storeEntry isInode_two)
    unfold spreadImage
    rw [diskEntry_storeEntry isInode_two hm, Function.update_apply]
    split
    case isTrue => exact ⟨rfl, rfl, rfl⟩
    case isFalse =>
      have hsame : diskEntry (spreadDisk 10) m = diskEntry unlinkedImage m := by
        unfold diskEntry
        rw [spread_all.inodes _ (isInodes_toBlockNo hm)]
      rw [hsame]
      exact .refl _
  have huse : InUse (diskEntry spreadImage) 2 := by
    refine ⟨isInode_two, ?_⟩
    rw [diskEntry_spreadImage]
    exact (by decide : inodeRegular ≠ inodeInvalid)
  exact closeReady_loaded howned huse

/-- The file has blocks in all groups. -/
theorem card_blockGroups_spreadImage : 10 ≤ (blockGroups spreadImage 2).card := by
  have hsub : Finset.range 10 ⊆ blockGroups spreadImage 2 := by
    intro g hg
    have hlt : g < 10 := Finset.mem_range.mp hg
    have hdirect : g < inodeNumDirect := Nat.lt_trans hlt (by decide)
    have haddr : ((diskEntry spreadImage 2).addr g).toNat = 65 + g * 1000 + 999 := by
      rw [diskEntry_spreadImage]
      simp [InodeEntry.addr, spreadEntry, hdirect, hlt]
      omega
    rw [blockGroups, List.mem_toFinset, List.mem_map]
    refine ⟨65 + g * 1000 + 999, List.mem_filter.mpr ⟨List.mem_append_left _ ?_, by simp⟩, ?_⟩
    · exact List.mem_map.mpr ⟨g, List.mem_range.mpr hdirect, haddr⟩
    · exact groupOf_block (j := 999) (by decide)
  exact (Finset.card_range 10).symm.le.trans (Finset.card_le_card hsub)

/-- Closing the file syncs the bitmap blocks of all ten groups, and the block of its inode. -/
theorem fileclose_overflows : CloseReady (loaded spreadImage 2) 0 ∧ LastClose (loaded spreadImage 2) 0 ∧
    fileclose sblock 0 (loaded spreadImage 2) = .error .overflow := by
  have hlast : LastClose (loaded spreadImage 2) 0 := by
    refine ⟨rfl, rfl, rfl, ?_⟩
    show (diskEntry spreadImage 2).numLinks = 0
    rw [diskEntry_spreadImage]
    rfl
  refine ⟨closeReady_spreadImage, hlast, closeReady_spreadImage.decided.2 hlast fun hle => ?_⟩
  have hle : (blockGroups spreadImage 2).card + 1 ≤ 10 := hle
  exact absurd (Nat.le_trans (Nat.succ_le_succ card_blockGroups_spreadImage) hle) (by decide)

end FtosFfs.Fs
