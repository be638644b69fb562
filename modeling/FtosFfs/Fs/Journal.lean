import FtosFfs.Fs.Holes
import FtosFfs.Fs.Freed

/-! The writes of a call with a context: every change of the disk is a change of a block of the groups
that the operation records, so the log and the blocks before the groups are never written. -/

namespace FtosFfs.Fs

open Lib Lib.Exec Cache

variable {α β : Type} {s t s' : State} {p : Ptr} {n b g : Nat} {u : Unit} {E : Nat → InodeEntry}

/-- The blocks after the writes of a list, in order. -/
def storeAll (d : Nat → BlockData) (us : List (Nat × BlockData)) : Nat → BlockData :=
  us.foldl (fun d u => Function.update d u.1 u.2) d

theorem storeAll_append (d : Nat → BlockData) (us vs : List (Nat × BlockData)) :
    storeAll d (us ++ vs) = storeAll (storeAll d us) vs := List.foldl_append

/-- From `s` to `s'`, blocks of the groups are written, and the operation records each of them. -/
def Journaled (s s' : State) : Prop :=
  ∃ us : List (Nat × BlockData), (∀ u ∈ us, InGroups u.1) ∧ s'.disk = storeAll s.disk us ∧
    recordAll true s.ctx (us.map Prod.fst) = some s'.ctx

namespace Journaled

theorem of_eq (hdisk : s'.disk = s.disk) (hctx : s'.ctx = s.ctx) : Journaled s s' :=
  ⟨[], by simp, hdisk, by rw [hctx]; rfl⟩

theorem trans (h : Journaled s t) (h' : Journaled t s') : Journaled s s' := by
  obtain ⟨us, hus, hdisk, hctx⟩ := h
  obtain ⟨vs, hvs, hdisk', hctx'⟩ := h'
  refine ⟨us ++ vs, fun u hu => ?_, ?_, ?_⟩
  · rcases List.mem_append.mp hu with hu | hu
    · exact hus u hu
    · exact hvs u hu
  · rw [hdisk', hdisk, storeAll_append]
  · rw [List.map_append, recordAll_append, hctx]
    exact hctx'

theorem store {d : BlockData} (hb : InGroups b) (hdisk : s'.disk = Function.update s.disk b d)
    (hctx : recorded true s.ctx b = some s'.ctx) : Journaled s s' := by
  refine ⟨[(b, d)], fun u hu => ?_, hdisk, ?_⟩
  · rw [List.mem_singleton.mp hu]
    exact hb
  · show (recorded true s.ctx b).bind (fun c => recordAll true c []) = _
    rw [hctx]
    rfl

theorem search {f : β → M (Option α)} {l : List β} {r : Option α}
    (hf : ∀ b ∈ l, ∀ s r t, Runs (f b) s r t → Journaled s t) (hr : Runs (Exec.search f l) s r s') :
    Journaled s s' := by
  induction l generalizing s with
  | nil =>
    obtain ⟨-, rfl⟩ := runs_pure.mp hr
    exact of_eq rfl rfl
  | cons b l ih =>
    obtain ⟨o, t, hround, hr⟩ := runs_bind.mp hr
    have hfirst := hf b (by simp) s o t hround
    cases o with
    | none => exact hfirst.trans (ih (fun b hb => hf b (by simp [hb])) hr)
    | some a =>
      obtain ⟨-, rfl⟩ := runs_pure.mp hr
      exact hfirst

end Journaled

/-! ### Allocation and freeing -/

theorem allocIn_journaled {bound : Nat} {r : Option Nat} (hg : g < 10) (hbound : bound ≤ 1000)
    (hr : Runs (allocIn sblock true g 0 bound) s r s') : Journaled s s' := by
  simp only [allocIn, runs_bind, runs_cacheAcquire] at hr
  obtain ⟨_, _, ⟨-, rfl, rfl⟩, hr⟩ := hr
  cases hf : (List.range bound).find? fun j => !bitmapGet (s.disk (bitmapBlock sblock g 0)) j with
  | none =>
    rw [hf] at hr
    simp only [runs_bind, runs_cacheRelease, runs_pure] at hr
    obtain ⟨_, _, rfl, -, rfl⟩ := hr
    exact .of_eq rfl rfl
  | some j =>
    have hj : j < bound := by simpa using List.mem_of_find?_eq_some hf
    rw [hf] at hr
    simp only [runs_bind, runs_writeBack, runs_cacheAcquire, runs_modify, runs_pure] at hr
    obtain ⟨_, _, ⟨c₁, hc₁, rfl⟩, _, _, ⟨-, -, rfl⟩, _, _, ⟨c₂, hc₂, rfl⟩, _, _, rfl, -, rfl⟩ := hr
    have hbitmap : InGroups (bitmapBlock sblock g 0) := by
      rw [inGroups_iff, bitmapBlock_eq]
      omega
    have hblock : InGroups (sblock.bgStart + g * sblock.blocksPerGroup + 0 + j) := by
      rw [inGroups_iff]
      show 65 ≤ 65 + g * 1000 + 0 + j ∧ 65 + g * 1000 + 0 + j < 10065
      omega
    have hfirst : Journaled s { s with
        disk := Function.update s.disk (bitmapBlock sblock g 0)
          (bitmapSet (s.disk (bitmapBlock sblock g 0)) j)
        ctx := c₁ } := .store hbitmap rfl hc₁
    apply hfirst.trans
    exact .store hblock rfl hc₂

/-- The rounds of an allocation over the bitmap blocks of one group. -/
theorem searchGroup_journaled {r : Option Nat} (bound : Nat → Nat) (hg : g < 10) (hbound : bound 0 ≤ 1000)
    (hr : Runs (Exec.search (fun i => allocIn sblock true g i (bound i)) (bitmapStarts sblock)) s r s') :
    Journaled s s' := by
  rw [bitmapStarts_sblock] at hr
  refine .search (fun i hi s r t hr => ?_) hr
  obtain rfl : i = 0 := by simpa using hi
  exact allocIn_journaled hg hbound hr

theorem cacheAllocg_journaled (hr : Runs (cacheAllocg sblock true g) s b s') : Journaled s s' := by
  simp only [cacheAllocg, runs_bind, runs_require, runs_pure] at hr
  obtain ⟨_, _, ⟨hg, rfl⟩, found, t, hsearch, -, rfl⟩ := hr
  exact searchGroup_journaled (fun _ => min bitPerBlock sblock.blocksPerGroup) hg
    (Nat.min_le_right ..) hsearch

theorem cacheAlloc_journaled (hr : Runs (cacheAlloc sblock true) s b s') : Journaled s s' := by
  simp only [cacheAlloc, runs_bind] at hr
  obtain ⟨found, t, hsearch, hr⟩ := hr
  have hfound : Journaled s t := by
    refine .search (fun h hh s r t hr => ?_) hsearch
    have hlt : h < 10 := List.mem_range.mp hh
    exact searchGroup_journaled (fun i => min bitPerBlock (sblock.blocksPerGroup - i)) hlt
      (Nat.min_le_right ..) hr
  cases found with
  | none => exact absurd hr runs_throw
  | some a =>
    obtain ⟨-, rfl⟩ := runs_pure.mp hr
    exact hfound

theorem allocNear_journaled (hr : Runs (allocNear sblock true g) s b s') : Journaled s s' := by
  simp only [allocNear, runs_bind] at hr
  obtain ⟨c, t, hnear, hr⟩ := hr
  have hfirst := cacheAllocg_journaled hnear
  split at hr
  case isTrue => exact hfirst.trans (cacheAlloc_journaled hr)
  case isFalse =>
    obtain ⟨-, rfl⟩ := runs_pure.mp hr
    exact hfirst

theorem cacheFree_journaled (hb : InGroups b) (hr : Runs (cacheFree sblock true b) s u s') :
    Journaled s s' := by
  obtain ⟨-, -, c, hc, rfl⟩ := (runs_cacheFree hb).mp hr
  exact .store (isBitmap_bitmapOf hb).1 rfl hc

/-- The frees of the addresses in a list of places. -/
theorem freeAddrs_journaled {a : Nat → UInt32} {l : List Nat} (ha : ∀ i ∈ l, a i ≠ 0 → InGroups (a i).toNat)
    (hr : Runs (l.forM fun i => freeAddr sblock true (a i)) s u s') : Journaled s s' := by
  induction l generalizing s with
  | nil =>
    obtain ⟨-, rfl⟩ := runs_pure.mp (show Runs (pure ()) s u s' from hr)
    exact .of_eq rfl rfl
  | cons i l ih =>
    obtain ⟨_, t, hfree, hr⟩ := runs_bind.mp
      (show Runs (freeAddr sblock true (a i) >>= fun _ => l.forM _) s u s' from hr)
    have hrest := ih (fun j hj => ha j (by simp [hj])) hr
    rcases runs_when.mp hfree with ⟨hne, hfree⟩ | ⟨-, rfl⟩
    · exact (cacheFree_journaled (ha i (by simp) hne) hfree).trans hrest
    · exact hrest

/-! ### The inode -/

theorem inodeSync_journaled (hv : (s.mem p).valid = true) (hn : IsInode (s.mem p).inodeNo)
    (hr : Runs (inodeSync sblock true p true) s u s') : Journaled s s' := by
  obtain ⟨-, c, hc, rfl⟩ := (runs_inodeSync_write hv).mp hr
  exact .store (isInodes_toBlockNo hn).1 rfl hc

/-- `clearTable` of a table that holds blocks of the groups. -/
theorem clearTable_journaled {iaddr : Nat} (hi : InGroups iaddr)
    (htable : ∀ k, getAddr (s.disk iaddr) k ≠ 0 → InGroups (getAddr (s.disk iaddr) k).toNat)
    (hr : Runs (clearTable sblock true p iaddr) s u s') : Journaled s s' := by
  simp only [clearTable, runs_bind, runs_cacheAcquire, runs_cacheRelease, runs_modifyEntry] at hr
  obtain ⟨_, _, ⟨-, rfl, rfl⟩, _, t, hloop, _, _, rfl, _, t', hfree, rfl⟩ := hr
  have hloop' := freeAddrs_journaled (fun k _ => htable k) hloop
  have hfirst : Journaled s t := hloop'
  have hsecond := cacheFree_journaled hi hfree
  exact hfirst.trans hsecond

theorem inodeClear_journaled (hv : (s.mem p).valid = true) (hno : (s.mem p).inodeNo = n)
    (hE : E n = (s.mem p).entry) (hn : InUse E n) (ho : BlocksOwned E s.disk)
    (hr : Runs (inodeClear sblock true p) s u s') : Journaled s s' := by
  simp only [inodeClear, runs_bind, runs_get, runs_modifyEntry] at hr
  obtain ⟨_, _, ⟨rfl, rfl⟩, _, t₁, hdirect, _, _, rfl, _, t₂, htable, _, _, rfl, hsync⟩ := hr
  rw [← hE] at hdirect htable
  have hgroups (pl : Place) (hpl : blockOf (E n) s.disk pl ≠ 0) : InGroups (blockOf (E n) s.disk pl) :=
    (ho.isData pl hn hpl).1
  have hnum {a : UInt32} (ha : a ≠ 0) : a.toNat ≠ 0 := fun hz => ha (toNat_eq_zero.mp hz)
  obtain ⟨hframe, -, -⟩ := clearBlocks_spec hE hn ho hdirect htable
  have hfirst : Journaled s t₁ :=
    freeAddrs_journaled (fun i _ hi => hgroups (.direct i) (hnum hi)) hdirect
  obtain ⟨-, hfreeing, -⟩ := freeAddrs_spec place_direct_injective List.nodup_range ho.freeing
    (fun i _ => ref_of_inUse hn) hdirect
  have hsecond : Journaled t₁ t₂ := by
    rcases runs_when.mp htable with ⟨h0, htable⟩ | ⟨-, rfl⟩
    · have htd := ho.isData_table hn h0
      -- The frees of the direct blocks have changed bitmaps only.
      have hkept : t₁.disk (E n).indirect.toNat = s.disk (E n).indirect.toNat := hfreeing.same _ htd.not_bitmap
      refine clearTable_journaled (s := t₁.setInode p _) htd.1 (fun k hk => ?_) htable
      rw [State.disk_setInode, hkept] at hk ⊢
      have hslot : blockOf (E n) s.disk (.slot k) = (getAddr (s.disk (E n).indirect.toNat) k).toNat := by
        simp [blockOf, h0]
      rw [← hslot]
      apply hgroups
      rw [hslot]
      exact hnum hk
    · exact .of_eq rfl rfl
  apply hfirst.trans
  apply hsecond.trans
  have hinode := hframe.inode
  refine inodeSync_journaled (s := t₂.setInode p _) ?_ ?_ hsync
  · rw [State.mem_setInode_same, hinode]
    exact hv
  · rw [State.mem_setInode_same, hinode]
    exact hno ▸ hn.1

theorem freeInode_journaled (hno : (s.mem p).inodeNo = n) (hn : IsInode n) (hE : E n = s.loaded p)
    (ho : BlocksOwned E s.disk) (hr : Runs (freeInode sblock true p) s u s') : Journaled s s' := by
  unfold freeInode at hr
  simp only [runs_bind (x := inodeLock sblock p), runs_bind (x := inodeClear sblock true p),
    runs_inodeLock] at hr
  obtain ⟨_, _, ⟨-, -, -, ht, rfl⟩, _, t, hclear, hend⟩ := hr
  have hu : InUse E n := ⟨hn, by rw [hE]; exact ht⟩
  obtain ⟨hv₁, hno₁, hE₁⟩ := lockedInode_inode hno hE
  have hfirst := inodeClear_journaled hv₁ hno₁ hE₁ hu ho hclear
  have hinode := (inodeClear_spec hv₁ hno₁ hE₁ hu ho hclear).frame.inode
  rw [State.mem_setInode_same] at hinode
  rw [runs_freeEnd (by rw [hinode]; rfl)] at hend
  obtain ⟨-, -, -, c, hrec, rfl⟩ := hend
  have hblock : InGroups (toBlockNo sblock (t.mem p).inodeNo) := by
    rw [hinode]
    exact (isInodes_toBlockNo (hno ▸ hn)).1
  have hlocked : Journaled s t := hfirst
  apply hlocked.trans
  exact .store hblock rfl hrec

theorem Cached.inodePut_journaled {dirty : Set Nat} (h : Cached dirty s) (hp : p ∈ s.list)
    (hr : Runs (Fs.inodePut sblock true p) s u s') : Journaled s s' := by
  rw [runs_inodePut] at hr
  split at hr
  case isTrue =>
    obtain ⟨t, hfree, rfl⟩ := hr
    have hentry : Function.update (diskEntry s.disk) (s.mem p).inodeNo (s.loaded p) (s.mem p).inodeNo =
        s.loaded p := Function.update_self ..
    have hfreed := freeInode_journaled rfl (h.list.isInode p hp) hentry (h.owned_loaded hp) hfree
    exact hfreed
  case isFalse =>
    subst hr
    exact .of_eq rfl rfl

theorem claimInode_journaled {type : UInt16} {r : Option Nat} (hn : IsInode n)
    (hr : Runs (claimInode sblock true type n) s r s') : Journaled s s' := by
  simp only [claimInode, runs_bind, runs_cacheAcquire] at hr
  obtain ⟨_, _, ⟨-, rfl, rfl⟩, hr⟩ := hr
  split at hr
  case isTrue =>
    simp only [runs_bind, runs_writeBack, runs_pure] at hr
    obtain ⟨_, _, ⟨c, hc, rfl⟩, -, rfl⟩ := hr
    exact .store (isInodes_toBlockNo hn).1 rfl hc
  case isFalse =>
    simp only [runs_bind, runs_cacheRelease, runs_pure] at hr
    obtain ⟨_, _, rfl, -, rfl⟩ := hr
    exact .of_eq rfl rfl

theorem inodeAlloc_journaled {type : UInt16} (hr : Runs (inodeAlloc sblock true type) s n s') :
    Journaled s s' := by
  simp only [inodeAlloc, runs_bind, runs_require, runs_pure] at hr
  obtain ⟨_, _, ⟨-, rfl⟩, found, t, hsearch, -, rfl⟩ := hr
  refine .search (fun m hm s r t hr => claimInode_journaled ?_ hr) hsearch
  have hm' : m ∈ List.range' 1 200 := hm
  rw [List.mem_range'_1] at hm'
  rw [isInode_iff]
  omega

theorem claimFrom_journaled {type : UInt16} (hr : Runs (claimFrom sblock true type g) s n s') :
    Journaled s s' := by
  simp only [claimFrom, runs_bind, runs_pure] at hr
  obtain ⟨found, t, hsearch, -, rfl⟩ := hr
  refine .search (fun g _ s r t hr => .search (fun ino hino s r t hr => ?_) hr) hsearch
  simp only [runs_bind, runs_require] at hr
  obtain ⟨_, _, ⟨hle, rfl⟩, hr⟩ := hr
  have hino' : ino ∈ List.range' 1 20 := hino
  rw [List.mem_range'_1] at hino'
  exact claimInode_journaled (isInode_iff.mpr ⟨by omega, hle⟩) hr

theorem inodeAllocGroup_journaled {type : UInt16} (hr : Runs (inodeAllocGroup sblock true type g) s n s') :
    Journaled s s' := by
  simp only [inodeAllocGroup, runs_bind, runs_require] at hr
  obtain ⟨_, _, ⟨-, rfl⟩, hr⟩ := hr
  split at hr
  case isTrue =>
    simp only [runs_bind, runs_get] at hr
    obtain ⟨_, _, ⟨rfl, rfl⟩, hr⟩ := hr
    split at hr
    case isTrue =>
      obtain ⟨-, rfl⟩ := runs_pure.mp hr
      exact .of_eq rfl rfl
    case isFalse => exact claimFrom_journaled hr
  case isFalse => exact claimFrom_journaled hr

/-! ### Blocks of an inode -/

theorem mapDirect_journaled {index : Nat} {r : Nat × Bool} (hr : Runs (mapDirect sblock true p index) s r s') :
    Journaled s s' := by
  simp only [mapDirect, runs_bind, runs_get] at hr
  obtain ⟨_, _, ⟨rfl, rfl⟩, hr⟩ := hr
  split at hr
  case isTrue =>
    simp only [runs_bind, runs_modifyEntry, runs_pure] at hr
    obtain ⟨c, t, halloc, _, _, rfl, -, rfl⟩ := hr
    have hfirst := allocNear_journaled halloc
    exact hfirst
  case isFalse =>
    obtain ⟨-, rfl⟩ := runs_pure.mp hr
    exact .of_eq rfl rfl

theorem mapTable_journaled {m : Bool} (hr : Runs (mapTable sblock true p) s m s') : Journaled s s' := by
  simp only [mapTable, runs_bind, runs_get] at hr
  obtain ⟨_, _, ⟨rfl, rfl⟩, hr⟩ := hr
  split at hr
  case isTrue =>
    simp only [runs_bind, runs_modifyEntry, runs_pure] at hr
    obtain ⟨c, t, halloc, _, _, rfl, -, rfl⟩ := hr
    have hfirst := allocNear_journaled halloc
    exact hfirst
  case isFalse =>
    obtain ⟨-, rfl⟩ := runs_pure.mp hr
    exact .of_eq rfl rfl

theorem mapSlot_journaled {iaddr k : Nat} {m : Bool} {r : Nat × Bool} (hi : InGroups iaddr)
    (hr : Runs (mapSlot sblock true iaddr k m) s r s') : Journaled s s' := by
  simp only [mapSlot, runs_bind, runs_cacheAcquire] at hr
  obtain ⟨_, t, ⟨-, rfl, rfl⟩, hr⟩ := hr
  split at hr
  case isFalse =>
    simp only [runs_bind, runs_cacheRelease, runs_pure] at hr
    obtain ⟨_, _, rfl, -, rfl⟩ := hr
    exact .of_eq rfl rfl
  case isTrue =>
    simp only [runs_bind, runs_get] at hr
    obtain ⟨_, _, ⟨rfl, rfl⟩, hr⟩ := hr
    cases hg : tableGroup sblock s.usedBlock k with
    | none =>
      simp only [hg] at hr
      exact absurd hr runs_throw
    | some tgno =>
      simp only [hg, runs_bind, runs_writeBack, runs_pure] at hr
      obtain ⟨c, t, halloc, _, _, ⟨c', hc', rfl⟩, -, rfl⟩ := hr
      have halloc' := cacheAllocg_journaled halloc
      have hfirst : Journaled s t := halloc'
      apply hfirst.trans
      exact .store hi rfl hc'

theorem inodeMap_journaled {off : Nat} {m : Bool} (hE : E n = (s.mem p).entry) (hn : InUse E n)
    (ho : BlocksOwned E s.disk) (hr : Runs (inodeMap sblock true p off) s (b, m) s') : Journaled s s' := by
  simp only [inodeMap] at hr
  split at hr
  case isTrue => exact mapDirect_journaled hr
  case isFalse =>
    simp only [runs_bind, runs_require, runs_get] at hr
    obtain ⟨_, _, ⟨-, rfl⟩, m, t, ht, _, _, ⟨rfl, rfl⟩, hr⟩ := hr
    have hfirst := mapTable_journaled ht
    obtain ⟨e', hmeta, hframe, hne, howned, -⟩ := mapTable_spec hE hn ho ht
    have hn' : InUse (Function.update E n e') n := (inUse_update (by rw [hmeta.type, hE])).mpr hn
    have hentry : (t.mem p).entry = Function.update E n e' n := by
      rw [hframe.inode, Function.update_self]
    have htable : InGroups (t.mem p).entry.indirect.toNat := by
      rw [hentry]
      refine (howned.isData_table hn' ?_).1
      rwa [Function.update_self]
    exact hfirst.trans (mapSlot_journaled htable hr)

/-- The loop of `inode_write`: with `used_block` exact, it never gets block 0 to write to. -/
theorem writeLoop_journaled {src : Nat → UInt8} {off stop fuel start : Nat} {m m' : Bool}
    (hn : InUse E n) (hE : E n = (s.mem p).entry) (ho : BlocksOwned E s.disk)
    (hused : UsedExact s.disk s.usedBlock)
    (hr : Runs (writeLoop sblock true p src off stop fuel start m) s m' s') : Journaled s s' := by
  induction fuel generalizing s start m E with
  | zero =>
    obtain ⟨-, rfl⟩ := runs_pure.mp hr
    exact .of_eq rfl rfl
  | succ fuel ih =>
    unfold writeLoop at hr
    split at hr
    case isFalse =>
      obtain ⟨-, rfl⟩ := runs_pure.mp hr
      exact .of_eq rfl rfl
    case isTrue =>
      simp only [runs_bind, runs_cacheAcquire, runs_writeBack] at hr
      obtain ⟨⟨b, m₁⟩, t, hmap, _, _, ⟨-, rfl, rfl⟩, _, _, ⟨c, hc, rfl⟩, hr⟩ := hr
      obtain ⟨-, e₁, hm⟩ := inodeMap_spec hE hn ho hmap
      have hhere := hm.mapped.here
      have hdata : IsData b := by
        have hpos : b ≠ 0 := hm.filled hused
        rw [← hhere] at hpos ⊢
        exact hm.mapped.owned.owns.inArea _ hpos
      set x := (t.disk b).splice (start % blockSize) (min (stop - start) (blockSize - start % blockSize))
        fun i => src (start - off + i)
      have hframe := hm.frame.store hdata.not_bitmap x c
      have hn₁ : InUse (Function.update E n e₁) n := (inUse_update (by rw [hm.fields.type, hE])).mpr hn
      have hfirst := inodeMap_journaled hE hn ho hmap
      apply hfirst.trans
      have hsecond : Journaled t { t with
          disk := Function.update t.disk b x, ctx := c, held := (b :: t.held).erase b } := .store hdata.1 rfl hc
      apply hsecond.trans
      refine ih hn₁ ?_ (hm.mapped.owned.store hhere.symm) (hframe.used hused) hr
      rw [hframe.inode, Function.update_self]

theorem inodeWrite_journaled {src : Nat → UInt8} {off count r : Nat} (hv : (s.mem p).valid = true)
    (hno : (s.mem p).inodeNo = n) (hE : E n = (s.mem p).entry) (hn : InUse E n) (ho : BlocksOwned E s.disk)
    (hused : UsedExact s.disk s.usedBlock) (hdev : (s.mem p).entry.type ≠ inodeDevice)
    (hr : Runs (inodeWrite sblock true p src off count) s r s') : Journaled s s' := by
  simp only [inodeWrite, runs_bind, runs_get] at hr
  obtain ⟨_, _, ⟨rfl, rfl⟩, hr⟩ := hr
  rw [if_neg hdev] at hr
  simp only [runs_bind, runs_require, runs_pure] at hr
  obtain ⟨_, _, ⟨-, rfl⟩, _, _, ⟨-, rfl⟩, m, t, hloop, _, t₁, hsize, _, t₂, hsync, -, rfl⟩ := hr
  have hfirst := writeLoop_journaled hn hE ho hused hloop
  obtain ⟨e₁, -, hframe, -⟩ := writeLoop_spec hn hE ho (Nat.le_refl off) (by omega) hloop
  have hinode := hframe.inode
  have hsized : Journaled t t₁ ∧ (t₁.mem p).valid = true ∧ (t₁.mem p).inodeNo = n := by
    rcases runs_when.mp hsize with ⟨-, hsize⟩ | ⟨-, rfl⟩
    · rw [runs_modifyEntry] at hsize
      subst hsize
      rw [State.mem_setInode_same, hinode]
      exact ⟨.of_eq rfl rfl, hv, hno⟩
    · rw [hinode]
      exact ⟨.of_eq rfl rfl, hv, hno⟩
  obtain ⟨hsecond, hv₁, hno₁⟩ := hsized
  apply hfirst.trans
  apply hsecond.trans
  rcases runs_when.mp hsync with ⟨-, hsync⟩ | ⟨-, rfl⟩
  · exact inodeSync_journaled hv₁ (hno₁ ▸ hn.1) hsync
  · exact .of_eq rfl rfl

theorem Whole.inodeWrite_journaled (h : Whole s) (hp : p ∈ s.list) (hv : (s.mem p).valid = true)
    {src : Nat → UInt8} {off count r : Nat} (hr : Runs (Fs.inodeWrite sblock true p src off count) s r s') :
    Journaled s s' := by
  by_cases hdev : (s.mem p).entry.type = inodeDevice
  · obtain ⟨-, rfl⟩ := h.cached.inodeWrite_device hp hdev hr
    exact .of_eq rfl rfl
  · exact Fs.inodeWrite_journaled hv rfl State.view_self (h.cached.inUse_view hp hv) (h.cached.owned_view hp hv)
      h.used hdev hr

theorem Whole.inodeInsert_journaled (h : Whole s) (hp : p ∈ s.list) (hv : (s.mem p).valid = true)
    {name : List UInt8} {r : Nat} (hr : Runs (Fs.inodeInsert sblock true p name n) s r s') :
      Journaled s s' := by
  simp only [Fs.inodeInsert, runs_bind, runs_get, runs_require, runs_pure] at hr
  obtain ⟨_, _, ⟨rfl, rfl⟩, _, _, ⟨-, rfl⟩, found, t, hscan, _, _, hwrite, -, rfl⟩ := hr
  obtain ⟨rfl, rfl⟩ := h.cached.scan hp hv hscan
  exact h.inodeWrite_journaled hp hv hwrite

theorem Whole.inodeRemove_journaled (h : Whole s) (hp : p ∈ s.list) (hv : (s.mem p).valid = true)
    {index : Nat} (hr : Runs (Fs.inodeRemove sblock true p index) s u s') : Journaled s s' := by
  simp only [Fs.inodeRemove, runs_bind, runs_get, runs_require] at hr
  obtain ⟨_, _, ⟨rfl, rfl⟩, _, _, ⟨-, rfl⟩, hr⟩ := hr
  split at hr
  case isTrue =>
    obtain ⟨-, rfl⟩ := runs_pure.mp hr
    exact .of_eq rfl rfl
  case isFalse =>
    simp only [runs_bind, runs_pure] at hr
    obtain ⟨_, _, hwrite, -, rfl⟩ := hr
    exact h.inodeWrite_journaled hp hv hwrite

end FtosFfs.Fs
