import FtosFfs.Fs.Idle

/-! Bounds on the blocks that an operation syncs: a set that covers its record, and how much one call
adds to the set. -/

namespace FtosFfs.Fs

open Lib Lib.Exec Cache

variable {s t : State} {p : Ptr} {B C D : Finset Nat} {b k n : Nat}

/-! ### Calls without a context -/

theorem never_cacheAcquire (b : Nat) : Never Fault.overflow (cacheAcquire b) :=
  .bind .get fun _ => .ite (.throw nofun) (.bind (.set _) fun _ => .pure _)

theorem never_cacheRelease (b : Nat) : Never Fault.overflow (cacheRelease b) := .modify _

theorem never_writeBack (b : Nat) (d : BlockData) : Never Fault.overflow (writeBack false b d) :=
  .bind (.modify _) fun _ => .bind (.bind .get fun _ => .pure _) fun _ => never_cacheRelease b

theorem never_allocIn (h i bound : Nat) : Never Fault.overflow (allocIn sblock false h i bound) := by
  unfold allocIn
  refine .bind (never_cacheAcquire _) fun bitmap => ?_
  cases (List.range bound).find? fun j => !bitmapGet bitmap j with
  | none => exact .bind (never_cacheRelease _) fun _ => .pure _
  | some j =>
    refine .bind (never_writeBack _ _) fun _ => .bind (never_cacheAcquire _) fun _ => ?_
    exact .bind (never_writeBack _ _) fun _ => .bind (.modify _) fun _ => .pure _

theorem never_cacheAlloc : Never Fault.overflow (cacheAlloc sblock false) := by
  unfold cacheAlloc
  refine .bind (.search (fun h => .search (fun i => never_allocIn h i _) _) _) fun found => ?_
  cases found with
  | none => exact .throw nofun
  | some b => exact .pure b

theorem never_cacheAllocg (g : Nat) : Never Fault.overflow (cacheAllocg sblock false g) :=
  .bind (never_assert _) fun _ => .bind (.search (fun i => never_allocIn g i _) _) fun _ => .pure _

theorem never_allocNear (g : Nat) : Never Fault.overflow (allocNear sblock false g) :=
  .bind (never_cacheAllocg g) fun _ => .ite never_cacheAlloc (.pure _)

theorem never_inodeMap (p : Ptr) (offset : Nat) : Never Fault.overflow (inodeMap sblock false p offset) := by
  refine .ite (.bind .get fun s => .ite ?_ (.pure _)) (.bind (never_assert _) fun _ => ?_)
  · exact .bind (never_allocNear _) fun _ => .bind (.modify _) fun _ => .pure _
  · refine .bind (.bind .get fun s => .ite ?_ (.pure _)) fun modified => .bind .get fun s => ?_
    · exact .bind (never_allocNear _) fun _ => .bind (.modify _) fun _ => .pure _
    · refine .bind (never_cacheAcquire _) fun block => .ite (.bind .get fun s => ?_) ?_
      · cases tableGroup sblock s.usedBlock (offset / blockSize - inodeNumDirect) with
        | none => exact .throw nofun
        | some g => exact .bind (never_cacheAllocg g) fun _ => .bind (never_writeBack _ _) fun _ => .pure _
      · exact .bind (never_cacheRelease _) fun _ => .pure _

theorem never_readLoop (p : Ptr) (offset stop fuel start : Nat) (dest : Nat → UInt8) :
    Never Fault.overflow (readLoop sblock p offset stop fuel start dest) := by
  induction fuel generalizing start dest with
  | zero => exact .pure _
  | succ fuel ih =>
    refine .ite (.bind (never_inodeMap p start) fun _ => .bind (never_assert _) fun _ => ?_) (.pure _)
    exact .bind (never_cacheAcquire _) fun _ => .bind (never_cacheRelease _) fun _ => ih _ _

theorem never_inodeRead (p : Ptr) (dest : Nat → UInt8) (offset count : Nat) :
    Never Fault.overflow (inodeRead sblock p dest offset count) := by
  refine .bind .get fun s => .ite (.bind (never_assert _) fun _ => .throw nofun) ?_
  exact .bind (never_assert _) fun _ => .bind (never_readLoop p _ _ _ _ _) fun _ => .pure _

theorem never_scan (p : Ptr) (whole : Bool) (hit : DirEntry → Bool) (n offset : Nat) (dentry : DirEntry) :
    Never Fault.overflow (scan sblock p whole hit n offset dentry) := by
  induction n generalizing offset dentry with
  | zero => exact .pure _
  | succ n ih =>
    refine .bind (never_inodeRead p _ _ _) fun r => .bind (never_assert _) fun _ => ?_
    exact .ite (.pure _) (ih _ _)

theorem never_inodeLookup (p : Ptr) (name : List UInt8) :
    Never Fault.overflow (inodeLookup sblock p name) :=
  .bind .get fun _ => .bind (never_assert _) fun _ => .bind (never_scan p _ _ _ _ _) fun _ => .pure _

theorem never_inodeSync (p : Ptr) (doWrite : Bool) :
    Never Fault.overflow (inodeSync sblock false p doWrite) := by
  refine .bind .get fun s => .bind (never_cacheAcquire _) fun block => .ite (never_writeBack _ _) ?_
  exact .ite (.bind (.modify _) fun _ => never_cacheRelease _) (never_cacheRelease _)

theorem never_inodeLock (p : Ptr) : Never Fault.overflow (inodeLock sblock p) := by
  refine .bind .get fun s => .bind (never_assert _) fun _ => .ite (.throw nofun) ?_
  refine .bind (.modify _) fun _ => .bind (.when (never_inodeSync p false)) fun _ => ?_
  exact .bind .get fun s => never_assert _

theorem never_inodeGet (n : Nat) : Never Fault.overflow (inodeGet sblock n) := by
  unfold inodeGet
  refine .bind (never_assert _) fun _ => .bind (never_assert _) fun _ => .bind .get fun s => ?_
  split
  case h_1 => exact .bind (.modify _) fun _ => .pure _
  case h_2 => exact .bind (.set _) fun _ => .bind (.modify _) fun _ => .pure _

/-! ### The record of an operation -/

/-- The record of the operation has no block twice, and its blocks are in `B`. -/
structure Covered (B : Finset Nat) (s : State) : Prop where
  nodup : s.ctx.blockNo.Nodup
  sub : ∀ b ∈ s.ctx.blockNo, b ∈ B

theorem Covered.mono (h : Covered B s) (hsub : B ⊆ C) : Covered C s :=
  ⟨h.nodup, fun b hb => hsub (h.sub b hb)⟩

theorem Covered.congr (h : Covered B s) (hctx : t.ctx = s.ctx) : Covered B t :=
  ⟨hctx ▸ h.nodup, hctx ▸ h.sub⟩

/-- With `k` blocks more, the record of the operation is covered, and so are the blocks in `D`. -/
def Spent (B : Finset Nat) (k : Nat) (D : Finset Nat) (s : State) : Prop :=
  ∃ C, B ⊆ C ∧ C.card ≤ B.card + k ∧ D ⊆ C ∧ Covered C s

theorem Covered.spent_one (h : Covered B s) (b : Nat) : Spent B 1 {b} s :=
  ⟨insert b B, Finset.subset_insert b B, Finset.card_insert_le b B,
    Finset.singleton_subset_iff.mpr (Finset.mem_insert_self b B), h.mono (Finset.subset_insert b B)⟩

theorem Spent.congr (h : Spent B k D s) (hctx : t.ctx = s.ctx) : Spent B k D t := by
  obtain ⟨C, hB, hcard, hD, hcov⟩ := h
  exact ⟨C, hB, hcard, hD, hcov.congr hctx⟩

theorem Spent.mono {k' : Nat} (h : Spent B k D s) (hk : k ≤ k') : Spent B k' D s := by
  obtain ⟨C, hB, hcard, hD, hcov⟩ := h
  exact ⟨C, hB, Nat.le_trans hcard (Nat.add_le_add_left hk _), hD, hcov⟩

/-- What is spent from a larger cover. -/
theorem Spent.from {k' : Nat} (h : Spent C k' D s) (hB : B ⊆ C) (hcard : C.card ≤ B.card + k) :
    Spent B (k + k') D s := by
  obtain ⟨C', hC, hcard', hD, hcov⟩ := h
  exact ⟨C', hB.trans hC, by omega, hD, hcov⟩

theorem Covered.length_le (h : Covered B s) : s.ctx.blockNo.length ≤ B.card := by
  rw [← List.toFinset_card_of_nodup h.nodup]
  exact Finset.card_le_card fun b hb => h.sub b (List.mem_toFinset.mp hb)

/-- A block of the cover that is not recorded is to be counted. -/
theorem Covered.length_lt (h : Covered B s) (hb : b ∈ B) (hnew : b ∉ s.ctx.blockNo) :
    s.ctx.blockNo.length < B.card := by
  rw [← List.toFinset_card_of_nodup h.nodup]
  refine Finset.card_lt_card ⟨fun x hx => h.sub x (List.mem_toFinset.mp hx), fun hsub => ?_⟩
  exact hnew (List.mem_toFinset.mp (hsub hb))

theorem cacheSync_spares (h : Covered B s) (hb : b ∈ B) (hB : B.card ≤ opMaxNumBlocks) :
    Spares .overflow (fun _ t => Covered B t) (cacheSync true b) s := by
  refine .get ?_
  rw [if_pos rfl, OpContext.record_eq s.ctx b (h.length_le.trans hB)]
  by_cases hmem : b ∈ s.ctx.blockNo
  · rw [if_pos hmem]
    exact .set (h.congr rfl)
  · rw [if_neg hmem, if_pos (Nat.lt_of_lt_of_le (h.length_lt hb hmem) hB)]
    refine .set ⟨?_, fun x hx => ?_⟩
    · exact List.nodup_append.mpr ⟨h.nodup, List.nodup_singleton b, fun x hx y hy heq =>
        hmem (List.mem_singleton.mp hy ▸ heq ▸ hx)⟩
    · rcases List.mem_append.mp hx with hx | hx
      · exact h.sub x hx
      · exact List.mem_singleton.mp hx ▸ hb

theorem cacheAcquire_spares (h : Covered B s) :
    Spares .overflow (fun _ t => Covered B t) (cacheAcquire b) s := by
  refine ⟨never_cacheAcquire b s, fun a t hr => ?_⟩
  obtain ⟨-, -, rfl⟩ := runs_cacheAcquire.mp hr
  exact h.congr rfl

theorem writeBack_spares {d : BlockData} (h : Covered B s) (hb : b ∈ B) (hB : B.card ≤ opMaxNumBlocks) :
    Spares .overflow (fun _ t => Covered B t) (writeBack true b d) s := by
  have hset : Spares Fault.overflow (fun _ t => Covered B t) (setData b d) s := .modify (h.congr rfl)
  refine hset.bind fun _ t _ ht => (cacheSync_spares ht hb hB).bind fun _ u _ hu => ?_
  exact .modify (hu.congr rfl)

/-! ### Allocation -/

/-- A round of the allocators syncs a bitmap and the block that it allocates. -/
theorem allocIn_spares (h i bound : Nat) (hcov : Covered B s) (hB : B.card + 2 ≤ opMaxNumBlocks) :
    Spares .overflow (fun o t => (o = none → Covered B t) ∧ ∀ b ∈ o, b ≠ 0 ∧ Spent B 2 {b} t)
      (allocIn sblock true h i bound) s := by
  unfold allocIn
  refine (cacheAcquire_spares hcov).bind fun bitmap t _ ht => ?_
  cases (List.range bound).find? fun j => !bitmapGet bitmap j with
  | none =>
    have hrelease : Spares Fault.overflow (fun _ u => Covered B u) (cacheRelease (bitmapBlock sblock h i)) t :=
      .modify (ht.congr rfl)
    exact hrelease.bind fun _ u _ hu => .pure ⟨fun _ => hu, nofun⟩
  | some j =>
    set m := bitmapBlock sblock h i
    set b := sblock.bgStart + h * sblock.blocksPerGroup + i + j
    set C := insert m (insert b B)
    have hcard : C.card ≤ B.card + 2 :=
      (Finset.card_insert_le m _).trans (Nat.succ_le_succ (Finset.card_insert_le b B))
    have hsub : B ⊆ C := (Finset.subset_insert b B).trans (Finset.subset_insert m _)
    have hm : m ∈ C := Finset.mem_insert_self m _
    have hbC : b ∈ C := Finset.mem_insert_of_mem (Finset.mem_insert_self b B)
    have hmax : C.card ≤ opMaxNumBlocks := hcard.trans hB
    refine (writeBack_spares (ht.mono hsub) hm hmax).bind fun _ t₁ _ h₁ => ?_
    refine (cacheAcquire_spares h₁).bind fun _ t₂ _ h₂ => ?_
    refine (writeBack_spares h₂ hbC hmax).bind fun _ t₃ _ h₃ => ?_
    have hused : Spares Fault.overflow (fun _ u => Covered C u) (modify fun s : State =>
        { s with usedBlock := Function.update s.usedBlock h (s.usedBlock h + 1) }) t₃ :=
      .modify (h₃.congr rfl)
    refine hused.bind fun _ t₄ _ h₄ => .pure ⟨nofun, fun x hx => ?_⟩
    obtain rfl := Option.some.inj hx
    refine ⟨?_, C, hsub, hcard, Finset.singleton_subset_iff.mpr hbC, h₄⟩
    show 65 + _ + _ + _ ≠ 0
    omega

theorem cacheAlloc_spares (hcov : Covered B s) (hB : B.card + 2 ≤ opMaxNumBlocks) :
    Spares .overflow (fun b t => Spent B 2 {b} t) (cacheAlloc sblock true) s := by
  have hsearch := Spares.search (l := List.range sblock.numGroups) hcov fun h _ t ht =>
    Spares.search (l := bitmapStarts sblock) ht fun i _ u hu => allocIn_spares h i
      (min bitPerBlock (sblock.blocksPerGroup - i)) hu hB
  refine hsearch.bind fun found t _ ht => ?_
  cases found with
  | none => exact .throw nofun
  | some b => exact .pure (ht.2 b rfl).2

theorem cacheAllocg_spares (g : Nat) (hcov : Covered B s) (hB : B.card + 2 ≤ opMaxNumBlocks) :
    Spares .overflow (fun b t => (b = 0 ∧ Covered B t) ∨ (b ≠ 0 ∧ Spent B 2 {b} t))
      (cacheAllocg sblock true g) s := by
  have hsearch := Spares.search (l := bitmapStarts sblock) hcov fun i _ t ht =>
    allocIn_spares g i (min bitPerBlock sblock.blocksPerGroup) ht hB
  refine .require nofun fun _ => hsearch.bind fun found t _ ht => .pure ?_
  cases found with
  | none => exact .inl ⟨rfl, ht.1 rfl⟩
  | some b => exact .inr (ht.2 b rfl)

theorem allocNear_spares (g : Nat) (hcov : Covered B s) (hB : B.card + 2 ≤ opMaxNumBlocks) :
    Spares .overflow (fun b t => Spent B 2 {b} t) (allocNear sblock true g) s := by
  refine (cacheAllocg_spares g hcov hB).bind fun b t _ ht => ?_
  rcases ht with ⟨rfl, ht⟩ | ⟨hb, ht⟩
  · rw [if_pos rfl]
    exact cacheAlloc_spares ht hB
  · rw [if_neg hb]
    exact .pure ht

/-! ### Blocks of an inode -/

/-- A bound on the blocks that `inode_map` syncs for an offset, that of the file itself included. -/
def mapMax (offset : Nat) : Nat := if offset / blockSize < inodeNumDirect then 2 else 4

theorem mapDirect_spares {index : Nat} (hcov : Covered B s) (hB : B.card + 2 ≤ opMaxNumBlocks) :
    Spares .overflow (fun r t => Spent B 2 {r.1} t) (mapDirect sblock true p index) s := by
  refine .get (.ite (fun _ => ?_) fun _ => .pure ((hcov.spent_one _).mono (by decide)))
  refine (allocNear_spares _ hcov hB).bind fun b t _ ht => ?_
  have hset : Spares Fault.overflow (fun _ u => Spent B 2 {b} u)
      (modifyEntry p fun e => InodeEntry.setAddrs e index (UInt32.ofNat b)) t := .modify (ht.congr rfl)
  exact hset.bind fun _ u _ hu => .pure hu

theorem mapTable_spares (hm : MetaUsed s.disk) (hcov : Covered B s) (hB : B.card + 2 ≤ opMaxNumBlocks) :
    Spares .overflow (fun _ t => Spent B 2 {(t.mem p).entry.indirect.toNat} t) (mapTable sblock true p) s := by
  refine .get (.ite (fun _ => ?_) fun _ => .pure ((hcov.spent_one _).mono (by decide)))
  refine (allocNear_spares _ hcov hB).bind fun b t hr ht => ?_
  have hb : (UInt32.ofNat b).toNat = b := toNat_ofNat_data (allocNear_spec hm hr).2.data
  refine Spares.bind (Q := fun _ u => Spent B 2 {(u.mem p).entry.indirect.toNat} u) (.modify ?_)
    fun _ u _ hu => .pure hu
  rw [State.mem_setInode_same]
  show Spent B 2 {(UInt32.ofNat b).toNat} _
  rw [hb]
  exact ht.congr rfl

theorem mapSlot_spares {iaddr index : Nat} {modified : Bool} (hcov : Covered B s) (hi : iaddr ∈ B)
    (hB : B.card + 2 ≤ opMaxNumBlocks) :
    Spares .overflow (fun r t => Spent B 2 {r.1} t) (mapSlot sblock true iaddr index modified) s := by
  refine (cacheAcquire_spares hcov).bind fun block t _ ht => .ite (fun _ => .get ?_) fun _ => ?_
  · cases tableGroup sblock t.usedBlock index with
    | none => exact .throw nofun
    | some g =>
      refine (cacheAllocg_spares g ht hB).bind fun b u _ hu => ?_
      have hspent : Spent B 2 {b} u := by
        rcases hu with ⟨rfl, hu⟩ | ⟨-, hu⟩
        · exact (hu.spent_one 0).mono (by decide)
        · exact hu
      obtain ⟨C, hC, hcard, hb, hcov'⟩ := hspent
      refine (writeBack_spares hcov' (hC hi) (hcard.trans hB)).bind fun _ v _ hv => .pure ?_
      exact ⟨C, hC, hcard, hb, hv⟩
  · have hrelease : Spares Fault.overflow (fun _ u => Covered B u) (cacheRelease iaddr) t :=
      .modify (ht.congr rfl)
    exact hrelease.bind fun _ u _ hu => .pure ((hu.spent_one _).mono (by decide))

theorem inodeMap_spares {offset : Nat} (hm : MetaUsed s.disk) (hcov : Covered B s)
    (hB : B.card + mapMax offset ≤ opMaxNumBlocks) :
    Spares .overflow (fun r t => Spent B (mapMax offset) {r.1} t) (inodeMap sblock true p offset) s := by
  unfold inodeMap mapMax at *
  refine .ite (fun hdirect => ?_) fun hdirect => ?_
  · rw [if_pos hdirect] at hB ⊢
    exact mapDirect_spares hcov hB
  · rw [if_neg hdirect] at hB ⊢
    refine .require nofun fun _ => (mapTable_spares hm hcov (by omega)).bind fun modified t _ ht => .get ?_
    obtain ⟨C, hC, hcard, hiaddr, hcov'⟩ := ht
    refine (mapSlot_spares hcov' (Finset.singleton_subset_iff.mp hiaddr) (by omega)).mono fun r u hu => ?_
    exact hu.from hC hcard

theorem inodeSync_spares {doWrite : Bool} (hcov : Covered B s) (hi : toBlockNo sblock (s.mem p).inodeNo ∈ B)
    (hB : B.card ≤ opMaxNumBlocks) :
    Spares .overflow (fun _ t => Covered B t) (inodeSync sblock true p doWrite) s := by
  have hrelease {t : State} (ht : Covered B t) : Spares Fault.overflow (fun _ u => Covered B u)
      (cacheRelease (toBlockNo sblock (s.mem p).inodeNo)) t := .modify (ht.congr rfl)
  refine .get ((cacheAcquire_spares hcov).bind fun block t _ ht => ?_)
  refine .ite (fun _ => writeBack_spares ht hi hB) fun _ => .ite (fun _ => ?_) fun _ => hrelease ht
  exact .bind (Q := fun _ u => Covered B u) (.modify (ht.congr rfl)) fun _ u _ hu => hrelease hu

/-- A write within one block. -/
theorem inodeWrite_spares {src : Nat → UInt8} {off count : Nat} (hm : MetaUsed s.disk) (hcov : Covered B s)
    (hi : toBlockNo sblock (s.mem p).inodeNo ∈ B) (hdev : (s.mem p).entry.type ≠ inodeDevice)
    (hcount : 0 < count) (hblock : off % blockSize + count ≤ blockSize)
    (hB : B.card + mapMax off ≤ opMaxNumBlocks) :
    Spares .overflow (fun _ t => Spent B (mapMax off) ∅ t) (inodeWrite sblock true p src off count) s := by
  have hloop : Spares .overflow (fun _ t => Spent B (mapMax off) ∅ t)
      (writeLoop sblock true p src off (off + count) count off false) s := by
    obtain ⟨fuel, rfl⟩ : ∃ fuel, count = fuel + 1 := ⟨count - 1, by omega⟩
    unfold writeLoop
    rw [if_pos (by omega)]
    refine (inodeMap_spares hm hcov hB).bind fun r t _ ht => ?_
    obtain ⟨C, hC, hcard, hr, hcov'⟩ := ht
    refine (cacheAcquire_spares hcov').bind fun block u _ hu => ?_
    refine (writeBack_spares hu (Finset.singleton_subset_iff.mp hr) (hcard.trans hB)).bind fun _ v _ hv => ?_
    have hstep : off + min (off + (fuel + 1) - off) (blockSize - off % blockSize) = off + (fuel + 1) := by
      omega
    rw [hstep]
    have hspent : Spent B (mapMax off) ∅ v := ⟨C, hC, hcard, Finset.empty_subset C, hv⟩
    cases fuel with
    | zero => exact .pure hspent
    | succ fuel =>
      unfold writeLoop
      rw [if_neg (Nat.lt_irrefl _)]
      exact .pure hspent
  refine .get ?_
  rw [if_neg hdev]
  refine .require (by simp) fun _ => .require (by simp) fun _ => hloop.bind fun modified t hr ht => ?_
  have hno : (t.mem p).inodeNo = (s.mem p).inodeNo := (quiet_writeLoop _ _ _ _ _ _).same hr |>.inodeNo p
  obtain ⟨C, hC, hcard, -, hcov'⟩ := ht
  refine Spares.bind (Q := fun _ u => Covered C u ∧ (u.mem p).inodeNo = (s.mem p).inodeNo)
    (.when (fun _ => .modify ⟨hcov'.congr rfl, ?_⟩) fun _ => ⟨hcov', hno⟩) fun _ u _ hu => ?_
  · rw [State.mem_setInode_same]
    exact hno
  · have hsync : Spares Fault.overflow (fun _ v => Covered C v) (inodeSync sblock true p true) u :=
      inodeSync_spares hu.1 (hC (hu.2 ▸ hi)) (hcard.trans hB)
    refine Spares.bind (Q := fun _ v => Covered C v) (.when (fun _ => hsync) fun _ => hu.1) fun _ v _ hv => ?_
    exact .pure ⟨C, hC, hcard, Finset.empty_subset C, hv⟩

/-! ### Directories -/

theorem scanBytes_offset {f : Nat → UInt8} {size off o : Nat} {hit : DirEntry → Bool} {dentry e : DirEntry}
    (h : scanBytes f size hit k off dentry = some (o, e)) : ∃ j < k, o = off + 16 * j := by
  induction k generalizing off dentry with
  | zero => cases h
  | succ k ih =>
    unfold scanBytes at h
    dsimp only at h
    split at h
    case isTrue =>
      obtain ⟨rfl, -⟩ := Prod.mk.inj (Option.some.inj h)
      exact ⟨0, Nat.succ_pos k, rfl⟩
    case isFalse =>
      obtain ⟨j, hj, rfl⟩ := ih h
      exact ⟨j + 1, Nat.succ_lt_succ hj, by omega⟩

/-- A new entry goes to a place for an entry, at most behind the last. -/
theorem insertOffset_eq (f : Nat → UInt8) (size : Nat) :
    ∃ j ≤ (size + 15) / 16, insertOffset f size = 16 * j := by
  unfold insertOffset
  split
  case h_1 o e hscan =>
    obtain ⟨j, hj, rfl⟩ := scanBytes_offset hscan
    exact ⟨j, Nat.le_of_lt hj, Nat.zero_add _⟩
  case h_2 => exact ⟨_, Nat.le_refl _, rfl⟩

theorem Cached.inodeInsert_spares {dirty : Set Nat} (h : Cached dirty s) (name : List UInt8) (n : Nat)
    (hp : p ∈ s.list) (hv : (s.mem p).valid = true) (hcov : Covered B s)
    (hi : toBlockNo sblock (s.mem p).inodeNo ∈ B)
    (hB : B.card + mapMax (insertOffset (s.bytes p) (s.size p)) ≤ opMaxNumBlocks) :
    Spares .overflow (fun _ t => Spent B (mapMax (insertOffset (s.bytes p) (s.size p))) ∅ t)
      (Fs.inodeInsert sblock true p name n) s := by
  obtain ⟨j, -, hj⟩ := insertOffset_eq (s.bytes p) (s.size p)
  refine .get (.require nofun fun htype => ?_)
  refine Spares.bind (Q := fun found t => t = s ∧ _)
    ⟨never_scan p _ _ _ _ _ s, fun found t hr => h.scan hp hv hr⟩
    fun found t _ ht => ?_
  obtain ⟨rfl, rfl⟩ := ht
  refine Spares.bind (Q := fun _ u => Spent B (mapMax (insertOffset (t.bytes p) (t.size p))) ∅ u) ?_
    fun _ u _ hu => .pure hu
  refine inodeWrite_spares h.owned.metaUsed hcov hi (Cached.ne_device htype) (by decide) ?_ hB
  show insertOffset (t.bytes p) (t.size p) % 512 + 16 ≤ 512
  omega

end FtosFfs.Fs
