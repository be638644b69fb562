import FtosFfs.Fs.Covered

/-! The operations around `create` against the limit of `OP_MAX_NUM_BLOCKS` blocks. -/

namespace FtosFfs.Fs

open Lib Lib.Exec Cache

variable {s t s₀ : State} {p q dp ip cwd : Ptr} {base : Ptr → Nat} {B : Finset Nat} {n : Nat}
  {path name : List UInt8} {parent : Bool} {type major minor : UInt16} {dirty : Set Nat}

/-! ### Puts that free nothing -/

theorem inodePut_avoids (h : (s.mem p).isLast = false) : Avoids .overflow (inodePut sblock true p) s :=
  .of_runs (runs_inodePut.mpr (by rw [if_neg (by simp [h])]) : Runs (inodePut sblock true p) s () (s.dropped p))

/-- Whether a reference is the last one to an inode without links does not depend on its lock. -/
theorem isLast_unlock {u : Unit} (hr : Runs (inodeUnlock p) s u t) (q : Ptr) :
    (t.mem q).isLast = (s.mem q).isLast := by
  obtain ⟨-, -, rfl⟩ := runs_inodeUnlock.mp hr
  by_cases hq : q = p
  · rw [hq, State.mem_setInode_same]
    rfl
  · rw [State.mem_setInode_ne _ hq]

theorem unlockPut_avoids (h : (s.mem p).isLast = false) : Avoids .overflow (unlockPut sblock p) s :=
  .bind (never_inodeUnlock p s) fun _ _ hr => inodePut_avoids ((isLast_unlock hr p).trans h)

theorem never_cacheBeginOp : Never Fault.overflow cacheBeginOp :=
  .bind .get fun _ => .ite (.throw nofun) (.set _)

theorem putInOp_avoids (h : (s.mem p).isLast = false) : Avoids .overflow (putInOp sblock p) s := by
  refine .bind (never_cacheBeginOp s) fun _ t hr => .bind (inodePut_avoids ?_) fun _ u _ => never_cacheEndOp u
  obtain ⟨-, -, -, hmem, -⟩ := runs_cacheBeginOp hr
  rw [hmem]
  exact h

/-! ### `namex` -/

/-- `namex` syncs nothing, unless it puts the inode that it starts at. -/
theorem Resolving.namexFrom_avoids (h₀ : Resolving base s₀) {fuel : Nat} (h : Along s₀ (bump base p) ∅ s)
    (hpath : parent = true → skipelem path ≠ none) :
    Avoids .overflow (Fs.namexFrom sblock parent fuel p path name) s := by
  induction fuel generalizing p path name s with
  | zero => exact .throw nofun
  | succ fuel ih =>
    unfold Fs.namexFrom
    split
    case h_1 hskip => exact .ite (fun hmode => absurd hskip (hpath hmode)) fun _ => .pure _
    case h_2 rest elem hskip =>
      refine .bind (never_inodeLock p s) fun _ t hlock => .get ?_
      obtain ⟨-, h1, -, -, hv, -⟩ := h.lock bump_pos hlock
      have hstop (r : Option (Ptr × List UInt8)) : Avoids .overflow (do inodeUnlock p; pure r : M _) t :=
        .bind (never_inodeUnlock p t) fun _ _ _ => .pure _
      have hlive : (t.mem p).isLast = false := h1.not_last h₀.refs h₀.linked le_bump lt_bump hv
      refine .ite (fun _ => ?_) fun hdir => .ite (fun _ => hstop _) fun hgoes => .ite (fun _ => hstop _)
        fun hdot => .bind (never_inodeLookup p elem t) fun found t1 hlook => ?_
      · exact .bind (never_inodeUnlock p t) fun _ t1 hunlock =>
          .bind (putInOp_avoids ((isLast_unlock hunlock p).trans hlive)) fun _ _ _ => .pure _
      · obtain ⟨rfl, -⟩ := h1.lookup bump_pos hv hlook
        cases found with
        | none =>
          exact .bind (never_inodeUnlock p t) fun _ t2 hunlock =>
            .bind (inodePut_avoids ((isLast_unlock hunlock p).trans hlive)) fun _ _ _ => .pure _
        | some mk =>
          refine .bind (never_inodeLookup p elem t) fun found' t2 hlook' => ?_
          obtain ⟨rfl, -⟩ := h1.lookup bump_pos hv hlook'
          refine .bind (never_inodeGet _ t) fun next t3 hnext => ?_
          refine .bind (never_inodeUnlock p t3) fun _ t4 hunlock => ?_
          obtain ⟨hlive', hgone⟩ := h₀.goOn h1 hv hnext hunlock
          refine .bind (inodePut_avoids hlive') fun _ t5 hput => ?_
          refine ih (hgone t5 hput).1 fun hmode => ?_
          exact skipelem_rest hskip fun hnil => hgoes ⟨hmode, hnil⟩

/-! ### The new inode -/

theorem claimInode_spares {ino : Nat} (hcov : Covered B s) (hB : B.card + 1 ≤ opMaxNumBlocks) :
    Spares .overflow (fun o t => (o = none → Covered B t) ∧
      ∀ m ∈ o, m = ino ∧ Spent B 1 {toBlockNo sblock m} t) (claimInode sblock true type ino) s := by
  refine (cacheAcquire_spares hcov).bind fun block t _ ht => .ite (fun _ => ?_) fun _ => ?_
  · obtain ⟨C, hC, hcard, hmem, hcov'⟩ := ht.spent_one (toBlockNo sblock ino)
    refine (writeBack_spares hcov' (Finset.singleton_subset_iff.mp hmem) (hcard.trans hB)).bind
      fun _ u _ hu => .pure ⟨nofun, fun m hm => ?_⟩
    obtain rfl := Option.some.inj hm
    exact ⟨rfl, C, hC, hcard, hmem, hu⟩
  · have hrelease : Spares Fault.overflow (fun _ u => Covered B u) (cacheRelease (toBlockNo sblock ino)) t :=
      .modify (ht.congr rfl)
    exact hrelease.bind fun _ u _ hu => .pure ⟨fun _ => hu, nofun⟩

/-- What the searches for a free inode sync. -/
def ClaimSpent (B : Finset Nat) (n : Nat) (t : State) : Prop :=
  (n = 0 ∧ Covered B t) ∨ (n ≠ 0 ∧ Spent B 1 {toBlockNo sblock n} t)

theorem claimSpent_getD {o : Option Nat}
    (h : (o = none → Covered B t) ∧ ∀ m ∈ o, m ≠ 0 ∧ Spent B 1 {toBlockNo sblock m} t) :
    ClaimSpent B (o.getD 0) t := by
  cases o with
  | none => exact .inl ⟨rfl, h.1 rfl⟩
  | some m => exact .inr (h.2 m rfl)

theorem inodeAlloc_spares (hcov : Covered B s) (hB : B.card + 1 ≤ opMaxNumBlocks) :
    Spares .overflow (ClaimSpent B) (inodeAlloc sblock true type) s := by
  have hsearch := Spares.search (l := List.range' 1 sblock.numInodes) (f := claimInode sblock true type)
    (Q := fun m u => m ≠ 0 ∧ Spent B 1 {toBlockNo sblock m} u) hcov fun ino hino t ht =>
      (claimInode_spares ht hB).mono fun o u hu => ⟨hu.1, fun m hm => ?_⟩
  · exact .require nofun fun _ => hsearch.bind fun found t _ ht => .pure (claimSpent_getD ht)
  · obtain ⟨rfl, hspent⟩ := hu.2 m hm
    exact ⟨Nat.ne_of_gt (List.mem_range'_1.mp hino).1, hspent⟩

theorem claimFrom_spares (gno : Nat) (hcov : Covered B s) (hB : B.card + 1 ≤ opMaxNumBlocks) :
    Spares .overflow (ClaimSpent B) (claimFrom sblock true type gno) s := by
  unfold claimFrom
  refine .bind (.search (Q := fun m u => m ≠ 0 ∧ Spent B 1 {toBlockNo sblock m} u) hcov fun g _ t ht => ?_)
    fun found t _ ht => .pure (claimSpent_getD ht)
  refine .search ht fun ino hino u hu => ?_
  refine .require (show Fault.panic ≠ .overflow from nofun) fun _ => ?_
  refine (claimInode_spares hu hB).mono fun o v hv => ⟨hv.1, fun m hm => ?_⟩
  obtain ⟨rfl, hspent⟩ := hv.2 m hm
  have hpos := (List.mem_range'_1.mp hino).1
  exact ⟨by omega, hspent⟩

theorem createNo_spares (hcov : Covered B s) (hB : B.card + 1 ≤ opMaxNumBlocks) :
    Spares .overflow (ClaimSpent B) (createNo sblock dp type) s := by
  have hgroup (g : Nat) : Spares .overflow (ClaimSpent B) (inodeAllocGroup sblock true type g) s := by
    unfold inodeAllocGroup
    refine .require nofun fun _ => .ite (fun _ => .get ?_) fun _ => claimFrom_spares _ hcov hB
    rcases emptiestGroup s.usedBlock g with ⟨i, used, gno⟩
    exact .ite (fun _ => .pure (.inl ⟨rfl, hcov⟩)) fun _ => claimFrom_spares gno hcov hB
  refine .get ((hgroup _).bind fun ino t _ ht => ?_)
  rcases ht with ⟨rfl, ht⟩ | ⟨hne, ht⟩
  · rw [if_pos rfl]
    exact inodeAlloc_spares ht hB
  · rw [if_neg hne]
    exact .pure (.inr ⟨hne, ht⟩)

theorem createNo_spec (hr : Runs (createNo sblock dp type) s n t) :
    (n = 0 ∧ t = s) ∨ Claimed type n s t := by
  obtain ⟨_, _, hget, hr⟩ := runs_bind.mp hr
  obtain ⟨rfl, rfl⟩ := runs_get.mp hget
  obtain ⟨ino, u, hgroup, hno⟩ := runs_bind.mp hr
  rcases (inodeAllocGroup_spec hgroup).2 with ⟨rfl, rfl⟩ | hclaim
  · rw [if_pos rfl] at hno
    exact (inodeAlloc_spec hno).2
  · rw [if_neg (Nat.ne_of_gt hclaim.isInode.1)] at hno
    obtain ⟨rfl, rfl⟩ := runs_pure.mp hno
    exact .inr hclaim

/-- What `create` has done with the new inode before it inserts entries. -/
structure NewInode (dirty : Set Nat) (type major minor : UInt16) (ip : Ptr) (s t : State) : Prop where
  cached : Cached dirty t
  new : ip ∉ s.list
  list : t.list = ip :: s.list
  old : ∀ p ∈ s.list, t.mem p = s.mem p
  valid : (t.mem ip).valid = true
  entry : (t.mem ip).entry = { newEntry type with major, minor, numLinks := 1 }

theorem createInode_spec (h : Cached dirty s)
    (hlist : ∀ p ∈ s.list, InUse (diskEntry s.disk) (s.mem p).inodeNo)
    (hr : Runs (createInode sblock dp type major minor) s ip t) :
    NewInode dirty type major minor ip s t := by
  obtain ⟨ino, t1, hno, hr⟩ := runs_bind.mp hr
  obtain ⟨_, _, hne, hr⟩ := runs_bind.mp hr
  obtain ⟨hino, rfl⟩ := runs_require.mp hne
  obtain ⟨ip, t2, hget, hr⟩ := runs_bind.mp hr
  obtain ⟨_, t3, hlock, hr⟩ := runs_bind.mp hr
  obtain ⟨_, t4, hentry, hr⟩ := runs_bind.mp hr
  obtain ⟨_, t5, hsync, hr⟩ := runs_bind.mp hr
  obtain ⟨rfl, rfl⟩ := runs_pure.mp hr
  rcases createNo_spec hno with ⟨rfl, -⟩ | hclaim
  · exact absurd rfl hino
  have h1 := h.claimed hclaim
  obtain ⟨h2, hip, hipno⟩ := h1.inodeGet hget
  -- The objects in memory are in use, so that the inode gets a new one.
  obtain ⟨-, ⟨hold, holdno, -⟩ | ⟨-, rfl, rfl⟩⟩ := (runs_inodeGet h1.list).mp hget
  · rw [hclaim.frame.list] at hold
    rw [hclaim.frame.mem] at holdno
    exact absurd hclaim.free (holdno ▸ (hlist ip hold).2)
  set ip := t1.fresh with hipdef
  set t2 : State := { t1 with
    fresh := ip + 1
    list := ip :: t1.list
    mem := Function.update t1.mem ip (t1.newInode ino) } with ht2
  have hfresh (p : Ptr) (hp : p ∈ s.list) : p ≠ ip := by
    rw [← hclaim.frame.list] at hp
    exact Nat.ne_of_lt (h1.list.fresh p hp)
  have hmem2 : t2.mem ip = t1.newInode ino := Function.update_self ..
  obtain ⟨h3, rfl⟩ := h2.inodeLock hip hlock
  have hloaded : t2.loaded ip = newEntry type := by
    unfold State.loaded
    rw [hmem2]
    exact (hclaim.entries hclaim.isInode).trans (if_pos rfl)
  set t3 := t2.setInode ip (t2.lockedInode ip) with ht3
  have hmem3 : t3.mem ip = t2.lockedInode ip := State.mem_setInode_same _
  have hno3 : (t3.mem ip).inodeNo = ino := by
    rw [hmem3]
    exact hipno
  have hvalid3 : (t3.mem ip).valid = true := by rw [hmem3]; rfl
  have hentry3 : (t3.mem ip).entry = newEntry type := by rw [hmem3]; exact hloaded
  obtain rfl := runs_modifyEntry.mp hentry
  have hip3 : ip ∈ t3.list := hip
  have h4 := (h3.mono (Set.subset_insert ino dirty)).setEntry hip3
    (e := { (t3.mem ip).entry with major, minor, numLinks := 1 }) ⟨rfl, rfl, rfl⟩
    (by rw [hno3]; exact Set.mem_insert ino dirty)
  set t4 := t3.setInode ip { t3.mem ip with
    entry := { (t3.mem ip).entry with major, minor, numLinks := 1 } } with ht4
  have hmem4 : t4.mem ip = { t3.mem ip with
    entry := { (t3.mem ip).entry with major, minor, numLinks := 1 } } := State.mem_setInode_same _
  obtain ⟨h5, -, c, rfl⟩ := h4.inodeSync (show ip ∈ t4.list from hip) (by rw [hmem4]; exact hvalid3) hsync
  have hclean : insert ino dirty \ {(t4.mem ip).inodeNo} ⊆ dirty := by
    rw [hmem4, hno3]
    exact fun m hm => hm.1.resolve_left hm.2
  refine ⟨h5.mono hclean, fun hp => hfresh ip hp rfl, ?_, fun p hp => ?_, ?_, ?_⟩
  · show ip :: t1.list = _
    rw [hclaim.frame.list]
  · show t4.mem p = _
    rw [ht4, State.mem_setInode_ne _ (hfresh p hp), ht3, State.mem_setInode_ne _ (hfresh p hp)]
    show Function.update t1.mem ip (t1.newInode ino) p = _
    rw [Function.update_of_ne (hfresh p hp), hclaim.frame.mem]
  · show (t4.mem ip).valid = true
    rw [hmem4]
    exact hvalid3
  · show (t4.mem ip).entry = _
    rw [hmem4, hentry3]

theorem createInode_spares (h : Cached dirty s) (hcov : Covered B s) (hB : B.card + 1 ≤ opMaxNumBlocks) :
    Spares .overflow (fun ip t => Spent B 1 {toBlockNo sblock (t.mem ip).inodeNo} t)
      (createInode sblock dp type major minor) s := by
  refine (createNo_spares hcov hB).bind fun ino t1 hno hspent => .require nofun fun hino => ?_
  obtain ⟨C, hC, hcard, hmem, hcov1⟩ := (hspent.resolve_left fun hz => hino hz.1).2
  have hmax : C.card ≤ opMaxNumBlocks := hcard.trans hB
  have h1 : Cached dirty t1 := by
    rcases createNo_spec hno with ⟨-, rfl⟩ | hclaim
    · exact h
    · exact h.claimed hclaim
  refine .bind (Q := fun ip t => Covered C t ∧ (t.mem ip).inodeNo = ino)
    ⟨never_inodeGet ino t1, fun ip t hr => ?_⟩ fun ip t2 _ h2 => ?_
  · refine ⟨?_, (h1.inodeGet hr).2.2⟩
    obtain ⟨-, ⟨-, -, rfl⟩ | ⟨-, -, rfl⟩⟩ := (runs_inodeGet h1.list).mp hr
    · exact hcov1.congr rfl
    · exact hcov1.congr rfl
  refine .bind (Q := fun _ t => Covered C t ∧ (t.mem ip).inodeNo = ino)
    ⟨never_inodeLock ip t2, fun _ t hr => ?_⟩ fun _ t3 _ h3 => ?_
  · obtain ⟨-, -, -, -, rfl⟩ := runs_inodeLock.mp hr
    exact ⟨h2.1.congr rfl, by rw [State.mem_setInode_same]; exact h2.2⟩
  refine .bind (Q := fun _ t => Covered C t ∧ (t.mem ip).inodeNo = ino)
    (.modify ⟨h3.1.congr rfl, ?_⟩) fun _ t4 _ h4 => ?_
  · rw [State.mem_setInode_same]
    exact h3.2
  have hblock : toBlockNo sblock (t4.mem ip).inodeNo ∈ C := by
    rw [h4.2]
    exact Finset.singleton_subset_iff.mp hmem
  refine (inodeSync_spares h4.1 hblock hmax).bind fun _ t5 hsync h5 => .pure ⟨C, hC, hcard, ?_, h5⟩
  rw [((quiet_inodeSync true).same hsync).inodeNo ip]
  exact Finset.singleton_subset_iff.mpr hblock

/-! ### The entries -/

/-- The inodes in memory are the same, but for sizes and block numbers. -/
structure SameInodes (s t : State) : Prop where
  list : t.list = s.list
  valid : ∀ q, (t.mem q).valid = (s.mem q).valid
  inodeNo : ∀ q, (t.mem q).inodeNo = (s.mem q).inodeNo
  isLast : ∀ q, (t.mem q).isLast = (s.mem q).isLast

theorem SameInodes.refl (s : State) : SameInodes s s := ⟨rfl, fun _ => rfl, fun _ => rfl, fun _ => rfl⟩

theorem SameInodes.trans {u : State} (h : SameInodes s t) (h' : SameInodes t u) : SameInodes s u :=
  ⟨h'.list.trans h.list, fun q => (h'.valid q).trans (h.valid q), fun q => (h'.inodeNo q).trans (h.inodeNo q),
    fun q => (h'.isLast q).trans (h.isLast q)⟩

theorem Cached.inodeInsert_same (h : Cached dirty s) (hp : p ∈ s.list) (hv : (s.mem p).valid = true) {r : Nat}
    (hr : Runs (Fs.inodeInsert sblock true p name n) s r t) :
    Cached dirty t ∧ SameInodes s t ∧ (s.size p = 0 → t.size p ≤ 16) := by
  obtain ⟨-, hc, -, e, hw⟩ := h.inodeInsert hp hv hr
  have hself := hw.frame.inode
  have hlinks : e.numLinks = (s.mem p).entry.numLinks := hw.fields.numLinks
  have hsame (q : Ptr) : (t.mem q).valid = (s.mem q).valid ∧ (t.mem q).inodeNo = (s.mem q).inodeNo ∧
      (t.mem q).isLast = (s.mem q).isLast := by
    by_cases hq : q = p
    · rw [hq, hself]
      refine ⟨rfl, rfl, ?_⟩
      unfold Inode.isLast
      rw [hlinks]
    · rw [hw.frame.other hq]
      exact ⟨rfl, rfl, rfl⟩
  refine ⟨hc, ⟨hw.frame.list, fun q => (hsame q).1, fun q => (hsame q).2.1, fun q => (hsame q).2.2⟩,
    fun hzero => ?_⟩
  obtain ⟨j, hj, hoff⟩ := insertOffset_eq (s.bytes p) (s.size p)
  have hj0 : j = 0 := by omega
  have hsize : t.size p = (grownSize (s.mem p).entry (insertOffset (s.bytes p) (s.size p)) 16).toNat := by
    unfold State.size
    rw [hself]
    exact congrArg UInt32.toNat hw.fields.numBytes
  rw [hsize, hoff, hj0]
  unfold grownSize
  split
  case isTrue => decide
  case isFalse =>
    show s.size p ≤ 16
    omega

theorem mapMax_le (off : Nat) : mapMax off ≤ 4 := by
  unfold mapMax
  split <;> decide

/-- The first two entries of a directory are in its first block. -/
theorem mapMax_insert {f : Nat → UInt8} {size : Nat} (h : size ≤ 16) : mapMax (insertOffset f size) = 2 := by
  obtain ⟨j, hj, hoff⟩ := insertOffset_eq f size
  rw [hoff]
  refine if_pos ?_
  show 16 * j / 512 < 12
  omega

/-- The state in which `create` inserts entries, with both inodes locked. -/
structure Inserting (B : Finset Nat) (dirty : Set Nat) (dp ip : Ptr) (s : State) : Prop where
  cached : Cached dirty s
  listed : dp ∈ s.list ∧ ip ∈ s.list
  valid : (s.mem dp).valid = true ∧ (s.mem ip).valid = true
  covered : Covered B s
  inodes : toBlockNo sblock (s.mem dp).inodeNo ∈ B ∧ toBlockNo sblock (s.mem ip).inodeNo ∈ B

theorem Inserting.congr {C : Finset Nat} {dirty' : Set Nat} (h : Inserting B dirty dp ip s)
    (hsame : SameInodes s t)
    (hc : Cached dirty' t) (hsub : B ⊆ C) (hcov : Covered C t) : Inserting C dirty' dp ip t := by
  constructor
  case cached => exact hc
  case listed => rw [hsame.list]; exact h.listed
  case valid => rw [hsame.valid, hsame.valid]; exact h.valid
  case covered => exact hcov
  case inodes => rw [hsame.inodeNo, hsame.inodeNo]; exact ⟨hsub h.inodes.1, hsub h.inodes.2⟩

/-- What the insertions spend, and what they leave. -/
def Inserted (B : Finset Nat) (k : Nat) (dirty : Set Nat) (dp ip : Ptr) (s t : State) : Prop :=
  SameInodes s t ∧ ∃ C, B ⊆ C ∧ C.card ≤ B.card + k ∧ Inserting C dirty dp ip t

/-- An insertion into one of the directories. -/
theorem Inserting.insert (h : Inserting B dirty dp ip s) (hp : p = dp ∨ p = ip) {k : Nat}
    (hk : mapMax (insertOffset (s.bytes p) (s.size p)) = k) (hB : B.card + k ≤ opMaxNumBlocks) :
    Spares .overflow (fun _ t => Inserted B k dirty dp ip s t ∧ (s.size p = 0 → t.size p ≤ 16))
      (inodeInsert sblock true p name n) s := by
  subst hk
  have hlisted : p ∈ s.list := by
    rcases hp with rfl | rfl
    · exact h.listed.1
    · exact h.listed.2
  have hvalid : (s.mem p).valid = true := by
    rcases hp with rfl | rfl
    · exact h.valid.1
    · exact h.valid.2
  have hinode : toBlockNo sblock (s.mem p).inodeNo ∈ B := by
    rcases hp with rfl | rfl
    · exact h.inodes.1
    · exact h.inodes.2
  obtain ⟨havoid, hspent⟩ := h.cached.inodeInsert_spares name n hlisted hvalid h.covered hinode hB
  refine ⟨havoid, fun r t hr => ?_⟩
  obtain ⟨hc, hsame, hsize⟩ := h.cached.inodeInsert_same hlisted hvalid hr
  obtain ⟨C, hC, hcard, -, hcov⟩ := hspent r t hr
  exact ⟨⟨hsame, C, hC, hcard, h.congr hsame hc hC hcov⟩, hsize⟩

/-- The entries `.` and `..`. -/
theorem Inserting.createDots (h : Inserting B dirty dp ip s) (hne : ip ≠ dp)
    (hdirty : (s.mem dp).inodeNo ∈ dirty) (hsize : s.size ip = 0) (hB : B.card + 4 ≤ opMaxNumBlocks) :
    Spares .overflow (fun _ t => Inserted B 4 dirty dp ip (s.setInode dp { s.mem dp with
      entry := { (s.mem dp).entry with numLinks := (s.mem dp).entry.numLinks + 1 } }) t)
      (Fs.createDots sblock dp ip) s := by
  set s₁ := s.setInode dp { s.mem dp with
    entry := { (s.mem dp).entry with numLinks := (s.mem dp).entry.numLinks + 1 } } with hs₁
  have hdp : s₁.mem dp = { s.mem dp with
    entry := { (s.mem dp).entry with numLinks := (s.mem dp).entry.numLinks + 1 } } := State.mem_setInode_same _
  have hip : s₁.mem ip = s.mem ip := State.mem_setInode_ne _ hne
  have h1 : Inserting B dirty dp ip s₁ := by
    refine ⟨h.cached.setEntry h.listed.1 ⟨rfl, rfl, rfl⟩ hdirty, h.listed, ?_, h.covered.congr rfl, ?_⟩
    · rw [hdp, hip]
      exact h.valid
    · rw [hdp, hip]
      exact h.inodes
  have hsize1 : s₁.size ip = 0 := by
    unfold State.size at hsize ⊢
    rw [hip]
    exact hsize
  refine .after (runs_modifyEntry.mpr rfl : Runs _ s () s₁) ?_
  refine .bind (Q := fun _ t => t = s₁) ?_ fun _ t _ ht => ?_
  · refine ⟨(inodeSync_spares h1.covered h1.inodes.1 (by omega)).1, fun _ t hr => ?_⟩
    exact ((runs_inodeSync_read h1.valid.1).mp hr).2
  subst ht
  refine .get ((h1.insert (.inr rfl) (mapMax_insert (by omega)) (by omega)).bind fun _ t _ ht => .get ?_)
  obtain ⟨⟨hsame, C, hC, hcard, h2⟩, hsize2⟩ := ht
  refine (h2.insert (.inr rfl) (mapMax_insert (hsize2 hsize1)) (by omega)).bind fun _ u _ hu => .pure ?_
  obtain ⟨⟨hsame', C', hC', hcard', h3⟩, -⟩ := hu
  exact ⟨hsame.trans hsame', C', hC.trans hC', by omega, h3⟩

/-! ### `create` -/

/-- A file system in good order between two system calls: besides, free files have no inode, and no
inode has as many links as its link count can hold. -/
structure CreateReady (s : State) : Prop where
  idle : Idle s
  closed : ∀ f, (s.file f).ref = 0 → (s.file f).type ≠ .inode
  links : ∀ n, InUse (diskEntry s.disk) n → (s.entryOf n).numLinks + 1 ≠ 0

/-- Putting another inode leaves this one alone. -/
theorem unlockPut_other {u : Unit} (hlast : (s.mem p).isLast = false) (hr : Runs (unlockPut sblock p) s u t)
    (hq : q ≠ p) : t.mem q = s.mem q := by
  obtain ⟨_, v, hunlock, hput⟩ := runs_bind.mp hr
  have hlast' := (isLast_unlock hunlock p).trans hlast
  rw [runs_inodePut, if_neg (by simp [hlast'])] at hput
  subst hput
  obtain ⟨-, -, rfl⟩ := runs_inodeUnlock.mp hunlock
  exact (State.mem_setInode_ne _ hq).trans (State.mem_setInode_ne _ hq)

/-- The objects in memory while `create` holds its directory. -/
theorem Idle.inUse_along (h : Idle s) {L : Set Ptr} (ha : Along s.begun (bump s.counts dp) L t)
    (hdp : InUse (diskEntry s.disk) (t.mem dp).inodeNo) (hp : p ∈ t.list) :
    InUse (diskEntry t.disk) (t.mem p).inodeNo := by
  have hdisk : t.disk = s.disk := ha.disk
  rw [hdisk]
  by_cases hpd : p = dp
  · exact hpd ▸ hdp
  · have hrc := ha.cached.list.rc p hp
    rw [ha.refs.rc p hp, bump_of_ne hpd] at hrc
    have hold : p ∈ s.list := by
      by_contra hnot
      rw [State.counts, if_neg hnot] at hrc
      exact absurd hrc (by decide)
    have hno := ha.refs.inodeNo p (h.cached.list.fresh p hold)
    rw [hno]
    exact h.inUse p hold

/-- The branch of `create` for a name that exists. -/
theorem Idle.createExisting (h : Idle s) (ha : Along s.begun (bump s.counts dp) (insert dp ∅) t)
    (hv : (t.mem dp).valid = true) :
    Spares .overflow (fun r u => ∀ ip ∈ r, (u.mem ip).isLast = false) (do
      let ip ← inodeGet sblock n
      unlockPut sblock dp
      inodeLock sblock ip
      if type = inodeRegular ∧ ((← get).mem ip).entry.type = inodeRegular then pure (some ip)
      else
        unlockPut sblock ip
        pure none : M (Option Ptr)) t := by
  have h₀ := h.resolving
  refine .bind (Q := fun _ _ => True) ⟨never_inodeGet n t, fun _ _ _ => trivial⟩ fun ip t1 hget _ => ?_
  obtain ⟨h1, -, hold⟩ := ha.get hget
  rw [bump_comm] at h1
  have hlive : (t1.mem dp).isLast = false := h1.not_last h₀.refs h₀.linked
    (fun q => Nat.le_trans (le_bump q) (le_bump q)) (Nat.lt_of_le_of_lt (le_bump dp) lt_bump)
    ((hold dp (ha.mem bump_pos)).1.trans hv)
  refine .bind (Q := fun _ t => Along s.begun (bump s.counts ip) ∅ t)
    ⟨unlockPut_avoids hlive, fun _ t2 hr => ?_⟩
    fun _ t2 _ h2 => ?_
  · obtain ⟨_, v, hunlock, hput⟩ := runs_bind.mp hr
    obtain ⟨h2, hmem, -⟩ := h1.unlock bump_pos (by simp) hunlock
    exact (h2.put (by simp) ((isLast_unlock hunlock dp).trans hlive)
      (fun q hq => Nat.lt_of_lt_of_le (h₀.base_pos hq) (le_bump q)) hput).1
  refine .bind (Q := fun _ t => (t.mem ip).isLast = false) ⟨never_inodeLock ip t2, fun _ t3 hr => ?_⟩
    fun _ t3 _ h3 => .get (.ite (fun _ => .pure fun q hq => ?_) fun _ => ?_)
  · obtain ⟨-, h3, -, -, hv3, -⟩ := h2.lock bump_pos hr
    exact h3.not_last h₀.refs h₀.linked le_bump lt_bump hv3
  · obtain rfl := Option.some.inj hq
    exact h3
  · exact .bind (Q := fun _ _ => True) ⟨unlockPut_avoids h3, fun _ _ _ => trivial⟩ fun _ _ _ _ => .pure nofun

/-- The branch of `create` for a new name. -/
theorem CreateReady.createNew (h : CreateReady s) (ha : Along s.begun (bump s.counts dp) (insert dp ∅) t)
    (hu : InUse (diskEntry s.disk) (t.mem dp).inodeNo) (hv : (t.mem dp).valid = true) :
    Spares .overflow (fun r u => ∀ ip ∈ r, (u.mem ip).isLast = false) (do
      let ip ← createInode sblock dp type major minor
      Exec.when (type = inodeDirectory) (createDots sblock dp ip)
      let _ ← inodeInsert sblock true dp name ((← get).mem ip).inodeNo
      unlockPut sblock dp
      pure (some ip) : M (Option Ptr)) t := by
  have h₀ := h.idle.resolving
  have hdp : dp ∈ t.list := ha.mem bump_pos
  have hlive : (t.mem dp).isLast = false := ha.not_last h₀.refs h₀.linked le_bump lt_bump hv
  set B : Finset Nat := {toBlockNo sblock (t.mem dp).inodeNo} with hBdef
  have hcov : Covered B t := by
    have hctx : t.ctx.blockNo = [] := congrArg OpContext.blockNo ha.ctx
    exact ⟨hctx ▸ List.nodup_nil, hctx ▸ nofun⟩
  have hB : B.card = 1 := Finset.card_singleton _
  have hten : opMaxNumBlocks = 10 := rfl
  refine (createInode_spares ha.cached hcov (by omega)).bind fun ip t1 hnew hspent => ?_
  have hn := createInode_spec ha.cached (fun p hp => h.idle.inUse_along ha hu hp) hnew
  obtain ⟨C, hC, hcard, hmem, hcov1⟩ := hspent
  have hne : ip ≠ dp := fun heq => hn.new (heq ▸ hdp)
  have hdpmem : t1.mem dp = t.mem dp := hn.old dp hdp
  have h1 : Inserting C Set.univ dp ip t1 := by
    refine ⟨hn.cached, ?_, ?_, hcov1, ?_, Finset.singleton_subset_iff.mp hmem⟩
    · rw [hn.list]
      exact ⟨List.mem_cons_of_mem ip hdp, List.mem_cons_self⟩
    · rw [hdpmem]
      exact ⟨hv, hn.valid⟩
    · rw [hdpmem]
      exact hC (Finset.mem_singleton_self _)
  have hiplive : (t1.mem ip).isLast = false := by
    unfold Inode.isLast
    rw [hn.entry]
    simp
  have hlinks : (t1.mem dp).entry.numLinks + 1 ≠ 0 := by
    rw [hdpmem, ha.entry bump_pos hv]
    exact h.links _ hu
  refine .bind (Q := fun _ u => ∃ D, D.card ≤ 6 ∧ Inserting D Set.univ dp ip u ∧
    (u.mem dp).isLast = false ∧ (u.mem ip).isLast = false) (.when (fun _ => ?_) fun _ => ?_) fun _ t2 _ h2 => ?_
  · have hsize : t1.size ip = 0 := by
      unfold State.size
      rw [hn.entry]
      rfl
    refine (h1.createDots hne (Set.mem_univ _) hsize (by omega)).mono fun _ u hdone => ?_
    obtain ⟨hsame, D, -, hDcard, h2⟩ := hdone
    refine ⟨D, by omega, h2, ?_, ?_⟩
    · rw [hsame.isLast, State.mem_setInode_same]
      unfold Inode.isLast
      simp [hlinks]
    · rw [hsame.isLast, State.mem_setInode_ne _ hne]
      exact hiplive
  · exact ⟨C, by omega, h1, by rw [hdpmem]; exact hlive, hiplive⟩
  obtain ⟨D, hD, h2, hlive2, hiplive2⟩ := h2
  have hmax := mapMax_le (insertOffset (t2.bytes dp) (t2.size dp))
  refine .get ((h2.insert (.inl rfl) rfl (by omega)).bind fun _ t3 _ h3 => ?_)
  obtain ⟨⟨hsame, -⟩, -⟩ := h3
  have hlive3 : (t3.mem dp).isLast = false := (hsame.isLast dp).trans hlive2
  refine .bind (Q := fun _ u => (u.mem ip).isLast = false) ⟨unlockPut_avoids hlive3, fun _ u hr => ?_⟩
    fun _ u _ hu => .pure fun q hq => ?_
  · show (u.mem ip).isLast = false
    rw [unlockPut_other hlive3 hr hne, hsame.isLast]
    exact hiplive2
  · obtain rfl := Option.some.inj hq
    exact hu

/-- `create` as the first call of an operation, for a path with an element. -/
theorem CreateReady.create (h : CreateReady s) (hcwd : cwd ∈ s.list) (hpath : skipelem path ≠ none) :
    Spares .overflow (fun r t => ∀ ip ∈ r, (t.mem ip).isLast = false)
      (Fs.create sblock cwd path type major minor) s.begun := by
  have h₀ := h.idle.resolving
  have hcounts := h.idle.counts_pos hcwd
  have hnamex : Avoids .overflow (nameiparent sblock cwd path) s.begun := by
    refine .bind ?_ fun p t hr => h₀.namexFrom_avoids (h₀.along.start hcounts hr).1 fun _ => hpath
    unfold namexStart
    exact .ite (fun _ => never_inodeGet 1 _) fun _ => .bind (Never.modify _ _) fun _ _ _ => .pure _
  unfold Fs.create
  refine .bind (Q := fun r t => Along s.begun (Refs.taken s.counts (r.map (·.1))) ∅ t)
    ⟨hnamex, fun r t hr => (h₀.namex hcounts hr).2⟩ fun r t _ ha => ?_
  cases r with
  | none => exact .pure nofun
  | some dn =>
    obtain ⟨dp, name⟩ := dn
    have ha : Along s.begun (bump s.counts dp) ∅ t := ha
    refine .bind (Q := fun _ t1 => Along s.begun (bump s.counts dp) (insert dp ∅) t1 ∧
      InUse (diskEntry s.disk) (t1.mem dp).inodeNo ∧ (t1.mem dp).valid = true)
      ⟨never_inodeLock dp t, fun _ t1 hr => ?_⟩ fun _ t1 _ h1 => ?_
    · obtain ⟨-, h1, hu, hno, hv, -⟩ := ha.lock bump_pos hr
      exact ⟨h1, hno ▸ hu, hv⟩
    obtain ⟨h1, hu, hv⟩ := h1
    refine .bind (Q := fun _ t2 => t1 = t2) ⟨never_inodeLookup dp name t1, fun _ t2 hr => ?_⟩
      fun found t2 _ h2 => ?_
    · exact (h1.lookup bump_pos hv hr).1
    subst h2
    cases found with
    | some mk => exact h.idle.createExisting h1 hv
    | none => exact h.createNew h1 hu hv

/-! ### The system calls -/

/-- `sys_mkdirat` and `sys_mknodat` inside their operation. -/
theorem CreateReady.makeAt (h : CreateReady s) (hcwd : cwd ∈ s.list) (hpath : skipelem path ≠ none) :
    Avoids .overflow (Fs.makeAt sblock cwd path type major minor) s.begun := by
  refine (h.create hcwd hpath).1.bind fun r t hr => ?_
  have hlive := (h.create hcwd hpath).2 r t hr
  cases r with
  | none => exact .pure _
  | some ip => exact .bind (unlockPut_avoids (hlive ip rfl)) fun _ _ _ => .pure _

/-- The file that `sys_openat` allocates has no inode yet, also when it is closed again. -/
theorem openFile_spares {i : Nat} (hclosed : ∀ f, (s.file f).ref = 0 → (s.file f).type ≠ .inode) :
    Spares .overflow (fun _ t => t.mem = s.mem) (openFile sblock i) s := by
  have halloc : Spares .overflow (fun o t => t.mem = s.mem ∧ ∀ f ∈ o, (t.file f).ref = 1 ∧
      (t.file f).type ≠ .inode) filealloc s := by
    refine .get ?_
    split
    case h_1 f hfind =>
      have hfree : (s.file f).ref = 0 := by simpa using List.find?_some hfind
      refine .bind (Q := fun _ t => t.mem = s.mem ∧ (t.file f).ref = 1 ∧ (t.file f).type ≠ .inode)
        (.modify ⟨rfl, ?_⟩) fun _ t _ ht => .pure ⟨ht.1, fun g hg => Option.some.inj hg ▸ ht.2⟩
      show (Function.update s.file f _ f).ref = 1 ∧ (Function.update s.file f _ f).type ≠ .inode
      rw [Function.update_self]
      exact ⟨rfl, hclosed f hfree⟩
    case h_2 => exact .pure ⟨rfl, nofun⟩
  refine halloc.bind fun o t _ ho => ?_
  cases o with
  | none => exact .pure ho.1
  | some f =>
    obtain ⟨hmem, hf⟩ := ho
    obtain ⟨href, htype⟩ := hf f rfl
    have hfd : Spares .overflow (fun _ u => u.mem = s.mem ∧ u.file = t.file) (fdalloc i f) t := by
      refine .get ?_
      split
      case h_1 =>
        exact .bind (Q := fun _ u => u.mem = s.mem ∧ u.file = t.file) (.modify ⟨hmem, rfl⟩)
          fun _ u _ hu => .pure hu
      case h_2 => exact .pure ⟨hmem, rfl⟩
    refine hfd.bind fun o u _ hu => ?_
    cases o with
    | some fd => exact .pure hu.1
    | none =>
      have hclose : Spares .overflow (fun _ v => v.mem = s.mem) (fileclose sblock f) u := by
        refine .get ?_
        rw [hu.2]
        refine .require nofun fun _ => .ite (fun _ => .modify hu.1) fun _ => ?_
        exact .bind (Q := fun _ v => v.mem = s.mem) (.modify hu.1) fun _ v _ hv =>
          .when (fun hc => absurd hc htype) fun _ => hv
      exact hclose.bind fun _ v _ hv => .pure hv

theorem CreateReady.openAt {i omode : Nat} (h : CreateReady s) (hcwd : cwd ∈ s.list)
    (hpath : skipelem path ≠ none) (hcreat : omode &&& oCreat ≠ 0) :
    Avoids .overflow (Fs.openAt sblock i cwd path omode) s.begun := by
  have hopen : openInode sblock cwd path omode = Fs.create sblock cwd path inodeRegular 0 0 := if_pos hcreat
  unfold Fs.openAt
  rw [hopen]
  have hcreate : Spares .overflow (fun r t => ∀ ip ∈ r, (t.mem ip).isLast = false)
      (Fs.create sblock cwd path inodeRegular 0 0) s.begun := h.create hcwd hpath
  refine hcreate.1.bind fun r t hr => ?_
  have hlive := hcreate.2 r t hr
  cases r with
  | none => exact .pure _
  | some ip =>
    have hfile : t.file = s.file := (h.idle.resolving.refs.create (h.idle.counts_pos hcwd) hr).file
    have hspares : Spares .overflow (fun _ u => u.mem = t.mem) (openFile sblock i) t :=
      openFile_spares fun f => by rw [hfile]; exact h.closed f
    refine hspares.1.bind fun o u hr' => ?_
    cases o with
    | none =>
      refine .bind (unlockPut_avoids ?_) fun _ _ _ => .pure _
      rw [hspares.2 none u hr']
      exact hlive ip rfl
    | some fd => exact .bind (never_inodeUnlock ip u) fun _ _ _ => .pure _

/-- An operation around a computation that does not fail in `cache_sync`. -/
theorem inOp_avoids {α : Type} {x : M α} (h : Idle s) (hx : Avoids .overflow x s.begun) :
    Avoids .overflow (inOp x) s :=
  .after (cacheBeginOp_returns h.room) (.bind hx fun _ t _ => .bind (never_cacheEndOp t) fun _ _ _ => .pure _)

/-- `sys_openat` with `O_CREAT`, `sys_mkdirat`, and `sys_mknodat` do not fail in `cache_sync`.  For a
path without an element they return without a call of `cache_sync` in their operation: `namex` puts the
inode that it starts at in an operation of its own. -/
theorem create_avoids_overflow (h : CreateReady s) (i : Nat) (hproc : (s.proc i).cwd = some cwd)
    (hcwd : cwd ∈ s.list) (path : List UInt8) :
    (skipelem (argstr path) ≠ none →
      (∀ omode, omode &&& oCreat ≠ 0 → sysOpenat sblock i path omode s ≠ .error .overflow) ∧
      (∀ mode, sysMkdirat sblock i path mode s ≠ .error .overflow) ∧
      ∀ major minor, sysMknodat sblock i path major minor s ≠ .error .overflow) ∧
    (skipelem (argstr path) = none →
      ∃ p t, Runs (namexStart sblock cwd (argstr path)) s.begun p t ∧ t.ctx.blockNo = [] ∧
        ∀ type major minor, create sblock cwd (argstr path) type major minor s.begun =
          (do putInOp sblock p; pure none : M (Option Ptr)) t) := by
  have hget : Runs (getCwd i) s cwd s := runs_getCwd.mpr ⟨hproc, rfl⟩
  constructor
  · intro hpath
    refine ⟨fun omode hcreat => ?_, fun mode => ?_, fun major minor => ?_⟩
    · refine Avoids.after hget (.bind (inOp_avoids h.idle (h.openAt hcwd hpath hcreat)) fun r t _ => ?_)
      cases r with
      | none => exact .pure _
      | some r => exact .bind (Never.modify _ _) fun _ _ _ => .pure _
    · refine Avoids.ite (fun _ => .pure _) fun _ => .after hget ?_
      exact inOp_avoids h.idle (h.makeAt hcwd hpath)
    · exact Avoids.after hget (inOp_avoids h.idle (h.makeAt hcwd hpath))
  · intro hpath
    obtain ⟨p, t, hstart⟩ : ∃ p t, Runs (namexStart sblock cwd (argstr path)) s.begun p t :=
      h.idle.resolving.start_returns h.idle.tree
    have ha := (h.idle.resolving.along.start (h.idle.counts_pos hcwd) hstart).1
    refine ⟨p, t, hstart, congrArg OpContext.blockNo ha.ctx, fun type major minor => ?_⟩
    have hfrom : namexFrom sblock true ((argstr path).length + 1) p (argstr path) [] =
        (do putInOp sblock p; pure none : M _) := by
      unfold namexFrom
      rw [hpath]
      rfl
    unfold create nameiparent namex
    rw [bind_assoc, bind_eq_of_runs hstart, hfrom, bind_assoc]
    rfl

/-- The directory `/e` on the image with one file of eleven blocks, after a first one in the root: its
link count in memory is two, and one on disk. -/
theorem create_avoids_overflow_mkdir : ∃ img, Runs (Mkfs.main [elevenBlocks]) Mkfs.blank () img ∧
    ¬Cached ∅ ((booted img.disk [1]).withLinks 0 2) ∧
    sysMkdirat sblock 0 [47, 101] 0 ((booted img.disk [1]).withLinks 0 2) ≠ .error .overflow := by
  obtain ⟨img, hr, -, -, -⟩ := elevenBlocks_image
  have h := Mkfs.main_formatted hr
  obtain ⟨hboot, hcwd⟩ := idle_elevenBlocks hr
  have hidle := hboot.withLinks hcwd 2
  set s := (booted img.disk [1]).withLinks 0 2 with hs
  have hroot : (s.mem 0).entry.numLinks = 2 := by rw [hs, State.mem_withLinks]; rfl
  have hone (n : Nat) (hn : InUse (diskEntry s.disk) n) : (diskEntry s.disk n).numLinks = 1 :=
    numLinks_formatted h hn
  have hready : CreateReady s := by
    refine ⟨hidle, nofun, fun n hn => ?_⟩
    by_cases hn1 : n = 1
    · have hentry : s.entryOf n = (s.mem 0).entry := by
        rw [hn1]
        exact hidle.cached.entryOf_loaded hcwd rfl
      rw [hentry, hroot]
      decide
    · have hentry : s.entryOf n = diskEntry s.disk n := by
        refine State.entryOf_disk fun p hp hno => hn1 ?_
        rw [List.mem_singleton.mp hp] at hno
        exact hno.symm
      rw [hentry, hone n hn]
      decide
  refine ⟨img, hr, fun hc => ?_, ((create_avoids_overflow hready 0 rfl hcwd [47, 101]).1 (by decide)).2.1 0⟩
  have hclean : (s.mem 0).entry.numLinks = (diskEntry s.disk 1).numLinks :=
    congrArg InodeEntry.numLinks ((hc.inode 0 hcwd).clean rfl (Set.notMem_empty _))
  rw [hroot, hone 1 hidle.tree.root] at hclean
  cases hclean

end FtosFfs.Fs
