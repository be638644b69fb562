import FtosFfs.Fs.Create

/-! Calls on inodes with memory and disk in agreement, whatever they free: they keep the agreement, and
`namex` goes where the directories on disk lead.  Only the directory that `create` makes takes more. -/

namespace FtosFfs.Fs

open Lib Lib.Exec Cache

variable {α : Type} {s s' t σ : State} {p q dp ip cwd : Ptr} 
  {n : Ptr → Nat} {L : Set Ptr} {u : Unit} {m k : Nat}
  {d d' d'' : Nat → BlockData} {path name : List UInt8} {parent ctx : Bool}

/-! ### Files on disk -/

/-- The file of inode `m` is the same. -/
structure SameFile (m : Nat) (d d' : Nat → BlockData) : Prop where
  entry : diskEntry d' m = diskEntry d m
  bytes : fileByte (diskEntry d') d' m = fileByte (diskEntry d) d m

theorem SameFile.refl (m : Nat) (d : Nat → BlockData) : SameFile m d d := ⟨rfl, rfl⟩

theorem SameFile.trans (h : SameFile m d d') (h' : SameFile m d' d'') : SameFile m d d'' :=
  ⟨h'.entry.trans h.entry, h'.bytes.trans h.bytes⟩

theorem SameFile.lookup (h : SameFile m d d') (name : List UInt8) :
    dirLookup d' m name = dirLookup d m name := by
  unfold dirLookup
  rw [h.entry, h.bytes]

theorem SameFile.inUse (h : SameFile m d d') (hu : InUse (diskEntry d') m) : InUse (diskEntry d) m :=
  ⟨hu.1, h.entry ▸ hu.2⟩

/-- A change of bitmaps and of other inodes. -/
theorem SameFile.of_same (ho : BlocksOwned (diskEntry d) d) (he : diskEntry d' m = diskEntry d m)
    (hsame : ∀ c, ¬IsBitmap c → ¬IsInodes c → d' c = d c) : SameFile m d d' := by
  have hdata (c : Nat) (hc : IsData c) : d' c = d c := hsame c hc.not_bitmap hc.not_inodes
  have href (pl : Place) : ref (diskEntry d') d' (m, pl) = ref (diskEntry d) d (m, pl) := by
    by_cases hu : InUse (diskEntry d) m
    · have hu' : InUse (diskEntry d') m := ⟨hu.1, he.symm ▸ hu.2⟩
      have hblocks : blockOf (diskEntry d m) d' = blockOf (diskEntry d m) d :=
        blockOf_congr fun h0 => hdata _ (ho.isData_table hu h0)
      rw [ref_of_inUse hu', ref_of_inUse hu, he, hblocks]
    · have hu' : ¬InUse (diskEntry d') m := fun hu' => hu ⟨hu'.1, he ▸ hu'.2⟩
      rw [ref_of_not_inUse hu', ref_of_not_inUse hu]
  refine ⟨he, funext fun i => ?_⟩
  unfold fileByte
  rw [href]
  split
  case isTrue => rfl
  case isFalse hz => rw [hdata _ (ho.owns.inArea _ hz)]

/-- Inodes were freed, and the files of the others are the same. -/
def Frees (d d' : Nat → BlockData) : Prop := ∀ m, InUse (diskEntry d') m → SameFile m d d'

theorem Frees.refl (d : Nat → BlockData) : Frees d d := fun m _ => .refl m d

theorem Frees.of_eq (h : d' = d) : Frees d d' := by
  rw [h]
  exact .refl d

theorem Frees.trans (h : Frees d d') (h' : Frees d' d'') : Frees d d'' :=
  fun m hu => (h m ((h' m hu).inUse hu)).trans (h' m hu)

theorem Cached.loaded_clean (h : Cached ∅ s) (hp : p ∈ s.list) :
    s.loaded p = diskEntry s.disk (s.mem p).inodeNo := by
  unfold State.loaded
  split
  case isTrue hv => exact (h.inode p hp).clean hv (by simp)
  case isFalse => rfl

/-- `inode_put` frees the inode or nothing. -/
theorem Cached.put_frees (h : Cached ∅ s) (hp : p ∈ s.list) (hr : Runs (Fs.inodePut sblock ctx p) s u s') :
    Frees s.disk s'.disk := by
  have hspec := h.inodePut_spec hp hr
  rw [h.loaded_clean hp, Function.update_eq_self] at hspec
  rcases hspec with ⟨-, rfl⟩ | ⟨-, -, -, t, hd, rfl⟩
  · exact .refl s.disk
  · intro m hu
    have hent : diskEntry (t.dropped p).disk m = _ := hd.entries m hu.1
    refine .of_same h.owned ?_ hd.same
    split at hent
    case isTrue =>
      refine absurd ?_ hu.2
      rw [hent]
      rfl
    case isFalse => exact hent

/-- A write to another inode. -/
theorem Cached.write_others {dirty : Set Nat} (h : Cached dirty s) (hp : p ∈ s.list)
    (hv : (s.mem p).valid = true)
    {src : Nat → UInt8} {off count : Nat} {e : InodeEntry}
    (hw : WriteDone p (s.mem p).inodeNo src off count (s.view p) s s' e) (hm : IsInode m)
    (hne : m ≠ (s.mem p).inodeNo) : SameFile m s.disk s'.disk := by
  refine ⟨hw.entries m hm hne, funext fun i => ?_⟩
  rw [fileByte_resync hw.wrote.owned (fun m hm => h.sameBlocks_write hp hv hw hm) (fun _ _ => rfl),
    hw.wrote.bytes,
    if_neg fun hc => hne hc.1, fileByte_resync h.owned (fun m _ => (h.inode p hp).sameBlocks_view hv m)
      fun _ _ => rfl]

/-! ### Entries of directories -/

/-- An entry that `inode_insert` makes in directory `m` makes it grow. -/
def InsertGrows (d : Nat → BlockData) (m : Nat) : Prop :=
  (diskEntry d m).numBytes.toNat <
    insertOffset (fileByte (diskEntry d) d m) (diskEntry d m).numBytes.toNat + 16

/-- A directory of whole entries grows if none of its entries is free. -/
theorem insertGrows_iff {count : Nat} (hsize : (diskEntry d m).numBytes.toNat = 16 * count) :
    InsertGrows d m ↔ ∀ i < count, (dirEntry (fileByte (diskEntry d) d m) i).inodeNo ≠ 0 := by
  have hrounds : (16 * count + 15) / 16 = count := by omega
  unfold InsertGrows insertOffset
  rw [hsize, hrounds]
  split
  case h_1 off e hscan =>
    obtain ⟨j, -, hj, rfl, -, hhit, -⟩ := scanBytes_some (a := 0) (by omega) hscan
    constructor
    · intro hlt
      omega
    · intro hall
      exact absurd (by simpa using hhit) (hall j (by omega))
  case h_2 hscan =>
    refine ⟨fun _ i hi hfree => ?_, fun _ => by omega⟩
    have hmiss := scanBytes_none (a := 0) (by omega) hscan i (Nat.zero_le i) (by omega)
    simp [hfree] at hmiss

/-- The entry of a directory that `sys_mkdirat` makes for `path`, if any, makes the parent grow. -/
def MakesGrow (s : State) (cwd : Ptr) (path : List UInt8) : Prop :=
  ∀ m name, Walk s.disk true (startNo s cwd path) path [] (some (m, name)) → dirLookup s.disk m name = none →
    InsertGrows s.disk m

/-- The state in which `create` makes the entries of the new directory `ip`, with the files of before on
the disk `d`: the link count of its parent, `x`, is in memory only. -/
structure Dotting (x : Inode) (dp ip : Ptr) (d : Nat → BlockData) (s : State) : Prop where
  cached : Cached {x.inodeNo} s
  listed : dp ∈ s.list ∧ ip ∈ s.list
  parent : s.mem dp = x
  valid : (s.mem ip).valid = true
  same : SameFile x.inodeNo d s.disk

/-- The entries `.` and `..` leave the parent alone. -/
theorem Dotting.insert {x : Inode} {r : Nat} (h : Dotting x dp ip d s) (hne : ip ≠ dp)
    (hr : Runs (inodeInsert sblock ctx ip name k) s r s') : Dotting x dp ip d s' := by
  obtain ⟨-, hc, -, e, hw⟩ := h.cached.inodeInsert h.listed.2 h.valid hr
  have hno : (s.mem dp).inodeNo = x.inodeNo := congrArg Inode.inodeNo h.parent
  have hother : x.inodeNo ≠ (s.mem ip).inodeNo := by
    intro heq
    exact hne (h.cached.list.inj ip h.listed.2 dp h.listed.1 (hno.trans heq).symm)
  constructor
  case cached => exact hc
  case listed =>
    rw [hw.frame.list]
    exact h.listed
  case parent => exact (hw.frame.other hne.symm).trans h.parent
  case valid =>
    rw [hw.frame.inode]
    exact h.valid
  case same =>
    refine h.same.trans (h.cached.write_others h.listed.2 h.valid hw ?_ hother)
    rw [← hno]
    exact h.cached.list.isInode dp h.listed.1

/-- The entry in the parent makes it grow, and then `inode_write` syncs the parent. -/
theorem Dotting.insert_parent {x : Inode} {r : Nat} (h : Dotting x dp ip d s) (hv : x.valid = true)
    (hsize : x.entry.numBytes = (diskEntry d x.inodeNo).numBytes) (hgrows : InsertGrows d x.inodeNo)
    (hr : Runs (inodeInsert sblock ctx dp name k) s r s') : Cached ∅ s' := by
  have hv' : (s.mem dp).valid = true := (congrArg Inode.valid h.parent).trans hv
  have hno : (s.mem dp).inodeNo = x.inodeNo := congrArg Inode.inodeNo h.parent
  have hsize' : s.size dp = (diskEntry d x.inodeNo).numBytes.toNat := by
    unfold State.size
    rw [h.parent, hsize]
  have hbytes : s.bytes dp = fileByte (diskEntry d) d x.inodeNo := by
    unfold State.bytes
    rw [hno, ← h.same.bytes]
    funext i
    exact fileByte_resync h.cached.owned (fun m _ => (h.cached.inode dp h.listed.1).sameBlocks_view hv' m)
      (fun _ _ => rfl) x.inodeNo i
  have hclean := (h.cached.inodeInsert h.listed.1 hv' hr).2.2.1 (by rw [hsize', hbytes]; exact hgrows)
  rwa [hno, Set.sdiff_self] at hclean

/-! ### Calls -/

/-- The references are counted, and memory agrees with the disk. -/
structure Agreeing (σ : State) (n : Ptr → Nat) (L : Set Ptr) (s : State) : Prop where
  refs : Refs σ n L s
  cached : Cached ∅ s

namespace Agreeing

theorem mem (h : Agreeing σ n L s) (hp : 0 < n p) : p ∈ s.list := h.refs.mem p hp

/-- A locked inode is loaded. -/
theorem valid (h : Agreeing σ n L s) (hp : p ∈ L) : (s.mem p).valid = true := by
  have hlist := h.refs.sub p hp
  exact (h.cached.inode p hlist).locked ((h.refs.locks p hlist).mpr hp)

theorem entry (h : Agreeing σ n L s) (hp : p ∈ L) : (s.mem p).entry = diskEntry s.disk (s.mem p).inodeNo :=
  (h.cached.inode p (h.refs.sub p hp)).clean (h.valid hp) (by simp)

theorem inUse (h : Agreeing σ n L s) (hp : p ∈ L) : InUse (diskEntry s.disk) (s.mem p).inodeNo :=
  (h.cached.inode p (h.refs.sub p hp)).inUse (h.valid hp)

/-- The same state, seen from itself. -/
theorem rebase (h : Agreeing σ n L s) : Agreeing s n L s := ⟨h.refs.rebase s rfl rfl rfl, h.cached⟩

/-- The objects in memory keep their inode numbers. -/
theorem number {n' : Ptr → Nat} {L' : Set Ptr} (h : Agreeing σ n L s) (h' : Refs s n' L' s') (hp : p ∈ s.list) :
    (s'.mem p).inodeNo = (s.mem p).inodeNo :=
  h'.inodeNo p (h.cached.list.fresh p hp)

theorem get (h : Agreeing σ n L s) (hr : Runs (inodeGet sblock m) s q s') :
    Agreeing σ (bump n q) L s' ∧ (s'.mem q).inodeNo = m ∧ s'.disk = s.disk := by
  obtain ⟨hc, -, hno⟩ := h.cached.inodeGet hr
  refine ⟨⟨h.refs.inodeGet hr, hc⟩, hno, ?_⟩
  obtain ⟨-, ⟨-, -, rfl⟩ | ⟨-, -, rfl⟩⟩ := (runs_inodeGet h.cached.list).mp hr
  · rfl
  · rfl

theorem share (h : Agreeing σ n L s) (hp : 0 < n p) (hr : Runs (inodeShare p) s q s') :
    q = p ∧ Agreeing σ (bump n p) L s' ∧ s'.disk = s.disk := by
  obtain ⟨rfl, hrefs⟩ := h.refs.inodeShare hp hr
  simp only [inodeShare, incrementRc, runs_bind, runs_modifyInode, runs_pure] at hr
  obtain ⟨_, _, rfl, -, rfl⟩ := hr
  exact ⟨rfl, ⟨hrefs, h.cached.incrementRc (h.mem hp)⟩, rfl⟩

theorem lock (h : Agreeing σ n L s) (hp : 0 < n p) (hr : Runs (inodeLock sblock p) s u s') :
    p ∉ L ∧ Agreeing σ n (insert p L) s' ∧ s'.disk = s.disk := by
  obtain ⟨hpL, hrefs⟩ := h.refs.inodeLock hp hr
  obtain ⟨hc, rfl⟩ := h.cached.inodeLock (h.mem hp) hr
  exact ⟨hpL, ⟨hrefs, hc⟩, rfl⟩

theorem unlock (h : Agreeing σ n (insert p L) s) (hp : 0 < n p) (hpL : p ∉ L)
    (hr : Runs (inodeUnlock p) s u s') :
    Agreeing σ n L s' ∧ s'.disk = s.disk := by
  have hrefs := h.refs.inodeUnlock hp hpL hr
  obtain ⟨hc, rfl⟩ := h.cached.inodeUnlock (h.mem hp) hr
  exact ⟨⟨hrefs, hc⟩, rfl⟩

theorem put (h : Agreeing σ (bump n p) L s) (hpL : p ∉ L) (hr : Runs (Fs.inodePut sblock ctx p) s u s') :
    Agreeing σ n L s' ∧ Frees s.disk s'.disk := by
  have hp := h.mem bump_pos
  exact ⟨⟨h.refs.inodePut hpL hr, (h.cached.inodePut hp hr).1⟩, h.cached.put_frees hp hr⟩

theorem unlockPut (h : Agreeing σ (bump n p) (insert p L) s) (hpL : p ∉ L)
    (hr : Runs (unlockPut sblock p) s u s') :
    Agreeing σ n L s' := by
  obtain ⟨_, t, hunlock, hput⟩ := runs_bind.mp hr
  exact ((h.unlock bump_pos hpL hunlock).1.put hpL hput).1

theorem beginOp (h : Agreeing σ n L s) (hr : Runs cacheBeginOp s u s') :
    Agreeing σ n L s' ∧ s'.disk = s.disk ∧ s'.mem = s.mem := by
  obtain ⟨h1, h2, h3, h4, h5, -⟩ := runs_cacheBeginOp hr
  exact ⟨⟨h.refs.same (quiet_cacheBeginOp.same hr), h.cached.congr h1 h2 h3 h4 h5⟩, h1, h4⟩

theorem endOp (h : Agreeing σ n L s) (hr : Runs cacheEndOp s u s') : Agreeing σ n L s' ∧ s'.disk = s.disk := by
  obtain ⟨h1, h2, h3, h4, h5, -⟩ := runs_cacheEndOp hr
  exact ⟨⟨h.refs.same (quiet_cacheEndOp.same hr), h.cached.congr h1 h2 h3 h4 h5⟩, h1⟩

/-- An operation keeps what its body keeps. -/
theorem inOp {x : M α} {a : α} {n' : Ptr → Nat} (h : Agreeing σ n L s) (hr : Runs (inOp x) s a s')
    (hx : ∀ t t', Agreeing σ n L t → t.disk = s.disk → t.mem = s.mem → Runs x t a t' → Agreeing σ n' L t') :
    Agreeing σ n' L s' := by
  obtain ⟨_, t, hbegin, hr⟩ := runs_bind.mp hr
  obtain ⟨b, t', hbody, hr⟩ := runs_bind.mp hr
  obtain ⟨_, t'', hend, hr⟩ := runs_bind.mp hr
  obtain ⟨rfl, rfl⟩ := runs_pure.mp hr
  obtain ⟨h1, hdisk, hmem⟩ := h.beginOp hbegin
  exact ((hx t t' h1 hdisk hmem hbody).endOp hend).1

theorem putInOp (h : Agreeing σ (bump n p) L s) (hpL : p ∉ L) (hr : Runs (putInOp sblock p) s u s') :
    Agreeing σ n L s' ∧ Frees s.disk s'.disk := by
  obtain ⟨_, t, hbegin, hrest⟩ := runs_bind.mp hr
  obtain ⟨_, t', hput, hend⟩ := runs_bind.mp hrest
  obtain ⟨h1, hdisk, -⟩ := h.beginOp hbegin
  obtain ⟨h2, hfrees⟩ := h1.put hpL hput
  obtain ⟨h3, hdisk'⟩ := h2.endOp hend
  refine ⟨h3, ?_⟩
  rw [← hdisk, hdisk']
  exact hfrees

theorem lookup (h : Agreeing σ n L s) (hp : p ∈ L) {r : Option (Nat × Nat)}
    (hr : Runs (inodeLookup sblock p name) s r s') :
    s = s' ∧ (s.mem p).entry.type = inodeDirectory ∧ r = dirLookup s.disk (s.mem p).inodeNo name := by
  have hlist := h.refs.sub p hp
  obtain ⟨rfl, htype, rfl⟩ := h.cached.inodeLookup hlist (h.valid hp) hr
  refine ⟨rfl, htype, ?_⟩
  unfold dirLookup State.bytes State.size
  rw [h.cached.view_clean hlist (h.valid hp) (by simp), h.entry hp]

/-! #### Paths -/

/-- What `namex` returns is what the directories lead to that were there when it began. -/
theorem namexFrom {fuel : Nat} {r : Option (Ptr × List UInt8)} (h : Agreeing σ (bump n p) ∅ s)
    (hd : Frees d s.disk) (hr : Runs (namexFrom sblock parent fuel p path name) s r s') :
    Agreeing σ (Refs.taken n (r.map (·.1))) ∅ s' ∧ Frees d s'.disk ∧
      (r ≠ none → Walk d parent (s.mem p).inodeNo path name (s'.result r)) := by
  induction fuel generalizing p path name s with
  | zero => exact absurd hr runs_throw
  | succ fuel ih =>
    unfold Fs.namexFrom at hr
    split at hr
    case h_1 hpath =>
      obtain ⟨-, hr⟩ | ⟨hmode, hr⟩ := runs_ite.mp hr
      · obtain ⟨_, t, hput, hr⟩ := runs_bind.mp hr
        obtain ⟨rfl, rfl⟩ := runs_pure.mp hr
        obtain ⟨h1, hfrees⟩ := h.putInOp (by simp) hput
        exact ⟨h1, hd.trans hfrees, fun hne => absurd rfl hne⟩
      · obtain ⟨rfl, rfl⟩ := runs_pure.mp hr
        exact ⟨h, hd, fun _ => .done hpath (by simpa using hmode)⟩
    case h_2 rest elem hpath =>
      obtain ⟨_, t, hlock, hr⟩ := runs_bind.mp hr
      obtain ⟨-, h1, hdisk⟩ := h.lock bump_pos hlock
      have hno := h.number (h.rebase.lock bump_pos hlock).2.1.refs (h.mem bump_pos)
      rw [← hdisk] at hd
      -- The directory is as it was when `namex` began.
      have hsame : SameFile (t.mem p).inodeNo d t.disk := hd _ (h1.inUse (by simp))
      obtain ⟨_, _, hget, hr⟩ := runs_bind.mp hr
      obtain ⟨rfl, rfl⟩ := runs_get.mp hget
      rw [h1.entry (by simp), hsame.entry, hno] at hr
      rw [hno] at hsame
      obtain ⟨-, hr⟩ | ⟨hdir, hr⟩ := runs_ite.mp hr
      · obtain ⟨_, t1, hunlock, hr⟩ := runs_bind.mp hr
        obtain ⟨_, t2, hput, hr⟩ := runs_bind.mp hr
        obtain ⟨rfl, rfl⟩ := runs_pure.mp hr
        obtain ⟨h2, hdisk2⟩ := h1.unlock bump_pos (by simp) hunlock
        obtain ⟨h3, hfrees⟩ := h2.putInOp (by simp) hput
        rw [hdisk2] at hfrees
        exact ⟨h3, hd.trans hfrees, fun hne => absurd rfl hne⟩
      have hdir : IsDir d (s.mem p).inodeNo := not_not.mp hdir
      have hstop {t1 : State} (hstop : StopsAt parent rest) (hunlock : Runs (inodeUnlock p) t () t1)
          (hr : r = some (p, elem)) : Agreeing σ (Refs.taken n (r.map (·.1))) ∅ t1 ∧ Frees d t1.disk ∧
            (r ≠ none → Walk d parent (s.mem p).inodeNo path name (t1.result r)) := by
        obtain ⟨h2, hdisk2⟩ := h1.unlock bump_pos (by simp) hunlock
        have hno2 := h1.number (h1.rebase.unlock bump_pos (by simp) hunlock).1.refs (h1.mem bump_pos)
        subst hr
        refine ⟨h2, hdisk2 ▸ hd, fun _ => ?_⟩
        have hres : t1.result (some (p, elem)) = some ((s.mem p).inodeNo, elem) := by
          unfold State.result
          rw [Option.map_some, hno2, hno]
        rw [hres]
        exact .stop hpath hdir hstop
      obtain ⟨hlast, hr⟩ | ⟨hlast, hr⟩ := runs_ite.mp hr
      · obtain ⟨_, t1, hunlock, hr⟩ := runs_bind.mp hr
        obtain ⟨rfl, rfl⟩ := runs_pure.mp hr
        exact hstop (.inl hlast) hunlock rfl
      obtain ⟨hdot, hr⟩ | ⟨hdot, hr⟩ := runs_ite.mp hr
      · obtain ⟨_, t1, hunlock, hr⟩ := runs_bind.mp hr
        obtain ⟨rfl, rfl⟩ := runs_pure.mp hr
        exact hstop (.inr hdot) hunlock rfl
      have hgoes : ¬StopsAt parent rest := fun hc => hc.elim hlast hdot
      obtain ⟨found, t1, hlook, hr⟩ := runs_bind.mp hr
      obtain ⟨rfl, -, hfound⟩ := h1.lookup (by simp) hlook
      rw [hno, hsame.lookup] at hfound
      cases found with
      | none =>
        obtain ⟨_, t2, hunlock, hr⟩ := runs_bind.mp hr
        obtain ⟨_, t3, hput, hr⟩ := runs_bind.mp hr
        obtain ⟨rfl, rfl⟩ := runs_pure.mp hr
        obtain ⟨h2, hdisk2⟩ := h1.unlock bump_pos (by simp) hunlock
        obtain ⟨h3, hfrees⟩ := h2.put (by simp) hput
        rw [hdisk2] at hfrees
        exact ⟨h3, hd.trans hfrees, fun hne => absurd rfl hne⟩
      | some mk =>
        obtain ⟨m, k⟩ := mk
        obtain ⟨found', t2, hlook', hr⟩ := runs_bind.mp hr
        obtain ⟨rfl, -, hfound'⟩ := h1.lookup (by simp) hlook'
        rw [hno, hsame.lookup, ← hfound] at hfound'
        subst hfound'
        obtain ⟨next, t3, hnext, hr⟩ := runs_bind.mp hr
        obtain ⟨_, t4, hunlock, hr⟩ := runs_bind.mp hr
        obtain ⟨_, t5, hput, hr⟩ := runs_bind.mp hr
        obtain ⟨h2, hnextno, hdisk2⟩ := h1.get hnext
        rw [bump_comm] at h2
        obtain ⟨h3, hdisk3⟩ := h2.unlock bump_pos (by simp) hunlock
        obtain ⟨h4, hfrees⟩ := h3.put (by simp) hput
        have hnext : 0 < bump (bump n next) p next := Nat.lt_of_lt_of_le bump_pos (le_bump next)
        have hno3 := h2.number (h2.rebase.unlock bump_pos (by simp) hunlock).1.refs (h2.mem hnext)
        have hno4 := h3.number (h3.rebase.put (by simp) hput).1.refs (h3.mem hnext)
        rw [hdisk3, hdisk2] at hfrees
        obtain ⟨h5, hd5, hwalk⟩ := ih h4 (hd.trans hfrees) hr
        rw [hno4, hno3, hnextno] at hwalk
        exact ⟨h5, hd5, fun hne => .next hpath hdir hgoes hfound.symm (hwalk hne)⟩

theorem start (h : Agreeing σ n ∅ s) (hcwd : 0 < n cwd) (hr : Runs (namexStart sblock cwd path) s p s') :
    Agreeing σ (bump n p) ∅ s' ∧ s'.disk = s.disk ∧ (s'.mem p).inodeNo = startNo s cwd path := by
  unfold namexStart at hr
  unfold startNo
  split
  case isTrue hslash =>
    rw [if_pos hslash] at hr
    obtain ⟨h1, hno, hdisk⟩ := h.get hr
    exact ⟨h1, hdisk, hno⟩
  case isFalse hslash =>
    rw [if_neg hslash] at hr
    have hrebase := h.rebase.share hcwd hr
    obtain ⟨rfl, h1, hdisk⟩ := h.share hcwd hr
    exact ⟨h1, hdisk, h.number hrebase.2.1.refs (h.mem hcwd)⟩

theorem namex {r : Option (Ptr × List UInt8)} (h : Agreeing σ n ∅ s) (hcwd : 0 < n cwd)
    (hr : Runs (namex sblock cwd path parent) s r s') :
    Agreeing σ (Refs.taken n (r.map (·.1))) ∅ s' ∧ Frees s.disk s'.disk ∧
      (r ≠ none → Walk s.disk parent (startNo s cwd path) path [] (s'.result r)) := by
  obtain ⟨p, t, hstart, hr⟩ := runs_bind.mp hr
  obtain ⟨h1, hdisk, hno⟩ := h.start hcwd hstart
  rw [← hno]
  exact h1.namexFrom (.of_eq hdisk) hr

theorem namei {r : Option Ptr} (h : Agreeing σ n ∅ s) (hcwd : 0 < n cwd)
    (hr : Runs (namei sblock cwd path) s r s') : Agreeing σ (Refs.taken n r) ∅ s' := by
  obtain ⟨r', t, hnamex, hr⟩ := runs_bind.mp hr
  obtain ⟨rfl, rfl⟩ := runs_pure.mp hr
  exact (h.namex hcwd hnamex).1

/-! #### Reads -/

theorem readFrom {input : List UInt8} {dest : Nat → UInt8} {off count : Nat} {r : Int × (Nat → UInt8)}
    (h : Agreeing σ n L s) (hp : p ∈ L) (hr : Runs (inodeReadFrom sblock p input dest off count) s r s') :
    Agreeing σ n L s' := by
  refine ⟨h.refs.same (same_inodeReadFrom hr), ?_⟩
  have hlist := h.refs.sub p hp
  unfold inodeReadFrom at hr
  obtain ⟨_, _, hget, hr⟩ := runs_bind.mp hr
  obtain ⟨rfl, rfl⟩ := runs_get.mp hget
  dsimp only at hr
  obtain ⟨-, hr⟩ | ⟨-, hr⟩ := runs_ite.mp hr
  · obtain ⟨_, _, hmajor, hr⟩ := runs_bind.mp hr
    obtain ⟨-, rfl⟩ := runs_require.mp hmajor
    unfold consoleRead at hr
    obtain ⟨_, t, hunlock, hr⟩ := runs_bind.mp hr
    obtain ⟨_, t', hlock, hbytes⟩ := runs_bind.mp hr
    obtain ⟨h1, hset⟩ := h.cached.inodeUnlock hlist hunlock
    have hlist1 : p ∈ t.list := by
      rw [hset]
      exact hlist
    obtain ⟨h2, -⟩ := h1.inodeLock hlist1 hlock
    split at hbytes
    · obtain ⟨-, rfl⟩ := runs_pure.mp hbytes
      exact h2
    · obtain ⟨-, rfl⟩ := runs_pure.mp hbytes
      exact h2
  · obtain ⟨_, t, hread, hr⟩ := runs_bind.mp hr
    obtain ⟨-, rfl⟩ := runs_pure.mp hr
    obtain ⟨rfl, -⟩ := inodeRead_spec State.view_self (h.cached.inUse_view hlist (h.valid hp))
      (h.cached.owned_view hlist (h.valid hp)) hread
    exact h.cached

theorem loadProgram {env : ExecEnv} {count i off : Nat} {ph : Nat → UInt8} {first r : Bool}
    (h : Agreeing σ n L s) (hp : p ∈ L) (hr : Runs (loadProgram sblock env p count i off ph first) s r s') :
    Agreeing σ n L s' := by
  induction count generalizing i off ph first s with
  | zero =>
    obtain ⟨-, rfl⟩ := runs_pure.mp hr
    exact h
  | succ count ih =>
    unfold Fs.loadProgram at hr
    obtain ⟨⟨_, ph⟩, t, hread, hr⟩ := runs_bind.mp hr
    have h1 := h.readFrom hp hread
    have hbad (h : Runs (pure false : M Bool) t r s') : Agreeing σ n L s' := by
      obtain ⟨-, rfl⟩ := runs_pure.mp h
      exact h1
    dsimp only at hr
    obtain ⟨-, hr⟩ | ⟨-, hr⟩ := runs_ite.mp hr
    · exact ih h1 hr
    obtain ⟨-, hr⟩ | ⟨-, hr⟩ := runs_ite.mp hr
    · exact hbad hr
    obtain ⟨-, hr⟩ | ⟨-, hr⟩ := runs_ite.mp hr
    · exact hbad hr
    obtain ⟨-, hr⟩ | ⟨-, hr⟩ := runs_ite.mp hr
    · exact hbad hr
    obtain ⟨-, hr⟩ | ⟨-, hr⟩ := runs_ite.mp hr
    · exact hbad hr
    obtain ⟨_, t', hread', hr⟩ := runs_bind.mp hr
    exact ih (h1.readFrom hp hread') hr

theorem execRead {env : ExecEnv} {r : Bool} (h : Agreeing σ n L s) (hp : p ∈ L)
    (hr : Runs (execRead sblock env p) s r s') : Agreeing σ n L s' := by
  obtain ⟨⟨_, elf⟩, t, hread, hr⟩ := runs_bind.mp hr
  dsimp only at hr
  obtain ⟨-, hr⟩ | ⟨-, hr⟩ := runs_ite.mp hr
  · exact (h.readFrom hp hread).loadProgram hp hr
  · obtain ⟨-, rfl⟩ := runs_pure.mp hr
    exact h.readFrom hp hread

/-! #### Writes -/

theorem write {src : Nat → UInt8} {off count r : Nat} (h : Agreeing σ n L s) (hp : p ∈ L)
    (hr : Runs (inodeWrite sblock ctx p src off count) s r s') : Agreeing σ n L s' := by
  refine ⟨h.refs.same (same_inodeWrite hr), ?_⟩
  have hlist := h.refs.sub p hp
  by_cases hdev : (s.mem p).entry.type = inodeDevice
  · obtain ⟨-, rfl⟩ := h.cached.inodeWrite_device hlist hdev hr
    exact h.cached
  · exact (h.cached.inodeWrite hlist (h.valid hp) hdev hr).2.1

theorem insert {r : Nat} (h : Agreeing σ n L s) (hp : p ∈ L)
    (hr : Runs (inodeInsert sblock ctx p name m) s r s') : Agreeing σ n L s' :=
  ⟨h.refs.same (same_inodeInsert hr), (h.cached.inodeInsert (h.refs.sub p hp) (h.valid hp) hr).2.1⟩

/-- A change of an entry that `inode_sync` writes to disk. -/
theorem store {f : InodeEntry → InodeEntry} (h : Agreeing σ n L s) (hp : p ∈ L) (hf : ∀ e, SameBlocks e (f e))
    (hr : Runs (do
      modifyEntry p f
      inodeSync sblock ctx p true) s u s') :
    Agreeing σ n L s' ∧ s'.disk = storeEntry s.disk (s.mem p).inodeNo (f (s.mem p).entry) := by
  obtain ⟨_, t, hentry, hsync⟩ := runs_bind.mp hr
  have hlist := h.refs.sub p hp
  have hset := runs_modifyEntry.mp hentry
  have h1 := (h.cached.mono (Set.empty_subset {(s.mem p).inodeNo})).setEntry hlist (hf _) rfl
  rw [← hset] at h1
  have hmem : t.mem p = { s.mem p with entry := f (s.mem p).entry } := by
    rw [hset]
    exact State.mem_setInode_same _
  have hlist1 : p ∈ t.list := by
    rw [hset]
    exact hlist
  have hv : (t.mem p).valid = true := by
    rw [hmem]
    exact h.valid hp
  obtain ⟨h2, -, c, rfl⟩ := h1.inodeSync hlist1 hv hsync
  refine ⟨⟨(h.refs.same ((quiet_modifyEntry f).same hentry)).same ((quiet_inodeSync true).same hsync), ?_⟩, ?_⟩
  · have hclean : ({(s.mem p).inodeNo} : Set Nat) \ {(t.mem p).inodeNo} = ∅ := by rw [hmem, Set.sdiff_self]
    rwa [hclean] at h2
  · show storeEntry t.disk (t.mem p).inodeNo (t.mem p).entry = _
    rw [hmem, hset]
    rfl

/-! #### New inodes -/

variable {type major minor : UInt16}

theorem createInode (h : Agreeing σ n L s) (hr : Runs (createInode sblock dp type major minor) s p s') :
    p ∉ L ∧ Agreeing σ (bump n p) (Insert.insert p L) s' ∧
      ∀ m, InUse (diskEntry s.disk) m → SameFile m s.disk s'.disk := by
  obtain ⟨ino, t1, hno, hr⟩ := runs_bind.mp hr
  obtain ⟨_, _, hne, hr⟩ := runs_bind.mp hr
  obtain ⟨hino, rfl⟩ := runs_require.mp hne
  obtain ⟨ip, t2, hget, hr⟩ := runs_bind.mp hr
  obtain ⟨_, t3, hlock, hr⟩ := runs_bind.mp hr
  obtain ⟨_, t4, hentry, hr⟩ := runs_bind.mp hr
  obtain ⟨_, t5, hsync, hr⟩ := runs_bind.mp hr
  obtain ⟨rfl, rfl⟩ := runs_pure.mp hr
  rcases createNo_spec hno with ⟨rfl, -⟩ | hclaim
  · exact absurd rfl hino
  have h1 : Agreeing σ n L t1 := ⟨h.refs.same ((quiet_createNo type).same hno), h.cached.claimed hclaim⟩
  obtain ⟨h2, hipno, hdisk2⟩ := h1.get hget
  obtain ⟨hpL, h3, hdisk3⟩ := h2.lock bump_pos hlock
  have hipno3 := (h2.number (h2.rebase.lock bump_pos hlock).2.1.refs (h2.mem bump_pos)).trans hipno
  have hsame (e : InodeEntry) : SameBlocks e { e with major, minor, numLinks := 1 } := ⟨rfl, rfl, rfl⟩
  have hip : ip ∈ Insert.insert ip L := Set.mem_insert ip L
  obtain ⟨h5, hdisk5⟩ := h3.store hip hsame (runs_bind.mpr ⟨_, t4, hentry, hsync⟩)
  rw [hipno3, hdisk3, hdisk2, hclaim.disk] at hdisk5
  refine ⟨hpL, h5, fun m hu => ?_⟩
  have hm : m ≠ ino := fun heq => hu.2 (heq ▸ hclaim.free)
  refine .of_same h.cached.owned ?_ fun c _ hc => ?_
  · rw [hdisk5, diskEntry_storeEntry hclaim.isInode hu.1, if_neg hm,
      diskEntry_storeEntry hclaim.isInode hu.1, if_neg hm]
  · rw [hdisk5, sameData_storeEntry hclaim.isInode c hc, sameData_storeEntry hclaim.isInode c hc]

/-- The entries of a new directory `ip`, when the one in its parent `dp` makes the parent grow. -/
theorem makeDir {r : Nat} (h : Agreeing σ n L s) (hdp : dp ∈ L) (hip : ip ∈ L) (hne : ip ≠ dp)
    (hgrows : InsertGrows s.disk (s.mem dp).inodeNo) (hdots : Runs (createDots sblock dp ip) s u t)
    (hinsert : Runs (inodeInsert sblock true dp name k) t r s') : Agreeing σ n L s' := by
  refine ⟨(h.refs.createDots hdots).same (same_inodeInsert hinsert), ?_⟩
  obtain ⟨_, t1, hentry, hdots⟩ := runs_bind.mp hdots
  obtain ⟨_, t2, hsync, hdots⟩ := runs_bind.mp hdots
  obtain ⟨_, _, hget, hdots⟩ := runs_bind.mp hdots
  obtain ⟨rfl, rfl⟩ := runs_get.mp hget
  obtain ⟨_, t3, hdot, hdots⟩ := runs_bind.mp hdots
  obtain ⟨_, _, hget', hdots⟩ := runs_bind.mp hdots
  obtain ⟨rfl, rfl⟩ := runs_get.mp hget'
  obtain ⟨_, t4, hdotdot, hdots⟩ := runs_bind.mp hdots
  obtain ⟨-, rfl⟩ := runs_pure.mp hdots
  set x : Inode := { s.mem dp with
    entry := { (s.mem dp).entry with numLinks := (s.mem dp).entry.numLinks + 1 } } with hx
  have hset : t1 = s.setInode dp x := runs_modifyEntry.mp hentry
  have hlist := h.refs.sub dp hdp
  have h1 : Dotting x dp ip s.disk t1 := by
    rw [hset]
    refine ⟨?_, ⟨hlist, h.refs.sub ip hip⟩, State.mem_setInode_same _, ?_, .refl _ _⟩
    · exact (h.cached.mono (Set.empty_subset {x.inodeNo})).setEntry hlist ⟨rfl, rfl, rfl⟩ rfl
    · rw [State.mem_setInode_ne _ hne]
      exact h.valid hip
  have hv : x.valid = true := h.valid hdp
  have h2 : Dotting x dp ip s.disk t2 := by
    obtain ⟨-, rfl⟩ := (runs_inodeSync_read ((congrArg Inode.valid h1.parent).trans hv)).mp hsync
    exact h1
  refine ((h2.insert hne hdot).insert hne hdotdot).insert_parent hv ?_ hgrows hinsert
  show (s.mem dp).entry.numBytes = _
  rw [h.entry hdp]

theorem create {r : Option Ptr} (h : Agreeing σ n ∅ s) (hcwd : 0 < n cwd)
    (hgrows : type = inodeDirectory → MakesGrow s cwd path)
    (hr : Runs (create sblock cwd path type major minor) s r s') :
    Agreeing σ (Refs.taken n r) (Refs.lockedBy r) s' := by
  obtain ⟨o, t, hparent, hr⟩ := runs_bind.mp hr
  obtain ⟨h0, hfrees, hwalk⟩ := h.namex hcwd hparent
  cases o with
  | none =>
    obtain ⟨rfl, rfl⟩ := runs_pure.mp hr
    exact h0
  | some dn =>
    obtain ⟨dp, name⟩ := dn
    have h0 : Agreeing σ (bump n dp) ∅ t := h0
    have hwalk : Walk s.disk true (startNo s cwd path) path [] (some ((t.mem dp).inodeNo, name)) := hwalk nofun
    obtain ⟨_, t1, hlock, hr⟩ := runs_bind.mp hr
    obtain ⟨-, h1, hdisk⟩ := h0.lock bump_pos hlock
    have hno := h0.number (h0.rebase.lock bump_pos hlock).2.1.refs (h0.mem bump_pos)
    have hsame : SameFile (t1.mem dp).inodeNo s.disk t1.disk := by
      refine (hdisk.symm ▸ hfrees : Frees s.disk t1.disk) _ (h1.inUse (by simp))
    obtain ⟨found, t2, hlook, hr⟩ := runs_bind.mp hr
    obtain ⟨rfl, -, hfound⟩ := h1.lookup (by simp) hlook
    cases found with
    | some found =>
      obtain ⟨ino, off⟩ := found
      obtain ⟨ip, t3, hget, hr⟩ := runs_bind.mp hr
      obtain ⟨_, t4, hdp, hr⟩ := runs_bind.mp hr
      obtain ⟨_, t5, hlockip, hr⟩ := runs_bind.mp hr
      obtain ⟨_, _, hget', hr⟩ := runs_bind.mp hr
      obtain ⟨rfl, rfl⟩ := runs_get.mp hget'
      have h3 := (h1.get hget).1
      rw [bump_comm] at h3
      obtain ⟨hL, h4, -⟩ := (h3.unlockPut (by simp) hdp).lock bump_pos hlockip
      obtain ⟨-, hr⟩ | ⟨-, hr⟩ := runs_ite.mp hr
      · obtain ⟨rfl, rfl⟩ := runs_pure.mp hr
        exact h4
      · obtain ⟨_, t6, hip, hr⟩ := runs_bind.mp hr
        obtain ⟨rfl, rfl⟩ := runs_pure.mp hr
        exact h4.unlockPut hL hip
    | none =>
      obtain ⟨ip, t3, hip, hr⟩ := runs_bind.mp hr
      obtain ⟨_, t4, hdots, hr⟩ := runs_bind.mp hr
      obtain ⟨_, _, hget, hr⟩ := runs_bind.mp hr
      obtain ⟨rfl, rfl⟩ := runs_get.mp hget
      obtain ⟨_, t5, hinsert, hr⟩ := runs_bind.mp hr
      obtain ⟨_, t6, hdp, hr⟩ := runs_bind.mp hr
      obtain ⟨rfl, rfl⟩ := runs_pure.mp hr
      obtain ⟨hL, h3, hsame3⟩ := h1.createInode hip
      have hne : ip ≠ dp := by
        rintro rfl
        exact hL (by simp)
      have hno3 := h1.number (h1.rebase.createInode hip).2.1.refs (h1.mem bump_pos)
      have h5 : Agreeing σ (bump (bump n dp) ip) (Insert.insert ip (Insert.insert dp ∅)) t5 := by
        rcases runs_when.mp hdots with ⟨htype, hdots⟩ | ⟨-, rfl⟩
        · refine h3.makeDir (by simp) (by simp) hne ?_ hdots hinsert
          -- The parent has the entries that it had before.
          have hall := hsame.trans (hsame3 _ (h1.inUse (by simp)))
          have hmissing : dirLookup s.disk (t1.mem dp).inodeNo name = none := by
            rw [← hsame.lookup]
            exact hfound.symm
          rw [← hno] at hwalk
          have hgrow := hgrows htype _ _ hwalk hmissing
          unfold InsertGrows at hgrow ⊢
          rw [hno3, hall.entry, hall.bytes]
          exact hgrow
        · exact h3.insert (by simp) hinsert
      rw [bump_comm, Set.insert_comm] at h5
      refine h5.unlockPut ?_ hdp
      rintro (rfl | hm)
      · exact hL (by simp)
      · exact hm

/-! #### The other calls inside their operations -/

theorem unlinkEntry {off : Nat} (hne : ip ≠ dp)
    (h : Agreeing σ (bump (bump n dp) ip) (Insert.insert ip (Insert.insert dp ∅)) s)
    (hr : Runs (unlinkEntry sblock dp ip off) s u s') : Agreeing σ n ∅ s' := by
  obtain ⟨_, t1, hwrite, hr⟩ := runs_bind.mp hr
  obtain ⟨_, _, hget, hr⟩ := runs_bind.mp hr
  obtain ⟨rfl, rfl⟩ := runs_get.mp hget
  obtain ⟨_, t2, hlinks, hr⟩ := runs_bind.mp hr
  obtain ⟨_, t3, hdp, hr⟩ := runs_bind.mp hr
  obtain ⟨_, t4, hentry, hr⟩ := runs_bind.mp hr
  obtain ⟨_, t5, hsync, hip⟩ := runs_bind.mp hr
  have hsame (e : InodeEntry) : SameBlocks e { e with numLinks := e.numLinks - 1 } := ⟨rfl, rfl, rfl⟩
  have h1 := h.write (by simp) hwrite
  have h2 : Agreeing σ (bump (bump n dp) ip) (Insert.insert ip (Insert.insert dp ∅)) t2 := by
    rcases runs_when.mp hlinks with ⟨-, hlinks⟩ | ⟨-, rfl⟩
    · exact (h1.store (by simp) hsame hlinks).1
    · exact h1
  rw [bump_comm, Set.insert_comm] at h2
  have h3 := h2.unlockPut (by simp [hne.symm]) hdp
  exact (h3.store (by simp) hsame (runs_bind.mpr ⟨_, t4, hentry, hsync⟩)).1.unlockPut (by simp) hip

theorem unlink {r : Int} (h : Agreeing σ n ∅ s) (hcwd : 0 < n cwd) (hr : Runs (unlink sblock cwd path) s r s') :
    Agreeing σ n ∅ s' := by
  obtain ⟨o, t, hparent, hr⟩ := runs_bind.mp hr
  have h0 := (h.namex hcwd hparent).1
  cases o with
  | none =>
    obtain ⟨-, rfl⟩ := runs_pure.mp hr
    exact h0
  | some dn =>
    obtain ⟨dp, name⟩ := dn
    obtain ⟨_, t1, hlock, hr⟩ := runs_bind.mp hr
    obtain ⟨-, h1, -⟩ := h0.lock bump_pos hlock
    obtain ⟨-, hr⟩ | ⟨-, hr⟩ := runs_ite.mp hr
    · obtain ⟨_, t2, hdp, hr⟩ := runs_bind.mp hr
      obtain ⟨-, rfl⟩ := runs_pure.mp hr
      exact h1.unlockPut (by simp) hdp
    obtain ⟨found, t2, hlook, hr⟩ := runs_bind.mp hr
    obtain ⟨rfl, -⟩ := h1.lookup (by simp) hlook
    obtain ⟨ip, t3, hget, hr⟩ := runs_bind.mp hr
    obtain ⟨_, t4, hlockip, hr⟩ := runs_bind.mp hr
    obtain ⟨_, _, hst, hr⟩ := runs_bind.mp hr
    obtain ⟨rfl, rfl⟩ := runs_get.mp hst
    obtain ⟨_, _, hlinks, hr⟩ := runs_bind.mp hr
    obtain ⟨-, rfl⟩ := runs_require.mp hlinks
    obtain ⟨refused, t5, hrefused, hr⟩ := runs_bind.mp hr
    obtain ⟨hL, h3, -⟩ := (h1.get hget).1.lock bump_pos hlockip
    have hne : ip ≠ dp := by
      rintro rfl
      exact hL (by simp)
    have h4 : Agreeing σ (bump (bump n dp) ip) (Insert.insert ip (Insert.insert dp ∅)) t5 := by
      obtain ⟨_, _, hget', hrefused⟩ := runs_bind.mp hrefused
      obtain ⟨rfl, rfl⟩ := runs_get.mp hget'
      obtain ⟨-, hrefused⟩ | ⟨-, hrefused⟩ := runs_ite.mp hrefused
      · obtain ⟨_, t6, hempty, hrefused⟩ := runs_bind.mp hrefused
        obtain ⟨-, rfl⟩ := runs_pure.mp hrefused
        obtain ⟨rfl, -⟩ := h3.cached.inodeEmpty (h3.refs.sub ip (by simp)) (h3.valid (by simp)) hempty
        exact h3
      · obtain ⟨-, rfl⟩ := runs_pure.mp hrefused
        exact h3
    obtain ⟨-, hr⟩ | ⟨-, hr⟩ := runs_ite.mp hr
    · obtain ⟨_, t6, hip, hr⟩ := runs_bind.mp hr
      obtain ⟨_, t7, hdp, hr⟩ := runs_bind.mp hr
      obtain ⟨-, rfl⟩ := runs_pure.mp hr
      exact (h4.unlockPut hL hip).unlockPut (by simp) hdp
    · obtain ⟨_, t6, hentry, hr⟩ := runs_bind.mp hr
      obtain ⟨-, rfl⟩ := runs_pure.mp hr
      exact h4.unlinkEntry hne hentry

theorem openInode {omode : Nat} {r : Option Ptr} (h : Agreeing σ n ∅ s) (hcwd : 0 < n cwd)
    (hr : Runs (openInode sblock cwd path omode) s r s') :
    Agreeing σ (Refs.taken n r) (Refs.lockedBy r) s' := by
  obtain ⟨-, hr⟩ | ⟨-, hr⟩ := runs_ite.mp hr
  · exact h.create hcwd (fun htype => absurd htype (by decide)) hr
  · obtain ⟨o, t, hnamei, hr⟩ := runs_bind.mp hr
    have h0 := h.namei hcwd hnamei
    cases o with
    | none =>
      obtain ⟨rfl, rfl⟩ := runs_pure.mp hr
      exact h0
    | some ip =>
      obtain ⟨_, t1, hlock, hr⟩ := runs_bind.mp hr
      obtain ⟨rfl, rfl⟩ := runs_pure.mp hr
      exact (h0.lock bump_pos hlock).2.1

theorem makeAt {r : Int} (h : Agreeing σ n ∅ s) (hcwd : 0 < n cwd)
    (hgrows : type = inodeDirectory → MakesGrow s cwd path)
    (hr : Runs (makeAt sblock cwd path type major minor) s r s') : Agreeing σ n ∅ s' := by
  obtain ⟨o, t, hcreate, hr⟩ := runs_bind.mp hr
  have h0 := h.create hcwd hgrows hcreate
  cases o with
  | none =>
    obtain ⟨-, rfl⟩ := runs_pure.mp hr
    exact h0
  | some ip =>
    obtain ⟨_, t1, hput, hr⟩ := runs_bind.mp hr
    obtain ⟨-, rfl⟩ := runs_pure.mp hr
    exact h0.unlockPut (by simp) hput

theorem chdir {r : Option Ptr} (h : Agreeing σ (bump n cwd) ∅ s) (hr : Runs (chdir sblock cwd path) s r s') :
    Agreeing σ (bump n (r.getD cwd)) ∅ s' := by
  obtain ⟨o, t, hnamei, hr⟩ := runs_bind.mp hr
  have h0 := h.namei bump_pos hnamei
  cases o with
  | none =>
    obtain ⟨rfl, rfl⟩ := runs_pure.mp hr
    exact h0
  | some ip =>
    obtain ⟨_, t1, hlock, hr⟩ := runs_bind.mp hr
    obtain ⟨-, h1, -⟩ := h0.lock bump_pos hlock
    obtain ⟨_, _, hget, hr⟩ := runs_bind.mp hr
    obtain ⟨rfl, rfl⟩ := runs_get.mp hget
    obtain ⟨-, hr⟩ | ⟨-, hr⟩ := runs_ite.mp hr
    · obtain ⟨_, t2, hput, hr⟩ := runs_bind.mp hr
      obtain ⟨rfl, rfl⟩ := runs_pure.mp hr
      exact h1.unlockPut (by simp) hput
    · obtain ⟨_, t2, hunlock, hr⟩ := runs_bind.mp hr
      obtain ⟨_, t3, hput, hr⟩ := runs_bind.mp hr
      obtain ⟨rfl, rfl⟩ := runs_pure.mp hr
      have h2 : Agreeing σ (bump (bump n cwd) ip) ∅ t2 := (h1.unlock bump_pos (by simp) hunlock).1
      rw [bump_comm] at h2
      exact (h2.put (by simp) hput).1

theorem fstatat {r : Option Stat} (h : Agreeing σ n ∅ s) (hcwd : 0 < n cwd)
    (hr : Runs (fstatat sblock cwd path) s r s') : Agreeing σ n ∅ s' := by
  obtain ⟨o, t, hnamei, hr⟩ := runs_bind.mp hr
  have h0 := h.namei hcwd hnamei
  cases o with
  | none =>
    obtain ⟨-, rfl⟩ := runs_pure.mp hr
    exact h0
  | some ip =>
    obtain ⟨_, t1, hlock, hr⟩ := runs_bind.mp hr
    obtain ⟨stat, t2, hstat, hr⟩ := runs_bind.mp hr
    obtain ⟨_, t3, hput, hr⟩ := runs_bind.mp hr
    obtain ⟨-, rfl⟩ := runs_pure.mp hr
    have hsame : t1 = t2 := by
      obtain ⟨_, _, hget, hstat⟩ := runs_bind.mp hstat
      obtain ⟨rfl, rfl⟩ := runs_get.mp hget
      obtain ⟨-, hstat⟩ | ⟨-, hstat⟩ := runs_ite.mp hstat
      · exact (runs_pure.mp hstat).2
      obtain ⟨-, hstat⟩ | ⟨-, hstat⟩ := runs_ite.mp hstat
      · exact (runs_pure.mp hstat).2
      obtain ⟨-, hstat⟩ | ⟨-, hstat⟩ := runs_ite.mp hstat
      · exact (runs_pure.mp hstat).2
      · exact absurd hstat runs_throw
    subst hsame
    exact (h0.lock bump_pos hlock).2.1.unlockPut (by simp) hput

theorem execProgram {env : ExecEnv} {r : Bool} (h : Agreeing σ n ∅ s) (hcwd : 0 < n cwd)
    (hr : Runs (execProgram sblock env cwd path) s r s') : Agreeing σ n ∅ s' := by
  obtain ⟨o, t, hnamei, hr⟩ := runs_bind.mp hr
  have h0 := h.namei hcwd hnamei
  cases o with
  | none =>
    obtain ⟨-, rfl⟩ := runs_pure.mp hr
    exact h0
  | some ip =>
    obtain ⟨_, t1, hlock, hr⟩ := runs_bind.mp hr
    obtain ⟨_, t2, hread, hr⟩ := runs_bind.mp hr
    obtain ⟨_, t3, hput, hr⟩ := runs_bind.mp hr
    obtain ⟨-, rfl⟩ := runs_pure.mp hr
    exact ((h0.lock bump_pos hlock).2.1.execRead (by simp) hread).unlockPut (by simp) hput

end Agreeing

end FtosFfs.Fs
