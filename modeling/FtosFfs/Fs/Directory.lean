import FtosFfs.Fs.Idle

/-! Directories as finite maps from names to inode numbers: what `inode_lookup` finds before and after
`inode_insert` and `inode_remove`, and what `inode_empty` tells. -/

namespace FtosFfs.Fs

open Lib Lib.Exec Cache

variable {s t : State} {ctx : Bool} {p : Ptr} {name name' : List UInt8} {n k count : Nat}

/-- `inode_lookup`, with `*index` before and after the call. -/
def inodeLookupTo (sb : SuperBlock) (p : Ptr) (name : List UInt8) (index : Nat) : M (Nat × Nat) := do
  match ← inodeLookup sb p name with
  | some (inodeNo, k) => pure (inodeNo, k)
  | none => pure (0, index)

/-! ### The entries of a directory -/

/-- A loaded directory of whole entries. -/
structure DirectoryAt (s : State) (p : Ptr) : Prop where
  whole : Whole s
  listed : p ∈ s.list
  valid : (s.mem p).valid = true
  directory : (s.mem p).entry.type = inodeDirectory
  aligned : 16 ∣ s.size p
  bounded : s.size p ≤ inodeMaxBytes

/-- The number of entries of the directory at `p`. -/
def State.numEntries (s : State) (p : Ptr) : Nat := s.size p / 16

/-- Entry `k` of the directory at `p`. -/
def State.entryAt (s : State) (p : Ptr) (k : Nat) : DirEntry := dirEntry (s.bytes p) k

/-- `k` is the first entry with this name. -/
def FirstNamed (s : State) (p : Ptr) (name : List UInt8) (k : Nat) : Prop :=
  k < s.numEntries p ∧ named name (s.entryAt p k) = true ∧ ∀ i < k, named name (s.entryAt p i) = false

/-- `k` is the first free entry, or the one past the end if there is none. -/
def FreeSlot (s : State) (p : Ptr) (k : Nat) : Prop :=
  (∀ i < k, (s.entryAt p i).inodeNo ≠ 0) ∧
    (k < s.numEntries p ∧ (s.entryAt p k).inodeNo = 0 ∨ k = s.numEntries p)

/-- No two entries in use have the same name. -/
def UniqueNames (s : State) (p : Ptr) : Prop :=
  ∀ i < s.numEntries p, ∀ j < s.numEntries p, (s.entryAt p i).inodeNo ≠ 0 →
    (s.entryAt p j).inodeNo ≠ 0 →
    nameChars (s.entryAt p i).name = nameChars (s.entryAt p j).name → i = j

theorem named_iff {e : DirEntry} : named name e = true ↔
    e.inodeNo ≠ 0 ∧ name.take fileNameMaxLength = nameChars e.name := by
  simp [named]

theorem DirectoryAt.size_eq (h : DirectoryAt s p) : s.size p = 16 * s.numEntries p :=
  (Nat.mul_div_cancel' h.aligned).symm

/-! ### Lookups -/

theorem lookupIn_eq_some {f : Nat → UInt8} {size : Nat} (hsize : size = 16 * count) :
    lookupIn f size name = some (n, k) ↔ k < count ∧ n = (dirEntry f k).inodeNo.toNat ∧
      named name (dirEntry f k) = true ∧ ∀ i < k, named name (dirEntry f i) = false := by
  refine ⟨lookupIn_some hsize, fun ⟨hk, hn, hhit, hmiss⟩ => ?_⟩
  cases hfound : lookupIn f size name with
  | none =>
    rw [lookupIn_none hsize hfound k hk] at hhit
    cases hhit
  | some found =>
    obtain ⟨n', k'⟩ := found
    obtain ⟨-, rfl, hhit', hmiss'⟩ := lookupIn_some hsize hfound
    have hle : k ≤ k' := Nat.not_lt.mp fun hlt => by
      rw [hmiss k' hlt] at hhit'
      cases hhit'
    have hge : k' ≤ k := Nat.not_lt.mp fun hlt => by
      rw [hmiss' k hlt] at hhit
      cases hhit
    obtain rfl := Nat.le_antisymm hle hge
    rw [hn]

theorem lookupIn_eq_none {f : Nat → UInt8} {size : Nat} (hsize : size = 16 * count) :
    lookupIn f size name = none ↔ ∀ i < count, named name (dirEntry f i) = false := by
  refine ⟨lookupIn_none hsize, fun hmiss => ?_⟩
  cases hfound : lookupIn f size name with
  | none => rfl
  | some found =>
    obtain ⟨hk, -, hhit, -⟩ := lookupIn_some hsize hfound
    rw [hmiss _ hk] at hhit
    cases hhit

/-- `inode_lookup` returns `n`, with index `k`. -/
def Finds (s : State) (p : Ptr) (name : List UInt8) (n k : Nat) : Prop :=
  ∀ index, Runs (inodeLookupTo sblock p name index) s (n, k) s

/-- `inode_lookup` returns 0, and leaves `*index` as it is. -/
def Misses (s : State) (p : Ptr) (name : List UInt8) : Prop :=
  ∀ index, Runs (inodeLookupTo sblock p name index) s (0, index) s

namespace DirectoryAt

theorem lookup_returns (h : DirectoryAt s p) (name : List UInt8) :
    Runs (inodeLookup sblock p name) s (lookupIn (s.bytes p) (s.size p) name) s := by
  obtain ⟨r, hscan⟩ := h.whole.scan_returns h.listed h.valid h.directory (named name)
  have hrun : Runs (inodeLookup sblock p name) s _ s :=
    runs_bind.mpr ⟨s, s, runs_get.mpr ⟨rfl, rfl⟩, runs_bind.mpr ⟨(), s,
      runs_require.mpr ⟨h.directory, rfl⟩, runs_bind.mpr ⟨r, s, hscan, runs_pure.mpr ⟨rfl, rfl⟩⟩⟩⟩
  obtain ⟨-, -, hr⟩ := h.whole.cached.inodeLookup h.listed h.valid hrun
  rwa [hr] at hrun

theorem lookupTo_returns (h : DirectoryAt s p) (name : List UInt8) (index : Nat) :
    Runs (inodeLookupTo sblock p name index) s
      ((lookupIn (s.bytes p) (s.size p) name).getD (0, index)) s := by
  refine runs_bind.mpr ⟨_, s, h.lookup_returns name, ?_⟩
  cases lookupIn (s.bytes p) (s.size p) name with
  | none => exact runs_pure.mpr ⟨rfl, rfl⟩
  | some found => exact runs_pure.mpr ⟨rfl, rfl⟩

theorem finds_iff (h : DirectoryAt s p) : Finds s p name n k ↔
    FirstNamed s p name k ∧ n = (s.entryAt p k).inodeNo.toNat := by
  have hlook : lookupIn (s.bytes p) (s.size p) name = some (n, k) ↔ _ := lookupIn_eq_some h.size_eq
  have hiff : Finds s p name n k ↔ lookupIn (s.bytes p) (s.size p) name = some (n, k) := by
    constructor
    · intro hfinds
      -- another index than the one found tells a miss from a hit
      obtain ⟨heq, -⟩ := (hfinds (k + 1)).unique (h.lookupTo_returns name (k + 1))
      cases hfound : lookupIn (s.bytes p) (s.size p) name with
      | none =>
        rw [hfound] at heq
        exact absurd (congrArg Prod.snd heq) (Nat.ne_of_lt (Nat.lt_succ_self k))
      | some found =>
        rw [hfound] at heq
        exact congrArg some heq.symm
    · intro hfound index
      have hrun := h.lookupTo_returns name index
      rwa [hfound] at hrun
  rw [hiff, hlook]
  constructor
  · exact fun ⟨hk, hn, hhit, hmiss⟩ => ⟨⟨hk, hhit, hmiss⟩, hn⟩
  · exact fun ⟨⟨hk, hhit, hmiss⟩, hn⟩ => ⟨hk, hn, hhit, hmiss⟩

theorem misses_iff (h : DirectoryAt s p) : Misses s p name ↔
    ∀ k < s.numEntries p, named name (s.entryAt p k) = false := by
  have hlook : lookupIn (s.bytes p) (s.size p) name = none ↔ _ := lookupIn_eq_none h.size_eq
  have hiff : Misses s p name ↔ lookupIn (s.bytes p) (s.size p) name = none := by
    constructor
    · intro hmisses
      cases hfound : lookupIn (s.bytes p) (s.size p) name with
      | none => rfl
      | some found =>
        obtain ⟨heq, -⟩ := (hmisses (found.2 + 1)).unique (h.lookupTo_returns name (found.2 + 1))
        rw [hfound] at heq
        exact absurd (congrArg Prod.snd heq).symm (Nat.ne_of_lt (Nat.lt_succ_self _))
    · intro hfound index
      have hrun := h.lookupTo_returns name index
      rwa [hfound] at hrun
  rw [hiff, hlook]
  rfl

/-! ### Writes of entries -/

/-- Entry `k` becomes `e`, and the directory grows if it is the one past the end. -/
structure Stored (s : State) (p : Ptr) (k : Nat) (e : DirEntry) (t : State) : Prop where
  directory : DirectoryAt t p
  entries : ∀ i, t.entryAt p i = if i = k then e else s.entryAt p i
  numEntries : t.numEntries p = max (s.numEntries p) (k + 1)

theorem bytes_eq (h : DirectoryAt s p) : s.bytes p = fileByte s.entryOf s.disk (s.mem p).inodeNo := by
  rw [h.whole.fileByte_view h.listed h.valid]
  rfl

/-- A write of an entry. -/
theorem stored (h : DirectoryAt s p) {e : DirEntry} {r : Nat}
    (hr : Runs (inodeWrite sblock ctx p e.byte (16 * k) 16) s r t) : Stored s p k e t := by
  have hwhole := h.whole.inodeWrite h.listed h.valid hr
  obtain ⟨-, -, -, e', hw⟩ :=
    h.whole.cached.inodeWrite h.listed h.valid (Cached.ne_device h.directory) hr
  have hinode := hw.frame.inode
  have hmax : 16 * k + 16 ≤ inodeMaxBytes := hw.bound.2
  have hsize : t.size p = max (s.size p) (16 * k + 16) := by
    rw [State.size, hinode]
    show e'.numBytes.toNat = _
    rw [hw.fields.numBytes]
    show (grownSize (s.mem p).entry (16 * k) 16).toNat = max (s.mem p).entry.numBytes.toNat _
    unfold grownSize
    split
    · rw [UInt32.toNat_ofNat', Nat.mod_eq_of_lt (Nat.lt_of_le_of_lt hmax (by decide))]
      omega
    · omega
  have haligned := h.size_eq
  have hdir : DirectoryAt t p := by
    constructor
    case whole => exact hwhole
    case listed =>
      rw [hw.frame.list]
      exact h.listed
    case valid =>
      rw [hinode]
      exact h.valid
    case directory =>
      rw [hinode]
      exact hw.fields.type.trans h.directory
    case aligned =>
      rw [hsize, haligned]
      omega
    case bounded =>
      have hbounded := h.bounded
      rw [hsize]
      omega
  refine ⟨hdir, fun i => ?_, ?_⟩
  · refine dirEntry_write fun j => ?_
    rw [hdir.bytes_eq, h.bytes_eq, show (t.mem p).inodeNo = (s.mem p).inodeNo by rw [hinode],
      h.whole.fileByte_writeDone h.listed h.valid hw hwhole]
    simp only [true_and]
  · unfold State.numEntries
    rw [hsize, haligned]
    omega

/-! ### Insertion -/

theorem freeSlot_insertOffset (h : DirectoryAt s p) :
    ∃ k, insertOffset (s.bytes p) (s.size p) = 16 * k ∧ FreeSlot s p k := by
  have hsize := h.size_eq
  have hrounds : (s.size p + 15) / 16 = s.numEntries p := by omega
  unfold insertOffset
  rw [hrounds]
  cases hscan : scanBytes (s.bytes p) (s.size p) (fun dentry => dentry.inodeNo = 0) (s.numEntries p) 0
      DirEntry.zero with
  | none =>
    refine ⟨s.numEntries p, rfl, fun i hi => ?_, .inr rfl⟩
    have hnone := scanBytes_none (a := 0) (by omega) hscan i (Nat.zero_le i) (by omega)
    exact of_decide_eq_false hnone
  | some found =>
    obtain ⟨off, e⟩ := found
    obtain ⟨k, -, hk, rfl, -, hhit, hmiss⟩ := scanBytes_some (a := 0) (by omega) hscan
    refine ⟨k, rfl, fun i hi => of_decide_eq_false (hmiss i (Nat.zero_le i) hi), .inl ⟨by omega, ?_⟩⟩
    exact of_decide_eq_true hhit

end DirectoryAt

theorem FreeSlot.le (h : FreeSlot s p k) : k ≤ s.numEntries p := by
  rcases h.2 with ⟨hlt, -⟩ | heq
  · exact Nat.le_of_lt hlt
  · exact Nat.le_of_eq heq

theorem FreeSlot.unique {k' : Nat} (h : FreeSlot s p k) (h' : FreeSlot s p k') : k = k' := by
  have hle {i j : Nat} (hi : FreeSlot s p i) (hj : FreeSlot s p j) : i ≤ j := by
    refine Nat.not_lt.mp fun hlt => ?_
    rcases hj.2 with ⟨-, hfree⟩ | heq
    · exact hi.1 j hlt hfree
    · exact absurd (heq ▸ hi.le) (Nat.not_le.mpr hlt)
  exact Nat.le_antisymm (hle h h') (hle h' h)

namespace DirectoryAt

/-- `inode_insert` writes the first free entry. -/
theorem runs_inodeInsert (h : DirectoryAt s p) (hk : FreeSlot s p k) {r : Nat} :
    Runs (inodeInsert sblock ctx p name n) s r t ↔ r = k ∧
      ∃ c, Runs (inodeWrite sblock ctx p (DirEntry.mk (UInt16.ofNat n) (fileName name)).byte (16 * k) 16)
        s c t := by
  obtain ⟨k', hoff, hk'⟩ := h.freeSlot_insertOffset
  obtain rfl := hk.unique hk'
  obtain ⟨found, hscan⟩ := h.whole.scan_returns h.listed h.valid h.directory fun e => e.inodeNo = 0
  obtain ⟨-, rfl⟩ := h.whole.cached.scan h.listed h.valid hscan
  have hdiv : 16 * k / 16 = k := Nat.mul_div_cancel_left k (by decide)
  have hwrite {r : Nat} {x : Nat} (hx : insertOffset (s.bytes p) (s.size p) = x) :
      Runs (do
        let _ ← inodeWrite sblock ctx p (DirEntry.mk (UInt16.ofNat n) (fileName name)).byte x 16
        pure (x / 16)) s r t ↔ r = k ∧ ∃ c, Runs (inodeWrite sblock ctx p
          (DirEntry.mk (UInt16.ofNat n) (fileName name)).byte (16 * k) 16) s c t := by
    rw [← hx, hoff, hdiv]
    simp only [runs_bind, runs_pure]
    constructor
    · rintro ⟨c, t, hr, rfl, rfl⟩
      exact ⟨rfl, c, hr⟩
    · rintro ⟨rfl, c, hr⟩
      exact ⟨c, t, hr, rfl, rfl⟩
  unfold inodeInsert
  simp only [runs_bind (x := (MonadState.get : M State)), runs_get]
  constructor
  · rintro ⟨_, _, ⟨rfl, rfl⟩, hr⟩
    obtain ⟨_, _, hassert, hr⟩ := runs_bind.mp hr
    obtain ⟨-, rfl⟩ := runs_require.mp hassert
    obtain ⟨_, _, hscan', hr⟩ := runs_bind.mp hr
    obtain ⟨rfl, rfl⟩ := hscan.unique hscan'
    exact (hwrite rfl).mp hr
  · intro hr
    refine ⟨s, s, ⟨rfl, rfl⟩, runs_bind.mpr ⟨(), s, runs_require.mpr ⟨h.directory, rfl⟩,
      runs_bind.mpr ⟨_, s, hscan, ?_⟩⟩⟩
    exact (hwrite rfl).mpr hr

/-- `inode_remove` of an entry writes zeros to it. -/
theorem runs_inodeRemove (h : DirectoryAt s p) (hk : k < s.numEntries p) :
    Runs (inodeRemove sblock ctx p k) s () t ↔
      ∃ c, Runs (inodeWrite sblock ctx p DirEntry.zero.byte (16 * k) 16) s c t := by
  have hlt : ¬k * 16 ≥ (s.mem p).entry.numBytes.toNat := by
    have hsize : (s.mem p).entry.numBytes.toNat = 16 * s.numEntries p := h.size_eq
    omega
  unfold inodeRemove
  simp only [runs_bind, runs_get, runs_require]
  constructor
  · rintro ⟨_, _, ⟨rfl, rfl⟩, _, _, ⟨-, rfl⟩, hr⟩
    rw [if_neg hlt, Nat.mul_comm] at hr
    obtain ⟨c, t', hwrite, hpure⟩ := runs_bind.mp hr
    obtain ⟨-, rfl⟩ := runs_pure.mp hpure
    exact ⟨c, hwrite⟩
  · rintro ⟨c, hwrite⟩
    refine ⟨s, s, ⟨rfl, rfl⟩, (), s, ⟨h.directory, rfl⟩, ?_⟩
    rw [if_neg hlt, Nat.mul_comm]
    exact runs_bind.mpr ⟨c, t, hwrite, runs_pure.mpr ⟨rfl, rfl⟩⟩

/-- An entry is in one block. -/
theorem entry_blocks (k : Nat) : (16 * k + 16 + blockSize - 1) / blockSize = 16 * k / blockSize + 1 := by
  show (16 * k + 16 + 512 - 1) / 512 = 16 * k / 512 + 1
  omega

/-- A write to an entry of the directory allocates nothing. -/
theorem need_entry (h : DirectoryAt s p) (hk : k < s.numEntries p) :
    need (s.mem p).inodeNo (16 * k) (16 * k + 16) (s.view p) s.disk = 0 := by
  have hsize : (s.mem p).entry.numBytes.toNat = 16 * s.numEntries p := h.size_eq
  have hfilled := h.whole.filled_view h.listed h.valid
  have href : ref (s.view p) s.disk ((s.mem p).inodeNo, place (16 * k / blockSize)) ≠ 0 :=
    hfilled (16 * k) (Nat.zero_le _) (by omega)
  unfold need
  rw [entry_blocks, Nat.Ico_succ_singleton, Finset.sum_singleton, if_neg href, if_neg]
  rintro ⟨hlarge, htable⟩
  have hlarge' : 12 * 512 < 16 * k + 16 := hlarge
  refine table_of_slot ?_ href htable
  show 12 ≤ 16 * k / 512
  omega

/-- A write of an entry returns, if the entry is there or there are two free blocks. -/
theorem write_returns (h : DirectoryAt s p) {src : Nat → UInt8} (hk : k ≤ s.numEntries p)
    (hroom : Room ctx s.ctx 5)
    (hspace : k < s.numEntries p ∨ s.size p + 16 ≤ inodeMaxBytes ∧ 2 ≤ (freeBlocks s.disk).card) :
    ∃ t, Runs (inodeWrite sblock ctx p src (16 * k) 16) s 16 t := by
  have hsize := h.size_eq
  have hbounded := h.bounded
  have hneed : need (s.mem p).inodeNo (16 * k) (16 * k + 16) (s.view p) s.disk ≤ 2 := by
    unfold need
    rw [entry_blocks, Nat.Ico_succ_singleton, Finset.sum_singleton]
    split <;> split <;> omega
  have hcost : writeCost (s.mem p).inodeNo (16 * k) (16 * k + 16) (s.view p) s.disk s.ctx ≤ 4 := by
    have htouched : touched (16 * k) (16 * k + 16) = 1 := by
      unfold touched
      rw [if_pos (by omega), entry_blocks, Nat.add_sub_cancel_left]
    have htable : tableLeft (s.mem p).inodeNo (16 * k + 16) (s.view p) s.disk s.ctx ≤ 1 := by
      unfold tableLeft
      split <;> omega
    unfold writeCost
    omega
  have hsize' : (s.mem p).entry.numBytes.toNat = 16 * s.numEntries p := hsize
  refine inodeWrite_returns h.valid State.view_self rfl (h.whole.cached.inUse_view h.listed h.valid)
    (h.whole.cached.owned_view h.listed h.valid) h.whole.cached.held h.whole.used
    (Cached.ne_device h.directory) (by omega) ?_ (hroom.mono fun _ => by omega) ?_
  · rcases hspace with hlt | ⟨hmax, -⟩ <;> omega
  · rcases hspace with hlt | ⟨-, hfree⟩
    · rw [h.need_entry hlt]
      exact Nat.zero_le _
    · exact hneed.trans hfree

/-! ### What is found after a write -/

/-- A write between entries without a name leaves the lookup of the name as it is. -/
theorem Stored.same {e : DirEntry} (h : DirectoryAt s p) (hst : Stored s p k e t)
    (hk : k ≤ s.numEntries p) (hold : k < s.numEntries p → named name (s.entryAt p k) = false)
    (hnew : named name e = false) :
    (∀ n j, Finds t p name n j ↔ Finds s p name n j) ∧ (Misses t p name ↔ Misses s p name) := by
  have hnum := hst.numEntries
  have hother (i : Nat) (hi : i ≠ k) : t.entryAt p i = s.entryAt p i := by
    rw [hst.entries, if_neg hi]
  have hthere : named name (t.entryAt p k) = false := by
    rw [hst.entries, if_pos rfl]
    exact hnew
  -- the entries below the old end have the name after the write as before it
  have hnamed (i : Nat) (hi : i < s.numEntries p) :
      named name (t.entryAt p i) = named name (s.entryAt p i) := by
    by_cases hik : i = k
    · subst hik
      rw [hthere, hold hi]
    · rw [hother i hik]
  have hinside {i : Nat} (hi : i < t.numEntries p) (hhit : named name (t.entryAt p i) = true) :
      i ≠ k ∧ i < s.numEntries p := by
    have hik : i ≠ k := by
      rintro rfl
      rw [hthere] at hhit
      cases hhit
    exact ⟨hik, by omega⟩
  constructor
  · intro n j
    rw [hst.directory.finds_iff, h.finds_iff]
    constructor
    · rintro ⟨⟨hj, hhit, hmiss⟩, rfl⟩
      obtain ⟨hjk, hlt⟩ := hinside hj hhit
      refine ⟨⟨hlt, ?_, fun i hi => ?_⟩, by rw [hother j hjk]⟩
      · rwa [hnamed j hlt] at hhit
      · rw [← hnamed i (by omega)]
        exact hmiss i hi
    · rintro ⟨⟨hj, hhit, hmiss⟩, rfl⟩
      have hjk : j ≠ k := by
        rintro rfl
        rw [hold hj] at hhit
        cases hhit
      refine ⟨⟨by omega, ?_, fun i hi => ?_⟩, by rw [hother j hjk]⟩
      · rwa [hnamed j hj]
      · rw [hnamed i (by omega)]
        exact hmiss i hi
  · rw [hst.directory.misses_iff, h.misses_iff]
    constructor
    · intro hmiss i hi
      rw [← hnamed i hi]
      exact hmiss i (by omega)
    · intro hmiss i hi
      by_contra hhit
      rw [Bool.not_eq_false] at hhit
      obtain ⟨-, hlt⟩ := hinside hi hhit
      rw [hnamed i hlt, hmiss i hlt] at hhit
      cases hhit

theorem named_other {e : DirEntry} (hne : name'.take fileNameMaxLength ≠ name.take fileNameMaxLength)
    (he : nameChars e.name = name.take fileNameMaxLength) : named name' e = false := by
  by_contra hhit
  rw [Bool.not_eq_false, named_iff, he] at hhit
  exact hne hhit.2

theorem named_free {e : DirEntry} (he : e.inodeNo = 0) : named name e = false := by
  by_contra hhit
  rw [Bool.not_eq_false, named_iff] at hhit
  exact hhit.1 he

/-- After the insertion of a new name. -/
theorem inserted (h : DirectoryAt s p) (hname : 0 ∉ name) (hpos : 0 < n) (hn : n ≤ 65535)
    (hmiss : Misses s p name) (hk : FreeSlot s p k)
    (hst : Stored s p k ⟨UInt16.ofNat n, fileName name⟩ t) :
    Finds t p name n k ∧ ∀ name', name'.take fileNameMaxLength ≠ name.take fileNameMaxLength →
      (∀ m j, Finds t p name' m j ↔ Finds s p name' m j) ∧ (Misses t p name' ↔ Misses s p name') := by
  have hnum := hst.numEntries
  have hchars := nameChars_fileName hname
  have hno : (UInt16.ofNat n).toNat = n := by
    rw [UInt16.toNat_ofNat']
    exact Nat.mod_eq_of_lt (Nat.lt_succ_of_le hn)
  have hnew : named name ⟨UInt16.ofNat n, fileName name⟩ = true := by
    refine named_iff.mpr ⟨fun hzero => ?_, hchars.symm⟩
    rw [show UInt16.ofNat n = 0 from hzero] at hno
    exact Nat.ne_of_lt hpos hno
  constructor
  · rw [hst.directory.finds_iff]
    have hthere : t.entryAt p k = ⟨UInt16.ofNat n, fileName name⟩ := by rw [hst.entries, if_pos rfl]
    refine ⟨⟨by omega, ?_, fun i hi => ?_⟩, ?_⟩
    · rw [hthere, hnew]
    · rw [hst.entries, if_neg (Nat.ne_of_lt hi)]
      exact h.misses_iff.mp hmiss i (Nat.lt_of_lt_of_le hi hk.le)
    · rw [hthere]
      exact hno.symm
  · intro name' hne
    refine Stored.same h hst hk.le (fun hlt => ?_) (named_other hne hchars)
    rcases hk.2 with ⟨-, hfree⟩ | heq
    · exact named_free hfree
    · exact absurd heq (Nat.ne_of_lt hlt)

/-- After the removal of the entry that was found. -/
theorem removed (h : DirectoryAt s p) (hunique : UniqueNames s p) (hfound : Finds s p name n k)
    (hst : Stored s p k DirEntry.zero t) :
    Misses t p name ∧ ∀ name', name'.take fileNameMaxLength ≠ name.take fileNameMaxLength →
      (∀ m j, Finds t p name' m j ↔ Finds s p name' m j) ∧ (Misses t p name' ↔ Misses s p name') := by
  have hnum := hst.numEntries
  obtain ⟨⟨hk, hhit, -⟩, -⟩ := h.finds_iff.mp hfound
  obtain ⟨hlive, hchars⟩ := named_iff.mp hhit
  have hzero (name : List UInt8) : named name DirEntry.zero = false := named_free rfl
  constructor
  · rw [hst.directory.misses_iff]
    intro i hi
    rw [hst.entries]
    split
    case isTrue => exact hzero name
    case isFalse hik =>
      by_contra hhit'
      rw [Bool.not_eq_false] at hhit'
      obtain ⟨hlive', hchars'⟩ := named_iff.mp hhit'
      exact hik (hunique i (by omega) k hk hlive' hlive (hchars'.symm.trans hchars))
  · intro name' hne
    exact Stored.same h hst (Nat.le_of_lt hk) (fun _ => named_other hne hchars.symm) (hzero name')

/-! ### Empty directories -/

theorem empty_returns (h : DirectoryAt s p) : ∃ r, Runs (inodeEmpty sblock p) s r s ∧
    (r = true ↔ ∀ k, 2 ≤ k → k < s.numEntries p → (s.entryAt p k).inodeNo = 0) := by
  have hsize := h.size_eq
  have hsize' : (s.mem p).entry.numBytes.toNat = 16 * s.numEntries p := hsize
  have hrounds : (s.size p - 2 * 16 + 15) / 16 = s.numEntries p - 2 := by omega
  have hself : s.view p (s.mem p).inodeNo = (s.mem p).entry := State.view_self
  obtain ⟨r, hscan⟩ : ∃ r, Runs (scan sblock p true (fun dentry => dentry.inodeNo ≠ 0)
      ((s.size p - 2 * 16 + 15) / 16) (2 * 16) DirEntry.zero) s r s := by
    refine scan_returns hself (h.whole.cached.inUse_view h.listed h.valid)
      (h.whole.cached.owned_view h.listed h.valid) h.whole.cached.held ?_ ?_ ?_ ?_
    · rw [hself]
      exact Cached.ne_device h.directory
    · rw [hself]
      exact h.whole.filled_view h.listed h.valid
    · intro hk
      rw [hself]
      omega
    · intro _
      rw [hself]
      omega
  obtain ⟨-, hr⟩ := h.whole.cached.scan h.listed h.valid hscan
  refine ⟨r.isNone, runs_bind.mpr ⟨s, s, runs_get.mpr ⟨rfl, rfl⟩, runs_bind.mpr ⟨(), s,
    runs_require.mpr ⟨h.directory, rfl⟩, runs_bind.mpr ⟨r, s, hscan, runs_pure.mpr ⟨rfl, rfl⟩⟩⟩⟩, ?_⟩
  rw [hrounds] at hr
  cases hfound : r with
  | none =>
    rw [hfound] at hr
    refine iff_of_true rfl fun k hk hlt => ?_
    have hnone := scanBytes_none (a := 2) (by omega) hr.symm k hk (by omega)
    show (dirEntry (s.bytes p) k).inodeNo = 0
    simpa using hnone
  | some found =>
    obtain ⟨off, e⟩ := found
    rw [hfound] at hr
    have htwo : 2 ≤ s.numEntries p := by
      by_contra hfew
      rw [show s.numEntries p - 2 = 0 by omega] at hr
      cases hr
    obtain ⟨k, hk, hlt, -, -, hhit, -⟩ := scanBytes_some (a := 2) (by omega) hr.symm
    refine iff_of_false nofun fun hall => ?_
    have hfree := hall k hk (by omega)
    exact absurd hfree (of_decide_eq_true hhit)

end DirectoryAt

/-! ### Directories as maps -/

/-- The lookups of names other than `name` are the same in `t` as in `s`. -/
def OthersSame (s t : State) (p : Ptr) (name : List UInt8) : Prop :=
  ∀ name', 0 ∉ name' → name'.take fileNameMaxLength ≠ name.take fileNameMaxLength →
    (∀ m j, Finds t p name' m j ↔ Finds s p name' m j) ∧ (Misses t p name' ↔ Misses s p name')

/-- The operations on the directory at `p` are those of a finite map on names. -/
structure IsFiniteMap (s : State) (p : Ptr) : Prop where
  found : ∀ name k, 0 ∉ name → FirstNamed s p name k →
    Finds s p name (s.entryAt p k).inodeNo.toNat k
  missing : ∀ name, 0 ∉ name → (∀ k, ¬FirstNamed s p name k) → Misses s p name
  inserted : ∀ ctx name n k t, 0 ∉ name → 0 < n → n ≤ 65535 → Misses s p name →
    Runs (inodeInsert sblock ctx p name n) s k t →
    DirectoryAt t p ∧ FreeSlot s p k ∧ t.numEntries p = max (s.numEntries p) (k + 1) ∧
      Finds t p name n k ∧ OthersSame s t p name
  insert_returns : ∀ ctx name n k, FreeSlot s p k → Room ctx s.ctx 5 →
    (k < s.numEntries p ∨ s.size p + 16 ≤ inodeMaxBytes ∧ 2 ≤ (freeBlocks s.disk).card) →
    ∃ t, Runs (inodeInsert sblock ctx p name n) s k t
  removed : UniqueNames s p → ∀ ctx name n k t, 0 ∉ name → Finds s p name n k →
    Runs (inodeRemove sblock ctx p k) s () t →
    DirectoryAt t p ∧ t.numEntries p = s.numEntries p ∧ Misses t p name ∧ OthersSame s t p name
  remove_returns : ∀ ctx k, k < s.numEntries p → Room ctx s.ctx 5 →
    ∃ t, Runs (inodeRemove sblock ctx p k) s () t
  empty : ∃ r, Runs (inodeEmpty sblock p) s r s ∧
    (r = true ↔ ∀ k, 2 ≤ k → k < s.numEntries p → (s.entryAt p k).inodeNo = 0)

theorem exists_firstNamed {i : Nat} (hi : i < s.numEntries p)
    (hhit : named name (s.entryAt p i) = true) : ∃ k, FirstNamed s p name k := by
  have hex : ∃ k, named name (s.entryAt p k) = true := ⟨i, hhit⟩
  refine ⟨Nat.find hex, Nat.lt_of_le_of_lt (Nat.find_min' hex hhit) hi, Nat.find_spec hex, fun j hj => ?_⟩
  exact Bool.not_eq_true _ ▸ Nat.find_min hex hj

/-- Directories of whole entries are finite maps on the first `FILE_NAME_MAX_LENGTH` characters of
names. -/
theorem directory_is_finite_map (h : DirectoryAt s p) : IsFiniteMap s p := by
  constructor
  case found => exact fun name k _ hfirst => h.finds_iff.mpr ⟨hfirst, rfl⟩
  case missing =>
    intro name _ hnone
    refine h.misses_iff.mpr fun k hk => ?_
    by_contra hhit
    obtain ⟨j, hj⟩ := exists_firstNamed hk (Bool.not_eq_false _ ▸ hhit)
    exact hnone j hj
  case inserted =>
    intro ctx name n k t hname hpos hn hmiss hr
    obtain ⟨k', -, hk'⟩ := h.freeSlot_insertOffset
    obtain ⟨rfl, c, hwrite⟩ := (h.runs_inodeInsert hk').mp hr
    have hst := h.stored hwrite
    obtain ⟨hfound, hothers⟩ := h.inserted hname hpos hn hmiss hk' hst
    exact ⟨hst.directory, hk', hst.numEntries, hfound, fun name' _ hne => hothers name' hne⟩
  case insert_returns =>
    intro ctx name n k hk hroom hspace
    obtain ⟨t, hwrite⟩ := h.write_returns hk.le hroom hspace
    exact ⟨t, (h.runs_inodeInsert hk).mpr ⟨rfl, 16, hwrite⟩⟩
  case removed =>
    intro hunique ctx name n k t _ hfound hr
    have hk := (h.finds_iff.mp hfound).1.1
    obtain ⟨c, hwrite⟩ := (h.runs_inodeRemove hk).mp hr
    have hst := h.stored hwrite
    obtain ⟨hmiss, hothers⟩ := h.removed hunique hfound hst
    refine ⟨hst.directory, ?_, hmiss, fun name' _ hne => hothers name' hne⟩
    rw [hst.numEntries]
    omega
  case remove_returns =>
    intro ctx k hk hroom
    obtain ⟨t, hwrite⟩ := h.write_returns (Nat.le_of_lt hk) hroom (.inl hk)
    exact ⟨t, (h.runs_inodeRemove hk).mpr ⟨16, hwrite⟩⟩
  case empty => exact h.empty_returns

/-- The root directory of the image with one file of eleven blocks. -/
theorem directory_is_finite_map_root : ∃ img, Runs (Mkfs.main [elevenBlocks]) Mkfs.blank () img ∧
    DirectoryAt (booted img.disk [1]) 0 ∧ IsFiniteMap (booted img.disk [1]) 0 := by
  obtain ⟨img, hr, -, -, -⟩ := elevenBlocks_image
  have hformat := Mkfs.main_formatted hr
  obtain ⟨hidle, hlisted⟩ := idle_elevenBlocks hr
  have hwhole : Whole (booted img.disk [1]) :=
    ⟨hidle.cached, hidle.used, hidle.size, filledDisk_main hr (by decide)⟩
  have hsize : (booted img.disk [1]).size 0 = 16 * 32 := hformat.size
  have hdir : DirectoryAt (booted img.disk [1]) 0 := by
    constructor
    case whole => exact hwhole
    case listed => exact hlisted
    case valid => rfl
    case directory => exact hformat.type
    case aligned =>
      rw [hsize]
      decide
    case bounded =>
      rw [hsize]
      decide
  exact ⟨img, hr, hdir, directory_is_finite_map hdir⟩

end FtosFfs.Fs
