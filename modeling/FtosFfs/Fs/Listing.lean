import FtosFfs.Fs.Image

/-! The image that `mkfs` builds: its inodes, its root directory, and the ownership of its blocks. -/

namespace FtosFfs.Mkfs

open Lib Lib.Exec Fs

variable {s s' : Image} {n : Nat} {u : Unit} {e : InodeEntry}

/-! ### Inodes -/

/-- The entry of inode `n` in the image. -/
def Image.entry (s : Image) (n : Nat) : InodeEntry := diskEntry s.finished n

theorem iblock_eq (n : Nat) : iblock n = toBlockNo sblock n := rfl

theorem isInode_of_iblock (h1 : 1 ≤ n) (h : iblock n < fssize) : IsInode n := by
  have h' : 65 + 1000 * ((n - 1) / 20) + (n - 1) % 20 / 8 < 10065 := h
  rw [isInode_iff]
  omega

theorem iblock_lt (hn : IsInode n) : iblock n < fssize := by
  have hn' := isInode_iff.mp hn
  show 65 + 1000 * ((n - 1) / 20) + (n - 1) % 20 / 8 < 10065
  omega

theorem entry_eq_disk (hn : IsInode n) : s.entry n = diskEntry s.disk n := by
  rw [Image.entry, diskEntry, finished_of_not_bitmap (isInodes_toBlockNo hn).not_bitmap, diskEntry]

theorem runs_rinode :
    Runs (rinode n) s e s' ↔ iblock n < fssize ∧ diskEntry s.disk n = e ∧ s = s' := by
  simp only [rinode, rblock, runs_bind, runs_require, runs_get, runs_pure]
  constructor
  · rintro ⟨_, _, ⟨_, _, ⟨hlt, rfl⟩, _, _, ⟨rfl, rfl⟩, rfl, rfl⟩, rfl, rfl⟩
    exact ⟨hlt, rfl, rfl⟩
  · rintro ⟨hlt, rfl, rfl⟩
    exact ⟨_, _, ⟨⟨⟩, _, ⟨hlt, rfl⟩, _, _, ⟨rfl, rfl⟩, rfl, rfl⟩, rfl, rfl⟩

theorem runs_winode :
    Runs (winode n e) s u s' ↔
      iblock n < fssize ∧ s' = { s with disk := storeEntry s.disk n e } := by
  simp only [winode, rblock, wblock, runs_bind, runs_require, runs_get, runs_pure, runs_modify]
  constructor
  · rintro ⟨_, _, ⟨_, _, ⟨hlt, rfl⟩, _, _, ⟨rfl, rfl⟩, rfl, rfl⟩, rfl⟩
    exact ⟨hlt, rfl⟩
  · rintro ⟨hlt, rfl⟩
    exact ⟨_, _, ⟨⟨⟩, _, ⟨hlt, rfl⟩, _, _, ⟨rfl, rfl⟩, rfl, rfl⟩, rfl⟩

/-- The image after the entry of inode `n` is written. -/
theorem finished_store (hn : IsInode n) :
    Image.finished { s with disk := storeEntry s.disk n e } = storeEntry s.finished n e := by
  have hb := (isInodes_toBlockNo hn).not_bitmap
  rw [storeEntry, finished_update hb, storeEntry, finished_of_not_bitmap hb]

theorem entry_store {m : Nat} (hn : IsInode n) (hm : IsInode m) :
    Image.entry { s with disk := storeEntry s.disk n e } m = if m = n then e else s.entry m := by
  rw [Image.entry, finished_store hn, diskEntry_storeEntry hn hm, Image.entry]

theorem Counted.storeEntry (h : Counted s) (hn : IsInode n) :
    Counted { s with disk := storeEntry s.disk n e } := by
  refine ⟨h.bound, fun b hb hbit => ?_⟩
  rw [finished_store hn, (sameData_storeEntry hn).blockBit hb.1] at hbit
  exact (sameData_storeEntry hn b hb.not_inodes).trans (h.zero b hb hbit)

/-- The blocks of the image are owned, and the counters agree. -/
structure Sound (s : Image) : Prop where
  counted : Counted s
  owned : BlocksOwned s.entry s.finished

/-- Bytes `p` are appended to the file of inode `n`. -/
structure Grown (n : Nat) (p : List UInt8) (s s' : Image) : Prop where
  counted : Counted s'
  freeinode : s'.freeinode = s.freeinode
  other : ∀ m, IsInode m → m ≠ n → s'.entry m = s.entry m
  fields : SameMeta
    { s.entry n with numBytes := UInt32.ofNat ((s.entry n).numBytes.toNat + p.length) } (s'.entry n)
  wrote : Wrote n (fun i => p.getD (i - (s.entry n).numBytes.toNat) 0) (s.entry n).numBytes.toNat
    ((s.entry n).numBytes.toNat + p.length) s.entry s'.entry s.finished s'.finished
  bound : p ≠ [] → (s.entry n).numBytes.toNat + p.length ≤ inodeMaxBytes
  filled : Filled n (s.entry n).numBytes.toNat ((s.entry n).numBytes.toNat + p.length) s'.entry
    s'.finished

theorem Grown.sound {p : List UInt8} (h : Grown n p s s') : Sound s' := ⟨h.counted, h.wrote.owned⟩

theorem iappend_spec {p : List UInt8} (hs : Sound s) (hn : InUse s.entry n)
    (hr : Runs (iappend n p) s u s') : Grown n p s s' := by
  simp only [iappend, runs_bind, runs_rinode, runs_winode] at hr
  obtain ⟨_, _, ⟨-, rfl, rfl⟩, ⟨off, din'⟩, t, hloop, -, rfl⟩ := hr
  have hg : inodeGroup n < 10 := by
    have h1 := isInode_iff.mp hn.1
    show (n - 1) / 20 < 10
    omega
  rw [← entry_eq_disk hn.1] at hloop
  obtain ⟨rfl, ha⟩ := appendLoop_spec rfl hn hs.owned hs.counted hg (Nat.le_refl _) hloop
  have hentry (m : Nat) (hm : IsInode m) : t.entry m = s.entry m := by
    rw [Image.entry, Image.entry, diskEntry, ha.inodes _ (isInodes_toBlockNo hm), diskEntry]
  have hself := entry_store (s := t) (e := { din' with
    numBytes := UInt32.ofNat ((s.entry n).numBytes.toNat + p.length) }) hn.1 hn.1
  rw [if_pos rfl] at hself
  have hblocks (m : Nat) (hm : IsInode m) : SameBlocks (Function.update s.entry n din' m)
      (Image.entry { t with disk := storeEntry t.disk n { din' with
        numBytes := UInt32.ofNat ((s.entry n).numBytes.toNat + p.length) } } m) := by
    rw [entry_store hn.1 hm, Function.update_apply]
    split
    case isTrue => exact ⟨rfl, rfl, rfl⟩
    case isFalse =>
      rw [hentry m hm]
      exact .refl _
  have hdata : SameData t.finished (Image.finished { t with disk := storeEntry t.disk n { din' with
      numBytes := UInt32.ofNat ((s.entry n).numBytes.toNat + p.length) } }) := by
    rw [finished_store hn.1]
    exact sameData_storeEntry hn.1
  constructor
  case counted => exact ha.counted.storeEntry hn.1
  case freeinode => exact ha.freeinode
  case other =>
    intro m hm hmn
    rw [entry_store hn.1 hm, if_neg hmn, hentry m hm]
  case fields =>
    rw [hself, ha.fields]
    rfl
  case wrote => exact ha.wrote.resync hblocks hdata
  case bound => exact ha.bound
  case filled =>
    exact ha.filled.congr (by rw [ref_sameBlocks hblocks, hdata.ref ha.wrote.owned])

/-- The entry of an inode that `ialloc` allocates. -/
def allocEntry (type : UInt16) : InodeEntry := { InodeEntry.zero with type, numLinks := 1 }

/-- `ialloc` takes the next inode. -/
structure Taken (type : UInt16) (s s' : Image) : Prop where
  sound : Sound s'
  freeinode : s'.freeinode = s.freeinode + 1
  isInode : IsInode s.freeinode
  entry : ∀ m, IsInode m → s'.entry m = if m = s.freeinode then allocEntry type else s.entry m
  same : SameData s.finished s'.finished

theorem ialloc_spec {type : UInt16} (hs : Sound s) (h1 : 1 ≤ s.freeinode)
    (hfree : s.entry s.freeinode = InodeEntry.zero)
    (hr : Runs (ialloc type) s n s') : n = s.freeinode ∧ Taken type s s' := by
  simp only [ialloc, runs_bind, runs_get, runs_set, runs_winode, runs_pure] at hr
  obtain ⟨_, _, ⟨rfl, rfl⟩, _, _, rfl, _, _, ⟨hlt, rfl⟩, rfl, rfl⟩ := hr
  have hn := isInode_of_iblock h1 hlt
  have hfin : Image.finished { s with
      disk := storeEntry s.disk s.freeinode (allocEntry type)
      freeinode := s.freeinode + 1 } = storeEntry s.finished s.freeinode (allocEntry type) :=
    finished_store hn
  have hentry (m : Nat) (hm : IsInode m) : Image.entry { s with
      disk := storeEntry s.disk s.freeinode (allocEntry type)
      freeinode := s.freeinode + 1 } m = if m = s.freeinode then allocEntry type else s.entry m :=
    entry_store hn hm
  refine ⟨rfl, ⟨?_, ?_⟩, rfl, hn, hentry, ?_⟩
  · obtain ⟨hb, hz⟩ := hs.counted.storeEntry (e := allocEntry type) hn
    exact ⟨hb, hz⟩
  · have hclaimed : BlocksOwned (Function.update s.entry s.freeinode (newEntry type)) s.finished :=
      hs.owned.congr (ref_claimed (by rw [hfree]; rfl)) fun _ _ => rfl
    refine hclaimed.resync (fun m hm => ?_) ?_
    · rw [Function.update_apply]
      have hm' := hentry m hm
      refine hm' ▸ ?_
      split
      case isTrue => exact ⟨rfl, rfl, rfl⟩
      case isFalse => exact .refl _
    · exact hfin ▸ sameData_storeEntry hn
  · exact hfin ▸ sameData_storeEntry hn

/-! ### The root directory -/

/-- The bytes of the file of inode `n` in the image. -/
def Image.bytes (s : Image) (n : Nat) : Nat → UInt8 := fileByte s.entry s.finished n

theorem Taken.bytes {type : UInt16} (h : Taken type s s') (hs : Sound s)
    (hfree : s.entry s.freeinode = InodeEntry.zero) (m : Nat) : s'.bytes m = s.bytes m := by
  have href : ref (Function.update s.entry s.freeinode (newEntry type)) s.finished =
      ref s.entry s.finished := ref_claimed (by rw [hfree]; rfl)
  have hclaimed : BlocksOwned (Function.update s.entry s.freeinode (newEntry type)) s.finished :=
    hs.owned.congr href fun _ _ => rfl
  funext i
  rw [Image.bytes, fileByte_resync hclaimed (fun m hm => ?_) h.same, Image.bytes, fileByte, href,
    fileByte]
  rw [Function.update_apply, h.entry m hm]
  split
  case isTrue => exact ⟨rfl, rfl, rfl⟩
  case isFalse => exact .refl _

theorem Grown.bytes_other {p : List UInt8} (h : Grown n p s s') {m : Nat} (hm : m ≠ n) :
    s'.bytes m = s.bytes m := by
  funext i
  rw [Image.bytes, h.wrote.bytes, if_neg (by simp [hm]), Image.bytes]

theorem isInode_one : IsInode 1 := isInode_iff.mpr ⟨by omega, by omega⟩

/-- The image lists `entries` in its root directory and has a regular file for each but the first
two. -/
structure Listed (entries : List DirEntry) (s : Image) : Prop where
  sound : Sound s
  freeinode : s.freeinode = entries.length
  two : 2 ≤ entries.length
  small : entries.length ≤ 201
  type : (s.entry 1).type = inodeDirectory
  numLinks : (s.entry 1).numLinks = 1
  size : (s.entry 1).numBytes.toNat = 16 * entries.length
  file : ∀ n, 2 ≤ n → n < entries.length →
    (s.entry n).type = inodeRegular ∧ (s.entry n).numLinks = 1
  free : ∀ n, IsInode n → entries.length ≤ n → s.entry n = InodeEntry.zero
  listed : ∀ k, dirEntry (s.bytes 1) k = entries.getD k DirEntry.zero

theorem byte_getD {e : DirEntry} {i : Nat} (hi : i < 16) :
    ((List.range 16).map e.byte).getD i 0 = e.byte i := by
  simp [hi]

/-- An entry appended to a directory of at most 201 entries. -/
theorem dirEntry_appended {e : DirEntry} {j : Nat} (hj : j ≤ 201)
    (hsize : (s.entry n).numBytes.toNat = 16 * j)
    (h : Grown n ((List.range 16).map e.byte) s s') (k : Nat) :
    dirEntry (s'.bytes n) k = if k = j then e else dirEntry (s.bytes n) k := by
  refine dirEntry_write fun i => ?_
  have hlen : ((List.range 16).map e.byte).length = 16 := by simp
  have hb := h.wrote.bytes n i
  rw [hsize, hlen] at hb
  rw [Image.bytes, hb, Image.bytes]
  by_cases hi : 16 * j ≤ i ∧ i < 16 * j + 16
  · have hpresent : ref s'.entry s'.finished (n, Fs.place (i / blockSize)) ≠ 0 := by
      have hd := h.wrote.direct (i / blockSize)
      rw [hsize, hlen] at hd
      apply hd
      · show 16 * j < (i / 512 + 1) * 512
        omega
      · show i / 512 * 512 < 16 * j + 16
        omega
      · omega
      · show i / 512 < 12
        omega
    rw [if_pos ⟨rfl, hi.1, hi.2, hpresent⟩, if_pos hi, byte_getD (by omega)]
  · rw [if_neg (by tauto), if_neg hi]

/-- The size of a directory after one more entry. -/
theorem size_appended {e : DirEntry} {j : Nat} (hj : j ≤ 201)
    (hsize : (s.entry n).numBytes.toNat = 16 * j)
    (h : Grown n ((List.range 16).map e.byte) s s') :
    (s'.entry n).numBytes.toNat = 16 * (j + 1) := by
  have hlen : ((List.range 16).map e.byte).length = 16 := by simp
  rw [h.fields.numBytes]
  show (UInt32.ofNat ((s.entry n).numBytes.toNat + ((List.range 16).map e.byte).length)).toNat = _
  rw [hsize, hlen, UInt32.toNat_ofNat', Nat.mod_eq_of_lt (by omega)]
  omega

theorem getD_append_single {entries : List DirEntry} {e : DirEntry} (k : Nat) :
    (entries ++ [e]).getD k DirEntry.zero =
      if k = entries.length then e else entries.getD k DirEntry.zero := by
  simp only [List.getD_eq_getElem?_getD]
  split
  case isTrue hk => simp [hk]
  case isFalse hk =>
    by_cases hlt : k < entries.length
    · rw [List.getElem?_append_left hlt]
    · rw [List.getElem?_eq_none (l := entries) (by omega),
        List.getElem?_eq_none (by rw [List.length_append, List.length_singleton]; omega)]

/-- Bytes appended to a file other than the root directory. -/
theorem Listed.iappend {entries : List DirEntry} {p : List UInt8} (h : Listed entries s)
    (hn : 2 ≤ n) (hlt : n < entries.length) (hr : Runs (iappend n p) s u s') :
    Listed entries s' := by
  have hfile := h.file n hn hlt
  have hni : IsInode n := by
    have := h.small
    rw [isInode_iff]
    omega
  have hg := iappend_spec h.sound ⟨hni, by rw [hfile.1]; decide⟩ hr
  have hroot := hg.other 1 isInode_one (by omega)
  constructor
  case sound => exact hg.sound
  case freeinode => rw [hg.freeinode, h.freeinode]
  case two => exact h.two
  case small => exact h.small
  case type => rw [hroot, h.type]
  case numLinks => rw [hroot, h.numLinks]
  case size => rw [hroot, h.size]
  case file =>
    intro m hm hml
    by_cases hmn : m = n
    · subst hmn
      rw [hg.fields.type, hg.fields.numLinks]
      exact hfile
    · have hmi : IsInode m := by
        have := h.small
        rw [isInode_iff]
        omega
      rw [hg.other m hmi hmn]
      exact h.file m hm hml
  case free =>
    intro m hm hml
    rw [hg.other m hm (by omega)]
    exact h.free m hm hml
  case listed =>
    intro k
    rw [hg.bytes_other (by omega)]
    exact h.listed k

/-- `ialloc` for an input file. -/
theorem Listed.ialloc {entries : List DirEntry} (h : Listed entries s)
    (hi : Runs (ialloc inodeRegular) s n s') :
    n = s.freeinode ∧ s.entry s.freeinode = InodeEntry.zero ∧ Taken inodeRegular s s' := by
  have htwo := h.two
  have h1 : 1 ≤ s.freeinode := by
    rw [h.freeinode]
    omega
  have hinode : IsInode s.freeinode := by
    simp only [Mkfs.ialloc, runs_bind, runs_get, runs_set, runs_winode, runs_pure] at hi
    obtain ⟨_, _, ⟨rfl, rfl⟩, _, _, rfl, _, _, ⟨hlt, rfl⟩, rfl, rfl⟩ := hi
    exact isInode_of_iblock h1 hlt
  have hzero := h.free _ hinode (Nat.le_of_eq h.freeinode.symm)
  obtain ⟨rfl, htaken⟩ := ialloc_spec h.sound h1 hzero hi
  exact ⟨rfl, hzero, htaken⟩

/-- A new file and its entry in the root directory. -/
theorem Listed.newFile {entries : List DirEntry} {e : DirEntry} {t : Image}
    (h : Listed entries s) (hi : Runs (Mkfs.ialloc inodeRegular) s n t)
    (hr : Runs (appendEntry 1 e) t u s') :
    n = entries.length ∧ Listed (entries ++ [e]) s' := by
  have htwo := h.two
  obtain ⟨rfl, hzero, htaken⟩ := h.ialloc hi
  have hne : s.freeinode ≠ 1 := by
    rw [h.freeinode]
    omega
  have hroot := htaken.entry 1 isInode_one
  rw [if_neg hne.symm] at hroot
  have hg := iappend_spec htaken.sound ⟨isInode_one, by rw [hroot, h.type]; decide⟩ hr
  have hsmall := h.small
  have hsize : (t.entry 1).numBytes.toNat = 16 * entries.length := by rw [hroot, h.size]
  have hle := isInode_iff.mp htaken.isInode
  rw [h.freeinode] at hle
  have hlen : (entries ++ [e]).length = entries.length + 1 := by simp
  refine ⟨h.freeinode, ?_⟩
  constructor
  case sound => exact hg.sound
  case freeinode => rw [hg.freeinode, htaken.freeinode, h.freeinode, hlen]
  case two => omega
  case small => omega
  case type =>
    rw [hg.fields.type]
    exact (congrArg InodeEntry.type hroot).trans h.type
  case numLinks =>
    rw [hg.fields.numLinks]
    exact (congrArg InodeEntry.numLinks hroot).trans h.numLinks
  case size => rw [size_appended hsmall hsize hg, hlen]
  case file =>
    intro m hm hml
    rw [hlen] at hml
    have hmi : IsInode m := isInode_iff.mpr ⟨by omega, by omega⟩
    rw [hg.other m hmi (by omega), htaken.entry m hmi, h.freeinode]
    split
    case isTrue => exact ⟨rfl, rfl⟩
    case isFalse hmn => exact h.file m hm (by omega)
  case free =>
    intro m hm hml
    rw [hlen] at hml
    rw [hg.other m hm (by omega), htaken.entry m hm, h.freeinode, if_neg (by omega)]
    exact h.free m hm (by omega)
  case listed =>
    intro k
    rw [dirEntry_appended hsmall hsize hg, htaken.bytes h.sound hzero, h.listed,
      getD_append_single]

/-- The entry of the root directory for an input file with inode `n`. -/
def inputEntry (n : Nat) (input : Input) : DirEntry :=
  ⟨UInt16.ofNat n, fileName (inputName input.path)⟩

theorem Listed.addFile {entries : List DirEntry} {input : Input} (h : Listed entries s)
    (hr : Runs (addFile input) s u s') :
    Listed (entries ++ [inputEntry entries.length input]) s' := by
  simp only [Mkfs.addFile, runs_bind] at hr
  obtain ⟨inum, t, hi, _, t', hentry, hr⟩ := hr
  obtain ⟨rfl, hnew⟩ := h.newFile hi hentry
  have htwo := h.two
  have hlen : entries.length < (entries ++ [inputEntry entries.length input]).length := by simp
  exact hr.forM (I := fun _ t => Listed (entries ++ [inputEntry entries.length input]) t) hnew
    fun p _ t t' ht hp => ht.iappend htwo hlen hp

/-- The entries of the root directory for a list of input files, the first of them with inode
`n`. -/
def inputEntries (n : Nat) : List Input → List DirEntry
  | [] => []
  | input :: inputs => inputEntry n input :: inputEntries (n + 1) inputs

@[simp] theorem length_inputEntries (inputs : List Input) (n : Nat) :
    (inputEntries n inputs).length = inputs.length := by
  induction inputs generalizing n with
  | nil => rfl
  | cons input inputs ih => simp [inputEntries, ih]

theorem Listed.addFiles {inputs : List Input} {entries : List DirEntry} (h : Listed entries s)
    (hr : Runs (inputs.forM Mkfs.addFile) s u s') :
    Listed (entries ++ inputEntries entries.length inputs) s' := by
  induction inputs generalizing s entries with
  | nil =>
    obtain ⟨-, rfl⟩ := runs_pure.mp (show Runs (pure ⟨⟩) s u s' from hr)
    rw [inputEntries, List.append_nil]
    exact h
  | cons input inputs ih =>
    obtain ⟨_, t, hi, hr⟩ := runs_bind.mp
      (show Runs (Mkfs.addFile input >>= fun _ => inputs.forM _) s u s' from hr)
    have hrest := ih (h.addFile hi) hr
    rw [List.append_assoc, List.length_append] at hrest
    exact hrest

/-- The root directory of an image built from `inputs`. -/
def rootEntries (inputs : List Input) : List DirEntry :=
  [⟨1, fileName [46]⟩, ⟨1, fileName [46, 46]⟩] ++ inputEntries 2 inputs

theorem finished_blank {b : Nat} (hb : ¬IsBitmap b) : blank.finished b = Bytes.zero :=
  finished_of_not_bitmap hb

theorem entry_blank (hn : IsInode n) : blank.entry n = InodeEntry.zero := by
  rw [entry_eq_disk hn]
  exact getEntry_zero _

theorem sound_blank : Sound blank := by
  have hcounted : Counted blank := ⟨fun _ => Nat.zero_le _, fun _ _ _ => rfl⟩
  have href (i : Nat × Place) : ref blank.entry blank.finished i = 0 := by
    refine ref_of_not_inUse fun hu => hu.2 ?_
    rw [entry_blank hu.1]
    rfl
  refine ⟨hcounted, ⟨fun h => IsData.pos h rfl, ?_, ?_, ?_⟩, hcounted.metaUsed⟩
  · exact fun i j hi => absurd (href i) hi
  · exact fun i hi => absurd (href i) hi
  · intro b hb
    rw [blockBit_finished hb.1 (Nat.zero_le _)]
    have hd := isData_iff.mp hb
    constructor
    · intro hlt
      rw [decide_eq_true_eq] at hlt
      have hlt' : (b - 65) % 1000 < 0 + 4 := hlt
      omega
    · rintro ⟨i, hi⟩
      rw [href] at hi
      omega

theorem bytes_blank (n i : Nat) : blank.bytes n i = 0 := by
  unfold Image.bytes fileByte
  split
  case isTrue => rfl
  case isFalse hne =>
    rw [finished_blank (sound_blank.owned.owns.inArea _ hne).not_bitmap, Bytes.get_zero]

/-- The root directory before any input file. -/
theorem listed_root {t t' : Image} {n : Nat} (hi : Runs (ialloc inodeDirectory) blank n t)
    (h1 : Runs (appendEntry 1 ⟨1, fileName [46]⟩) t () t')
    (h2 : Runs (appendEntry 1 ⟨1, fileName [46, 46]⟩) t' u s') : Listed (rootEntries []) s' := by
  have hzero : blank.entry blank.freeinode = InodeEntry.zero := entry_blank isInode_one
  obtain ⟨-, htaken⟩ := ialloc_spec sound_blank (Nat.le_refl 1) hzero hi
  have hroot : t.entry 1 = allocEntry inodeDirectory :=
    (htaken.entry 1 isInode_one).trans (if_pos rfl)
  have hsize : (t.entry 1).numBytes.toNat = 16 * 0 := by rw [hroot]; rfl
  have hg := iappend_spec htaken.sound ⟨isInode_one, by rw [hroot]; decide⟩ h1
  have htype : (t'.entry 1).type = inodeDirectory := by
    rw [hg.fields.type]
    exact congrArg InodeEntry.type hroot
  have hsize' : (t'.entry 1).numBytes.toNat = 16 * 1 := size_appended (by omega) hsize hg
  have hg' := iappend_spec hg.sound ⟨isInode_one, by rw [htype]; decide⟩ h2
  have hother (m : Nat) (hm : IsInode m) (hne : m ≠ 1) : s'.entry m = InodeEntry.zero := by
    rw [hg'.other m hm hne, hg.other m hm hne]
    exact (htaken.entry m hm).trans ((if_neg hne).trans (entry_blank hm))
  constructor
  case sound => exact hg'.sound
  case freeinode => rw [hg'.freeinode, hg.freeinode, htaken.freeinode]; rfl
  case two => decide
  case small => decide
  case type => rw [hg'.fields.type]; exact htype
  case numLinks =>
    rw [hg'.fields.numLinks]
    show (t'.entry 1).numLinks = 1
    rw [hg.fields.numLinks]
    exact congrArg InodeEntry.numLinks hroot
  case size =>
    rw [size_appended (by omega) hsize' hg']
    rfl
  case file =>
    intro m hm hml
    have hml' : m < 2 := hml
    omega
  case free =>
    intro m hm hml
    have hml' : 2 ≤ m := hml
    exact hother m hm (by omega)
  case listed =>
    intro k
    have hblank : dirEntry (blank.bytes 1) k = DirEntry.zero := dirEntry_zero fun i _ => bytes_blank 1 _
    rw [dirEntry_appended (by omega) hsize' hg', dirEntry_appended (by omega) hsize hg,
      htaken.bytes sound_blank hzero, hblank]
    rcases k with _ | _ | k <;> simp [rootEntries, inputEntries]

/-! ### The image -/

/-- The disk lists `entries` in its root directory, has a regular file for each but the first two,
and its blocks are owned. -/
structure Formatted (entries : List DirEntry) (d : Nat → BlockData) : Prop where
  owned : BlocksOwned (diskEntry d) d
  two : 2 ≤ entries.length
  small : entries.length ≤ 201
  type : (diskEntry d 1).type = inodeDirectory
  numLinks : (diskEntry d 1).numLinks = 1
  size : (diskEntry d 1).numBytes.toNat = (16 * entries.length / blockSize + 1) * blockSize
  file : ∀ n, 2 ≤ n → n < entries.length →
    (diskEntry d n).type = inodeRegular ∧ (diskEntry d n).numLinks = 1
  free : ∀ n, IsInode n → entries.length ≤ n → (diskEntry d n).type = inodeInvalid
  listed : ∀ k, dirEntry (fileByte (diskEntry d) d 1) k = entries.getD k DirEntry.zero

/-- The size of a root directory with `k` entries. -/
def rootSize (k : Nat) : Nat := (16 * k / blockSize + 1) * blockSize

/-- `main` rounds the size of the root directory up. -/
theorem Listed.fixed {entries : List DirEntry} (h : Listed entries s) (hr : Runs fixRoot s u s') :
    Counted s' ∧ SameData s.finished s'.finished ∧ ∀ m, IsInode m → s'.entry m =
      if m = 1 then { s.entry 1 with numBytes := UInt32.ofNat (rootSize entries.length) }
      else s.entry m := by
  simp only [Mkfs.fixRoot, runs_bind, runs_rinode, runs_winode] at hr
  obtain ⟨_, _, ⟨-, rfl, rfl⟩, -, rfl⟩ := hr
  rw [← entry_eq_disk isInode_one, h.size]
  refine ⟨h.sound.counted.storeEntry isInode_one, ?_, fun m hm => entry_store isInode_one hm⟩
  rw [finished_store isInode_one]
  exact sameData_storeEntry isInode_one

/-- The entries before and after `fixRoot` hold the same block numbers. -/
theorem sameBlocks_fixed {size : UInt32} (h : ∀ m, IsInode m → s'.entry m =
      if m = 1 then { s.entry 1 with numBytes := size } else s.entry m) (m : Nat)
    (hm : IsInode m) : SameBlocks (s.entry m) (s'.entry m) := by
  rw [h m hm]
  split
  case isTrue heq => rw [heq]; exact ⟨rfl, rfl, rfl⟩
  case isFalse => exact .refl _

theorem toNat_rootSize {k : Nat} (hk : k ≤ 201) : (UInt32.ofNat (rootSize k)).toNat = rootSize k := by
  have hlt : rootSize k < 2 ^ 32 := by
    show (16 * k / 512 + 1) * 512 < 2 ^ 32
    omega
  rw [UInt32.toNat_ofNat', Nat.mod_eq_of_lt hlt]

theorem Listed.fixRoot {entries : List DirEntry} (h : Listed entries s)
    (hr : Runs fixRoot s u s') : Formatted entries s'.finished := by
  obtain ⟨-, hdata, hentry⟩ := h.fixed hr
  have hblocks := sameBlocks_fixed hentry
  have hroot := hentry 1 isInode_one
  rw [if_pos rfl] at hroot
  have hsame (m : Nat) (hm : IsInode m) (hne : m ≠ 1) := (hentry m hm).trans (if_neg hne)
  have hsmall := h.small
  constructor
  case owned => exact h.sound.owned.resync hblocks hdata
  case two => exact h.two
  case small => exact h.small
  case type => exact (congrArg InodeEntry.type hroot).trans h.type
  case numLinks => exact (congrArg InodeEntry.numLinks hroot).trans h.numLinks
  case size => exact (congrArg (fun e => e.numBytes.toNat) hroot).trans (toNat_rootSize hsmall)
  case file =>
    intro n hn hlt
    have hni : IsInode n := isInode_iff.mpr ⟨by omega, by omega⟩
    have he := hsame n hni (by omega)
    exact ⟨(congrArg InodeEntry.type he).trans (h.file n hn hlt).1,
      (congrArg InodeEntry.numLinks he).trans (h.file n hn hlt).2⟩
  case free =>
    intro n hn hle
    have htwo := h.two
    refine (congrArg InodeEntry.type (hsame n hn (by omega))).trans ?_
    rw [h.free n hn hle]
    rfl
  case listed =>
    intro k
    rw [← h.listed k]
    exact congrArg (fun f => dirEntry f k)
      (funext fun i => fileByte_resync h.sound.owned hblocks hdata 1 i)

/-- The rounds of `ballocg` write the bitmaps of their groups. -/
theorem ballocGroups_spec {l : List Nat} (hr : Runs (l.forM ballocGroup) s u s') :
    s'.usedBlock = s.usedBlock ∧ ∀ b, (∀ g ∈ l, b ≠ bitmapBlock mkfsSuperBlock g 0) ∧
      s'.disk b = s.disk b ∨ ∃ g ∈ l, b = bitmapBlock mkfsSuperBlock g 0 ∧
        s'.disk b = groupBitmap (s.usedBlock g) := by
  induction l generalizing s with
  | nil =>
    obtain ⟨-, rfl⟩ := runs_pure.mp (show Runs (pure ⟨⟩) s u s' from hr)
    exact ⟨rfl, fun b => .inl ⟨by simp, rfl⟩⟩
  | cons g l ih =>
    obtain ⟨_, t, hg, hr⟩ := runs_bind.mp
      (show Runs (ballocGroup g >>= fun _ => l.forM _) s u s' from hr)
    simp only [ballocGroup, wblock, runs_bind, runs_get, runs_require, runs_modify] at hg
    obtain ⟨_, _, ⟨rfl, rfl⟩, _, _, ⟨-, rfl⟩, rfl⟩ := hg
    obtain ⟨hu, hd⟩ := ih hr
    refine ⟨hu, fun b => ?_⟩
    rcases hd b with ⟨hnot, heq⟩ | ⟨h, hh, rfl, heq⟩
    · by_cases hb : b = bitmapBlock mkfsSuperBlock g 0
      · subst hb
        exact .inr ⟨g, by simp, rfl, heq.trans (Function.update_self ..)⟩
      · refine .inl ⟨?_, heq.trans (Function.update_of_ne hb ..)⟩
        intro h hh
        rcases List.mem_cons.mp hh with rfl | hh
        · exact hb
        · exact hnot h hh
    · exact .inr ⟨h, by simp [hh], rfl, heq⟩

/-- `ballocg` writes the bitmaps. -/
theorem ballocg_spec (hr : Runs ballocg s u s') : s'.disk = s.finished := by
  funext b
  unfold Image.finished
  rcases (ballocGroups_spec hr).2 b with ⟨hnot, heq⟩ | ⟨g, hg, rfl, heq⟩
  · have hb : ¬IsBitmap b := by
      intro hb
      rw [isBitmap_iff] at hb
      refine hnot ((b - 65) / 1000) (List.mem_range.mpr ?_) ?_
      · show (b - 65) / 1000 < 10
        omega
      · rw [bitmapBlock_eq]
        omega
    rw [if_neg hb, heq]
  · have hg' : g < 10 := List.mem_range.mp hg
    have hdiv : (bitmapBlock mkfsSuperBlock g 0 - 65) / 1000 = g := by
      rw [bitmapBlock_eq]
      omega
    rw [if_pos (isBitmap_bitmapBlock hg' (by omega)), heq, hdiv]

theorem main_formatted {inputs : List Input} (hr : Runs (main inputs) blank u s) :
    Formatted (rootEntries inputs) s.disk := by
  simp only [main, runs_bind, runs_require] at hr
  obtain ⟨n, t₁, hi, _, _, ⟨rfl, rfl⟩, _, t₂, h1, _, t₃, h2, _, t₄, hfiles, _, t₅, hfix, hb⟩ := hr
  have hroot := listed_root hi h1 h2
  rw [ballocg_spec hb]
  exact (hroot.addFiles hfiles).fixRoot hfix

/-- The blocks of every image that `mkfs` builds are owned. -/
theorem Builds.owned {disk : Nat → BlockData} (h : Builds disk) :
    BlocksOwned (diskEntry disk) disk := by
  obtain ⟨inputs, s, hr, rfl⟩ := h
  exact (main_formatted hr).owned

/-- The image that `mkfs` builds without input files. -/
@[irreducible] def emptyImage : Nat → BlockData :=
  match main [] blank with
  | .ok (_, s) => s.disk
  | .error _ => fun _ => Bytes.zero

theorem builds_emptyImage : Builds emptyImage := by
  have hok : (match main [] blank with | .ok _ => true | .error _ => false) = true := by
    decide +kernel
  unfold emptyImage
  cases hm : main [] blank with
  | error e =>
    rw [hm] at hok
    cases hok
  | ok r => exact ⟨[], r.2, hm, rfl⟩

end FtosFfs.Mkfs
