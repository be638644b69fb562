import FtosFfs.Fs.Holes

/-! The kernel reads back what `mkfs` wrote: it finds the name of every input file in the root
directory, and reads the bytes of the file from the inode it finds. -/

namespace FtosFfs.Fs

open Lib Lib.Exec Cache

variable {s s' : State} {p : Ptr} {n : Nat} {name : List UInt8} {inputs : List Mkfs.Input}
  {img : Mkfs.Image} {u : Unit}

/-! ### Names -/

/-- The characters that `strncpy` stores are the first `FILE_NAME_MAX_LENGTH` of the name. -/
theorem nameChars_fileName (h : 0 ∉ name) :
    nameChars (fileName name) = name.take fileNameMaxLength := by
  have hmap : (List.range fileNameMaxLength).map (fileName name).get =
      name.take fileNameMaxLength ++ List.replicate (fileNameMaxLength - name.length) 0 := by
    refine List.ext_getElem (by simp; omega) fun i hi _ => ?_
    have hi' : i < fileNameMaxLength := by simpa using hi
    rw [List.getElem_map, List.getElem_range, fileName, Bytes.get_ofFn hi']
    by_cases hlt : i < name.length
    · rw [List.getElem_append_left (by simp; omega), List.getElem_take]
      simp [hlt]
    · rw [List.getElem_append_right (by simp; omega), List.getElem_replicate]
      simp [Nat.not_lt.mp hlt]
  have hall : ∀ c ∈ name.take fileNameMaxLength, decide (c ≠ 0) = true := by
    intro c hc
    rw [decide_eq_true_eq]
    rintro rfl
    exact h (List.mem_of_mem_take hc)
  rw [nameChars, hmap, List.takeWhile_append_of_pos hall]
  cases hk : fileNameMaxLength - name.length with
  | zero => simp
  | succ k => simp [List.replicate_succ]

theorem not_mem_inputName {path : List UInt8} (h : 0 ∉ path) : 0 ∉ Mkfs.inputName path := by
  have hname : 0 ∉ (path.reverse.takeWhile (· ≠ 47)).reverse := by
    intro hm
    rw [List.mem_reverse] at hm
    exact h (List.mem_reverse.mp ((List.takeWhile_prefix _).subset hm))
  simp only [Mkfs.inputName]
  split
  case isTrue => exact fun hm => hname (List.mem_of_mem_tail hm)
  case isFalse => exact hname

/-- A name shorter than `FILE_NAME_MAX_LENGTH` is stored whole. -/
theorem eq_of_take_eq {l : List UInt8} (hl : l.length < fileNameMaxLength)
    (h : name.take fileNameMaxLength = l) : name = l := by
  have hlen := congrArg List.length h
  rw [List.length_take] at hlen
  rwa [List.take_of_length_le (by omega)] at h

/-! ### The root directory -/

theorem inputEntries_get (inputs : List Mkfs.Input) (n i : Nat) :
    (Mkfs.inputEntries n inputs)[i]? = inputs[i]?.map (Mkfs.inputEntry (n + i)) := by
  induction inputs generalizing n i with
  | nil => rfl
  | cons input inputs ih =>
    cases i with
    | zero => rfl
    | succ i =>
      simp only [Mkfs.inputEntries, List.getElem?_cons_succ, ih]
      rw [Nat.add_right_comm, Nat.add_assoc]

theorem rootEntries_get {i : Nat} {input : Mkfs.Input} (hi : inputs[i]? = some input) :
    (Mkfs.rootEntries inputs).getD (2 + i) DirEntry.zero = Mkfs.inputEntry (2 + i) input := by
  rw [List.getD_eq_getElem?_getD, Mkfs.rootEntries, List.getElem?_append_right (by simp)]
  simp [inputEntries_get, hi]

/-- The names of the input files are C strings other than `"."` and `".."`, and differ in their first
`FILE_NAME_MAX_LENGTH` characters. -/
structure NamesOk (inputs : List Mkfs.Input) : Prop where
  string : ∀ input ∈ inputs, 0 ∉ input.path
  dot : ∀ input ∈ inputs, Mkfs.inputName input.path ≠ [46]
  dotdot : ∀ input ∈ inputs, Mkfs.inputName input.path ≠ [46, 46]
  distinct : inputs.Pairwise fun a b =>
    (Mkfs.inputName a.path).take fileNameMaxLength ≠ (Mkfs.inputName b.path).take fileNameMaxLength

/-- The first entry of the root directory with the name of input `i` is the one of input `i`. -/
theorem named_rootEntries (h : NamesOk inputs) (hlen : inputs.length < 200) {i k : Nat}
    {input : Mkfs.Input} (hi : inputs[i]? = some input) (hk : k ≤ 2 + i) :
    named (Mkfs.inputName input.path) ((Mkfs.rootEntries inputs).getD k DirEntry.zero) =
      decide (k = 2 + i) := by
  have hmem := List.mem_of_getElem? hi
  have hlt : i < inputs.length := (List.getElem?_eq_some_iff.mp hi).1
  have hdots (l : List UInt8) (h0 : 0 ∉ l) (hl : l.length < fileNameMaxLength)
      (hne : Mkfs.inputName input.path ≠ l) :
      named (Mkfs.inputName input.path) ⟨1, fileName l⟩ = false := by
    rw [named, decide_eq_false_iff_not, nameChars_fileName h0,
      List.take_of_length_le (l := l) (Nat.le_of_lt hl)]
    exact fun hc => hne (eq_of_take_eq hl hc.2)
  have hfirst (hk2 : k < 2) : decide (k = 2 + i) = false := by
    rw [decide_eq_false_iff_not]
    omega
  match k with
  | 0 =>
    rw [hfirst (by omega)]
    exact hdots [46] (by decide) (by decide) (h.dot _ hmem)
  | 1 =>
    rw [hfirst (by omega)]
    exact hdots [46, 46] (by decide) (by decide) (h.dotdot _ hmem)
  | k + 2 =>
    have hk' : k < inputs.length := by omega
    have hget : inputs[k]? = some inputs[k] := List.getElem?_eq_getElem hk'
    rw [Nat.add_comm k 2, rootEntries_get hget, named, Mkfs.inputEntry,
      nameChars_fileName (not_mem_inputName (h.string _ (List.getElem_mem hk'))), decide_eq_decide]
    have hno : UInt16.ofNat (2 + k) ≠ 0 := by
      intro h0
      have := congrArg UInt16.toNat h0
      rw [UInt16.toNat_ofNat', Nat.mod_eq_of_lt (by omega)] at this
      exact absurd this (by show 2 + k ≠ 0; omega)
    constructor
    · rintro ⟨-, heq⟩
      by_contra hne
      have hpair := List.pairwise_iff_getElem.mp h.distinct k i hk' hlt (by omega)
      obtain ⟨_, rfl⟩ := List.getElem?_eq_some_iff.mp hi
      exact hpair heq.symm
    · intro hki
      obtain rfl : k = i := by omega
      obtain ⟨_, rfl⟩ := List.getElem?_eq_some_iff.mp hi
      exact ⟨hno, rfl⟩

/-! ### The kernel -/

/-- `inode_get` and `inode_lock` of an inode in use that is not in memory load it from the disk. -/
theorem Cached.open_returns {dirty : Set Nat} (h : Cached dirty s) (hu : InUse (diskEntry s.disk) n)
    (hno : ∀ q ∈ s.list, (s.mem q).inodeNo ≠ n) :
    ∃ p t s', Runs (Fs.inodeGet sblock n) s p t ∧ Runs (Fs.inodeLock sblock p) t () s' ∧
      Cached dirty s' ∧ s'.disk = s.disk ∧ s'.list = p :: s.list ∧ (s'.mem p).inodeNo = n ∧
      (s'.mem p).entry = diskEntry s.disk n := by
  have hget := (runs_inodeGet (p := s.fresh) h.list).mpr ⟨hu.1, .inr ⟨hno, rfl, rfl⟩⟩
  set t : State := { s with
    fresh := s.fresh + 1
    list := s.fresh :: s.list
    mem := Function.update s.mem s.fresh (s.newInode n) } with ht
  have hmem : t.mem s.fresh = s.newInode n := Function.update_self ..
  have hloaded : t.loaded s.fresh = diskEntry s.disk n := by
    unfold State.loaded
    rw [hmem]
    rfl
  have hlock : Runs (Fs.inodeLock sblock s.fresh) t ()
      (t.setInode s.fresh (t.lockedInode s.fresh)) := by
    rw [runs_inodeLock, hloaded, hmem]
    exact ⟨Int.one_pos, rfl, fun _ => by rw [ht, h.held]; simp, hu.2, rfl⟩
  have hc := ((h.inodeGet hget).1.inodeLock (by rw [ht]; simp) hlock).1
  refine ⟨s.fresh, t, _, hget, hlock, hc, rfl, rfl, ?_, ?_⟩
  · rw [State.mem_setInode_same, State.lockedInode, hmem]
    rfl
  · rw [State.mem_setInode_same, State.lockedInode]
    exact hloaded

/-- A lookup of `name` in the locked directory at `root` finds inode `n`, which is a regular file with
the bytes `f`: a read of any number of bytes from offset 0 on gets its first bytes. -/
structure Found (s : State) (root : Ptr) (name : List UInt8) (n : Nat) (f : List UInt8) : Prop where
  lookup : ∃ index, Runs (inodeLookup sblock root name) s (some (n, index)) s
  file : ∃ p t s', Runs (inodeGet sblock n) s p t ∧ Runs (inodeLock sblock p) t () s' ∧
    (s'.mem p).entry.type = inodeRegular ∧ (s'.mem p).entry.numBytes.toNat = f.length ∧
    ∀ dest count, ∃ dest', Runs (inodeRead sblock p dest 0 count) s' (min count f.length, dest') s' ∧
      ∀ i < min count f.length, dest' i = f.getD i 0

theorem found_input (h : NamesOk inputs) (hr : Runs (Mkfs.main inputs) Mkfs.blank u img)
    {root : Ptr} {dirty : Set Nat} (hc : Cached dirty s) (hdisk : s.disk = img.disk)
    (hlist : ∀ q ∈ s.list, (s.mem q).inodeNo = 1) (hroot : (s.mem root).entry = diskEntry img.disk 1)
    {i : Nat} {input : Mkfs.Input} (hi : inputs[i]? = some input) :
    Found s root (Mkfs.inputName input.path) (2 + i) input.reads.flatten := by
  have hf := Mkfs.main_formatted hr
  have hh := Mkfs.main_holds hr
  have hlt : i < inputs.length := (List.getElem?_eq_some_iff.mp hi).1
  have hlen := length_rootEntries inputs
  have hsmall := hf.small
  have hget : (inputs.map fun input => input.reads.flatten)[i]? = some input.reads.flatten := by
    rw [List.getElem?_map, hi]
    rfl
  have hu1 : InUse (diskEntry img.disk) 1 := ⟨Mkfs.isInode_one, by rw [hf.type]; decide⟩
  have hfile := hf.file (2 + i) (by omega) (by omega)
  have hu : InUse (diskEntry img.disk) (2 + i) :=
    ⟨isInode_iff.mpr ⟨by omega, by omega⟩, by rw [hfile.1]; decide⟩
  constructor
  case lookup =>
    have hentry := hf.listed (2 + i)
    rw [rootEntries_get hi] at hentry
    have hsize : 16 * (2 + i + 1) ≤ (diskEntry img.disk 1).numBytes.toNat := by
      rw [hf.size, hlen]
      show _ ≤ (16 * (inputs.length + 2) / 512 + 1) * 512
      omega
    have hfilled : Filled 1 0 (16 * (2 + i + 1)) (diskEntry img.disk) s.disk := by
      rw [hdisk]
      intro j h0 hj
      refine hh.root j h0 ?_
      rw [List.length_map]
      omega
    have hscan : Runs (scan sblock root false (named (Mkfs.inputName input.path))
        (((s.mem root).entry.numBytes.toNat + 15) / 16) (16 * 0) DirEntry.zero) s _ s := scan_finds
      hroot.symm hu1 (by rw [hdisk]; exact hf.owned) hc.held (Cached.ne_device hf.type) hsize hfilled
        (Nat.zero_le _)
      (by rw [hroot]; omega)
      (fun k _ hk => by
        rw [hdisk, hf.listed, named_rootEntries h (by omega) hi (by omega), decide_eq_false_iff_not]
        omega)
      (by rw [hdisk, hf.listed, named_rootEntries h (by omega) hi (Nat.le_refl _), decide_eq_true_eq])
    rw [hdisk, hentry] at hscan
    refine ⟨16 * (2 + i) / 16, ?_⟩
    simp only [inodeLookup, runs_bind, runs_get, runs_require, runs_pure]
    refine ⟨s, s, ⟨rfl, rfl⟩, ⟨⟩, s, ⟨by rw [hroot, hf.type], rfl⟩, _, s, hscan, ?_, rfl⟩
    have hno : (UInt16.ofNat (2 + i)).toNat = 2 + i := by
      rw [UInt16.toNat_ofNat', Nat.mod_eq_of_lt (by omega)]
    simp only [Option.map_some, Mkfs.inputEntry, hno]
  case file =>
    obtain ⟨p, t, s', hget', hlock, hc', hdisk', -, -, hentry⟩ := hc.open_returns (n := 2 + i)
      (by rw [hdisk]; exact hu) fun q hq => by rw [hlist q hq]; omega
    rw [hdisk] at hdisk' hentry
    have hsize := hh.size i _ hget
    refine ⟨p, t, s', hget', hlock, by rw [hentry]; exact hfile.1, by rw [hentry]; exact hsize, ?_⟩
    intro dest count
    have hcount : readCount (diskEntry img.disk (2 + i)).numBytes.toNat 0 count =
        min count input.reads.flatten.length := by
      rw [readCount, hsize, Nat.sub_zero]
    obtain ⟨⟨r, dest'⟩, hread⟩ : ∃ r, Runs (inodeRead sblock p dest 0 count) s' r s' :=
      inodeRead_returns hentry.symm hu hc'.held (by rw [hfile.1]; decide)
      (Nat.zero_le _) fun j h0 hj => by
        rw [hcount] at hj
        unfold HasByte
        rw [hdisk']
        refine hh.filled _ hu (by omega) j h0 ?_
        rw [hsize]
        omega
    obtain ⟨-, -, hc, hbuf, -⟩ :=
      inodeRead_spec hentry.symm hu (by rw [hdisk']; exact hf.owned) hread
    simp only [hcount] at hc hbuf
    subst hc
    refine ⟨dest', hread, fun j hj => ?_⟩
    rw [hbuf, readTo, if_pos (by omega), Nat.zero_add, hdisk']
    exact hh.bytes i _ hget j (by omega)

/-- The kernel reads back what `mkfs` wrote: on every image that `mkfs` builds, a lookup in the root
directory finds each input file as an inode of its own, with the bytes of the file; and `mkfs` builds
an image if the files take fewer blocks than there are. -/
theorem main_readBack (h : NamesOk inputs) (hlen : inputs.length < ninodes)
    (hmax : ∀ input ∈ inputs, input.reads.flatten.length ≤ inodeMaxBytes) :
    (Mkfs.costOf (inputs.map fun input => input.reads.flatten) (inputs.length + 2) < Mkfs.capacity →
      ∃ img, Runs (Mkfs.main inputs) Mkfs.blank () img) ∧
    ∀ img, Runs (Mkfs.main inputs) Mkfs.blank () img → ∀ mem, ∃ root s s',
      Runs (inodeGet sblock 1) (mount sblock img.disk mem) root s ∧
      Runs (inodeLock sblock root) s () s' ∧
      ∀ i input, inputs[i]? = some input →
        Found s' root (Mkfs.inputName input.path) (2 + i) input.reads.flatten := by
  refine ⟨Mkfs.main_returns hlen hmax, fun img hr mem => ?_⟩
  have hf := Mkfs.main_formatted hr
  have hu : InUse (diskEntry img.disk) 1 := ⟨Mkfs.isInode_one, by rw [hf.type]; decide⟩
  have hmount : Cached ∅ (mount sblock img.disk mem) := cached_mount hf.owned
  obtain ⟨root, s, s', hget, hlock, hc, hdisk, hlist, hno, hentry⟩ :=
    hmount.open_returns hu (by simp [mount])
  refine ⟨root, s, s', hget, hlock, fun i input hi => found_input h hr hc hdisk ?_ hentry hi⟩
  intro q hq
  rw [hlist] at hq
  obtain rfl : q = root := by simpa [mount] using hq
  exact hno

/-- The files `_a` with the bytes `hi` and `b` without bytes: the kernel finds `a` and reads `hi`. -/
theorem main_readBack_two : ∃ img,
    Runs (Mkfs.main [⟨[95, 97], [[104, 105]]⟩, ⟨[98], []⟩]) Mkfs.blank () img ∧ ∀ mem, ∃ root s s',
      Runs (inodeGet sblock 1) (mount sblock img.disk mem) root s ∧
      Runs (inodeLock sblock root) s () s' ∧ Found s' root [97] 2 [104, 105] := by
  have hnames : NamesOk [⟨[95, 97], [[104, 105]]⟩, ⟨[98], []⟩] :=
    ⟨by decide, by decide, by decide, by decide⟩
  obtain ⟨hbuilt, hread⟩ := main_readBack hnames (by decide) (by decide)
  obtain ⟨img, hr⟩ := hbuilt (by decide)
  refine ⟨img, hr, fun mem => ?_⟩
  obtain ⟨root, s, s', hget, hlock, hfound⟩ := hread img hr mem
  exact ⟨root, s, s', hget, hlock, hfound 0 _ rfl⟩

end FtosFfs.Fs
