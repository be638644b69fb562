import FtosFfs.Fs.Listing

/-! The contents of the files in an image of `mkfs`: the files hold the bytes of the inputs, and have
blocks for exactly the bytes below their sizes as long as the size of the root directory is not
rounded up. -/

namespace FtosFfs.Mkfs

open Lib Lib.Exec Fs

variable {s s' t : Image} {n m : Nat} {u : Unit} {p : List UInt8} {files : List (List UInt8)}

/-! ### One call -/

theorem Grown.size (h : Grown n p s s') :
    (s'.entry n).numBytes.toNat = (s.entry n).numBytes.toNat + p.length := by
  rw [h.fields.numBytes]
  show (UInt32.ofNat ((s.entry n).numBytes.toNat + p.length)).toNat = _
  rw [UInt32.toNat_ofNat']
  refine Nat.mod_eq_of_lt ?_
  by_cases hp : p = []
  · rw [hp, List.length_nil, Nat.add_zero]
    exact (s.entry n).numBytes.toNat_lt
  · have hb : _ ≤ 71680 := h.bound hp
    omega

theorem Grown.inUse (h : Grown n p s s') : InUse s'.entry m ↔ InUse s.entry m := by
  unfold InUse
  refine and_congr_right fun hm => ?_
  by_cases hmn : m = n
  · subst hmn
    rw [h.fields.type]
  · rw [h.other m hm hmn]

/-- The bytes of the file that is appended to. -/
theorem Grown.bytes_self (h : Grown n p s s') {i : Nat}
    (hi : i < (s.entry n).numBytes.toNat + p.length) :
    s'.bytes n i = if i < (s.entry n).numBytes.toNat then s.bytes n i
      else p.getD (i - (s.entry n).numBytes.toNat) 0 := by
  rw [Image.bytes, h.wrote.bytes, Image.bytes]
  split
  case isTrue hin => rw [if_neg (Nat.not_lt.mpr hin.2.1)]
  case isFalse hout =>
    rw [if_pos]
    by_contra hlt
    exact hout ⟨rfl, Nat.not_lt.mp hlt, hi, h.filled i (Nat.not_lt.mp hlt) hi⟩

/-- The file of inode `n` has blocks for exactly the bytes below its size. -/
structure Tight (n : Nat) (s : Image) : Prop where
  filled : Filled n 0 (s.entry n).numBytes.toNat s.entry s.finished
  beyond : ∀ k, (s.entry n).numBytes.toNat ≤ k * blockSize →
    ref s.entry s.finished (n, Fs.place k) = 0

theorem Grown.tight (h : Grown n p s s') (ht : Tight n s) : Tight n s' := by
  constructor
  case filled =>
    intro i _ hi
    rw [h.size] at hi
    by_cases hlt : i < (s.entry n).numBytes.toNat
    · have hb := ht.filled i (Nat.zero_le _) hlt
      rw [h.wrote.refs n _ hb]
      exact hb
    · exact h.filled i (Nat.not_lt.mp hlt) hi
  case beyond =>
    intro k hk
    rw [h.size] at hk
    rw [h.wrote.outside n k (.inr (.inr (.inr hk)))]
    exact ht.beyond k (by omega)

theorem Grown.tight_other (h : Grown n p s s') (hm : IsInode m) (hmn : m ≠ n) (ht : Tight m s) :
    Tight m s' := by
  have href (k : Nat) : ref s'.entry s'.finished (m, Fs.place k) =
      ref s.entry s.finished (m, Fs.place k) := h.wrote.outside m k (.inl hmn)
  constructor
  case filled =>
    intro i h0 hi
    rw [href]
    rw [h.other m hm hmn] at hi
    exact ht.filled i h0 hi
  case beyond =>
    intro k hk
    rw [h.other m hm hmn] at hk
    rw [href]
    exact ht.beyond k hk

theorem Taken.ref {type : UInt16} (h : Taken type s s') (hs : Sound s)
    (hfree : s.entry s.freeinode = InodeEntry.zero) :
    Fs.ref s'.entry s'.finished = Fs.ref s.entry s.finished := by
  have hclaimed : Fs.ref (Function.update s.entry s.freeinode (newEntry type)) s.finished =
      Fs.ref s.entry s.finished := ref_claimed (by rw [hfree]; rfl)
  have hblocks (m : Nat) (hm : IsInode m) : SameBlocks
      (Function.update s.entry s.freeinode (newEntry type) m) (s'.entry m) := by
    rw [Function.update_apply, h.entry m hm]
    split
    case isTrue => exact ⟨rfl, rfl, rfl⟩
    case isFalse => exact .refl _
  rw [ref_sameBlocks hblocks, h.same.ref (hs.owned.congr hclaimed fun _ _ => rfl), hclaimed]

/-- A new inode has no blocks, and the files of the others are as before. -/
theorem Taken.tight {type : UInt16} (h : Taken type s s') (hs : Sound s)
    (hfree : s.entry s.freeinode = InodeEntry.zero) (hm : IsInode m)
    (ht : m ≠ s.freeinode → Tight m s) : Tight m s' := by
  have href := h.ref hs hfree
  have he := h.entry m hm
  by_cases hmf : m = s.freeinode
  · have hsize : (s'.entry m).numBytes.toNat = 0 := by
      rw [he, if_pos hmf]
      rfl
    constructor
    case filled =>
      rw [hsize]
      exact .nothing (Nat.le_refl _)
    case beyond =>
      intro k _
      rw [href]
      refine ref_of_not_inUse fun hu => hu.2 ?_
      rw [hmf, hfree]
      rfl
  · rw [if_neg hmf] at he
    obtain ⟨hfilled, hbeyond⟩ := ht hmf
    constructor
    case filled =>
      rw [he]
      exact hfilled.congr href
    case beyond =>
      rw [he, href]
      exact hbeyond

/-! ### The inputs -/

/-- The files of inodes 2, 3, ... hold the bytes of `files`, and all files are tight. -/
structure Stored (files : List (List UInt8)) (s : Image) : Prop where
  size : ∀ i f, files[i]? = some f → (s.entry (2 + i)).numBytes.toNat = f.length
  bytes : ∀ i f, files[i]? = some f → ∀ j < f.length, s.bytes (2 + i) j = f.getD j 0
  tight : ∀ m, InUse s.entry m → Tight m s

/-- Bytes appended to the last file. -/
theorem Stored.append {f : List UInt8} (h : Stored (files ++ [f]) s)
    (hin : ∀ i < files.length, IsInode (2 + i)) (hg : Grown (2 + files.length) p s s') :
    Stored (files ++ [f ++ p]) s' := by
  have hlast (i : Nat) (g : List UInt8) (hi : (files ++ [f ++ p])[i]? = some g) :
      (i = files.length ∧ g = f ++ p) ∨ (i < files.length ∧ (files ++ [f])[i]? = some g) := by
    rcases Nat.lt_trichotomy i files.length with hlt | rfl | hgt
    · rw [List.getElem?_append_left hlt] at hi
      exact .inr ⟨hlt, by rw [List.getElem?_append_left hlt, hi]⟩
    · exact .inl ⟨rfl, by simpa using hi.symm⟩
    · rw [List.getElem?_eq_none (by simp; omega)] at hi
      cases hi
  have hf : (files ++ [f])[files.length]? = some f := by simp
  have hold := h.size _ _ hf
  constructor
  case size =>
    intro i g hi
    rcases hlast i g hi with ⟨rfl, rfl⟩ | ⟨hlt, hi⟩
    · rw [hg.size, hold, List.length_append]
    · rw [hg.other _ (hin i hlt) (by omega)]
      exact h.size i g hi
  case bytes =>
    intro i g hi j hj
    rcases hlast i g hi with ⟨rfl, rfl⟩ | ⟨hlt, hi⟩
    · rw [List.length_append] at hj
      rw [hg.bytes_self (by omega), hold]
      split
      case isTrue hjf =>
        rw [h.bytes _ _ hf j hjf, List.getD_append _ _ _ _ hjf]
      case isFalse hjf => rw [List.getD_append_right _ _ _ _ (Nat.not_lt.mp hjf)]
    · rw [hg.bytes_other (by omega)]
      exact h.bytes i g hi j hj
  case tight =>
    intro m hm
    have hm' := hg.inUse.mp hm
    by_cases hmn : m = 2 + files.length
    · subst hmn
      exact hg.tight (h.tight _ hm')
    · exact hg.tight_other hm.1 hmn (h.tight m hm')

/-- Bytes appended to the root directory. -/
theorem Stored.root (h : Stored files s) (hin : ∀ i < files.length, IsInode (2 + i))
    (hg : Grown 1 p s s') : Stored files s' := by
  have hlt {i : Nat} {f : List UInt8} (hi : files[i]? = some f) : i < files.length :=
    (List.getElem?_eq_some_iff.mp hi).1
  constructor
  case size =>
    intro i f hi
    rw [hg.other _ (hin i (hlt hi)) (by omega)]
    exact h.size i f hi
  case bytes =>
    intro i f hi
    rw [hg.bytes_other (by omega)]
    exact h.bytes i f hi
  case tight =>
    intro m hm
    have hm' := hg.inUse.mp hm
    by_cases hmn : m = 1
    · subst hmn
      exact hg.tight (h.tight _ hm')
    · exact hg.tight_other hm.1 hmn (h.tight m hm')

/-- A new inode with an empty file. -/
theorem Stored.taken {type : UInt16} (h : Stored files s) (hs : Sound s)
    (hfree : s.entry s.freeinode = InodeEntry.zero) (ht : Taken type s s')
    (hf : s.freeinode = 2 + files.length) (hin : ∀ i < files.length, IsInode (2 + i)) :
    Stored (files ++ [[]]) s' := by
  have hlast (i : Nat) (g : List UInt8) (hi : (files ++ [[]])[i]? = some g) :
      (i = files.length ∧ g = []) ∨ (i < files.length ∧ files[i]? = some g) := by
    rcases Nat.lt_trichotomy i files.length with hlt | rfl | hgt
    · rw [List.getElem?_append_left hlt] at hi
      exact .inr ⟨hlt, hi⟩
    · exact .inl ⟨rfl, by simpa using hi.symm⟩
    · rw [List.getElem?_eq_none (by simp; omega)] at hi
      cases hi
  constructor
  case size =>
    intro i g hi
    rcases hlast i g hi with ⟨rfl, rfl⟩ | ⟨hlt, hi⟩
    · rw [ht.entry _ (hf ▸ ht.isInode), if_pos hf.symm]
      rfl
    · rw [ht.entry _ (hin i hlt), if_neg (by omega)]
      exact h.size i g hi
  case bytes =>
    intro i g hi j hj
    rcases hlast i g hi with ⟨rfl, rfl⟩ | ⟨hlt, hi⟩
    · cases hj
    · rw [ht.bytes hs hfree]
      exact h.bytes i g hi j hj
  case tight =>
    intro m hm
    refine ht.tight hs hfree hm.1 fun hmf => h.tight m ⟨hm.1, ?_⟩
    have hu := hm.2
    rwa [ht.entry m hm.1, if_neg hmf] at hu

theorem Listed.isInode {entries : List DirEntry} (h : Listed entries s)
    (hlen : entries.length = files.length + 2) : ∀ i < files.length, IsInode (2 + i) := by
  intro i hi
  have hsmall := h.small
  rw [isInode_iff]
  omega

theorem Stored.addFile {entries : List DirEntry} {input : Input} (h : Stored files s)
    (hl : Listed entries s) (hlen : entries.length = files.length + 2)
    (hr : Runs (addFile input) s u s') : Stored (files ++ [input.reads.flatten]) s' := by
  simp only [Mkfs.addFile, runs_bind] at hr
  obtain ⟨inum, t, hi, _, t', hentry, hr⟩ := hr
  obtain ⟨-, hl'⟩ := hl.newFile hi hentry
  obtain ⟨rfl, hzero, htaken⟩ := hl.ialloc hi
  have hin := hl.isInode hlen
  have hfree : s.freeinode = 2 + files.length := by
    rw [hl.freeinode, hlen]
    omega
  have hroot : InUse t.entry 1 := by
    refine ⟨isInode_one, ?_⟩
    rw [htaken.entry 1 isInode_one, if_neg (by omega), hl.type]
    decide
  have hin' : ∀ i < (files ++ [[]]).length, IsInode (2 + i) := by
    intro i hi
    rw [List.length_append, List.length_singleton] at hi
    have hf := isInode_iff.mp htaken.isInode
    rw [isInode_iff]
    omega
  have hnew := (h.taken hl.sound hzero htaken hfree hin).root hin'
    (iappend_spec htaken.sound hroot hentry)
  have hlen' : entries.length < (entries ++ [inputEntry s.freeinode input]).length := by simp
  rw [hfree] at hr hl'
  -- The reads done so far are in the file.
  have hdone := hr.forM (I := fun l t => Listed _ t ∧ ∃ done, done ++ l = input.reads ∧
    Stored (files ++ [done.flatten]) t) ⟨hl', [], rfl, hnew⟩ ?_
  · obtain ⟨-, done, hall, hst⟩ := hdone
    rw [List.append_nil] at hall
    rwa [← hall]
  · rintro p l t t' ⟨hlt, done, hall, hst⟩ hp
    have hfile := hlt.file (2 + files.length) (by omega) (by simp [hlen]; omega)
    have hni : IsInode (2 + files.length) := by
      rw [← hfree]
      exact htaken.isInode
    have hg := iappend_spec hlt.sound ⟨hni, by rw [hfile.1]; decide⟩ hp
    refine ⟨hlt.iappend (by omega) (by simp [hlen]; omega) hp, done ++ [p], by simp [← hall], ?_⟩
    rw [List.flatten_append, List.flatten_cons, List.flatten_nil, List.append_nil]
    exact hst.append hin hg

theorem Stored.addFiles {inputs : List Input} {entries : List DirEntry} (h : Stored files s)
    (hl : Listed entries s) (hlen : entries.length = files.length + 2)
    (hr : Runs (inputs.forM Mkfs.addFile) s u s') :
    Stored (files ++ inputs.map fun input => input.reads.flatten) s' := by
  induction inputs generalizing s entries files with
  | nil =>
    obtain ⟨-, rfl⟩ := runs_pure.mp (show Runs (pure ⟨⟩) s u s' from hr)
    rw [List.map_nil, List.append_nil]
    exact h
  | cons input inputs ih =>
    obtain ⟨_, t, hi, hr⟩ := runs_bind.mp
      (show Runs (Mkfs.addFile input >>= fun _ => inputs.forM _) s u s' from hr)
    have hrest := ih (h.addFile hl hlen hi) (hl.addFile hi) (by simp [hlen]) hr
    rwa [List.append_assoc] at hrest

/-- The root directory before any input file. -/
theorem stored_root {t' : Image} (hi : Runs (ialloc inodeDirectory) blank n t)
    (h1 : Runs (appendEntry 1 ⟨1, fileName [46]⟩) t () t')
    (h2 : Runs (appendEntry 1 ⟨1, fileName [46, 46]⟩) t' u s') : Stored [] s' := by
  have hzero : blank.entry blank.freeinode = InodeEntry.zero := entry_blank isInode_one
  obtain ⟨-, htaken⟩ := ialloc_spec sound_blank (Nat.le_refl 1) hzero hi
  have hroot : t.entry 1 = allocEntry inodeDirectory :=
    (htaken.entry 1 isInode_one).trans (if_pos rfl)
  have hstored : Stored [] t := by
    refine ⟨by simp, by simp, fun m hm => htaken.tight sound_blank hzero hm.1 fun hne => ?_⟩
    have hu := hm.2
    rw [htaken.entry m hm.1, if_neg hne, entry_blank hm.1] at hu
    exact absurd rfl hu
  have hg := iappend_spec htaken.sound ⟨isInode_one, by rw [hroot]; decide⟩ h1
  have htype : (t'.entry 1).type = inodeDirectory := by
    rw [hg.fields.type]
    exact congrArg InodeEntry.type hroot
  have hg' := iappend_spec hg.sound ⟨isInode_one, by rw [htype]; decide⟩ h2
  exact (hstored.root (by simp) hg).root (by simp) hg'

/-! ### The image -/

/-- The files of inodes 2, 3, ... on disk hold the bytes of `files`, all files but the root directory
have blocks for exactly the bytes below their sizes, and the root directory has blocks for its entries
only. -/
structure Holds (files : List (List UInt8)) (d : Nat → BlockData) : Prop where
  size : ∀ i f, files[i]? = some f → (diskEntry d (2 + i)).numBytes.toNat = f.length
  bytes : ∀ i f, files[i]? = some f → ∀ j < f.length, fileByte (diskEntry d) d (2 + i) j = f.getD j 0
  filled : ∀ m, InUse (diskEntry d) m → m ≠ 1 →
    Filled m 0 (diskEntry d m).numBytes.toNat (diskEntry d) d
  beyond : ∀ m, InUse (diskEntry d) m → m ≠ 1 → ∀ k, (diskEntry d m).numBytes.toNat ≤ k * blockSize →
    ref (diskEntry d) d (m, Fs.place k) = 0
  root : Filled 1 0 (16 * (files.length + 2)) (diskEntry d) d
  rootBeyond : ∀ k, 16 * (files.length + 2) ≤ k * blockSize →
    ref (diskEntry d) d (1, Fs.place k) = 0

theorem Stored.fixRoot {entries : List DirEntry} (h : Stored files s) (hl : Listed entries s)
    (hlen : entries.length = files.length + 2) (hr : Runs fixRoot s u s') :
    Holds files s'.finished := by
  obtain ⟨-, hdata, hentry⟩ := hl.fixed hr
  have hblocks := sameBlocks_fixed hentry
  have href : ref s'.entry s'.finished = ref s.entry s.finished := by
    rw [ref_sameBlocks hblocks, hdata.ref hl.sound.owned]
  have hsame (m : Nat) (hm : IsInode m) (hne : m ≠ 1) : s'.entry m = s.entry m :=
    (hentry m hm).trans (if_neg hne)
  have hin := hl.isInode hlen
  have hlt {i : Nat} {f : List UInt8} (hi : files[i]? = some f) : i < files.length :=
    (List.getElem?_eq_some_iff.mp hi).1
  have hroot : InUse s.entry 1 := ⟨isInode_one, by rw [hl.type]; decide⟩
  constructor
  case size =>
    intro i f hi
    refine (congrArg (fun e => e.numBytes.toNat) (hsame _ (hin i (hlt hi)) (by omega))).trans ?_
    exact h.size i f hi
  case bytes =>
    intro i f hi j hj
    rw [← h.bytes i f hi j hj]
    exact fileByte_resync hl.sound.owned hblocks hdata (2 + i) j
  case filled =>
    intro m hm hne
    have he := hsame m hm.1 hne
    have hu : InUse s.entry m := ⟨hm.1, he ▸ hm.2⟩
    have hf := (h.tight m hu).filled
    rw [← he] at hf
    exact hf.congr href
  case beyond =>
    intro m hm hne k hk
    have he := hsame m hm.1 hne
    have hu : InUse s.entry m := ⟨hm.1, he ▸ hm.2⟩
    have hb := (h.tight m hu).beyond k (he ▸ hk)
    rw [← href] at hb
    exact hb
  case root =>
    have hf := (h.tight 1 hroot).filled
    rw [hl.size, hlen] at hf
    exact hf.congr href
  case rootBeyond =>
    intro k hk
    have hb := (h.tight 1 hroot).beyond k (by rw [hl.size, hlen]; exact hk)
    rw [← href] at hb
    exact hb

theorem main_holds {inputs : List Input} (hr : Runs (main inputs) blank u s) :
    Holds (inputs.map fun input => input.reads.flatten) s.disk := by
  simp only [main, runs_bind, runs_require] at hr
  obtain ⟨n, t₁, hi, _, _, ⟨rfl, rfl⟩, _, t₂, h1, _, t₃, h2, _, t₄, hfiles, _, t₅, hfix, hb⟩ := hr
  have hroot := listed_root hi h1 h2
  have hstored := (stored_root hi h1 h2).addFiles hroot rfl hfiles
  rw [ballocg_spec hb]
  refine hstored.fixRoot (hroot.addFiles hfiles) ?_ hfix
  simp [rootEntries]

end FtosFfs.Mkfs
