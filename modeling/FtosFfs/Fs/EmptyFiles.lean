import FtosFfs.Fs.Fits

/-! The image that `mkfs` builds from empty files, in closed form: a disk to run the kernel on. -/

namespace FtosFfs.Mkfs

open Lib Lib.Exec Fs

variable {E : Nat → InodeEntry} {l : List DirEntry} {e : InodeEntry} {s : Image} {n b k fi : Nat}
  {used : Nat → Nat} {inputs : List Input}

/-! ### Inode entries and root entries as a disk -/

/-- The first inode of inode block `b`. -/
def firstInode (b : Nat) : Nat := 20 * ((b - 65) / 1000) + 8 * ((b - 65) % 1000) + 1

/-- The inode in slot `k` of the block. -/
def inodeAt (b k : Nat) : Nat := firstInode b + (k + 8 - firstInode b % 8) % 8

def inodeBlock (E : Nat → InodeEntry) (b : Nat) : BlockData := Bytes.ofFn fun i =>
  if iblock (inodeAt b (i / 64)) = b then (E (inodeAt b (i / 64))).byte (i % 64) else 0

/-- The first data block, with the entries `l` of the root. -/
def rootBlock (l : List DirEntry) : BlockData := Bytes.ofFn fun i =>
  (l.getD (i / 16) DirEntry.zero).byte (i % 16)

def layout (E : Nat → InodeEntry) (l : List DirEntry) (b : Nat) : BlockData :=
  if b = 69 then rootBlock l else inodeBlock E b

theorem iblock_formula (n : Nat) : iblock n = 65 + 1000 * ((n - 1) / 20) + (n - 1) % 20 / 8 := rfl

theorem iblock_ne_root (n : Nat) : iblock n ≠ 69 := by
  rw [iblock_formula]
  omega

theorem inodeAt_iblock (hn : 1 ≤ n) : inodeAt (iblock n) (n % 8) = n := by
  unfold inodeAt firstInode
  rw [iblock_formula]
  omega

theorem inodeAt_mod (hk : k < 8) : inodeAt b k % 8 = k := by
  unfold inodeAt
  omega

/-- To write an entry is to change the entries. -/
theorem layout_store (hn : 1 ≤ n) : storeEntry (layout E l) n e = layout (Function.update E n e) l := by
  funext b
  unfold storeEntry
  rw [← iblock_eq, Function.update_apply]
  split
  case isTrue hb =>
    subst hb
    unfold layout
    rw [if_neg (iblock_ne_root n), if_neg (iblock_ne_root n)]
    apply Bytes.ext
    intro i hi
    have hi' : i < 512 := hi
    have hblock (F : Nat → InodeEntry) : (inodeBlock F (iblock n)).get i =
        if iblock (inodeAt (iblock n) (i / 64)) = iblock n then
          (F (inodeAt (iblock n) (i / 64))).byte (i % 64) else 0 := by
      rw [inodeBlock, Bytes.get_ofFn hi]
    rw [hblock]
    by_cases hslot : i / 64 = n % 8
    · rw [hslot, inodeAt_iblock hn, if_pos rfl, Function.update_self]
      obtain ⟨r, hr, rfl⟩ : ∃ r < 64, i = 64 * (n % 8) + r := ⟨i % 64, by omega, by omega⟩
      show ((inodeBlock E (iblock n)).splice (64 * (n % 8)) 64 e.byte).get (64 * (n % 8) + r) = _
      rw [Bytes.get_splice_in hr hi, show (64 * (n % 8) + r) % 64 = r by omega]
    · have hne : inodeAt (iblock n) (i / 64) ≠ n := by
        intro heq
        have hmod : inodeAt (iblock n) (i / 64) % 8 = i / 64 := inodeAt_mod (by omega)
        rw [heq] at hmod
        exact hslot hmod.symm
      rw [Function.update_of_ne hne, setEntry, Bytes.get_splice_out, hblock]
      show i < 64 * (n % 8) ∨ 64 * (n % 8) + 64 ≤ i
      omega
  case isFalse hb =>
    unfold layout
    split
    case isTrue => rfl
    case isFalse =>
      unfold inodeBlock
      refine congrArg Bytes.ofFn (funext fun i => ?_)
      split
      case isTrue hat =>
        rw [Function.update_of_ne]
        rintro rfl
        exact hb hat.symm
      case isFalse => rfl

theorem diskEntry_layout (hn : 1 ≤ n) : diskEntry (layout E l) n = E n := by
  have hstore : storeEntry (layout E l) n (E n) = layout E l := by rw [layout_store hn, Function.update_eq_self]
  have hself : layout E l (iblock n) = setEntry (layout E l (iblock n)) (n % 8) (E n) := by
    have hat := congrFun hstore (iblock n)
    unfold storeEntry at hat
    rw [← iblock_eq, Function.update_self] at hat
    exact hat.symm
  show getEntry (layout E l (iblock n)) (n % 8) = E n
  rw [hself]
  exact getEntry_setEntry_same (Nat.mod_lt n (by decide))

/-- An entry behind the others. -/
theorem rootBlock_splice (l : List DirEntry) (e : DirEntry) :
    (rootBlock l).splice (16 * l.length) 16 (fun i => ((List.range 16).map e.byte).getD i 0) =
      rootBlock (l ++ [e]) := by
  apply Bytes.ext
  intro i hi
  have hblock (l : List DirEntry) : (rootBlock l).get i = (l.getD (i / 16) DirEntry.zero).byte (i % 16) := by
    rw [rootBlock, Bytes.get_ofFn hi]
  rw [hblock]
  by_cases hslot : i / 16 = l.length
  · rw [hslot, List.getD_append_right _ _ _ _ (Nat.le_refl _), Nat.sub_self]
    obtain ⟨r, hr, rfl⟩ : ∃ r < 16, i = 16 * l.length + r := ⟨i % 16, by omega, by omega⟩
    rw [Bytes.get_splice_in hr hi, byte_getD hr, show (16 * l.length + r) % 16 = r by omega]
    rfl
  · rw [Bytes.get_splice_out (by omega), hblock]
    obtain hlt | hgt := Nat.lt_or_gt_of_ne hslot
    · rw [List.getD_append _ _ _ _ hlt]
    · rw [List.getD_eq_default _ _ (by omega), List.getD_eq_default _ _ (by simp; omega)]

/-! ### Appending entries -/

/-- The bytes of an entry go to the first block of the root. -/
theorem runs_appendLoop {din din' : InodeEntry} {used' : Nat → Nat} (e : DirEntry) (hl : l.length < 32)
    (hused : used 0 < 996)
    (hplace : Runs (place 0 0 din) ⟨layout E l, fi, used⟩ (din', 69) ⟨layout E l, fi, used'⟩) :
    Runs (appendLoop 16 0 (16 * l.length) din ((List.range 16).map e.byte)) ⟨layout E l, fi, used⟩
      (16 * (l.length + 1), din') ⟨layout E (l ++ [e]), fi, used'⟩ := by
  set p := (List.range 16).map e.byte with hp
  have hlen : p.length = 16 := by rw [hp, List.length_map, List.length_range]
  have hblock : 16 * l.length / blockSize = 0 := Nat.div_eq_of_lt (show 16 * l.length < 512 by omega)
  have hfull : full used 0 = false := decide_eq_false (show used 0 ≠ 996 by omega)
  have hn1 : min p.length ((0 + 1) * blockSize - 16 * l.length) = 16 := by
    rw [hlen]
    show min 16 ((0 + 1) * 512 - 16 * l.length) = 16
    omega
  have hwritten : Function.update (layout E l) 69
      ((rootBlock l).splice (16 * l.length - 0 * blockSize) 16 fun i => p.getD i 0) = layout E (l ++ [e]) := by
    funext b
    rw [Function.update_apply, Nat.zero_mul, Nat.sub_zero, hp, rootBlock_splice]
    unfold layout
    split <;> rfl
  rw [appendLoop, if_pos (by omega), hblock]
  refine runs_bind.mpr ⟨⟨⟩, _, runs_require.mpr ⟨by decide, rfl⟩,
    runs_bind.mpr ⟨_, _, runs_get.mpr ⟨rfl, rfl⟩, ?_⟩⟩
  rw [show findGroup (full used) (2 * ngroups) 0 = some 0 by
    rw [show 2 * ngroups = 19 + 1 from rfl, findGroup, hfull]; rfl]
  refine runs_bind.mpr ⟨_, _, hplace, ?_⟩
  dsimp only
  rw [hn1]
  refine runs_bind.mpr ⟨rootBlock l, _, runs_bind.mpr ⟨⟨⟩, _, runs_require.mpr ⟨by decide, rfl⟩,
    runs_bind.mpr ⟨_, _, runs_get.mpr ⟨rfl, rfl⟩, runs_pure.mpr ⟨rfl, rfl⟩⟩⟩,
    runs_bind.mpr ⟨⟨⟩, _, runs_modify.mpr rfl, ?_⟩⟩
  rw [hwritten, appendLoop, if_neg (by rw [List.length_drop, hlen]; decide)]
  exact runs_pure.mpr ⟨rfl, rfl⟩

/-- An entry for the root, once its block is placed. -/
theorem runs_appendEntry {din : InodeEntry} {used' : Nat → Nat} (e : DirEntry)
    (hsize : (E 1).numBytes.toNat = 16 * l.length) (hl : l.length < 32) (hused : used 0 < 996)
    (hplace : Runs (place 0 0 (E 1)) ⟨layout E l, fi, used⟩ (din, 69) ⟨layout E l, fi, used'⟩) :
    Runs (appendEntry 1 e) ⟨layout E l, fi, used⟩ ()
      ⟨layout (Function.update E 1 { din with numBytes := UInt32.ofNat (16 * (l.length + 1)) }) (l ++ [e]),
        fi, used'⟩ := by
  have hlt : iblock 1 < fssize := iblock_lt isInode_one
  refine runs_bind.mpr ⟨E 1, _, runs_rinode.mpr ⟨hlt, diskEntry_layout (Nat.le_refl 1), rfl⟩, ?_⟩
  rw [hsize, List.length_map, List.length_range]
  refine runs_bind.mpr ⟨_, _, runs_appendLoop e hl hused hplace, runs_winode.mpr ⟨hlt, ?_⟩⟩
  rw [layout_store (Nat.le_refl 1)]

/-! ### The image -/

/-- One block is used, in group 0. -/
def oneUsed (g : Nat) : Nat := if g = 0 then 1 else 0

/-- The inode entries once the root has the entries `l`. -/
def emptyEntry (l : List DirEntry) (n : Nat) : InodeEntry :=
  if n = 1 then
    { InodeEntry.setAddrs (allocEntry inodeDirectory) 0 69 with numBytes := UInt32.ofNat (16 * l.length) }
  else if 2 ≤ n ∧ n < l.length then allocEntry inodeRegular
  else InodeEntry.zero

theorem numBytes_emptyEntry (hl : l.length < 32) : (emptyEntry l 1).numBytes.toNat = 16 * l.length := by
  show (UInt32.ofNat (16 * l.length)).toNat = 16 * l.length
  rw [UInt32.toNat_ofNat', Nat.mod_eq_of_lt (by omega)]

theorem runs_ialloc (type : UInt16) (hn : IsInode n) : Runs (ialloc type) ⟨layout E l, n, used⟩ n
    ⟨layout (Function.update E n (allocEntry type)) l, n + 1, used⟩ := by
  refine runs_bind.mpr ⟨_, _, runs_get.mpr ⟨rfl, rfl⟩, runs_bind.mpr ⟨⟨⟩, _, runs_set.mpr rfl, ?_⟩⟩
  refine runs_bind.mpr ⟨(), _, runs_winode.mpr ⟨iblock_lt hn, ?_⟩, runs_pure.mpr ⟨rfl, rfl⟩⟩
  dsimp only
  rw [layout_store (isInode_iff.mp hn).1]
  rfl

/-- An entry for the root, once it has one. -/
theorem runs_appendRoot (fi : Nat) (e : DirEntry) (hroot : E 1 = emptyEntry l 1) (hl : l.length < 32) :
    Runs (appendEntry 1 e) ⟨layout E l, fi, oneUsed⟩ ()
      ⟨layout (Function.update E 1 (emptyEntry (l ++ [e]) 1)) (l ++ [e]), fi, oneUsed⟩ := by
  have hplace : Runs (place 0 0 (E 1)) ⟨layout E l, fi, oneUsed⟩ (E 1, 69) ⟨layout E l, fi, oneUsed⟩ := by
    rw [hroot]
    exact runs_pure.mpr ⟨rfl, rfl⟩
  have happend := runs_appendEntry e (by rw [hroot, numBytes_emptyEntry hl]) hl (by decide) hplace
  rw [hroot] at happend
  rw [show emptyEntry (l ++ [e]) 1 = { emptyEntry l 1 with numBytes := UInt32.ofNat (16 * (l.length + 1)) } by
    simp [emptyEntry]]
  exact happend

/-- The image once the root has the entries `l`. -/
def withEntries (l : List DirEntry) : Image := ⟨layout (emptyEntry l) l, l.length, oneUsed⟩

theorem runs_addFile {input : Input} (hempty : input.reads = []) (h2 : 2 ≤ l.length) (hl : l.length < 32) :
    Runs (addFile input) (withEntries l) () (withEntries (l ++ [inputEntry l.length input])) := by
  have hn : IsInode l.length := isInode_iff.mpr ⟨by omega, by omega⟩
  have hroot : Function.update (emptyEntry l) l.length (allocEntry inodeRegular) 1 = emptyEntry l 1 :=
    Function.update_of_ne (by omega) ..
  refine runs_bind.mpr ⟨l.length, _, runs_ialloc inodeRegular hn, runs_bind.mpr ⟨(), _,
    runs_appendRoot (l.length + 1) (inputEntry l.length input) hroot hl, ?_⟩⟩
  rw [hempty]
  refine runs_pure.mpr ⟨rfl, ?_⟩
  unfold withEntries
  rw [List.length_append, List.length_singleton]
  congr 2
  funext n
  by_cases h1 : n = 1
  · rw [h1, Function.update_self]
  · rw [Function.update_of_ne h1]
    by_cases hlast : n = l.length
    · rw [hlast, Function.update_self]
      simp [emptyEntry, h2]
      omega
    · rw [Function.update_of_ne hlast]
      simp only [emptyEntry, if_neg h1, List.length_append, List.length_singleton]
      refine if_congr ?_ rfl rfl
      omega

theorem runs_addFiles (hempty : ∀ input ∈ inputs, input.reads = []) (h2 : 2 ≤ l.length)
    (hl : l.length + inputs.length ≤ 32) :
    Runs (inputs.forM addFile) (withEntries l) () (withEntries (l ++ inputEntries l.length inputs)) := by
  induction inputs generalizing l with
  | nil =>
    rw [inputEntries, List.append_nil]
    exact runs_pure.mpr ⟨rfl, rfl⟩
  | cons input inputs ih =>
    rw [List.length_cons] at hl
    have hfirst := runs_addFile (hempty input List.mem_cons_self) h2 (by omega)
    have hrest := ih (l := l ++ [inputEntry l.length input])
      (fun input hin => hempty input (List.mem_cons_of_mem _ hin))
      (by simp; omega) (by simp; omega)
    rw [List.append_assoc, List.length_append] at hrest
    exact runs_bind.mpr ⟨⟨⟩, _, hfirst, hrest⟩

theorem layout_zero : layout (fun _ => InodeEntry.zero) [] = fun _ => Bytes.zero := by
  have hbyte (i : Nat) : InodeEntry.zero.byte i = 0 := by
    unfold InodeEntry.byte
    simp [InodeEntry.zero, InodeEntry.addr, Bytes.byteOf]
  have hentry (i : Nat) : DirEntry.zero.byte i = 0 := by
    unfold DirEntry.byte
    simp [DirEntry.zero, Bytes.byteOf]
  funext b
  unfold layout
  split
  · exact congrArg Bytes.ofFn (funext fun i => hentry _)
  · refine congrArg Bytes.ofFn (funext fun i => ?_)
    rw [hbyte, ite_self]

/-- The root directory with its first two entries. -/
theorem runs_root : ∃ t t', Runs (ialloc inodeDirectory) blank 1 t ∧
    Runs (appendEntry 1 ⟨1, fileName [46]⟩) t () t' ∧
    Runs (appendEntry 1 ⟨1, fileName [46, 46]⟩) t' ()
      (withEntries [⟨1, fileName [46]⟩, ⟨1, fileName [46, 46]⟩]) := by
  set E : Nat → InodeEntry := Function.update (fun _ => InodeEntry.zero) 1 (allocEntry inodeDirectory) with hE
  have halloc : Runs (ialloc inodeDirectory) blank 1 ⟨layout E [], 2, fun _ => 0⟩ := by
    unfold blank
    rw [← layout_zero]
    exact runs_ialloc inodeDirectory isInode_one
  have hplace : Runs (place 0 0 (E 1)) ⟨layout E [], 2, fun _ => 0⟩
      (InodeEntry.setAddrs (E 1) 0 69, 69) ⟨layout E [], 2, Function.update (fun _ => 0) 0 1⟩ := by
    rw [hE, Function.update_self]
    exact runs_bind.mpr ⟨69, _, runs_bind.mpr ⟨_, _, runs_get.mpr ⟨rfl, rfl⟩, runs_bind.mpr ⟨⟨⟩, _,
      runs_set.mpr rfl, runs_pure.mpr ⟨rfl, rfl⟩⟩⟩, runs_pure.mpr ⟨rfl, rfl⟩⟩
  have hfirst := runs_appendEntry (l := []) ⟨1, fileName [46]⟩ (by rw [hE, Function.update_self]; rfl)
    (by decide) (by decide) hplace
  have hused : Function.update (fun _ => 0) 0 1 = oneUsed := by
    funext g
    rw [Function.update_apply]
    rfl
  rw [hused] at hfirst
  set E' := Function.update E 1
    { InodeEntry.setAddrs (E 1) 0 69 with numBytes := UInt32.ofNat (16 * ([].length + 1)) }
    with hE'
  have hroot : E' 1 = emptyEntry [⟨1, fileName [46]⟩] 1 := by
    rw [hE', Function.update_self, hE, Function.update_self]
    rfl
  have hsecond := runs_appendRoot 2 ⟨1, fileName [46, 46]⟩ hroot (by decide)
  refine ⟨_, _, halloc, hfirst, ?_⟩
  have hentries : Function.update E' 1 (emptyEntry [⟨1, fileName [46]⟩, ⟨1, fileName [46, 46]⟩] 1) =
      emptyEntry [⟨1, fileName [46]⟩, ⟨1, fileName [46, 46]⟩] := by
    funext n
    by_cases h1 : n = 1
    · rw [h1, Function.update_self]
    · rw [Function.update_of_ne h1, hE', Function.update_of_ne h1, hE, Function.update_of_ne h1, emptyEntry,
        if_neg h1, if_neg]
      show ¬(2 ≤ n ∧ n < 2)
      omega
  unfold withEntries
  rw [← hentries]
  exact hsecond

/-- The disk that `mkfs` builds from empty files, fewer than thirty, so that the root has one block. -/
def emptyFiles (inputs : List Input) : Nat → BlockData :=
  Image.finished ⟨layout (Function.update (emptyEntry (rootEntries inputs)) 1
      { emptyEntry (rootEntries inputs) 1 with numBytes := 512 }) (rootEntries inputs),
    (rootEntries inputs).length, oneUsed⟩

theorem main_emptyFiles (hempty : ∀ input ∈ inputs, input.reads = []) (hlen : inputs.length < 30) :
    ∃ img, Runs (main inputs) blank () img ∧ img.disk = emptyFiles inputs ∧ img.usedBlock = oneUsed := by
  obtain ⟨t, t', halloc, hdot, hdots⟩ := runs_root
  have hfiles := runs_addFiles hempty (l := [⟨1, fileName [46]⟩, ⟨1, fileName [46, 46]⟩]) (Nat.le_refl 2)
    (show 2 + inputs.length ≤ 32 by omega)
  have hsmall : (rootEntries inputs).length < 32 := by
    rw [rootEntries, List.length_append, length_inputEntries]
    show 2 + inputs.length < 32
    omega
  have hsize : (16 * (rootEntries inputs).length / blockSize + 1) * blockSize = 512 := by
    have hdiv : 16 * (rootEntries inputs).length / 512 = 0 := Nat.div_eq_of_lt (by omega)
    show (16 * (rootEntries inputs).length / 512 + 1) * 512 = 512
    rw [hdiv]
  set fixed : Image := ⟨layout (Function.update (emptyEntry (rootEntries inputs)) 1
    { emptyEntry (rootEntries inputs) 1 with numBytes := 512 }) (rootEntries inputs),
    (rootEntries inputs).length, oneUsed⟩ with hfixed
  have hfix : Runs fixRoot (withEntries (rootEntries inputs)) () fixed := by
    have hlt : iblock 1 < fssize := iblock_lt isInode_one
    refine runs_bind.mpr ⟨_, _, runs_rinode.mpr ⟨hlt, diskEntry_layout (Nat.le_refl 1), rfl⟩,
      runs_winode.mpr ⟨hlt, ?_⟩⟩
    rw [numBytes_emptyEntry hsmall, hsize]
    unfold withEntries
    rw [layout_store (Nat.le_refl 1)]
    rfl
  obtain ⟨img, hballoc⟩ := ballocg_returns (s := fixed) fun g => by
    show oneUsed g ≤ 996
    unfold oneUsed
    split <;> decide
  refine ⟨img, ?_, ballocg_spec hballoc, (ballocGroups_spec hballoc).1⟩
  exact runs_bind.mpr ⟨1, t, halloc, runs_bind.mpr ⟨⟨⟩, t, runs_require.mpr ⟨rfl, rfl⟩,
    runs_bind.mpr ⟨(), t', hdot, runs_bind.mpr ⟨(), _, hdots,
      runs_bind.mpr ⟨⟨⟩, _, hfiles, runs_bind.mpr ⟨(), fixed, hfix, hballoc⟩⟩⟩⟩⟩⟩

end FtosFfs.Mkfs
