import FtosFfs.Lib.Bytes

/-! The on-disk representations of `fs/defines.h` and `common/bitmap.h`: the constants of the
shipped geometry, the super block, and the log header, inode entries, address tables, directory
entries, and bitmaps as they lie in the bytes of a block. -/

namespace FtosFfs

open Lib

def ninodes : Nat := 200
def ngroups : Nat := 10
def blockSize : Nat := 512
def logMaxSize : Nat := (blockSize - 8) / 8
def inodeNumDirect : Nat := 12
def inodeNumIndirect : Nat := blockSize / 4
def inodePerBlock : Nat := blockSize / 64
def inodeMaxBlocks : Nat := inodeNumDirect + inodeNumIndirect
def inodeMaxBytes : Nat := inodeMaxBlocks * blockSize
def fileNameMaxLength : Nat := 14
def bitPerBlock : Nat := blockSize * 8
def fssize : Nat := 10000 + 2 + logMaxSize

/-- The contents of a block. -/
abbrev BlockData : Type := Bytes blockSize

structure SuperBlock where
  numBlocks : Nat
  numLogBlocks : Nat
  numGroups : Nat
  numInodes : Nat
  blocksPerGroup : Nat
  logStart : Nat
  bgStart : Nat
  numInodeblocksPerGroup : Nat
  numBitmapPerGroup : Nat
  numDatablocksPerGroup : Nat
  bitmapStartPerGroup : Nat
  dataStartPerGroup : Nat
  deriving DecidableEq, Repr

/-- The super block that `mkfs` writes. -/
def mkfsSuperBlock : SuperBlock where
  numBlocks := fssize
  numLogBlocks := logMaxSize
  numGroups := ngroups
  numInodes := ninodes
  blocksPerGroup := (fssize - 2 - logMaxSize) / ngroups
  logStart := 2
  bgStart := 2 + logMaxSize
  numInodeblocksPerGroup := ninodes / ngroups / inodePerBlock + 1
  numBitmapPerGroup := (fssize - 2 - logMaxSize) / ngroups / bitPerBlock + 1
  numDatablocksPerGroup := (fssize - 2 - logMaxSize) / ngroups -
    (ninodes / ngroups / inodePerBlock + 1) -
    ((fssize - 2 - logMaxSize) / ngroups / bitPerBlock + 1)
  bitmapStartPerGroup := ninodes / ngroups / inodePerBlock + 1
  dataStartPerGroup := ninodes / ngroups / inodePerBlock + 1 +
    ((fssize - 2 - logMaxSize) / ngroups / bitPerBlock + 1)

/-! ### The log header -/

/-- `LogHeader`, with the array `block_no` as a function of the index. -/
structure LogHeader where
  numBlocks : Nat
  blockNo : Nat → Nat

namespace LogHeader

/-- Byte `i` of the header in memory: the word `num_blocks`, then the words of `block_no`. -/
def byte (h : LogHeader) (i : Nat) : UInt8 :=
  if i < 8 then Bytes.byteOf h.numBlocks i else Bytes.byteOf (h.blockNo ((i - 8) / 8)) ((i - 8) % 8)

def encode (h : LogHeader) : BlockData := Bytes.ofFn h.byte

def decode (d : BlockData) : LogHeader where
  numBlocks := d.word 0 8
  blockNo i := d.word (8 + 8 * i) 8

/-- The recorded block numbers `block_no[0..num_blocks)`. -/
def entries (h : LogHeader) : List Nat := (List.range h.numBlocks).map h.blockNo

theorem numBlocks_decode_encode {h : LogHeader} (hn : h.numBlocks < 2 ^ 64) :
    (decode h.encode).numBlocks = h.numBlocks := by
  have hw : h.encode.word 0 8 = h.numBlocks % 256 ^ 8 := by
    refine Bytes.word_of_bytes fun k hk => ?_
    rw [encode, Bytes.get_ofFn (by simp [blockSize]; omega), byte, Nat.zero_add, if_pos hk]
  rw [decode, hw, Nat.mod_eq_of_lt (by omega)]

theorem blockNo_decode_encode {h : LogHeader} {i : Nat} (hi : i < logMaxSize)
    (hb : h.blockNo i < 2 ^ 64) : (decode h.encode).blockNo i = h.blockNo i := by
  have hi' : i < 63 := hi
  have hw : h.encode.word (8 + 8 * i) 8 = h.blockNo i % 256 ^ 8 := by
    refine Bytes.word_of_bytes fun k hk => ?_
    rw [encode, Bytes.get_ofFn (by simp [blockSize]; omega), byte, if_neg (by omega),
      show (8 + 8 * i + k - 8) / 8 = i by omega, show (8 + 8 * i + k - 8) % 8 = k by omega]
  rw [decode]
  simp only
  rw [hw, Nat.mod_eq_of_lt (by omega)]

theorem mem_entries {h : LogHeader} {b : Nat} :
    b ∈ h.entries ↔ ∃ j < h.numBlocks, h.blockNo j = b := by
  simp [entries]

@[simp] theorem length_entries (h : LogHeader) : h.entries.length = h.numBlocks := by
  simp [entries]

end LogHeader

/-! ### Inode entries -/

def inodeInvalid : UInt16 := 0
def inodeDirectory : UInt16 := 1
def inodeRegular : UInt16 := 2
def inodeDevice : UInt16 := 3

/-- `InodeEntry`, 64 bytes on disk. -/
@[ext] structure InodeEntry where
  type : UInt16
  major : UInt16
  minor : UInt16
  numLinks : UInt16
  numBytes : UInt32
  addrs : Fin inodeNumDirect → UInt32
  indirect : UInt32
  deriving DecidableEq

namespace InodeEntry

/-- `memset(entry, 0, sizeof(InodeEntry))`. -/
def zero : InodeEntry := ⟨0, 0, 0, 0, 0, fun _ => 0, 0⟩

/-- `addrs[i]`. -/
def addr (e : InodeEntry) (i : Nat) : UInt32 :=
  if h : i < inodeNumDirect then e.addrs ⟨i, h⟩ else 0

/-- Byte `i` of the entry in memory. -/
def byte (e : InodeEntry) (i : Nat) : UInt8 :=
  if i < 2 then Bytes.byteOf e.type.toNat i
  else if i < 4 then Bytes.byteOf e.major.toNat (i - 2)
  else if i < 6 then Bytes.byteOf e.minor.toNat (i - 4)
  else if i < 8 then Bytes.byteOf e.numLinks.toNat (i - 6)
  else if i < 12 then Bytes.byteOf e.numBytes.toNat (i - 8)
  else if i < 60 then Bytes.byteOf (e.addr ((i - 12) / 4)).toNat ((i - 12) % 4)
  else Bytes.byteOf e.indirect.toNat (i - 60)

end InodeEntry

/-- The inode entry in slot `k` of an inode block. -/
def getEntry (d : BlockData) (k : Nat) : InodeEntry where
  type := UInt16.ofNat (d.word (64 * k) 2)
  major := UInt16.ofNat (d.word (64 * k + 2) 2)
  minor := UInt16.ofNat (d.word (64 * k + 4) 2)
  numLinks := UInt16.ofNat (d.word (64 * k + 6) 2)
  numBytes := UInt32.ofNat (d.word (64 * k + 8) 4)
  addrs i := UInt32.ofNat (d.word (64 * k + 12 + 4 * i) 4)
  indirect := UInt32.ofNat (d.word (64 * k + 60) 4)

/-- An inode block after `memcpy(entry, &e, sizeof(InodeEntry))` to slot `k`. -/
def setEntry (d : BlockData) (k : Nat) (e : InodeEntry) : BlockData := d.splice (64 * k) 64 e.byte

theorem ofNat_word16 (v : UInt16) : UInt16.ofNat (v.toNat % 256 ^ 2) = v := by
  rw [show 256 ^ 2 = 2 ^ 16 by norm_num, Nat.mod_eq_of_lt v.toNat_lt, UInt16.ofNat_toNat]

theorem ofNat_word32 (v : UInt32) : UInt32.ofNat (v.toNat % 256 ^ 4) = v := by
  rw [show 256 ^ 4 = 2 ^ 32 by norm_num, Nat.mod_eq_of_lt v.toNat_lt, UInt32.ofNat_toNat]

theorem word_setEntry {d : BlockData} {k : Nat} {e : InodeEntry} {o w v : Nat}
    (hk : k < inodePerBlock) (ho : o + w ≤ 64)
    (hv : ∀ j < w, e.byte (o + j) = Bytes.byteOf v j) :
    (setEntry d k e).word (64 * k + o) w = v % 256 ^ w := by
  have hk' : k < 8 := hk
  refine Bytes.word_of_bytes fun j hj => ?_
  rw [Nat.add_assoc, setEntry, Bytes.get_splice_in (by omega) (by simp [blockSize]; omega)]
  exact hv j hj

theorem getEntry_setEntry_same {d : BlockData} {k : Nat} {e : InodeEntry}
    (hk : k < inodePerBlock) : getEntry (setEntry d k e) k = e := by
  have hword (o w v : Nat) (ho : o + w ≤ 64) (hv : ∀ j < w, e.byte (o + j) = Bytes.byteOf v j) :=
    word_setEntry (d := d) (e := e) hk ho hv
  apply InodeEntry.ext
  · have := hword 0 2 e.type.toNat (by omega) fun j hj => by
      rw [InodeEntry.byte, if_pos (by omega), Nat.zero_add]
    simp only [getEntry, Nat.add_zero] at this ⊢
    rw [this, ofNat_word16]
  · have := hword 2 2 e.major.toNat (by omega) fun j hj => by
      rw [InodeEntry.byte, if_neg (by omega), if_pos (by omega), Nat.add_sub_cancel_left]
    simp only [getEntry]
    rw [this, ofNat_word16]
  · have := hword 4 2 e.minor.toNat (by omega) fun j hj => by
      rw [InodeEntry.byte, if_neg (by omega), if_neg (by omega), if_pos (by omega),
        Nat.add_sub_cancel_left]
    simp only [getEntry]
    rw [this, ofNat_word16]
  · have := hword 6 2 e.numLinks.toNat (by omega) fun j hj => by
      rw [InodeEntry.byte, if_neg (by omega), if_neg (by omega), if_neg (by omega),
        if_pos (by omega), Nat.add_sub_cancel_left]
    simp only [getEntry]
    rw [this, ofNat_word16]
  · have := hword 8 4 e.numBytes.toNat (by omega) fun j hj => by
      rw [InodeEntry.byte, if_neg (by omega), if_neg (by omega), if_neg (by omega),
        if_neg (by omega), if_pos (by omega), Nat.add_sub_cancel_left]
    simp only [getEntry]
    rw [this, ofNat_word32]
  · funext i
    have hi : i.val < 12 := i.isLt
    have := hword (12 + 4 * i) 4 (e.addrs i).toNat (by omega) fun j hj => by
      rw [InodeEntry.byte, if_neg (by omega), if_neg (by omega), if_neg (by omega),
        if_neg (by omega), if_neg (by omega), if_pos (by omega),
        show (12 + 4 * i.val + j - 12) / 4 = i by omega,
        show (12 + 4 * i.val + j - 12) % 4 = j by omega]
      simp [InodeEntry.addr]
    simp only [getEntry]
    rw [Nat.add_assoc, this, ofNat_word32]
  · have := hword 60 4 e.indirect.toNat (by omega) fun j hj => by
      rw [InodeEntry.byte, if_neg (by omega), if_neg (by omega), if_neg (by omega),
        if_neg (by omega), if_neg (by omega), if_neg (by omega), Nat.add_sub_cancel_left]
    simp only [getEntry]
    rw [this, ofNat_word32]

theorem getEntry_setEntry_ne {d : BlockData} {k k' : Nat} {e : InodeEntry} (h : k' ≠ k) :
    getEntry (setEntry d k e) k' = getEntry d k' := by
  have hword (o w : Nat) (ho : o + w ≤ 64) :
      (setEntry d k e).word (64 * k' + o) w = d.word (64 * k' + o) w :=
    Bytes.word_splice_out (by omega)
  have h0 := hword 0 2 (by omega)
  rw [Nat.add_zero] at h0
  simp only [getEntry, h0, hword 2 2 (by omega), hword 4 2 (by omega), hword 6 2 (by omega),
    hword 8 4 (by omega), hword 60 4 (by omega), InodeEntry.mk.injEq, true_and, and_true]
  funext i
  have hi : i.val < 12 := i.isLt
  rw [Nat.add_assoc, hword (12 + 4 * i) 4 (by omega)]

@[simp] theorem getEntry_zero (k : Nat) : getEntry Bytes.zero k = InodeEntry.zero := by
  simp [getEntry, InodeEntry.zero]

/-! ### Address tables -/

/-- `get_addrs(block)[i]`. -/
def getAddr (d : BlockData) (i : Nat) : UInt32 := UInt32.ofNat (d.word (4 * i) 4)

def setAddr (d : BlockData) (i : Nat) (v : UInt32) : BlockData := d.setWord (4 * i) 4 v.toNat

theorem getAddr_setAddr_same {d : BlockData} {i : Nat} {v : UInt32} (h : i < inodeNumIndirect) :
    getAddr (setAddr d i v) i = v := by
  have h' : i < 128 := h
  rw [getAddr, setAddr, Bytes.word_setWord_same (by simp [blockSize]; omega),
    ofNat_word32]

theorem getAddr_setAddr_ne {d : BlockData} {i j : Nat} {v : UInt32} (h : j ≠ i) :
    getAddr (setAddr d i v) j = getAddr d j := by
  rw [getAddr, setAddr, Bytes.setWord, Bytes.word_splice_out (by omega), getAddr]

@[simp] theorem getAddr_zero (i : Nat) : getAddr Bytes.zero i = 0 := by
  simp [getAddr]

/-! ### Bitmaps -/

/-- `bitmap_get`: bit `index` of the 64-bit cells of the block. -/
def bitmapGet (d : BlockData) (index : Nat) : Bool :=
  (d.word (8 * (index / 64)) 8).testBit (index % 64)

def bitmapSet (d : BlockData) (index : Nat) : BlockData :=
  d.setWord (8 * (index / 64)) 8 (d.word (8 * (index / 64)) 8 ||| 2 ^ (index % 64))

def bitmapClear (d : BlockData) (index : Nat) : BlockData :=
  d.setWord (8 * (index / 64)) 8
    (d.word (8 * (index / 64)) 8 &&& (2 ^ 64 - 1 - 2 ^ (index % 64)))

/-- A bit of a block is a bit of one of its bytes. -/
theorem bitmapGet_byte (d : BlockData) (index : Nat) :
    bitmapGet d index = (d.get (index / 8)).toNat.testBit (index % 8) := by
  have h := Bytes.testBit_word (m := d) (o := 8 * (index / 64)) (w := 8) (k := index % 64 / 8)
    (t := index % 8) (by omega) (by omega)
  rw [show 8 * (index % 64 / 8) + index % 8 = index % 64 by omega,
    show 8 * (index / 64) + index % 64 / 8 = index / 8 by omega] at h
  exact h

/-- The bits of a block after a store of cell `c`. -/
theorem bitmapGet_setWord {d : BlockData} {c v i : Nat} (hc : c < 64) :
    bitmapGet (d.setWord (8 * c) 8 v) i =
      if i / 64 = c then v.testBit (i % 64) else bitmapGet d i := by
  rw [bitmapGet]
  split
  case isTrue h =>
    rw [h, Bytes.word_setWord_same (by simp [blockSize]; omega),
      show 256 ^ 8 = 2 ^ 64 by norm_num, Nat.testBit_mod_two_pow]
    simp [Nat.mod_lt]
  case isFalse h =>
    rw [Bytes.setWord, Bytes.word_splice_out (by omega), bitmapGet]

theorem bitmapGet_bitmapSet {d : BlockData} {i j : Nat} (hi : i < bitPerBlock) :
    bitmapGet (bitmapSet d i) j = (decide (j = i) || bitmapGet d j) := by
  have hi' : i < 4096 := hi
  rw [bitmapSet, bitmapGet_setWord (by omega)]
  split
  case isTrue h =>
    rw [Nat.testBit_or, Nat.testBit_two_pow, ← h, bitmapGet, Bool.or_comm]
    congr 1
    simp only [decide_eq_decide]
    omega
  case isFalse h =>
    have : j ≠ i := by rintro rfl; exact h rfl
    simp [this]

theorem bitmapGet_bitmapClear {d : BlockData} {i j : Nat} (hi : i < bitPerBlock) :
    bitmapGet (bitmapClear d i) j = (!decide (j = i) && bitmapGet d j) := by
  have hi' : i < 4096 := hi
  have hmask (t : Nat) (ht : t < 64) :
      (2 ^ 64 - 1 - 2 ^ (i % 64)).testBit t = !decide (t = i % 64) := by
    rw [show 2 ^ 64 - 1 - 2 ^ (i % 64) = 2 ^ 64 - (2 ^ (i % 64) + 1) by omega,
      Nat.testBit_two_pow_sub_succ (Nat.pow_lt_pow_right (by decide) (by omega)),
      Nat.testBit_two_pow]
    simp [ht, eq_comm]
  rw [bitmapClear, bitmapGet_setWord (by omega)]
  split
  case isTrue h =>
    rw [Nat.testBit_and, hmask _ (Nat.mod_lt _ (by decide)), ← h, bitmapGet, Bool.and_comm]
    congr 2
    simp only [decide_eq_decide]
    omega
  case isFalse h =>
    have : j ≠ i := by rintro rfl; exact h rfl
    simp [this]

/-! ### Directory entries -/

/-- The file name of a directory entry: `FILE_NAME_MAX_LENGTH` bytes. -/
abbrev FileName : Type := Bytes fileNameMaxLength

/-- `DirEntry`, 16 bytes on disk. -/
@[ext] structure DirEntry where
  inodeNo : UInt16
  name : FileName
  deriving DecidableEq

namespace DirEntry

def zero : DirEntry := ⟨0, Bytes.zero⟩

/-- Byte `i` of the entry in memory. -/
def byte (e : DirEntry) (i : Nat) : UInt8 :=
  if i < 2 then Bytes.byteOf e.inodeNo.toNat i else e.name.get (i - 2)

/-- The entry whose bytes in memory are `f 0`, ..., `f 15`. -/
def ofBytes (f : Nat → UInt8) : DirEntry where
  inodeNo := UInt16.ofNat ((f 0).toNat + 256 * (f 1).toNat)
  name := Bytes.ofFn fun i => f (2 + i)

theorem ofBytes_congr {f g : Nat → UInt8} (h : ∀ i < 16, f i = g i) : ofBytes f = ofBytes g := by
  apply DirEntry.ext
  · simp only [ofBytes]
    rw [h 0 (by omega), h 1 (by omega)]
  · apply Bytes.ext
    intro i hi
    have hi' : i < 14 := hi
    rw [ofBytes, ofBytes, Bytes.get_ofFn hi, Bytes.get_ofFn hi, h _ (by omega)]

theorem ofBytes_byte (e : DirEntry) : ofBytes e.byte = e := by
  apply DirEntry.ext
  · have h := e.inodeNo.toNat_lt
    have hbytes : (e.byte 0).toNat + 256 * (e.byte 1).toNat = e.inodeNo.toNat := by
      simp only [byte, Bytes.byteOf, Nat.zero_lt_two, Nat.one_lt_two, if_true, pow_zero, pow_one,
        Nat.div_one, UInt8.toNat_ofNat']
      omega
    simp only [ofBytes, hbytes, UInt16.ofNat_toNat]
  · apply Bytes.ext
    intro i hi
    rw [ofBytes, Bytes.get_ofFn hi, byte, if_neg (by omega), Nat.add_sub_cancel_left]

end DirEntry

end FtosFfs
