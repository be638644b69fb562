import FtosFfs.Fs.Alloc
import FtosFfs.Lib.Ownership

/-! The slots of the inodes that hold block numbers, the ownership of blocks by slots, and how the
allocation of a block for a slot changes both. -/

namespace FtosFfs.Fs

open Lib Lib.Exec Cache

/-- The places of an inode that hold block numbers: direct addresses, `indirect`, and the slots of
the table that it points to. -/
inductive Place
  | direct (i : Nat)
  | table
  | slot (k : Nat)
  deriving DecidableEq

/-- The place of block `index` of a file. -/
def place (index : Nat) : Place :=
  if index < inodeNumDirect then .direct index else .slot (index - inodeNumDirect)

/-- The block numbers of an inode with entry `e`, 0 for none. -/
def blockOf (e : InodeEntry) (d : Nat → BlockData) : Place → Nat
  | .direct i => (e.addr i).toNat
  | .table => e.indirect.toNat
  | .slot k => if e.indirect = 0 then 0 else (getAddr (d e.indirect.toNat) k).toNat

/-- The inodes in use, by their entries `E`. -/
def InUse (E : Nat → InodeEntry) (n : Nat) : Prop := IsInode n ∧ (E n).type ≠ inodeInvalid

instance (E : Nat → InodeEntry) (n : Nat) : Decidable (InUse E n) :=
  inferInstanceAs (Decidable ((_ ∧ _) ∧ _))

/-- The block numbers in the slots of all inodes in use. -/
def ref (E : Nat → InodeEntry) (d : Nat → BlockData) (i : Nat × Place) : Nat :=
  if InUse E i.1 then blockOf (E i.1) d i.2 else 0

/-- No block is shared by two slots, all lie in the data areas, and the bits of the bitmaps are set
for exactly these blocks and the blocks outside of the data areas. -/
structure BlocksOwned (E : Nat → InodeEntry) (d : Nat → BlockData) : Prop where
  owns : Owns {b | IsData b} (ref E d) (fun b => blockBit d b = true)
  metaUsed : MetaUsed d

section

variable {E : Nat → InodeEntry} {d d' : Nat → BlockData} {e e' : InodeEntry} {n m b : Nat}
  {pl : Place}

theorem toNat_eq_zero {a : UInt32} : a.toNat = 0 ↔ a = 0 := by
  rw [← UInt32.toNat_inj]
  rfl

theorem toNat_ofNat_data (hb : IsData b) : (UInt32.ofNat b).toNat = b := by
  rw [isData_iff] at hb
  rw [UInt32.toNat_ofNat', Nat.mod_eq_of_lt (by omega)]

theorem ofNat_data_ne_zero (hb : IsData b) : UInt32.ofNat b ≠ 0 := by
  intro h
  exact hb.pos (by rw [← toNat_ofNat_data hb, h]; rfl)

theorem getAddr_of_le {x : BlockData} {k : Nat} (hk : inodeNumIndirect ≤ k) : getAddr x k = 0 := by
  have hk' : 128 ≤ k := hk
  have hw : x.word (4 * k) 4 = (Bytes.zero : BlockData).word (4 * k) 4 := by
    refine Bytes.word_congr fun j _ => ?_
    rw [Bytes.get_zero, Bytes.get_of_le (by show 512 ≤ 4 * k + j; omega)]
  rw [getAddr, hw, Bytes.word_zero]
  rfl

theorem ref_of_inUse (h : InUse E n) : ref E d (n, pl) = blockOf (E n) d pl := if_pos h

theorem ref_of_not_inUse (h : ¬InUse E n) : ref E d (n, pl) = 0 := if_neg h

/-- The numbers of a table are read from the block that `indirect` points to. -/
theorem blockOf_congr (h : e.indirect ≠ 0 → d' e.indirect.toNat = d e.indirect.toNat) :
    blockOf e d' = blockOf e d := by
  funext pl
  cases pl with
  | direct i => rfl
  | table => rfl
  | slot k =>
    simp only [blockOf]
    split
    case isTrue => rfl
    case isFalse h0 => rw [h h0]

namespace BlocksOwned

/-- A used block lies in a data area. -/
theorem isData (h : BlocksOwned E d) (pl : Place) (hn : InUse E n) (hb : blockOf (E n) d pl ≠ 0) :
    IsData (blockOf (E n) d pl) := by
  rw [← ref_of_inUse hn] at hb ⊢
  exact h.owns.inArea _ hb

/-- Different slots hold different blocks. -/
theorem ne (h : BlocksOwned E d) (pl pl' : Place) (hn : InUse E n) (hm : InUse E m)
    (hb : blockOf (E n) d pl ≠ 0) (hne : (n, pl) ≠ (m, pl')) :
    blockOf (E n) d pl ≠ blockOf (E m) d pl' := by
  rw [← ref_of_inUse hn] at hb
  rw [← ref_of_inUse hn, ← ref_of_inUse hm]
  exact fun heq => hne (h.owns.distinct _ _ hb heq)

/-- A block allocated now is in no slot. -/
theorem ne_allocated (h : BlocksOwned E d) (pl : Place) (ha : Allocated b d d') (hn : InUse E n) :
    blockOf (E n) d pl ≠ b := by
  rw [← ref_of_inUse hn]
  exact h.owns.ref_ne ha.data (by simp [ha.free]) _

/-- An allocation leaves the blocks in the slots as they are. -/
theorem kept (h : BlocksOwned E d) (pl : Place) (ha : Allocated b d d') (hn : InUse E n)
    (hb : blockOf (E n) d pl ≠ 0) : d' (blockOf (E n) d pl) = d (blockOf (E n) d pl) :=
  ha.same _ (h.isData pl hn hb).not_bitmap (h.ne_allocated pl ha hn)

/-- The tables are data blocks. -/
theorem isData_table (h : BlocksOwned E d) (hn : InUse E n) (h0 : (E n).indirect ≠ 0) :
    IsData (E n).indirect.toNat :=
  h.isData .table hn (fun h => h0 (toNat_eq_zero.mp h))

theorem table_kept (h : BlocksOwned E d) (ha : Allocated b d d') (hn : InUse E n)
    (h0 : (E n).indirect ≠ 0) : d' (E n).indirect.toNat = d (E n).indirect.toNat :=
  h.kept .table ha hn (fun h => h0 (toNat_eq_zero.mp h))

end BlocksOwned

/-- The entries with the entry of inode `n` changed without a change of its type have the same
inodes in use. -/
theorem inUse_update (ht : e'.type = (E n).type) : InUse (Function.update E n e') m ↔ InUse E m := by
  simp only [InUse, Function.update_apply]
  split
  case isTrue h => rw [h, ht]
  case isFalse => rfl

/-- The references of an inode depend on its own entry only. -/
theorem ref_update_ne (h : m ≠ n) :
    ref (Function.update E n e) d (m, pl) = ref E d (m, pl) := by
  have hu : InUse (Function.update E n e) m ↔ InUse E m := by
    rw [InUse, InUse, Function.update_of_ne h]
  simp only [ref, Function.update_of_ne h]
  exact if_congr hu rfl rfl

/-- The slots of all inodes when one place of inode `n` changes. -/
theorem ref_update (e' : InodeEntry) (hn : InUse E n) (ht : e'.type = (E n).type)
    (hpl : blockOf e' d' = Function.update (blockOf (E n) d) pl b)
    (hother : ∀ m, m ≠ n → InUse E m → blockOf (E m) d' = blockOf (E m) d) :
    ref (Function.update E n e') d' = Function.update (ref E d) (n, pl) b := by
  funext ⟨m, pl'⟩
  by_cases hmn : m = n
  · subst hmn
    rw [ref_of_inUse ((inUse_update ht).mpr hn), Function.update_self, hpl]
    by_cases hp : pl' = pl
    · subst hp
      rw [Function.update_self, Function.update_self]
    · rw [Function.update_of_ne hp, Function.update_of_ne (by simp [hp]), ref_of_inUse hn]
  · rw [Function.update_of_ne (by simp [hmn])]
    simp only [ref, inUse_update ht, Function.update_of_ne hmn]
    split
    case isTrue hm => rw [hother m hmn hm]
    case isFalse => rfl

/-- A place without a block takes an allocated one. -/
theorem BlocksOwned.take (h : BlocksOwned E d) (ha : Allocated b d d') (hn : InUse E n)
    (h0 : blockOf (E n) d pl = 0) {d'' : Nat → BlockData}
    (hbit : ∀ c, InGroups c → blockBit d'' c = blockBit d' c)
    (href : ref (Function.update E n e') d'' = Function.update (ref E d) (n, pl) b) :
    BlocksOwned (Function.update E n e') d'' := by
  constructor
  case owns =>
    rw [href]
    refine h.owns.take (by rw [ref_of_inUse hn, h0]) ha.data (by simp [ha.free]) fun c hc => ?_
    rw [hbit c hc.1, ha.bit c hc.1]
    split <;> simp [*]
  case metaUsed =>
    intro c hc hd
    rw [hbit c hc]
    exact ha.metaUsed h.metaUsed c hc hd

end

end FtosFfs.Fs
