import FtosFfs.Fs.Cached

/-! Directories: `inode_lookup`, `inode_empty`, `inode_insert`, and `inode_remove` as functions of
the bytes of the directory. -/

namespace FtosFfs.Fs

open Lib Lib.Exec Cache

variable {s s' : State} {ctx : Bool} {p : Ptr} {dirty : Set Nat} {name : List UInt8}

/-- The bytes of the file at `p`, by its entry in memory. -/
def State.bytes (s : State) (p : Ptr) : Nat → UInt8 :=
  fileByte (s.view p) s.disk (s.mem p).inodeNo

/-- The size of the file at `p`, by its entry in memory. -/
def State.size (s : State) (p : Ptr) : Nat := (s.mem p).entry.numBytes.toNat

/-- What `inode_lookup` finds in a directory. -/
def lookupIn (f : Nat → UInt8) (size : Nat) (name : List UInt8) : Option (Nat × Nat) :=
  (scanBytes f size (named name) ((size + 15) / 16) 0 DirEntry.zero).map
    fun (offset, dentry) => (dentry.inodeNo.toNat, offset / 16)

/-- What `inode_empty` finds in a directory. -/
def emptyIn (f : Nat → UInt8) (size : Nat) : Bool :=
  (scanBytes f size (fun dentry => dentry.inodeNo ≠ 0) ((size - 2 * 16 + 15) / 16) (2 * 16)
    DirEntry.zero).isNone

/-- The offset at which `inode_insert` writes. -/
def insertOffset (f : Nat → UInt8) (size : Nat) : Nat :=
  match scanBytes f size (fun dentry => dentry.inodeNo = 0) ((size + 15) / 16) 0 DirEntry.zero with
  | some (offset, _) => offset
  | none => 16 * ((size + 15) / 16)

namespace Cached

theorem scan (h : Cached dirty s) (hp : p ∈ s.list) (hv : (s.mem p).valid = true) {whole : Bool}
    {hit : DirEntry → Bool} {k off : Nat} {dentry : DirEntry} {r : Option (Nat × DirEntry)}
    (hr : Runs (scan sblock p whole hit k off dentry) s r s') :
    s' = s ∧ r = scanBytes (s.bytes p) (s.size p) hit k off dentry := by
  have hs := scan_spec State.view_self (h.inUse_view hp hv) (h.owned_view hp hv) hr
  rwa [State.view_self] at hs

theorem inodeLookup (h : Cached dirty s) (hp : p ∈ s.list) (hv : (s.mem p).valid = true)
    {r : Option (Nat × Nat)} (hr : Runs (inodeLookup sblock p name) s r s') :
    s' = s ∧ (s.mem p).entry.type = inodeDirectory ∧ r = lookupIn (s.bytes p) (s.size p) name := by
  simp only [Fs.inodeLookup, runs_bind, runs_get, runs_require, runs_pure] at hr
  obtain ⟨_, _, ⟨rfl, rfl⟩, _, _, ⟨ht, rfl⟩, found, t, hscan, rfl, rfl⟩ := hr
  obtain ⟨rfl, rfl⟩ := h.scan hp hv hscan
  exact ⟨rfl, ht, rfl⟩

theorem inodeEmpty (h : Cached dirty s) (hp : p ∈ s.list) (hv : (s.mem p).valid = true)
    {r : Bool} (hr : Runs (inodeEmpty sblock p) s r s') :
    s' = s ∧ (s.mem p).entry.type = inodeDirectory ∧ r = emptyIn (s.bytes p) (s.size p) := by
  simp only [Fs.inodeEmpty, runs_bind, runs_get, runs_require, runs_pure] at hr
  obtain ⟨_, _, ⟨rfl, rfl⟩, _, _, ⟨ht, rfl⟩, found, t, hscan, rfl, rfl⟩ := hr
  obtain ⟨rfl, rfl⟩ := h.scan hp hv hscan
  exact ⟨rfl, ht, rfl⟩

/-- A directory is no device. -/
theorem ne_device {t : UInt16} (h : t = inodeDirectory) : t ≠ inodeDevice := by
  rw [h]
  decide

theorem inodeInsert (h : Cached dirty s) (hp : p ∈ s.list) (hv : (s.mem p).valid = true)
    {n r : Nat} (hr : Runs (inodeInsert sblock ctx p name n) s r s') :
    (s.mem p).entry.type = inodeDirectory ∧ Cached dirty s' ∧
      (s.size p < insertOffset (s.bytes p) (s.size p) + 16 →
        Cached (dirty \ {(s.mem p).inodeNo}) s') ∧
      ∃ e', WriteDone p (s.mem p).inodeNo (DirEntry.mk (UInt16.ofNat n) (fileName name)).byte
        (insertOffset (s.bytes p) (s.size p)) 16 (s.view p) s s' e' := by
  simp only [Fs.inodeInsert, runs_bind, runs_get, runs_require, runs_pure] at hr
  obtain ⟨_, _, ⟨rfl, rfl⟩, _, _, ⟨ht, rfl⟩, found, t, hscan, _, _, hwrite, rfl, rfl⟩ := hr
  obtain ⟨rfl, rfl⟩ := h.scan hp hv hscan
  obtain ⟨-, hc⟩ := h.inodeWrite hp hv (ne_device ht) hwrite
  exact ⟨ht, hc⟩

theorem inodeRemove (h : Cached dirty s) (hp : p ∈ s.list) (hv : (s.mem p).valid = true)
    {index : Nat} {u : Unit} (hr : Runs (inodeRemove sblock ctx p index) s u s') :
    (s.mem p).entry.type = inodeDirectory ∧ Cached dirty s' ∧
      ((s.size p ≤ index * 16 ∧ s' = s) ∨ (index * 16 < s.size p ∧
        ∃ e', WriteDone p (s.mem p).inodeNo DirEntry.zero.byte (index * 16) 16 (s.view p) s s' e')) := by
  simp only [Fs.inodeRemove, runs_bind, runs_get, runs_require] at hr
  obtain ⟨_, _, ⟨rfl, rfl⟩, _, _, ⟨ht, rfl⟩, hr⟩ := hr
  refine ⟨ht, ?_⟩
  split at hr
  case isTrue hle =>
    obtain ⟨-, rfl⟩ := runs_pure.mp hr
    exact ⟨h, .inl ⟨hle, rfl⟩⟩
  case isFalse hlt =>
    simp only [runs_bind, runs_pure] at hr
    obtain ⟨_, _, hwrite, -, rfl⟩ := hr
    obtain ⟨-, hc, -, hw⟩ := h.inodeWrite hp hv (ne_device ht) hwrite
    exact ⟨hc, .inr ⟨Nat.not_le.mp hlt, hw⟩⟩

end Cached

/-! ### Directories of whole entries -/

section Whole

variable {f : Nat → UInt8} {size count k a off : Nat} {hit : DirEntry → Bool} {dentry e : DirEntry}

/-- A read of a whole entry. -/
theorem ofBytes_readTo (h : 16 * (a + 1) ≤ size) :
    DirEntry.ofBytes (readTo f (16 * a) (16 * a) (16 * a + readCount size (16 * a) 16) dentry.byte) =
      dirEntry f a := by
  have hcount : readCount size (16 * a) 16 = 16 := by
    unfold readCount
    omega
  refine DirEntry.ofBytes_congr fun i hi => ?_
  rw [hcount, readTo, if_pos (by omega)]

/-- A search of whole entries finds the first that meets `hit`. -/
theorem scanBytes_some (hk : 16 * (a + k) ≤ size)
    (h : scanBytes f size hit k (16 * a) dentry = some (off, e)) :
    ∃ j, a ≤ j ∧ j < a + k ∧ off = 16 * j ∧ e = dirEntry f j ∧ hit (dirEntry f j) = true ∧
      ∀ i, a ≤ i → i < j → hit (dirEntry f i) = false := by
  induction k generalizing a dentry with
  | zero => cases h
  | succ k ih =>
    unfold scanBytes at h
    rw [ofBytes_readTo (by omega)] at h
    dsimp only at h
    split at h
    case isTrue hhit =>
      obtain ⟨rfl, rfl⟩ := Prod.mk.inj (Option.some.inj h)
      exact ⟨a, Nat.le_refl a, by omega, rfl, rfl, hhit, fun i _ _ => by omega⟩
    case isFalse hhit =>
      obtain ⟨j, haj, hjk, hoff, he, hj, hmiss⟩ := @ih (a + 1) _ (by omega) h
      refine ⟨j, by omega, by omega, hoff, he, hj, fun i hi hij => ?_⟩
      by_cases hia : i = a
      · rw [hia]
        simpa using hhit
      · exact hmiss i (by omega) hij

theorem scanBytes_none (hk : 16 * (a + k) ≤ size)
    (h : scanBytes f size hit k (16 * a) dentry = none) :
    ∀ j, a ≤ j → j < a + k → hit (dirEntry f j) = false := by
  induction k generalizing a dentry with
  | zero => exact fun j _ _ => by omega
  | succ k ih =>
    unfold scanBytes at h
    rw [ofBytes_readTo (by omega)] at h
    dsimp only at h
    split at h
    case isTrue => cases h
    case isFalse hhit =>
      intro j hj hjk
      by_cases hja : j = a
      · rw [hja]
        simpa using hhit
      · exact @ih (a + 1) _ (by omega) h j (by omega) (by omega)

/-- `inode_lookup` finds the first entry with the name. -/
theorem lookupIn_some (hsize : size = 16 * count) {m : Nat}
    (h : lookupIn f size name = some (m, k)) :
    k < count ∧ m = (dirEntry f k).inodeNo.toNat ∧ named name (dirEntry f k) = true ∧
      ∀ i < k, named name (dirEntry f i) = false := by
  have hrounds : (size + 15) / 16 = count := by omega
  unfold lookupIn at h
  rw [hrounds] at h
  obtain ⟨⟨off, e⟩, hscan, hmk⟩ := Option.map_eq_some_iff.mp h
  obtain ⟨j, -, hj, rfl, rfl, hhit, hmiss⟩ := scanBytes_some (a := 0) (by omega) hscan
  obtain ⟨rfl, hk⟩ := Prod.mk.inj hmk
  obtain rfl : j = k := by omega
  exact ⟨by omega, rfl, hhit, fun i hi => hmiss i (Nat.zero_le i) hi⟩

theorem lookupIn_none (hsize : size = 16 * count) (h : lookupIn f size name = none) :
    ∀ i < count, named name (dirEntry f i) = false := by
  have hrounds : (size + 15) / 16 = count := by omega
  unfold lookupIn at h
  rw [hrounds, Option.map_eq_none_iff] at h
  exact fun i hi => scanBytes_none (a := 0) (by omega) h i (Nat.zero_le i) (by omega)

end Whole

end FtosFfs.Fs
