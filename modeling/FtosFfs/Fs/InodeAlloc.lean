import FtosFfs.Fs.Write

/-! `inode_alloc` and `inode_alloc_group`: the inode that they return was free, and its entry on disk
is new. -/

namespace FtosFfs.Fs

open Lib Lib.Exec Cache

variable {s s' : State} {ctx : Bool} {n : Nat} {type : UInt16} {E : Nat → InodeEntry}

/-- The entry of an inode allocated with type `type`. -/
def newEntry (type : UInt16) : InodeEntry := { InodeEntry.zero with type }

/-- The allocation of inode `n`. -/
structure Claimed (type : UInt16) (n : Nat) (s s' : State) : Prop where
  isInode : IsInode n
  free : (diskEntry s.disk n).type = inodeInvalid
  frame : OnBlocks s s'
  disk : s'.disk = storeEntry s.disk n (newEntry type)

theorem Claimed.entries (h : Claimed type n s s') {m : Nat} (hm : IsInode m) :
    diskEntry s'.disk m = if m = n then newEntry type else diskEntry s.disk m := by
  rw [h.disk, diskEntry_storeEntry h.isInode hm]

theorem Claimed.sameData (h : Claimed type n s s') : SameData s.disk s'.disk := by
  rw [h.disk]
  exact sameData_storeEntry h.isInode

/-- A round of the searches for a free inode. -/
theorem claimInode_spec {r : Option Nat} (hn : IsInode n)
    (hr : Runs (claimInode sblock ctx type n) s r s') :
    match r with
      | none => s' = s
      | some m => m = n ∧ Claimed type n s s' := by
  simp only [claimInode, runs_bind, runs_cacheAcquire] at hr
  obtain ⟨_, _, ⟨-, rfl, rfl⟩, hr⟩ := hr
  split at hr
  case isTrue hfree =>
    simp only [runs_bind, runs_writeBack, runs_pure, List.erase_cons_head] at hr
    obtain ⟨_, _, ⟨c, -, rfl⟩, rfl, rfl⟩ := hr
    exact ⟨rfl, hn, hfree, ⟨rfl, rfl, rfl, rfl, rfl, rfl, rfl,
      (sameData_storeEntry hn).usedExact⟩, rfl⟩
  case isFalse =>
    simp only [runs_bind, runs_cacheRelease, runs_pure, List.erase_cons_head] at hr
    obtain ⟨_, _, rfl, rfl, rfl⟩ := hr
    rfl

theorem inodeAlloc_spec (hr : Runs (inodeAlloc sblock ctx type) s n s') :
    type ≠ inodeInvalid ∧ ((n = 0 ∧ s' = s) ∨ Claimed type n s s') := by
  simp only [inodeAlloc, runs_bind, runs_require, runs_pure] at hr
  obtain ⟨_, _, ⟨ht, rfl⟩, found, t, hs, rfl, rfl⟩ := hr
  have hmem {m : Nat} (hm : m ∈ List.range' 1 sblock.numInodes) : IsInode m := by
    have hm' : m ∈ List.range' 1 200 := hm
    rw [List.mem_range'_1] at hm'
    rw [isInode_iff]
    omega
  refine ⟨ht, ?_⟩
  rcases hs.search fun m hm t ht => claimInode_spec (hmem hm) ht with ⟨rfl, rfl⟩ | ⟨m, hm, a, rfl, h⟩
  · exact .inl ⟨rfl, rfl⟩
  · obtain ⟨rfl, hc⟩ := claimInode_spec (hmem hm) h
    exact .inr hc

theorem claimFrom_spec {gno : Nat} (hr : Runs (claimFrom sblock ctx type gno) s n s') :
    (n = 0 ∧ s' = s) ∨ Claimed type n s s' := by
  simp only [claimFrom, runs_bind, runs_pure] at hr
  obtain ⟨found, t, hs, rfl, rfl⟩ := hr
  -- The assertion on the number bounds it, so every round is for an inode.
  have hround (g ino : Nat) (hino : ino ∈ List.range' 1 (ginodes sblock)) {r : Option Nat}
      {t : State} (ht : Runs (do
        assert (ino + g * (ninodes / ngroups) ≤ ninodes)
        claimInode sblock ctx type (ino + g * (ninodes / ngroups))) s r t) :
      r.elim (t = s) fun m => Claimed type m s t := by
    simp only [runs_bind, runs_require] at ht
    obtain ⟨_, _, ⟨hle, rfl⟩, ht⟩ := ht
    have hino' : ino ∈ List.range' 1 20 := hino
    rw [List.mem_range'_1] at hino'
    have hspec := claimInode_spec (isInode_iff.mpr ⟨by omega, hle⟩) ht
    cases r with
    | none => exact hspec
    | some m =>
      obtain ⟨rfl, hc⟩ := hspec
      exact hc
  have hgroup (g : Nat) {r : Option Nat} {t : State} (ht : Runs (Exec.search (fun ino => do
        assert (ino + g * (ninodes / ngroups) ≤ ninodes)
        claimInode sblock ctx type (ino + g * (ninodes / ngroups)))
        (List.range' 1 (ginodes sblock))) s r t) :
      r.elim (t = s) fun m => Claimed type m s t := by
    rcases ht.search fun ino hino _ h => hround g ino hino h with
      ⟨rfl, rfl⟩ | ⟨ino, hino, a, rfl, h⟩
    · rfl
    · exact hround g ino hino h
  rcases hs.search fun g _ _ h => hgroup g h with ⟨rfl, rfl⟩ | ⟨g, -, a, rfl, h⟩
  · exact .inl ⟨rfl, rfl⟩
  · exact .inr (hgroup g h)

theorem inodeAllocGroup_spec {gno : Nat} (hr : Runs (inodeAllocGroup sblock ctx type gno) s n s') :
    type ≠ inodeInvalid ∧ ((n = 0 ∧ s' = s) ∨ Claimed type n s s') := by
  simp only [inodeAllocGroup, runs_bind, runs_require] at hr
  obtain ⟨_, _, ⟨ht, rfl⟩, hr⟩ := hr
  refine ⟨ht, ?_⟩
  split at hr
  case isTrue =>
    simp only [runs_bind, runs_get] at hr
    obtain ⟨_, _, ⟨rfl, rfl⟩, hr⟩ := hr
    split at hr
    case isTrue =>
      obtain ⟨rfl, rfl⟩ := runs_pure.mp hr
      exact .inl ⟨rfl, rfl⟩
    case isFalse => exact claimFrom_spec hr
  case isFalse => exact claimFrom_spec hr

/-- An inode without blocks comes into use. -/
theorem ref_claimed {d : Nat → BlockData} (hfree : (E n).type = inodeInvalid) :
    ref (Function.update E n (newEntry type)) d = ref E d := by
  funext ⟨m, pl⟩
  by_cases hmn : m = n
  · subst hmn
    have hu : ¬InUse E m := fun h => h.2 hfree
    rw [ref_of_not_inUse hu]
    simp only [ref, Function.update_self]
    split
    case isTrue => cases pl <;> simp [blockOf, newEntry, InodeEntry.zero, InodeEntry.addr]
    case isFalse => rfl
  · exact ref_update_ne hmn

/-- The store of a new entry for a free inode. -/
theorem BlocksOwned.claim {d : Nat → BlockData} (ho : BlocksOwned (diskEntry d) d) (hn : IsInode n)
    (hfree : (diskEntry d n).type = inodeInvalid) :
    BlocksOwned (diskEntry (storeEntry d n (newEntry type))) (storeEntry d n (newEntry type)) := by
  have hclaimed : BlocksOwned (Function.update (diskEntry d) n (newEntry type)) d :=
    ho.congr (ref_claimed hfree) fun _ _ => rfl
  refine hclaimed.resync (fun m hm => ?_) (sameData_storeEntry hn)
  rw [diskEntry_storeEntry hn hm, Function.update_apply]
  exact .refl _

theorem Claimed.owned (h : Claimed type n s s') (ho : BlocksOwned (diskEntry s.disk) s.disk) :
    BlocksOwned (diskEntry s'.disk) s'.disk := by
  rw [h.disk]
  exact ho.claim h.isInode h.free

end FtosFfs.Fs
