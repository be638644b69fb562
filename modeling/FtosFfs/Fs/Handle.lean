import FtosFfs.Fs.Map

/-! In-memory inodes: what it takes for `inode_sync`, `inode_lock`, `inode_unlock`, and `inode_get`
to return, and what they have done to the state then; the entries of inodes in memory and on
disk. -/

namespace FtosFfs.Fs

open Lib Lib.Exec Cache

variable {s s' : State} {ctx : Bool} {p q : Ptr} {n : Nat} {u : Unit}

/-- The blocks after the entry of inode `n` is stored on disk. -/
def storeEntry (d : Nat → BlockData) (n : Nat) (e : InodeEntry) : Nat → BlockData :=
  Function.update d (toBlockNo sblock n) (setEntry (d (toBlockNo sblock n)) (n % inodePerBlock) e)

/-- `inode_sync` that writes the entry of a loaded inode. -/
theorem runs_inodeSync_write (hv : (s.mem p).valid = true) :
    Runs (inodeSync sblock ctx p true) s u s' ↔
      toBlockNo sblock (s.mem p).inodeNo ∉ s.held ∧
      ∃ c, recorded ctx s.ctx (toBlockNo sblock (s.mem p).inodeNo) = some c ∧ s' = { s with
        disk := storeEntry s.disk (s.mem p).inodeNo (s.mem p).entry, ctx := c } := by
  simp only [inodeSync, runs_bind, runs_get, runs_cacheAcquire]
  constructor
  · rintro ⟨_, _, ⟨rfl, rfl⟩, _, _, ⟨hh, rfl, rfl⟩, hr⟩
    rw [if_pos ⟨hv, trivial⟩, runs_writeBack] at hr
    obtain ⟨c, hc, rfl⟩ := hr
    refine ⟨hh, c, hc, ?_⟩
    simp only [List.erase_cons_head]
    rfl
  · rintro ⟨hh, c, hc, rfl⟩
    refine ⟨s, s, ⟨rfl, rfl⟩, _, _, ⟨hh, rfl, rfl⟩, ?_⟩
    rw [if_pos ⟨hv, trivial⟩, runs_writeBack]
    refine ⟨c, hc, ?_⟩
    simp only [List.erase_cons_head]
    rfl

/-- `inode_sync` of a loaded inode without a write does nothing. -/
theorem runs_inodeSync_read (hv : (s.mem p).valid = true) :
    Runs (inodeSync sblock ctx p false) s u s' ↔
      toBlockNo sblock (s.mem p).inodeNo ∉ s.held ∧ s' = s := by
  simp only [inodeSync, runs_bind, runs_get, runs_cacheAcquire]
  constructor
  · rintro ⟨_, _, ⟨rfl, rfl⟩, _, _, ⟨hh, rfl, rfl⟩, hr⟩
    rw [if_neg (by simp), if_neg (by simp [hv]), runs_cacheRelease] at hr
    exact ⟨hh, hr.trans (by rw [List.erase_cons_head])⟩
  · rintro ⟨hh, rfl⟩
    refine ⟨_, _, ⟨rfl, rfl⟩, _, _, ⟨hh, rfl, rfl⟩, ?_⟩
    rw [if_neg (by simp), if_neg (by simp [hv]), runs_cacheRelease, List.erase_cons_head]

/-- `inode_sync` that loads the entry. -/
theorem runs_inodeSync_load {doWrite : Bool} (hv : (s.mem p).valid = false) :
    Runs (inodeSync sblock ctx p doWrite) s u s' ↔
      toBlockNo sblock (s.mem p).inodeNo ∉ s.held ∧ s' = s.setInode p { s.mem p with
        entry := diskEntry s.disk (s.mem p).inodeNo, valid := true } := by
  simp only [inodeSync, runs_bind, runs_get, runs_cacheAcquire]
  constructor
  · rintro ⟨_, _, ⟨rfl, rfl⟩, _, _, ⟨hh, rfl, rfl⟩, hr⟩
    rw [if_neg (by simp [hv]), if_pos (by simp [hv])] at hr
    simp only [runs_bind, runs_modifyInode, runs_cacheRelease] at hr
    obtain ⟨_, _, rfl, rfl⟩ := hr
    refine ⟨hh, ?_⟩
    simp only [State.held_setInode, List.erase_cons_head]
    rfl
  · rintro ⟨hh, rfl⟩
    refine ⟨_, _, ⟨rfl, rfl⟩, _, _, ⟨hh, rfl, rfl⟩, ?_⟩
    rw [if_neg (by simp [hv]), if_pos (by simp [hv])]
    simp only [runs_bind, runs_modifyInode, runs_cacheRelease]
    refine ⟨⟨⟩, _, rfl, ?_⟩
    simp only [State.held_setInode, List.erase_cons_head]
    rfl

/-- The entry of an in-memory inode once it is loaded. -/
def State.loaded (s : State) (p : Ptr) : InodeEntry :=
  if (s.mem p).valid then (s.mem p).entry else diskEntry s.disk (s.mem p).inodeNo

/-- The inode at `p` after `inode_lock`. -/
def State.lockedInode (s : State) (p : Ptr) : Inode :=
  { s.mem p with locked := true, valid := true, entry := s.loaded p }

theorem runs_inodeLock :
    Runs (inodeLock sblock p) s u s' ↔ 0 < (s.mem p).rc ∧ (s.mem p).locked = false ∧
      ((s.mem p).valid = false → toBlockNo sblock (s.mem p).inodeNo ∉ s.held) ∧
      (s.loaded p).type ≠ inodeInvalid ∧ s' = s.setInode p (s.lockedInode p) := by
  have hload {t : State} : Runs (Exec.when ((s.mem p).valid = false) (inodeSync sblock false p false))
      (s.setInode p { s.mem p with locked := true }) ⟨⟩ t ↔
      ((s.mem p).valid = false → toBlockNo sblock (s.mem p).inodeNo ∉ s.held) ∧
        t = s.setInode p (s.lockedInode p) := by
    rw [runs_when]
    cases hv : (s.mem p).valid with
    | true => simp [State.lockedInode, State.loaded, hv, eq_comm]
    | false =>
      rw [runs_inodeSync_load (by simp [hv])]
      simp [State.lockedInode, State.loaded, hv]
  simp only [inodeLock, runs_bind, runs_get, runs_require]
  constructor
  · rintro ⟨_, _, ⟨rfl, rfl⟩, _, _, ⟨hrc, rfl⟩, hr⟩
    split at hr
    case isTrue => exact absurd hr runs_throw
    case isFalse hk =>
      simp only [runs_bind, runs_modifyInode, runs_get, runs_require] at hr
      obtain ⟨_, _, rfl, _, _, hw, _, _, ⟨rfl, rfl⟩, ht, rfl⟩ := hr
      obtain ⟨hh, rfl⟩ := hload.mp hw
      rw [State.mem_setInode_same] at ht
      exact ⟨hrc, by simpa using hk, hh, ht, rfl⟩
  · rintro ⟨hrc, hk, hh, ht, rfl⟩
    refine ⟨s, s, ⟨rfl, rfl⟩, ⟨⟩, s, ⟨hrc, rfl⟩, ?_⟩
    rw [if_neg (by simp [hk])]
    simp only [runs_bind, runs_modifyInode, runs_get, runs_require]
    refine ⟨⟨⟩, _, rfl, ⟨⟩, _, hload.mpr ⟨hh, rfl⟩, _, _, ⟨rfl, rfl⟩, ?_, rfl⟩
    rw [State.mem_setInode_same]
    exact ht

theorem runs_inodeUnlock :
    Runs (inodeUnlock p) s u s' ↔ (s.mem p).locked = true ∧ 0 < (s.mem p).rc ∧
      s' = s.setInode p { s.mem p with locked := false } := by
  simp only [inodeUnlock, runs_bind, runs_get, runs_require, runs_modifyInode]
  constructor
  · rintro ⟨_, _, ⟨rfl, rfl⟩, _, _, ⟨hk, rfl⟩, _, _, ⟨hrc, rfl⟩, rfl⟩
    exact ⟨hk, hrc, rfl⟩
  · rintro ⟨hk, hrc, rfl⟩
    exact ⟨s, s, ⟨rfl, rfl⟩, ⟨⟩, s, ⟨hk, rfl⟩, ⟨⟩, s, ⟨hrc, rfl⟩, rfl⟩

/-! ### The inode list -/

/-- The objects of the inode list are distinct inodes with references. -/
structure ListOk (s : State) : Prop where
  nodup : s.list.Nodup
  fresh : ∀ p ∈ s.list, p < s.fresh
  rc : ∀ p ∈ s.list, 0 < (s.mem p).rc
  isInode : ∀ p ∈ s.list, IsInode (s.mem p).inodeNo
  inj : ∀ p ∈ s.list, ∀ q ∈ s.list, (s.mem p).inodeNo = (s.mem q).inodeNo → p = q

/-- The object that `inode_get` makes for inode `n`. -/
def State.newInode (s : State) (n : Nat) : Inode :=
  { s.mem s.fresh with locked := false, rc := 1, inodeNo := n, valid := false }

/-- The list with a new object for an inode that had none. -/
theorem ListOk.cons (h : ListOk s) (hn : IsInode n)
    (hno : ∀ q ∈ s.list, (s.mem q).inodeNo ≠ n) :
    ListOk { s with
      fresh := s.fresh + 1
      list := s.fresh :: s.list
      mem := Function.update s.mem s.fresh (s.newInode n) } := by
  have hnew : Function.update s.mem s.fresh (s.newInode n) s.fresh = s.newInode n :=
    Function.update_self ..
  have hold (q : Ptr) (hq : q ∈ s.list) :
      Function.update s.mem s.fresh (s.newInode n) q = s.mem q :=
    Function.update_of_ne (Nat.ne_of_lt (h.fresh q hq)) ..
  constructor
  case nodup =>
    rw [List.nodup_cons]
    exact ⟨fun hm => Nat.lt_irrefl _ (h.fresh _ hm), h.nodup⟩
  case fresh =>
    intro q hq
    rcases List.mem_cons.mp hq with rfl | hq
    · exact Nat.lt_succ_self _
    · exact Nat.lt_succ_of_lt (h.fresh q hq)
  case rc =>
    intro q hq
    rcases List.mem_cons.mp hq with rfl | hq
    · simp [State.newInode]
    · simp only [hold q hq]
      exact h.rc q hq
  case isInode =>
    intro q hq
    rcases List.mem_cons.mp hq with rfl | hq
    · simp only [hnew]
      exact hn
    · simp only [hold q hq]
      exact h.isInode q hq
  case inj =>
    intro q hq r hr hqr
    rcases List.mem_cons.mp hq with rfl | hq <;> rcases List.mem_cons.mp hr with rfl | hr
    · rfl
    · simp only [hnew, hold r hr] at hqr
      exact absurd hqr.symm (hno r hr)
    · simp only [hnew, hold q hq] at hqr
      exact absurd hqr (hno q hq)
    · simp only [hold q hq, hold r hr] at hqr
      exact h.inj q hq r hr hqr

/-- `inode_get` returns the object of the inode in the list with one more reference, or a new
one. -/
theorem runs_inodeGet (h : ListOk s) :
    Runs (inodeGet sblock n) s p s' ↔ IsInode n ∧
      ((p ∈ s.list ∧ (s.mem p).inodeNo = n ∧
          s' = s.setInode p { s.mem p with rc := (s.mem p).rc + 1 }) ∨
        ((∀ q ∈ s.list, (s.mem q).inodeNo ≠ n) ∧ p = s.fresh ∧
          s' = { s with
            fresh := p + 1
            list := p :: s.list
            mem := Function.update s.mem p (s.newInode n) })) := by
  simp only [inodeGet, runs_bind, runs_require, runs_get, isInode_iff]
  cases hf : s.list.find? fun p => decide ((s.mem p).rc > 0) && decide ((s.mem p).inodeNo = n) with
  | some q =>
    have hq := List.mem_of_find?_eq_some hf
    have hqn : (s.mem q).inodeNo = n := by
      have := List.find?_some hf
      simp only [Bool.and_eq_true, decide_eq_true_eq] at this
      exact this.2
    constructor
    · rintro ⟨_, _, ⟨h1, rfl⟩, _, _, ⟨h2, rfl⟩, _, _, ⟨rfl, rfl⟩, hr⟩
      rw [hf] at hr
      simp only [runs_bind, incrementRc, runs_modifyInode, runs_pure] at hr
      obtain ⟨_, _, rfl, rfl, rfl⟩ := hr
      exact ⟨⟨h1, h2⟩, .inl ⟨hq, hqn, rfl⟩⟩
    · rintro ⟨⟨h1, h2⟩, ⟨hp, hpn, rfl⟩ | ⟨hno, -⟩⟩
      · obtain rfl : p = q := h.inj p hp q hq (hpn.trans hqn.symm)
        refine ⟨⟨⟩, s, ⟨h1, rfl⟩, ⟨⟩, s, ⟨h2, rfl⟩, s, s, ⟨rfl, rfl⟩, ?_⟩
        rw [hf]
        simp only [runs_bind, incrementRc, runs_modifyInode, runs_pure]
        exact ⟨⟨⟩, _, rfl, trivial, rfl⟩
      · exact absurd hqn (hno q hq)
  | none =>
    have hno : ∀ q ∈ s.list, (s.mem q).inodeNo ≠ n := by
      intro q hq hqn
      have := List.find?_eq_none.mp hf q hq
      simp [h.rc q hq, hqn] at this
    have hmem : Function.update s.mem s.fresh (s.newInode n) = Function.update
        { s with fresh := s.fresh + 1, list := s.fresh :: s.list }.mem s.fresh (s.newInode n) := rfl
    constructor
    · rintro ⟨_, _, ⟨h1, rfl⟩, _, _, ⟨h2, rfl⟩, _, _, ⟨rfl, rfl⟩, hr⟩
      rw [hf] at hr
      simp only [runs_bind, runs_set, runs_modifyInode, runs_pure] at hr
      obtain ⟨_, _, rfl, _, _, rfl, rfl, rfl⟩ := hr
      exact ⟨⟨h1, h2⟩, .inr ⟨hno, rfl, rfl⟩⟩
    · rintro ⟨⟨h1, h2⟩, ⟨hp, hpn, rfl⟩ | ⟨-, rfl, rfl⟩⟩
      · exact absurd hpn (hno p hp)
      · refine ⟨⟨⟩, s, ⟨h1, rfl⟩, ⟨⟩, s, ⟨h2, rfl⟩, s, s, ⟨rfl, rfl⟩, ?_⟩
        rw [hf]
        simp only [runs_bind, runs_set, runs_modifyInode, runs_pure]
        exact ⟨⟨⟩, _, rfl, ⟨⟩, _, rfl, trivial, rfl⟩

theorem runs_dropRef :
    Runs (dropRef p) s u s' ↔ s' = { s.setInode p { s.mem p with rc := (s.mem p).rc - 1 } with
      list := if (s.mem p).rc - 1 ≤ 0 then s.list.erase p else s.list } := by
  simp only [dropRef, runs_bind, runs_modifyInode, runs_get]
  constructor
  · rintro ⟨_, _, rfl, _, _, ⟨rfl, rfl⟩, hr⟩
    rw [State.mem_setInode_same] at hr
    split at hr
    case isTrue h0 =>
      rw [runs_set.mp hr]
      simp [h0]
    case isFalse h0 =>
      obtain ⟨-, rfl⟩ := runs_pure.mp hr
      simp only [h0, if_false]
      rfl
  · rintro rfl
    refine ⟨⟨⟩, _, rfl, _, _, ⟨rfl, rfl⟩, ?_⟩
    rw [State.mem_setInode_same]
    split
    case isTrue h0 => exact runs_set.mpr rfl
    case isFalse h0 => exact runs_pure.mpr ⟨rfl, rfl⟩

end FtosFfs.Fs
