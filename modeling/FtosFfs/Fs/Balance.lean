import FtosFfs.Fs.Refs

/-! The references and locks that a call holds: `inode_get`, `inode_share`, and `namex` take a
reference, `inode_put` gives one back, and every system call gives back what it takes. -/

namespace FtosFfs.Fs

open Lib Lib.Exec Cache

variable {s s' t σ : State} {ctx : Bool} {p q : Ptr} {u : Unit} {n n' : Ptr → Nat} {L L' : Set Ptr}

/-- The counts with one more reference to `p`. -/
def bump (n : Ptr → Nat) (p : Ptr) : Ptr → Nat := Function.update n p (n p + 1)

@[simp] theorem bump_self : bump n p p = n p + 1 := Function.update_self ..

theorem bump_of_ne (h : q ≠ p) : bump n p q = n q := Function.update_of_ne h ..

theorem bump_pos : 0 < bump n p p := by simp

theorem bump_comm (n : Ptr → Nat) (p q : Ptr) : bump (bump n p) q = bump (bump n q) p := by
  funext r
  unfold bump
  simp only [Function.update_apply]
  split <;> split <;> simp_all

/-- The in-memory inodes have the reference counts `n`, those in `L` and no others are locked, and
files, processes, and the numbers of the objects that `σ` has are as in `σ`. -/
structure Refs (σ : State) (n : Ptr → Nat) (L : Set Ptr) (s : State) : Prop where
  list : ListOk s
  file : s.file = σ.file
  proc : s.proc = σ.proc
  fresh : σ.fresh ≤ s.fresh
  inodeNo : ∀ p < σ.fresh, (s.mem p).inodeNo = (σ.mem p).inodeNo
  mem : ∀ p, 0 < n p → p ∈ s.list
  rc : ∀ p ∈ s.list, (s.mem p).rc = n p
  locks : ∀ p ∈ s.list, ((s.mem p).locked = true ↔ p ∈ L)
  sub : ∀ p ∈ L, p ∈ s.list

theorem ListOk.same (h : ListOk s) (hs : SameRefs s s') : ListOk s' := by
  constructor
  case nodup => rw [hs.list]; exact h.nodup
  case fresh => rw [hs.list, hs.fresh]; exact h.fresh
  case rc =>
    intro p hp
    rw [hs.list] at hp
    rw [hs.rc]
    exact h.rc p hp
  case isInode =>
    intro p hp
    rw [hs.list] at hp
    rw [hs.inodeNo]
    exact h.isInode p hp
  case inj =>
    intro p hp q hq hpq
    rw [hs.list] at hp hq
    rw [hs.inodeNo, hs.inodeNo] at hpq
    exact h.inj p hp q hq hpq

namespace Refs

theorem same (h : Refs σ n L s) (hs : SameRefs s s') : Refs σ n L s' := by
  constructor
  case list => exact h.list.same hs
  case file => exact hs.file.trans h.file
  case proc => exact hs.proc.trans h.proc
  case fresh => rw [hs.fresh]; exact h.fresh
  case inodeNo => exact fun p hp => (hs.inodeNo p).trans (h.inodeNo p hp)
  case mem => rw [hs.list]; exact h.mem
  case rc =>
    intro p hp
    rw [hs.list] at hp
    exact (hs.rc p).trans (h.rc p hp)
  case locks =>
    intro p hp
    rw [hs.list] at hp
    rw [hs.locked]
    exact h.locks p hp
  case sub => rw [hs.list]; exact h.sub

/-- A change of one object that stays in the list. -/
theorem change (h : Refs σ n L s) (hp : p ∈ s.list) {ip : Inode}
    (hno : ip.inodeNo = (s.mem p).inodeNo) (hpos : 0 < n' p) (hrc : ip.rc = n' p)
    (hn : ∀ q, q ≠ p → n' q = n q) (hk : ip.locked = true ↔ p ∈ L')
    (hL : ∀ q, q ≠ p → (q ∈ L' ↔ q ∈ L)) : Refs σ n' L' (s.setInode p ip) := by
  have hmem (q : Ptr) : (s.setInode p ip).mem q = if q = p then ip else s.mem q :=
    Function.update_apply ..
  have hnos (q : Ptr) : ((s.setInode p ip).mem q).inodeNo = (s.mem q).inodeNo := by
    rw [hmem]
    split
    case isTrue hq => rw [hq, hno]
    case isFalse => rfl
  have hcount (q : Ptr) (hq : q ∈ s.list) : ((s.setInode p ip).mem q).rc = n' q := by
    rw [hmem]
    split
    case isTrue hqp => rw [hqp, hrc]
    case isFalse hqp => rw [h.rc q hq, hn q hqp]
  have hpos' (q : Ptr) (hq : q ∈ s.list) : 0 < n' q := by
    by_cases hqp : q = p
    · rw [hqp]
      exact hpos
    · have := h.list.rc q hq
      rw [h.rc q hq] at this
      rw [hn q hqp]
      exact Int.natCast_pos.mp this
  constructor
  case list =>
    refine ⟨h.list.nodup, h.list.fresh, fun q hq => ?_, fun q hq => ?_, fun q hq r hr hqr => ?_⟩
    · rw [hcount q hq]
      exact Int.natCast_pos.mpr (hpos' q hq)
    · rw [hnos]
      exact h.list.isInode q hq
    · rw [hnos, hnos] at hqr
      exact h.list.inj q hq r hr hqr
  case file => exact h.file
  case proc => exact h.proc
  case fresh => exact h.fresh
  case inodeNo => exact fun q hq => (hnos q).trans (h.inodeNo q hq)
  case mem =>
    intro q hq
    by_cases hqp : q = p
    · exact hqp ▸ hp
    · exact h.mem q (hn q hqp ▸ hq)
  case rc => exact hcount
  case locks =>
    intro q hq
    rw [hmem]
    split
    case isTrue hqp => rw [hqp, hk]
    case isFalse hqp => rw [h.locks q hq, hL q hqp]
  case sub =>
    intro q hq
    by_cases hqp : q = p
    · exact hqp ▸ hp
    · exact h.sub q ((hL q hqp).mp hq)

/-- An object without references leaves the list. -/
theorem leave (h : Refs σ n L s) (hp : p ∈ s.list) (hpL : p ∉ L) {ip : Inode}
    (hno : ip.inodeNo = (s.mem p).inodeNo) (hp0 : n' p = 0) (hn : ∀ q, q ≠ p → n' q = n q) :
    Refs σ n' L { s.setInode p ip with list := s.list.erase p } := by
  have hmem (q : Ptr) : (s.setInode p ip).mem q = if q = p then ip else s.mem q :=
    Function.update_apply ..
  have hsub (q : Ptr) (hq : q ∈ s.list.erase p) :
      q ≠ p ∧ q ∈ s.list ∧ (s.setInode p ip).mem q = s.mem q := by
    rw [h.list.nodup.mem_erase_iff] at hq
    exact ⟨hq.1, hq.2, by rw [hmem, if_neg hq.1]⟩
  constructor
  case list =>
    refine ⟨h.list.nodup.erase p, fun q hq => ?_, fun q hq => ?_, fun q hq => ?_,
      fun q hq r hr hqr => ?_⟩
    · exact h.list.fresh q (hsub q hq).2.1
    · exact (hsub q hq).2.2 ▸ h.list.rc q (hsub q hq).2.1
    · exact (hsub q hq).2.2 ▸ h.list.isInode q (hsub q hq).2.1
    · simp only [(hsub q hq).2.2, (hsub r hr).2.2] at hqr
      exact h.list.inj q (hsub q hq).2.1 r (hsub r hr).2.1 hqr
  case file => exact h.file
  case proc => exact h.proc
  case fresh => exact h.fresh
  case inodeNo =>
    intro q hq
    refine Eq.trans ?_ (h.inodeNo q hq)
    show ((s.setInode p ip).mem q).inodeNo = _
    rw [hmem]
    split
    case isTrue hqp => rw [hqp, hno]
    case isFalse => rfl
  case mem =>
    intro q hq
    have hqp : q ≠ p := by
      rintro rfl
      omega
    rw [hn q hqp] at hq
    exact h.list.nodup.mem_erase_iff.mpr ⟨hqp, h.mem q hq⟩
  case rc =>
    intro q hq
    rw [hn q (hsub q hq).1]
    exact (hsub q hq).2.2 ▸ h.rc q (hsub q hq).2.1
  case locks =>
    intro q hq
    exact (hsub q hq).2.2 ▸ h.locks q (hsub q hq).2.1
  case sub =>
    intro q hq
    have hqp : q ≠ p := by
      rintro rfl
      exact hpL hq
    exact h.list.nodup.mem_erase_iff.mpr ⟨hqp, h.sub q hq⟩

/-! ### The calls on inodes -/

theorem inodeGet {ino : Nat} (h : Refs σ n L s) (hr : Runs (inodeGet sblock ino) s p s') :
    Refs σ (bump n p) L s' := by
  obtain ⟨hino, ⟨hp, -, rfl⟩ | ⟨hno, rfl, rfl⟩⟩ := (runs_inodeGet h.list).mp hr
  · refine h.change hp rfl bump_pos ?_ (fun q hq => bump_of_ne hq) (h.locks p hp) fun _ _ => .rfl
    show (s.mem p).rc + 1 = _
    rw [bump_self, h.rc p hp]
    rfl
  · have hnew : Function.update s.mem s.fresh (s.newInode ino) s.fresh = s.newInode ino :=
      Function.update_self ..
    have hold (q : Ptr) (hq : q ≠ s.fresh) :
        Function.update s.mem s.fresh (s.newInode ino) q = s.mem q := Function.update_of_ne hq ..
    have hfresh : s.fresh ∉ s.list := fun hm => Nat.lt_irrefl _ (h.list.fresh _ hm)
    have hne (q : Ptr) (hq : q ∈ s.list) : q ≠ s.fresh := fun he => hfresh (he ▸ hq)
    have hzero : n s.fresh = 0 := Nat.eq_zero_of_not_pos fun hpos => hfresh (h.mem _ hpos)
    constructor
    case list => exact h.list.cons hino hno
    case file => exact h.file
    case proc => exact h.proc
    case fresh => exact Nat.le_succ_of_le h.fresh
    case inodeNo =>
      intro q hq
      have hqs : q ≠ s.fresh := Nat.ne_of_lt (Nat.lt_of_lt_of_le hq h.fresh)
      simp only [hold q hqs]
      exact h.inodeNo q hq
    case mem =>
      intro q hq
      by_cases hqs : q = s.fresh
      · simp [hqs]
      · rw [bump_of_ne hqs] at hq
        exact List.mem_cons_of_mem _ (h.mem q hq)
    case rc =>
      intro q hq
      rcases List.mem_cons.mp hq with rfl | hq
      · simp only [hnew, bump_self, hzero]
        rfl
      · simp only [hold q (hne q hq), bump_of_ne (hne q hq)]
        exact h.rc q hq
    case locks =>
      intro q hq
      rcases List.mem_cons.mp hq with rfl | hq
      · simp only [hnew]
        simp only [State.newInode, Bool.false_eq_true, false_iff]
        exact fun hm => hfresh (h.sub _ hm)
      · simp only [hold q (hne q hq)]
        exact h.locks q hq
    case sub => exact fun q hq => List.mem_cons_of_mem _ (h.sub q hq)

theorem inodeShare (h : Refs σ n L s) (hp : 0 < n p) (hr : Runs (inodeShare p) s q s') :
    q = p ∧ Refs σ (bump n p) L s' := by
  simp only [Fs.inodeShare, incrementRc, runs_bind, runs_modifyInode, runs_pure] at hr
  obtain ⟨_, _, rfl, rfl, rfl⟩ := hr
  have hmem := h.mem _ hp
  refine ⟨rfl, h.change hmem rfl bump_pos ?_ (fun q hq => bump_of_ne hq) (h.locks _ hmem)
    fun _ _ => .rfl⟩
  show (s.mem p).rc + 1 = _
  rw [bump_self, h.rc p hmem]
  rfl

theorem inodeLock (h : Refs σ n L s) (hp : 0 < n p) (hr : Runs (inodeLock sblock p) s u s') :
    p ∉ L ∧ Refs σ n (insert p L) s' := by
  have hmem := h.mem _ hp
  obtain ⟨-, hk, -, -, rfl⟩ := runs_inodeLock.mp hr
  have hpL : p ∉ L := by
    rw [← h.locks p hmem, hk]
    simp
  refine ⟨hpL, h.change hmem rfl hp (h.rc p hmem) (fun _ _ => rfl) ?_ fun q hq => ?_⟩
  · simp [State.lockedInode]
  · simp [hq]

theorem inodeUnlock (h : Refs σ n (insert p L) s) (hp : 0 < n p) (hpL : p ∉ L)
    (hr : Runs (inodeUnlock p) s u s') : Refs σ n L s' := by
  have hmem := h.mem _ hp
  obtain ⟨-, -, rfl⟩ := runs_inodeUnlock.mp hr
  refine h.change hmem rfl hp (h.rc p hmem) (fun _ _ => rfl) ?_ fun q hq => ?_
  · simp [hpL]
  · simp [hq]

theorem dropped (h : Refs σ (bump n p) L s) (hpL : p ∉ L) : Refs σ n L (s.dropped p) := by
  have hmem := h.mem p bump_pos
  have hrc := h.rc p hmem
  rw [bump_self] at hrc
  have hn (q : Ptr) (hq : q ≠ p) : n q = bump n p q := (bump_of_ne hq).symm
  by_cases h0 : n p = 0
  · have hlast : (s.mem p).rc - 1 ≤ 0 := by omega
    have heq : s.dropped p = { s.setInode p { s.mem p with rc := (s.mem p).rc - 1 } with
        list := s.list.erase p } := by
      unfold State.dropped
      rw [if_pos hlast]
    rw [heq]
    exact h.leave hmem hpL rfl h0 hn
  · have hlast : ¬(s.mem p).rc - 1 ≤ 0 := by omega
    have heq : s.dropped p = s.setInode p { s.mem p with rc := (s.mem p).rc - 1 } := by
      unfold State.dropped
      rw [if_neg hlast]
      rfl
    rw [heq]
    refine h.change hmem rfl (Nat.pos_of_ne_zero h0) ?_ hn (h.locks p hmem) fun _ _ => .rfl
    show (s.mem p).rc - 1 = _
    omega

theorem inodePut (h : Refs σ (bump n p) L s) (hpL : p ∉ L)
    (hr : Runs (inodePut sblock ctx p) s u s') : Refs σ n L s' := by
  rw [runs_inodePut] at hr
  split at hr
  case isTrue =>
    obtain ⟨t, hfree, rfl⟩ := hr
    exact (h.same (same_freeInode hfree)).dropped hpL
  case isFalse =>
    rw [hr]
    exact h.dropped hpL

theorem unlockPut (h : Refs σ (bump n p) (insert p L) s) (hpL : p ∉ L)
    (hr : Runs (unlockPut sblock p) s u s') : Refs σ n L s' := by
  obtain ⟨_, t, hunlock, hput⟩ := runs_bind.mp hr
  exact (h.inodeUnlock bump_pos hpL hunlock).inodePut hpL hput

/-! ### Paths -/

theorem putInOp (h : Refs σ (bump n p) L s) (hpL : p ∉ L) (hr : Runs (putInOp sblock p) s u s') :
    Refs σ n L s' := by
  obtain ⟨_, t, hbegin, hrest⟩ := runs_bind.mp hr
  obtain ⟨_, t', hput, hend⟩ := runs_bind.mp hrest
  exact ((h.same (quiet_cacheBeginOp.same hbegin)).inodePut hpL hput).same
    (quiet_cacheEndOp.same hend)

/-- The counts after a call that returns a referenced inode or none. -/
def taken (n : Ptr → Nat) (r : Option Ptr) : Ptr → Nat := r.elim n (bump n)

theorem namexFrom {parent : Bool} {fuel : Nat} {path name : List UInt8}
    {r : Option (Ptr × List UInt8)} (h : Refs σ (bump n p) ∅ s)
    (hr : Runs (namexFrom sblock parent fuel p path name) s r s') :
    Refs σ (taken n (r.map (·.1))) ∅ s' := by
  induction fuel generalizing p path name s with
  | zero => exact absurd hr runs_throw
  | succ fuel ih =>
    unfold Fs.namexFrom at hr
    split at hr
    case h_1 =>
      obtain ⟨-, hr⟩ | ⟨-, hr⟩ := runs_ite.mp hr
      · obtain ⟨_, t, hput, hr⟩ := runs_bind.mp hr
        obtain ⟨rfl, rfl⟩ := runs_pure.mp hr
        exact h.putInOp (by simp) hput
      · obtain ⟨rfl, rfl⟩ := runs_pure.mp hr
        exact h
    case h_2 rest c _ =>
      obtain ⟨_, t, hlock, hr⟩ := runs_bind.mp hr
      obtain ⟨-, h1⟩ := h.inodeLock bump_pos hlock
      obtain ⟨_, _, hget, hr⟩ := runs_bind.mp hr
      obtain ⟨rfl, rfl⟩ := runs_get.mp hget
      obtain ⟨-, hr⟩ | ⟨-, hr⟩ := runs_ite.mp hr
      · -- Not a directory.
        obtain ⟨_, t1, hunlock, hr⟩ := runs_bind.mp hr
        obtain ⟨_, t2, hput, hr⟩ := runs_bind.mp hr
        obtain ⟨rfl, rfl⟩ := runs_pure.mp hr
        exact (h1.inodeUnlock bump_pos (by simp) hunlock).putInOp (by simp) hput
      obtain ⟨-, hr⟩ | ⟨-, hr⟩ := runs_ite.mp hr
      · obtain ⟨_, t1, hunlock, hr⟩ := runs_bind.mp hr
        obtain ⟨rfl, rfl⟩ := runs_pure.mp hr
        exact h1.inodeUnlock bump_pos (by simp) hunlock
      obtain ⟨-, hr⟩ | ⟨-, hr⟩ := runs_ite.mp hr
      · obtain ⟨_, t1, hunlock, hr⟩ := runs_bind.mp hr
        obtain ⟨rfl, rfl⟩ := runs_pure.mp hr
        exact h1.inodeUnlock bump_pos (by simp) hunlock
      obtain ⟨found, t1, hlook, hr⟩ := runs_bind.mp hr
      have h2 := h1.same ((quiet_inodeLookup c).same hlook)
      cases found with
      | none =>
        obtain ⟨_, t2, hunlock, hr⟩ := runs_bind.mp hr
        obtain ⟨_, t3, hput, hr⟩ := runs_bind.mp hr
        obtain ⟨rfl, rfl⟩ := runs_pure.mp hr
        have h3 := h2.inodeUnlock bump_pos (by simp) hunlock
        exact h3.inodePut (by simp) hput
      | some found =>
        obtain ⟨found', t2, hlook', hr⟩ := runs_bind.mp hr
        obtain ⟨next, t3, hnext, hr⟩ := runs_bind.mp hr
        obtain ⟨_, t4, hunlock, hr⟩ := runs_bind.mp hr
        obtain ⟨_, t5, hput, hr⟩ := runs_bind.mp hr
        have h3 := (h2.same ((quiet_inodeLookup c).same hlook')).inodeGet hnext
        rw [bump_comm] at h3
        have h4 := h3.inodeUnlock bump_pos (by simp) hunlock
        exact ih (h4.inodePut (by simp) hput) hr

theorem namex {parent : Bool} {path : List UInt8} {cwd : Ptr} {r : Option (Ptr × List UInt8)}
    (h : Refs σ n ∅ s) (hcwd : 0 < n cwd) (hr : Runs (namex sblock cwd path parent) s r s') :
    Refs σ (taken n (r.map (·.1))) ∅ s' := by
  obtain ⟨ip, t, hstart, hr⟩ := runs_bind.mp hr
  refine namexFrom ?_ hr
  unfold namexStart at hstart
  obtain ⟨-, hstart⟩ | ⟨-, hstart⟩ := runs_ite.mp hstart
  · exact h.inodeGet hstart
  · obtain ⟨rfl, h1⟩ := h.inodeShare hcwd hstart
    exact h1

theorem namei {path : List UInt8} {cwd : Ptr} {r : Option Ptr} (h : Refs σ n ∅ s)
    (hcwd : 0 < n cwd) (hr : Runs (namei sblock cwd path) s r s') : Refs σ (taken n r) ∅ s' := by
  obtain ⟨r', t, hnamex, hr⟩ := runs_bind.mp hr
  obtain ⟨rfl, rfl⟩ := runs_pure.mp hr
  exact h.namex hcwd hnamex

/-! ### The system calls inside their operations -/

/-- The lock after a call that returns a locked inode or none. -/
def lockedBy (r : Option Ptr) : Set Ptr := r.elim ∅ fun p => insert p ∅

theorem createInode {dp : Ptr} {type major minor : UInt16} (h : Refs σ n L s)
    (hr : Runs (createInode sblock dp type major minor) s p s') :
    p ∉ L ∧ Refs σ (bump n p) (insert p L) s' := by
  obtain ⟨ino, t, hno, hr⟩ := runs_bind.mp hr
  obtain ⟨_, _, hne, hr⟩ := runs_bind.mp hr
  obtain ⟨-, rfl⟩ := runs_require.mp hne
  obtain ⟨ip, t1, hget, hr⟩ := runs_bind.mp hr
  obtain ⟨_, t2, hlock, hr⟩ := runs_bind.mp hr
  obtain ⟨_, t3, hentry, hr⟩ := runs_bind.mp hr
  obtain ⟨_, t4, hsync, hr⟩ := runs_bind.mp hr
  obtain ⟨rfl, rfl⟩ := runs_pure.mp hr
  obtain ⟨hpL, h1⟩ := ((h.same ((quiet_createNo type).same hno)).inodeGet hget).inodeLock bump_pos hlock
  exact ⟨hpL, (h1.same ((quiet_modifyEntry _).same hentry)).same
    ((quiet_inodeSync true).same hsync)⟩

theorem createDots {dp ip : Ptr} (h : Refs σ n L s) (hr : Runs (createDots sblock dp ip) s u s') :
    Refs σ n L s' := by
  obtain ⟨_, t1, hentry, hr⟩ := runs_bind.mp hr
  obtain ⟨_, t2, hsync, hr⟩ := runs_bind.mp hr
  obtain ⟨_, _, hget, hr⟩ := runs_bind.mp hr
  obtain ⟨rfl, rfl⟩ := runs_get.mp hget
  obtain ⟨_, t3, hdot, hr⟩ := runs_bind.mp hr
  obtain ⟨_, _, hget', hr⟩ := runs_bind.mp hr
  obtain ⟨rfl, rfl⟩ := runs_get.mp hget'
  obtain ⟨_, t4, hdotdot, hr⟩ := runs_bind.mp hr
  obtain ⟨-, rfl⟩ := runs_pure.mp hr
  have h1 := (h.same ((quiet_modifyEntry _).same hentry)).same ((quiet_inodeSync false).same hsync)
  exact (h1.same (same_inodeInsert hdot)).same (same_inodeInsert hdotdot)

theorem create {cwd : Ptr} {path : List UInt8} {type major minor : UInt16} {r : Option Ptr}
    (h : Refs σ n ∅ s) (hcwd : 0 < n cwd)
    (hr : Runs (create sblock cwd path type major minor) s r s') :
    Refs σ (taken n r) (lockedBy r) s' := by
  obtain ⟨o, t, hparent, hr⟩ := runs_bind.mp hr
  have h0 := h.namex hcwd hparent
  cases o with
  | none =>
    obtain ⟨rfl, rfl⟩ := runs_pure.mp hr
    exact h0
  | some dn =>
    obtain ⟨dp, name⟩ := dn
    obtain ⟨_, t1, hlock, hr⟩ := runs_bind.mp hr
    obtain ⟨-, h1⟩ := h0.inodeLock bump_pos hlock
    obtain ⟨found, t2, hlook, hr⟩ := runs_bind.mp hr
    have h2 := h1.same ((quiet_inodeLookup name).same hlook)
    cases found with
    | some found =>
      obtain ⟨ino, off⟩ := found
      obtain ⟨ip, t3, hget, hr⟩ := runs_bind.mp hr
      obtain ⟨_, t4, hdp, hr⟩ := runs_bind.mp hr
      obtain ⟨_, t5, hlockip, hr⟩ := runs_bind.mp hr
      obtain ⟨_, _, hget', hr⟩ := runs_bind.mp hr
      obtain ⟨rfl, rfl⟩ := runs_get.mp hget'
      have h3 := h2.inodeGet hget
      change Refs σ (bump (bump n dp) ip) _ _ at h3
      rw [bump_comm] at h3
      obtain ⟨hL, h4⟩ := (h3.unlockPut (by simp) hdp).inodeLock bump_pos hlockip
      obtain ⟨-, hr⟩ | ⟨-, hr⟩ := runs_ite.mp hr
      · obtain ⟨rfl, rfl⟩ := runs_pure.mp hr
        exact h4
      · obtain ⟨_, t6, hip, hr⟩ := runs_bind.mp hr
        obtain ⟨rfl, rfl⟩ := runs_pure.mp hr
        exact h4.unlockPut hL hip
    | none =>
      obtain ⟨ip, t3, hip, hr⟩ := runs_bind.mp hr
      obtain ⟨_, t4, hdots, hr⟩ := runs_bind.mp hr
      obtain ⟨_, _, hget, hr⟩ := runs_bind.mp hr
      obtain ⟨rfl, rfl⟩ := runs_get.mp hget
      obtain ⟨_, t5, hinsert, hr⟩ := runs_bind.mp hr
      obtain ⟨_, t6, hdp, hr⟩ := runs_bind.mp hr
      obtain ⟨rfl, rfl⟩ := runs_pure.mp hr
      obtain ⟨hL, h3⟩ := h2.createInode hip
      have h4 : Refs σ (bump (bump n dp) ip) (insert ip (insert dp ∅)) t4 := by
        rcases runs_when.mp hdots with ⟨-, hdots⟩ | ⟨-, rfl⟩
        · exact h3.createDots hdots
        · exact h3
      have h5 := h4.same (same_inodeInsert hinsert)
      rw [bump_comm, Set.insert_comm] at h5
      refine h5.unlockPut ?_ hdp
      rintro (rfl | hm)
      · exact hL (by simp)
      · exact hm

theorem unlinkEntry {dp ip : Ptr} {off : Nat} (hne : ip ≠ dp)
    (h : Refs σ (bump (bump n dp) ip) (insert ip (insert dp ∅)) s)
    (hr : Runs (unlinkEntry sblock dp ip off) s u s') : Refs σ n ∅ s' := by
  obtain ⟨_, t1, hwrite, hr⟩ := runs_bind.mp hr
  obtain ⟨_, _, hget, hr⟩ := runs_bind.mp hr
  obtain ⟨rfl, rfl⟩ := runs_get.mp hget
  obtain ⟨_, t2, hlinks, hr⟩ := runs_bind.mp hr
  obtain ⟨_, t3, hdp, hr⟩ := runs_bind.mp hr
  obtain ⟨_, t4, hentry, hr⟩ := runs_bind.mp hr
  obtain ⟨_, t5, hsync, hip⟩ := runs_bind.mp hr
  have hquiet : Quiet (do
      modifyEntry dp fun e => { e with numLinks := e.numLinks - 1 }
      inodeSync sblock true dp true) := (quiet_modifyEntry _).bind fun _ => quiet_inodeSync true
  have h1 := (h.same (same_inodeWrite hwrite)).same (hquiet.when.same hlinks)
  rw [bump_comm, Set.insert_comm] at h1
  have h2 := h1.unlockPut (by simp [hne.symm]) hdp
  have h3 := (h2.same ((quiet_modifyEntry _).same hentry)).same ((quiet_inodeSync true).same hsync)
  exact h3.unlockPut (by simp) hip

theorem unlink {cwd : Ptr} {path : List UInt8} {r : Int} (h : Refs σ n ∅ s) (hcwd : 0 < n cwd)
    (hr : Runs (unlink sblock cwd path) s r s') : Refs σ n ∅ s' := by
  obtain ⟨o, t, hparent, hr⟩ := runs_bind.mp hr
  have h0 := h.namex hcwd hparent
  cases o with
  | none =>
    obtain ⟨-, rfl⟩ := runs_pure.mp hr
    exact h0
  | some dn =>
    obtain ⟨dp, name⟩ := dn
    obtain ⟨_, t1, hlock, hr⟩ := runs_bind.mp hr
    obtain ⟨-, h1⟩ := h0.inodeLock bump_pos hlock
    obtain ⟨-, hr⟩ | ⟨-, hr⟩ := runs_ite.mp hr
    · obtain ⟨_, t2, hdp, hr⟩ := runs_bind.mp hr
      obtain ⟨-, rfl⟩ := runs_pure.mp hr
      exact h1.unlockPut (by simp) hdp
    obtain ⟨found, t2, hlook, hr⟩ := runs_bind.mp hr
    obtain ⟨ip, t3, hget, hr⟩ := runs_bind.mp hr
    obtain ⟨_, t4, hlockip, hr⟩ := runs_bind.mp hr
    obtain ⟨_, _, hst, hr⟩ := runs_bind.mp hr
    obtain ⟨rfl, rfl⟩ := runs_get.mp hst
    obtain ⟨_, _, hlinks, hr⟩ := runs_bind.mp hr
    obtain ⟨-, rfl⟩ := runs_require.mp hlinks
    obtain ⟨refused, t5, hrefused, hr⟩ := runs_bind.mp hr
    have h2 := (h1.same ((quiet_inodeLookup name).same hlook)).inodeGet hget
    obtain ⟨hL, h3⟩ := h2.inodeLock bump_pos hlockip
    have hne : ip ≠ dp := by
      rintro rfl
      exact hL (by simp)
    have hquiet : Quiet (unlinkRefused sblock ip) := .get_bind fun _ =>
      .ite (quiet_inodeEmpty.bind fun _ => quiet_pure _) (quiet_pure _)
    have h4 := h3.same (hquiet.same hrefused)
    obtain ⟨-, hr⟩ | ⟨-, hr⟩ := runs_ite.mp hr
    · obtain ⟨_, t6, hip, hr⟩ := runs_bind.mp hr
      obtain ⟨_, t7, hdp, hr⟩ := runs_bind.mp hr
      obtain ⟨-, rfl⟩ := runs_pure.mp hr
      exact (h4.unlockPut hL hip).unlockPut (by simp) hdp
    · obtain ⟨_, t6, hentry, hr⟩ := runs_bind.mp hr
      obtain ⟨-, rfl⟩ := runs_pure.mp hr
      exact h4.unlinkEntry hne hentry

theorem openInode {cwd : Ptr} {path : List UInt8} {omode : Nat} {r : Option Ptr} (h : Refs σ n ∅ s)
    (hcwd : 0 < n cwd) (hr : Runs (openInode sblock cwd path omode) s r s') :
    Refs σ (taken n r) (lockedBy r) s' := by
  obtain ⟨-, hr⟩ | ⟨-, hr⟩ := runs_ite.mp hr
  · exact h.create hcwd hr
  · obtain ⟨o, t, hnamei, hr⟩ := runs_bind.mp hr
    have h0 := h.namei hcwd hnamei
    cases o with
    | none =>
      obtain ⟨rfl, rfl⟩ := runs_pure.mp hr
      exact h0
    | some ip =>
      obtain ⟨_, t1, hlock, hr⟩ := runs_bind.mp hr
      obtain ⟨rfl, rfl⟩ := runs_pure.mp hr
      exact (h0.inodeLock bump_pos hlock).2

theorem makeAt {cwd : Ptr} {path : List UInt8} {type major minor : UInt16} {r : Int}
    (h : Refs σ n ∅ s) (hcwd : 0 < n cwd)
    (hr : Runs (makeAt sblock cwd path type major minor) s r s') : Refs σ n ∅ s' := by
  obtain ⟨o, t, hcreate, hr⟩ := runs_bind.mp hr
  have h0 := h.create hcwd hcreate
  cases o with
  | none =>
    obtain ⟨-, rfl⟩ := runs_pure.mp hr
    exact h0
  | some ip =>
    obtain ⟨_, t1, hput, hr⟩ := runs_bind.mp hr
    obtain ⟨-, rfl⟩ := runs_pure.mp hr
    exact h0.unlockPut (by simp) hput

/-- The reference to the old current directory is given back for the one to the new. -/
theorem chdir {cwd : Ptr} {path : List UInt8} {r : Option Ptr} (h : Refs σ (bump n cwd) ∅ s)
    (hr : Runs (chdir sblock cwd path) s r s') : Refs σ (bump n (r.getD cwd)) ∅ s' := by
  obtain ⟨o, t, hnamei, hr⟩ := runs_bind.mp hr
  have h0 := h.namei bump_pos hnamei
  cases o with
  | none =>
    obtain ⟨rfl, rfl⟩ := runs_pure.mp hr
    exact h0
  | some ip =>
    obtain ⟨_, t1, hlock, hr⟩ := runs_bind.mp hr
    obtain ⟨-, h1⟩ := h0.inodeLock bump_pos hlock
    obtain ⟨_, _, hget, hr⟩ := runs_bind.mp hr
    obtain ⟨rfl, rfl⟩ := runs_get.mp hget
    obtain ⟨-, hr⟩ | ⟨-, hr⟩ := runs_ite.mp hr
    · obtain ⟨_, t2, hput, hr⟩ := runs_bind.mp hr
      obtain ⟨rfl, rfl⟩ := runs_pure.mp hr
      exact h1.unlockPut (by simp) hput
    · obtain ⟨_, t2, hunlock, hr⟩ := runs_bind.mp hr
      obtain ⟨_, t3, hput, hr⟩ := runs_bind.mp hr
      obtain ⟨rfl, rfl⟩ := runs_pure.mp hr
      have h2 := h1.inodeUnlock bump_pos (by simp) hunlock
      change Refs σ (bump (bump n cwd) ip) _ _ at h2
      rw [bump_comm] at h2
      exact h2.inodePut (by simp) hput

theorem fstatat {cwd : Ptr} {path : List UInt8} {r : Option Stat} (h : Refs σ n ∅ s)
    (hcwd : 0 < n cwd) (hr : Runs (fstatat sblock cwd path) s r s') : Refs σ n ∅ s' := by
  obtain ⟨o, t, hnamei, hr⟩ := runs_bind.mp hr
  have h0 := h.namei hcwd hnamei
  cases o with
  | none =>
    obtain ⟨-, rfl⟩ := runs_pure.mp hr
    exact h0
  | some ip =>
    obtain ⟨_, t1, hlock, hr⟩ := runs_bind.mp hr
    obtain ⟨_, t2, hstat, hr⟩ := runs_bind.mp hr
    obtain ⟨_, t3, hput, hr⟩ := runs_bind.mp hr
    obtain ⟨-, rfl⟩ := runs_pure.mp hr
    have hquiet : Quiet (stati ip) := .get_bind fun _ =>
      .ite (quiet_pure _) (.ite (quiet_pure _) (.ite (quiet_pure _) (quiet_throw _)))
    exact ((h0.inodeLock bump_pos hlock).2.same (hquiet.same hstat)).unlockPut (by simp) hput

theorem execProgram {env : ExecEnv} {cwd : Ptr} {path : List UInt8} {r : Bool} (h : Refs σ n ∅ s)
    (hcwd : 0 < n cwd) (hr : Runs (execProgram sblock env cwd path) s r s') : Refs σ n ∅ s' := by
  obtain ⟨o, t, hnamei, hr⟩ := runs_bind.mp hr
  have h0 := h.namei hcwd hnamei
  cases o with
  | none =>
    obtain ⟨-, rfl⟩ := runs_pure.mp hr
    exact h0
  | some ip =>
    obtain ⟨_, t1, hlock, hr⟩ := runs_bind.mp hr
    obtain ⟨_, t2, hread, hr⟩ := runs_bind.mp hr
    obtain ⟨_, t3, hput, hr⟩ := runs_bind.mp hr
    obtain ⟨-, rfl⟩ := runs_pure.mp hr
    exact ((h0.inodeLock bump_pos hlock).2.same (same_execRead hread)).unlockPut (by simp) hput

end Refs

/-- An operation keeps what its body keeps. -/
theorem runs_inOp {α : Type} {x : M α} {a : α} (hr : Runs (inOp x) s a s') :
    ∃ t t', SameRefs s t ∧ Runs x t a t' ∧ SameRefs t' s' := by
  obtain ⟨_, t, hbegin, hr⟩ := runs_bind.mp hr
  obtain ⟨b, t', hx, hr⟩ := runs_bind.mp hr
  obtain ⟨_, t'', hend, hr⟩ := runs_bind.mp hr
  obtain ⟨rfl, rfl⟩ := runs_pure.mp hr
  exact ⟨t, t', quiet_cacheBeginOp.same hbegin, hx, quiet_cacheEndOp.same hend⟩

end FtosFfs.Fs
