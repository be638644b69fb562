import FtosFfs.Fs.Handles

/-! One process in `inode_put` for the last reference to an unlinked inode, and others that allocate
an inode, get it, and lock it.  Every region under the list lock, between `cache_acquire` and
`cache_release`, and the acquisition and release of an inode's lock is one step.  The contexts of the
processes, which only record block numbers, are left out. -/

namespace FtosFfs.Fs

open Lib Lib.Exec Cache

/-- The call of `inode_alloc`, or of `inode_alloc_group` for a group. -/
structure AllocCall where
  type : UInt16
  group : Option Nat
  valid : type ≠ inodeInvalid

/-- The inode numbers that the call looks at, in order.  For directories, `inode_alloc_group` returns
before it looks at any. -/
def AllocCall.order (c : AllocCall) : List Nat :=
  match c.group with
  | none => List.range' 1 sblock.numInodes
  | some gno =>
    if c.type = inodeDirectory then []
    else (List.range' gno (ngroups - gno)).flatMap fun g =>
      (List.range' 1 (ginodes sblock)).map fun ino => ino + g * (ninodes / ngroups)

/-- The place of an allocating process in its calls. -/
inductive AllocPc
  /-- The allocation looks at the inodes of the list. -/
  | scanning (todo : List Nat)
  /-- The allocation returned 0. -/
  | failed
  /-- The allocation returned `n`. -/
  | claimed (n : Nat)
  /-- `inode_get` returned `q`. -/
  | got (n : Nat) (q : Ptr)
  /-- `inode_lock` returned. -/
  | locked (n : Nat) (q : Ptr)
  /-- The assertion of `inode_lock` failed. -/
  | panicked
  deriving DecidableEq

/-- The place of the freeing process in `inode_put`. -/
inductive PutPc
  | decide
  | freeDirect (i : Nat)
  | freeTable
  | freeIndirect
  | syncCleared
  | syncInvalid
  | unlock
  | drop
  | done
  deriving DecidableEq

/-- The step of `inode_put` at `pc`. -/
def putStep (p : Ptr) : PutPc → M PutPc
  | .decide => do
    let ip := (← get).mem p
    if ip.isLast then
      inodeLock sblock p
      pure (.freeDirect 0)
    else
      dropRef p
      pure .done
  | .freeDirect i => do
    let entry := ((← get).mem p).entry
    freeAddr sblock false (entry.addr i)
    pure (if i + 1 < inodeNumDirect then .freeDirect (i + 1) else .freeTable)
  | .freeTable => do
    modifyEntry p fun e => { e with addrs := fun _ => 0 }
    let iaddr := ((← get).mem p).entry.indirect
    Exec.when (iaddr ≠ 0) do
      let block ← cacheAcquire iaddr.toNat
      (List.range inodeNumIndirect).forM fun i => freeAddr sblock false (getAddr block i)
      cacheRelease iaddr.toNat
    pure .freeIndirect
  | .freeIndirect => do
    let iaddr := ((← get).mem p).entry.indirect
    freeAddr sblock false iaddr
    modifyEntry p fun e => { e with indirect := 0 }
    pure .syncCleared
  | .syncCleared => do
    modifyEntry p fun e => { e with numBytes := 0 }
    inodeSync sblock false p true
    pure .syncInvalid
  | .syncInvalid => do
    modifyEntry p fun e => { e with type := inodeInvalid }
    inodeSync sblock false p true
    pure .unlock
  | .unlock => do
    inodeUnlock p
    pure .drop
  | .drop => do
    dropRef p
    pure .done
  | .done => throw .hang

/-- The step of an allocating process at `pc`. -/
def allocStep (c : AllocCall) : AllocPc → M AllocPc
  | .scanning [] => pure .failed
  | .scanning (ino :: todo) => do
    match ← claimInode sblock false c.type ino with
    | some n => pure (.claimed n)
    | none => pure (.scanning todo)
  | .claimed n => do
    let q ← inodeGet sblock n
    pure (.got n q)
  | .got n q => do
    inodeLock sblock q
    pure (.locked n q)
  | _ => throw .hang

structure Race where
  fs : State
  put : PutPc
  alloc : Nat → AllocPc

inductive RaceLabel
  | put
  | alloc (i : Nat)

/-- The freeing process at the inode `p` with number `n`, and the allocating processes with their
calls.  A failed assertion of `inode_lock` is a state of its own, and a process that waits for a lock
has no step. -/
def races (p : Ptr) (n : Nat) (calls : Nat → AllocCall) : Machine Race RaceLabel where
  init r := Handled r.fs ∧ p ∈ r.fs.list ∧ (r.fs.mem p).inodeNo = n ∧ (r.fs.mem p).rc = 1 ∧
    (diskEntry r.fs.disk n).numLinks = 0 ∧ r.put = .decide ∧
    ∀ i, r.alloc i = .scanning (calls i).order
  next r
    | .put =>
      match putStep p r.put r.fs with
      | .ok (pc, fs) => some { r with fs, put := pc }
      | .error _ => none
    | .alloc i =>
      match allocStep (calls i) (r.alloc i) r.fs with
      | .ok (pc, fs) => some { r with fs, alloc := Function.update r.alloc i pc }
      | .error .panic => some { r with alloc := Function.update r.alloc i .panicked }
      | .error _ => none

/-- No assertion of `inode_lock` has failed, and an inode that a process allocated and locked has the
entry that the allocation wrote to disk. -/
def NoCollision (calls : Nat → AllocCall) (r : Race) : Prop :=
  ∀ i, r.alloc i ≠ .panicked ∧ ∀ m q, r.alloc i = .locked m q →
    (r.fs.mem q).entry = newEntry (calls i).type ∧
    diskEntry r.fs.disk m = newEntry (calls i).type

/-- The freeing process has marked the inode invalid on disk, and its object is still in the list. -/
def PutPc.stale : PutPc → Prop
  | .unlock | .drop => True
  | _ => False

instance : (pc : PutPc) → Decidable pc.stale
  | .unlock | .drop => .isTrue trivial
  | .decide | .freeDirect _ | .freeTable | .freeIndirect | .syncCleared | .syncInvalid | .done =>
    .isFalse id

/-- No process gets the freed inode while its old object is still in the list. -/
def GetsNoStale (n : Nat) (r : Race) : RaceLabel → Prop
  | .put => True
  | .alloc i => r.alloc i = .claimed n → ¬r.put.stale

instance (n : Nat) (r : Race) : (a : RaceLabel) → Decidable (GetsNoStale n r a)
  | .put => .isTrue trivial
  | .alloc _ => inferInstanceAs (Decidable (_ → _))

/-! ### Invariant -/

variable {p q : Ptr} {N n m : Nat} {s s' : State} {r r' : Race} {calls : Nat → AllocCall}
  {c : AllocCall}

/-- The inode that an allocating process holds. -/
def AllocPc.number : AllocPc → Option Nat
  | .claimed n | .got n _ | .locked n _ => some n
  | _ => none

/-- The steps of `inode_put` from its lock on, before the inode is invalid on disk. -/
def PutPc.clearing : PutPc → Prop
  | .freeDirect _ | .freeTable | .freeIndirect | .syncCleared | .syncInvalid => True
  | _ => False

/-- The block numbers of the entry at `p`, once it is loaded, are those of data blocks. -/
def DataOnly (s : State) (p : Ptr) : Prop :=
  ∀ pl, blockOf (s.loaded p) s.disk pl ≠ 0 → IsData (blockOf (s.loaded p) s.disk pl)

/-- What holds of an allocating process: the inode it holds has the entry that it wrote, and no object
but a stale one until it gets one. -/
def AllocOk (p : Ptr) (s : State) (stale : Prop) (c : AllocCall) : AllocPc → Prop
  | .scanning todo => ∀ n ∈ todo, IsInode n
  | .failed => True
  | .claimed n => IsInode n ∧ diskEntry s.disk n = newEntry c.type ∧
      ∀ q ∈ s.list, (s.mem q).inodeNo = n → q = p ∧ stale
  | .got n q => diskEntry s.disk n = newEntry c.type ∧ q ∈ s.list ∧ (s.mem q).inodeNo = n ∧
      (s.mem q).valid = false ∧ (s.mem q).locked = false
  | .locked n q => diskEntry s.disk n = newEntry c.type ∧ q ∈ s.list ∧ (s.mem q).inodeNo = n ∧
      (s.mem q).entry = newEntry c.type
  | .panicked => False

/-- What holds in every state of the runs in which nobody gets a stale object. -/
structure RaceInv (p : Ptr) (N : Nat) (calls : Nat → AllocCall) (r : Race) : Prop where
  list : ListOk r.fs
  held : r.fs.held = []
  inUse : ∀ q ∈ r.fs.list, (q = p → ¬r.put.stale) →
    InUse (diskEntry r.fs.disk) (r.fs.mem q).inodeNo
  object : r.put ≠ .done →
    p ∈ r.fs.list ∧ (r.fs.mem p).inodeNo = N ∧ (r.fs.mem p).rc = 1
  data : ¬r.put.stale → r.put ≠ .done → DataOnly r.fs p
  loaded : r.put.clearing → (r.fs.mem p).valid = true ∧ (r.fs.mem p).entry.type ≠ inodeInvalid
  free : ¬r.put.stale → r.put ≠ .done → ∀ i, (r.alloc i).number ≠ some N
  other : r.put ≠ .done → ∀ i m q, r.alloc i = .got m q ∨ r.alloc i = .locked m q → m ≠ N
  alloc : ∀ i, AllocOk p r.fs r.put.stale (calls i) (r.alloc i)
  distinct : ∀ i j n, (r.alloc i).number = some n → (r.alloc j).number = some n → i = j

theorem RaceInv.noCollision (h : RaceInv p N calls r) : NoCollision calls r := by
  intro i
  have hi := h.alloc i
  refine ⟨fun hp => ?_, fun m q hl => ?_⟩
  · rw [hp] at hi
    exact hi
  · rw [hl] at hi
    exact ⟨hi.2.2.2, hi.1⟩

theorem AllocCall.isInode_order (c : AllocCall) : ∀ n ∈ c.order, IsInode n := by
  intro n hn
  unfold AllocCall.order at hn
  split at hn
  · have hn' : n ∈ List.range' 1 200 := hn
    rw [List.mem_range'_1] at hn'
    exact isInode_iff.mpr (by omega)
  · split at hn
    · cases hn
    · simp only [List.mem_flatMap, List.mem_map] at hn
      obtain ⟨g, hg, ino, hino, rfl⟩ := hn
      have hino' : ino ∈ List.range' 1 20 := hino
      rw [List.mem_range'_1] at hino' hg
      have hg' : g < 10 := by
        show g < ngroups
        omega
      show IsInode (ino + g * 20)
      exact isInode_iff.mpr (by omega)

/-! ### Steps of `inode_put` -/

/-- A free changes bitmaps only. -/
theorem freeAddr_frame {a : UInt32} {u : Unit} (ha : a.toNat ≠ 0 → IsData a.toNat)
    (hr : Runs (freeAddr sblock false a) s u s') :
    OnBlocks s s' ∧ ∀ c, ¬IsBitmap c → s'.disk c = s.disk c := by
  rcases runs_when.mp hr with ⟨hne, hfree⟩ | ⟨-, rfl⟩
  · obtain ⟨hob, hf⟩ := cacheFree_spec (ha fun h => hne (toNat_eq_zero.mp h)) hfree
    exact ⟨hob, hf.same⟩
  · exact ⟨.refl s, fun _ _ => rfl⟩

theorem freeAddrs_frame {a : Nat → UInt32} {l : List Nat} {u : Unit}
    (ha : ∀ i ∈ l, (a i).toNat ≠ 0 → IsData (a i).toNat)
    (hr : Runs (l.forM fun i => freeAddr sblock false (a i)) s u s') :
    OnBlocks s s' ∧ ∀ c, ¬IsBitmap c → s'.disk c = s.disk c := by
  induction l generalizing s with
  | nil =>
    obtain ⟨-, rfl⟩ := runs_pure.mp (show Runs (pure ()) s u s' from hr)
    exact ⟨.refl s, fun _ _ => rfl⟩
  | cons i l ih =>
    obtain ⟨_, t, hi, hr⟩ := runs_bind.mp
      (show Runs (freeAddr sblock false (a i) >>= fun _ => l.forM _) s u s' from hr)
    obtain ⟨hob, hsame⟩ := freeAddr_frame (ha i (by simp)) hi
    obtain ⟨hob', hsame'⟩ := ih (fun j hj => ha j (by simp [hj])) hr
    exact ⟨hob.trans hob', fun c hc => (hsame' c hc).trans (hsame c hc)⟩

/-- A step of the freeing process that is about the entry of its inode. -/
structure PutStep (p : Ptr) (s s' : State) (e' : InodeEntry) : Prop where
  frame : OnEntry p e' s s'
  entries : ∀ m, IsInode m → m ≠ (s.mem p).inodeNo → diskEntry s'.disk m = diskEntry s.disk m
  data : ∀ c, IsData c → s'.disk c = s.disk c

theorem frees_step {e' : InodeEntry} (hf : OnEntry p e' s s')
    (hsame : ∀ c, ¬IsBitmap c → s'.disk c = s.disk c) :
    PutStep p s s' e' ∧ ∀ m, IsInode m → diskEntry s'.disk m = diskEntry s.disk m := by
  have hentry (m : Nat) (hm : IsInode m) : diskEntry s'.disk m = diskEntry s.disk m := by
    rw [diskEntry, hsame _ (isInodes_toBlockNo hm).not_bitmap, diskEntry]
  exact ⟨⟨hf, fun m hm _ => hentry m hm, fun c hc => hsame c hc.not_bitmap⟩, hentry⟩

/-- The steps of `inode_clear` that free blocks. -/
theorem putStep_frees {pc pc' : PutPc} (hv : (s.mem p).valid = true) (hd : DataOnly s p)
    (hpc : pc = .freeTable ∨ pc = .freeIndirect ∨ ∃ i, pc = .freeDirect i)
    (hr : Runs (putStep p pc) s pc' s') :
    pc'.clearing ∧ ∃ e', PutStep p s s' e' ∧ e'.type = (s.mem p).entry.type ∧
      (∀ m, IsInode m → diskEntry s'.disk m = diskEntry s.disk m) ∧
      ∀ pl, blockOf e' s.disk pl = 0 ∨ blockOf e' s.disk pl = blockOf (s.mem p).entry s.disk pl := by
  have hloaded : s.loaded p = (s.mem p).entry := if_pos hv
  unfold DataOnly at hd
  rw [hloaded] at hd
  rcases hpc with rfl | rfl | ⟨i, rfl⟩
  · simp only [putStep, runs_bind, runs_modifyEntry, runs_get, runs_pure] at hr
    obtain ⟨_, _, rfl, _, _, ⟨rfl, rfl⟩, _, t, hw, rfl, rfl⟩ := hr
    rw [State.mem_setInode_same] at hw
    refine ⟨trivial, { (s.mem p).entry with addrs := fun _ => 0 }, ?_⟩
    have hblocks (pl : Place) : blockOf { (s.mem p).entry with addrs := fun _ => 0 } s.disk pl = 0 ∨
        blockOf { (s.mem p).entry with addrs := fun _ => 0 } s.disk pl =
          blockOf (s.mem p).entry s.disk pl := by
      cases pl with
      | direct i => exact .inl (by simp [blockOf, InodeEntry.addr])
      | table => exact .inr rfl
      | slot k => exact .inr rfl
    suffices h : OnBlocks (s.setInode p { s.mem p with
        entry := { (s.mem p).entry with addrs := fun _ => 0 } }) t ∧
        ∀ c, ¬IsBitmap c → t.disk c = s.disk c by
      have hst : PutStep p s t { (s.mem p).entry with addrs := fun _ => 0 } ∧
          ∀ m, IsInode m → diskEntry t.disk m = diskEntry s.disk m := frees_step h.1 h.2
      exact ⟨hst.1, rfl, hst.2, hblocks⟩
    rcases runs_when.mp hw with ⟨hne, hw⟩ | ⟨-, rfl⟩
    · simp only [runs_bind, runs_cacheAcquire, runs_cacheRelease] at hw
      obtain ⟨_, _, ⟨-, rfl, rfl⟩, _, t', hloop, rfl⟩ := hw
      have hslots : ∀ i ∈ List.range inodeNumIndirect,
          (getAddr (s.disk (s.mem p).entry.indirect.toNat) i).toNat ≠ 0 →
          IsData (getAddr (s.disk (s.mem p).entry.indirect.toNat) i).toNat := by
        intro i _ hi
        have := hd (.slot i)
        simp only [blockOf, hne, if_false] at this
        exact this hi
      obtain ⟨hob, hsame⟩ := freeAddrs_frame hslots hloop
      refine ⟨⟨?_, hob.log, hob.list, hob.mem, hob.fresh, hob.file, hob.proc, hob.used⟩, hsame⟩
      rw [hob.held, List.erase_cons_head]
    · exact ⟨.refl _, fun _ _ => rfl⟩
  · simp only [putStep, runs_bind, runs_get, runs_modifyEntry, runs_pure] at hr
    obtain ⟨_, _, ⟨rfl, rfl⟩, _, t, hfree, _, _, rfl, rfl, rfl⟩ := hr
    obtain ⟨hob, hsame⟩ := freeAddr_frame (hd .table) hfree
    have hframe : OnEntry p { (s.mem p).entry with indirect := 0 } s
        (t.setInode p { t.mem p with entry := { (t.mem p).entry with indirect := 0 } }) := by
      refine ⟨hob.held, hob.log, hob.list, ?_, hob.fresh, hob.file, hob.proc, hob.used⟩
      simp only [State.setInode, hob.mem]
    obtain ⟨hst, hent⟩ := frees_step hframe hsame
    refine ⟨trivial, _, hst, rfl, hent, fun pl => ?_⟩
    cases pl with
    | direct i => exact .inr rfl
    | table => exact .inl rfl
    | slot k => exact .inl (by simp [blockOf])
  · simp only [putStep, runs_bind, runs_get, runs_pure] at hr
    obtain ⟨_, _, ⟨rfl, rfl⟩, _, t, hfree, rfl, rfl⟩ := hr
    obtain ⟨hob, hsame⟩ := freeAddr_frame (hd (.direct i)) hfree
    obtain ⟨hst, hent⟩ := frees_step hob.onEntry hsame
    refine ⟨?_, _, hst, rfl, hent, fun pl => .inr rfl⟩
    split <;> trivial

/-- A step of `inode_put` that keeps the object in the list. -/
theorem RaceInv.put_step (h : RaceInv p N calls r) (hnd : r.put ≠ .done) {ip : Inode} {pc : PutPc}
    (hf : OnBlocks (r.fs.setInode p ip) s') (hno : ip.inodeNo = N) (hrc : ip.rc = 1)
    (hentries : ∀ m, IsInode m → m ≠ N → diskEntry s'.disk m = diskEntry r.fs.disk m)
    (hN : r.put.stale → diskEntry s'.disk N = diskEntry r.fs.disk N)
    (hstale : r.put.stale → pc.stale)
    (huse : ¬pc.stale → (diskEntry s'.disk N).type ≠ inodeInvalid) (hdata : ¬pc.stale → DataOnly s' p)
    (hload : pc.clearing → ip.valid = true ∧ ip.entry.type ≠ inodeInvalid) :
    RaceInv p N calls { r with fs := s', put := pc } := by
  obtain ⟨hp, hpn, -⟩ := h.object hnd
  have hlist : s'.list = r.fs.list := hf.list
  have hmem : s'.mem p = ip := by rw [hf.mem, State.mem_setInode_same]
  have hother (q : Ptr) (hq : q ≠ p) : s'.mem q = r.fs.mem q := by
    rw [hf.mem, State.mem_setInode_ne _ hq]
  have hnos (q : Ptr) : (s'.mem q).inodeNo = (r.fs.mem q).inodeNo := by
    by_cases hq : q = p
    · rw [hq, hmem, hno, hpn]
    · rw [hother q hq]
  -- Distinct objects are distinct inodes, so the entries of the others are untouched.
  have hentry (q : Ptr) (hq : q ∈ r.fs.list) (hqp : q ≠ p) :
      diskEntry s'.disk (r.fs.mem q).inodeNo = diskEntry r.fs.disk (r.fs.mem q).inodeNo := by
    refine hentries _ (h.list.isInode q hq) fun heq => hqp ?_
    exact h.list.inj q hq p hp (heq.trans hpn.symm)
  constructor
  case list =>
    constructor
    case nodup => rw [hlist]; exact h.list.nodup
    case fresh => rw [hlist, hf.fresh]; exact h.list.fresh
    case rc =>
      intro q hq
      rw [hlist] at hq
      by_cases hqp : q = p
      · simp [hqp, hmem, hrc]
      · simp only [hother q hqp]
        exact h.list.rc q hq
    case isInode =>
      intro q hq
      rw [hlist] at hq
      simp only [hnos]
      exact h.list.isInode q hq
    case inj =>
      intro q hq q' hq' heq
      rw [hlist] at hq hq'
      simp only [hnos] at heq
      exact h.list.inj q hq q' hq' heq
  case held => exact hf.held.trans h.held
  case inUse =>
    intro q hq hs
    rw [hlist] at hq
    simp only [hnos]
    by_cases hqp : q = p
    · subst hqp
      rw [hpn]
      exact ⟨hpn ▸ h.list.isInode q hp, huse (hs rfl)⟩
    · have hu := h.inUse q hq fun heq => absurd heq hqp
      refine ⟨hu.1, ?_⟩
      simp only [hentry q hq hqp]
      exact hu.2
  case object =>
    intro _
    refine ⟨by rw [hlist]; exact hp, by simp only [hmem, hno], by simp only [hmem, hrc]⟩
  case data => exact fun hs _ => hdata hs
  case loaded =>
    intro hc
    simp only [hmem]
    exact hload hc
  case free => exact fun hs _ => h.free (fun hs' => hs (hstale hs')) hnd
  case other => exact fun _ => h.other hnd
  case distinct => exact h.distinct
  case alloc =>
    intro i
    have hi := h.alloc i
    have hoth := h.other hnd i
    have hfree := h.free
    revert hi hoth hfree
    show AllocOk p r.fs r.put.stale (calls i) (r.alloc i) → _ → _ →
      AllocOk p s' pc.stale (calls i) (r.alloc i)
    cases hpci : r.alloc i with
    | scanning todo => exact fun hi _ _ => hi
    | failed => exact fun _ _ _ => trivial
    | panicked => exact fun hi _ _ => hi
    | claimed n =>
      rintro ⟨hn, he, hobj⟩ - hfree
      refine ⟨hn, ?_, fun q hq hqn => ?_⟩
      · by_cases hs : r.put.stale
        · by_cases hnN : n = N
          · rw [hnN, hN hs, ← hnN, he]
          · rw [hentries n hn hnN, he]
        · have hne := hfree hs hnd i
          rw [hpci] at hne
          rw [hentries n hn fun heq => hne (congrArg some heq), he]
      · rw [hlist] at hq
        rw [hnos] at hqn
        obtain ⟨rfl, hs⟩ := hobj q hq hqn
        exact ⟨rfl, hstale hs⟩
    | got n q =>
      rintro ⟨he, hq, hqn, hv, hk⟩ hoth -
      have hne : n ≠ N := hoth n q (.inl rfl)
      have hqp : q ≠ p := by
        rintro rfl
        exact hne (hqn.symm.trans hpn)
      refine ⟨?_, by rw [hlist]; exact hq, by rw [hnos, hqn], ?_⟩
      · rw [← hqn, hentry q hq hqp, hqn, he]
      · rw [hother q hqp]
        exact ⟨hv, hk⟩
    | locked n q =>
      rintro ⟨he, hq, hqn, hent⟩ hoth -
      have hne : n ≠ N := hoth n q (.inr rfl)
      have hqp : q ≠ p := by
        rintro rfl
        exact hne (hqn.symm.trans hpn)
      refine ⟨?_, by rw [hlist]; exact hq, by rw [hnos, hqn], by rw [hother q hqp, hent]⟩
      rw [← hqn, hentry q hq hqp, hqn, he]

/-- The last step of `inode_put`, after which the object is no longer in the list. -/
theorem RaceInv.put_drop (h : RaceInv p N calls r) (hnd : r.put ≠ .done) :
    RaceInv p N calls { r with fs := r.fs.dropped p, put := .done } := by
  obtain ⟨hp, hpn, hrc⟩ := h.object hnd
  have hlist : (r.fs.dropped p).list = r.fs.list.erase p := if_pos (by rw [hrc]; decide)
  have hsub (q : Ptr) (hq : q ∈ (r.fs.dropped p).list) :
      q ∈ r.fs.list ∧ q ≠ p ∧ (r.fs.dropped p).mem q = r.fs.mem q := by
    rw [hlist, h.list.nodup.mem_erase_iff] at hq
    exact ⟨hq.2, hq.1, State.mem_setInode_ne _ hq.1⟩
  have hkeep (q : Ptr) (hq : q ∈ r.fs.list) (hqp : q ≠ p) :
      q ∈ (r.fs.dropped p).list ∧ (r.fs.dropped p).mem q = r.fs.mem q := by
    rw [hlist, h.list.nodup.mem_erase_iff]
    exact ⟨⟨hqp, hq⟩, State.mem_setInode_ne _ hqp⟩
  constructor
  case list =>
    constructor
    case nodup => rw [hlist]; exact h.list.nodup.erase p
    case fresh => exact fun q hq => h.list.fresh q (hsub q hq).1
    case rc =>
      intro q hq
      simp only [(hsub q hq).2.2]
      exact h.list.rc q (hsub q hq).1
    case isInode =>
      intro q hq
      simp only [(hsub q hq).2.2]
      exact h.list.isInode q (hsub q hq).1
    case inj =>
      intro q hq q' hq' heq
      simp only [(hsub q hq).2.2, (hsub q' hq').2.2] at heq
      exact h.list.inj q (hsub q hq).1 q' (hsub q' hq').1 heq
  case held => exact h.held
  case inUse =>
    intro q hq _
    simp only [(hsub q hq).2.2]
    exact h.inUse q (hsub q hq).1 fun heq => absurd heq (hsub q hq).2.1
  case object => exact fun hne => absurd rfl hne
  case data => exact fun _ hne => absurd rfl hne
  case loaded => exact fun hc => hc.elim
  case free => exact fun _ hne => absurd rfl hne
  case other => exact fun hne => absurd rfl hne
  case distinct => exact h.distinct
  case alloc =>
    intro i
    have hi := h.alloc i
    have hoth := h.other hnd i
    revert hi hoth
    show AllocOk p r.fs r.put.stale (calls i) (r.alloc i) → _ →
      AllocOk p (r.fs.dropped p) _ (calls i) (r.alloc i)
    cases r.alloc i with
    | scanning todo => exact fun hi _ => hi
    | failed => exact fun _ _ => trivial
    | panicked => exact fun hi _ => hi
    | claimed n =>
      rintro ⟨hn, he, hobj⟩ -
      refine ⟨hn, he, fun q hq hqn => ?_⟩
      obtain ⟨hq', hqp, hm⟩ := hsub q hq
      rw [hm] at hqn
      exact absurd (hobj q hq' hqn).1 hqp
    | got n q =>
      rintro ⟨he, hq, hqn, hv, hk⟩ hoth
      have hqp : q ≠ p := by
        rintro rfl
        exact hoth n q (.inl rfl) (hqn.symm.trans hpn)
      obtain ⟨hq', hm⟩ := hkeep q hq hqp
      exact ⟨he, hq', by rw [hm, hqn], by rw [hm, hv], by rw [hm, hk]⟩
    | locked n q =>
      rintro ⟨he, hq, hqn, hent⟩ hoth
      have hqp : q ≠ p := by
        rintro rfl
        exact hoth n q (.inr rfl) (hqn.symm.trans hpn)
      obtain ⟨hq', hm⟩ := hkeep q hq hqp
      exact ⟨he, hq', by rw [hm, hqn], by rw [hm, hent]⟩

/-- The block numbers of an entry that lost some of its blocks. -/
theorem DataOnly.of_blocks {e' : InodeEntry} (hd : DataOnly s p) (hv : (s.mem p).valid = true)
    (hst : PutStep p s s' e')
    (hb : ∀ pl, blockOf e' s.disk pl = 0 ∨
      blockOf e' s.disk pl = blockOf (s.mem p).entry s.disk pl) : DataOnly s' p := by
  have hloaded : s.loaded p = (s.mem p).entry := if_pos hv
  have hloaded' : s'.loaded p = e' := by
    rw [State.loaded, hst.frame.inode]
    exact if_pos hv
  have hsame : blockOf e' s'.disk = blockOf e' s.disk := by
    refine blockOf_congr fun h0 => hst.data _ ?_
    have hne : blockOf e' s.disk .table ≠ 0 := fun hz => h0 (toNat_eq_zero.mp hz)
    have heq := (hb .table).resolve_left hne
    have ht := hd .table
    rw [hloaded, ← heq] at ht
    exact ht hne
  intro pl hne
  rw [hloaded', hsame] at hne ⊢
  have hp := hd pl
  rw [hloaded, ← (hb pl).resolve_left hne] at hp
  exact hp hne

/-- The store of an entry with the block numbers that it has. -/
theorem sync_step {e : InodeEntry} {u : Unit} (hv : (s.mem p).valid = true)
    (hn : IsInode (s.mem p).inodeNo)
    (hr : Runs (inodeSync sblock false p true) (s.setInode p { s.mem p with entry := e }) u s') :
    PutStep p s s' e ∧ diskEntry s'.disk (s.mem p).inodeNo = e := by
  rw [runs_inodeSync_write (by simpa using hv)] at hr
  obtain ⟨-, c, -, rfl⟩ := hr
  simp only [State.mem_setInode_same, State.disk_setInode]
  refine ⟨⟨⟨rfl, rfl, rfl, rfl, rfl, rfl, rfl, (sameData_storeEntry hn).usedExact⟩, ?_, ?_⟩, ?_⟩
  · intro m hm hmn
    exact (diskEntry_storeEntry hn hm).trans (if_neg hmn)
  · exact fun c hc => sameData_storeEntry hn c hc.not_inodes
  · exact (diskEntry_storeEntry hn hn).trans (if_pos rfl)

/-- A step of `inode_put` that changes the entry of its inode in memory or on disk. -/
theorem RaceInv.put_entry (h : RaceInv p N calls r) (hcl : r.put.clearing) {pc : PutPc}
    {e' : InodeEntry} (hst : PutStep p r.fs s' e')
    (huse : ¬pc.stale → (diskEntry s'.disk N).type ≠ inodeInvalid) (hdata : ¬pc.stale → DataOnly s' p)
    (htype : pc.clearing → e'.type ≠ inodeInvalid) :
    RaceInv p N calls { r with fs := s', put := pc } := by
  have hnd : r.put ≠ .done := by
    intro hd
    rw [hd] at hcl
    exact hcl
  have hns : ¬r.put.stale := by
    intro hs
    cases hp : r.put <;> rw [hp] at hcl hs <;> first | exact hcl | exact hs
  obtain ⟨-, hpn, hrc⟩ := h.object hnd
  refine h.put_step hnd hst.frame hpn hrc ?_ (fun hs => absurd hs hns) (fun hs => absurd hs hns) huse
    hdata fun hc => ⟨(h.loaded hcl).1, htype hc⟩
  exact fun m hm hmN => hst.entries m hm (by rw [hpn]; exact hmN)

theorem RaceInv.put (h : RaceInv p N calls r) {pc : PutPc}
    (hr : Runs (putStep p r.put) r.fs pc s') : RaceInv p N calls { r with fs := s', put := pc } := by
  cases hpc : r.put with
  | decide =>
    have hnd : r.put ≠ .done := by simp [hpc]
    have hns : ¬r.put.stale := by simp [hpc, PutPc.stale]
    obtain ⟨hp, hpn, hrc⟩ := h.object hnd
    rw [hpc] at hr
    simp only [putStep, runs_bind, runs_get] at hr
    obtain ⟨_, _, ⟨rfl, rfl⟩, hr⟩ := hr
    split at hr
    case isTrue =>
      simp only [runs_bind, runs_inodeLock, runs_pure] at hr
      obtain ⟨_, _, ⟨-, -, -, ht, rfl⟩, rfl, rfl⟩ := hr
      refine h.put_step hnd (.refl _) hpn hrc (fun _ _ _ => rfl) (fun hs => absurd hs hns)
        (fun hs => absurd hs hns) (fun _ => ?_) (fun _ => ?_) fun _ => ⟨rfl, ht⟩
      · rw [← hpn]
        exact (h.inUse p hp fun _ => hns).2
      · have hl : (r.fs.setInode p (r.fs.lockedInode p)).loaded p = r.fs.loaded p := by
          simp [State.loaded, State.lockedInode]
        have hd := h.data hns hnd
        unfold DataOnly at hd ⊢
        rw [hl]
        exact hd
    case isFalse =>
      simp only [runs_bind, runs_dropRef, runs_pure] at hr
      obtain ⟨_, _, rfl, rfl, rfl⟩ := hr
      exact h.put_drop hnd
  | freeDirect i | freeTable | freeIndirect =>
    have hnd : r.put ≠ .done := by simp [hpc]
    have hns : ¬r.put.stale := by simp [hpc, PutPc.stale]
    have hcl : r.put.clearing := by simp [hpc, PutPc.clearing]
    obtain ⟨hp, hpn, -⟩ := h.object hnd
    obtain ⟨hv, ht⟩ := h.loaded hcl
    obtain ⟨-, e', hst, htype, hent, hb⟩ := putStep_frees hv (h.data hns hnd) (by simp [hpc]) hr
    refine h.put_entry hcl hst (fun _ => ?_) (fun _ => (h.data hns hnd).of_blocks hv hst hb)
      fun _ => by rw [htype]; exact ht
    have hu := h.inUse p hp fun _ => hns
    rw [hpn] at hu
    rw [hent N hu.1]
    exact hu.2
  | syncCleared =>
    have hnd : r.put ≠ .done := by simp [hpc]
    have hns : ¬r.put.stale := by simp [hpc, PutPc.stale]
    have hcl : r.put.clearing := by simp [hpc, PutPc.clearing]
    obtain ⟨hp, hpn, -⟩ := h.object hnd
    obtain ⟨hv, ht⟩ := h.loaded hcl
    rw [hpc] at hr
    simp only [putStep, runs_bind, runs_modifyEntry, runs_pure] at hr
    obtain ⟨_, _, rfl, _, _, hsync, rfl, rfl⟩ := hr
    obtain ⟨hst, hent⟩ := sync_step hv (h.list.isInode p hp) hsync
    rw [hpn] at hent
    exact h.put_entry hcl hst (fun _ => by rw [hent]; exact ht)
      (fun _ => (h.data hns hnd).of_blocks hv hst fun pl => .inr (by cases pl <;> rfl)) fun _ => ht
  | syncInvalid =>
    have hnd : r.put ≠ .done := by simp [hpc]
    have hcl : r.put.clearing := by simp [hpc, PutPc.clearing]
    obtain ⟨hp, -, -⟩ := h.object hnd
    rw [hpc] at hr
    simp only [putStep, runs_bind, runs_modifyEntry, runs_pure] at hr
    obtain ⟨_, _, rfl, _, _, hsync, rfl, rfl⟩ := hr
    obtain ⟨hst, -⟩ := sync_step (h.loaded hcl).1 (h.list.isInode p hp) hsync
    exact h.put_entry hcl hst (fun hs => absurd trivial hs) (fun hs => absurd trivial hs)
      fun hc => hc.elim
  | unlock =>
    have hnd : r.put ≠ .done := by simp [hpc]
    obtain ⟨-, hpn, hrc⟩ := h.object hnd
    rw [hpc] at hr
    simp only [putStep, runs_bind, runs_inodeUnlock, runs_pure] at hr
    obtain ⟨_, _, ⟨-, -, rfl⟩, rfl, rfl⟩ := hr
    exact h.put_step hnd (.refl _) hpn hrc (fun _ _ _ => rfl) (fun _ => rfl) (fun _ => trivial)
      (fun hs => absurd trivial hs) (fun hs => absurd trivial hs) fun hc => hc.elim
  | drop =>
    have hnd : r.put ≠ .done := by simp [hpc]
    rw [hpc] at hr
    simp only [putStep, runs_bind, runs_dropRef, runs_pure] at hr
    obtain ⟨_, _, rfl, rfl, rfl⟩ := hr
    exact h.put_drop hnd
  | done =>
    rw [hpc] at hr
    exact absurd hr runs_throw

/-! ### Steps of the allocating processes -/

/-- A process looks on, or gives up. -/
theorem RaceInv.scan (h : RaceInv p N calls r) (i : Nat) {pc : AllocPc} (hnum : pc.number = none)
    (hok : AllocOk p r.fs r.put.stale (calls i) pc) (hpc : ∀ m q, pc ≠ .got m q ∧ pc ≠ .locked m q) :
    RaceInv p N calls { r with alloc := Function.update r.alloc i pc } := by
  refine ⟨h.list, h.held, h.inUse, h.object, h.data, h.loaded, ?_, ?_, ?_, ?_⟩
  · intro hs hnd j
    simp only [Function.update_apply]
    split
    · simp [hnum]
    · exact h.free hs hnd j
  · intro hnd j m q
    simp only [Function.update_apply]
    split
    · rintro (hj | hj)
      · exact absurd hj (hpc m q).1
      · exact absurd hj (hpc m q).2
    · exact h.other hnd j m q
  · intro j
    simp only [Function.update_apply]
    split
    case isTrue hj =>
      subst hj
      exact hok
    case isFalse => exact h.alloc j
  · intro j k n
    simp only [Function.update_apply]
    split
    · simp [hnum]
    · split
      · simp [hnum]
      · exact h.distinct j k n

/-- The inode of an allocating process. -/
theorem AllocOk.entry {stale : Prop} {pc : AllocPc} (h : AllocOk p s stale c pc) (hl : ListOk s)
    (hn : pc.number = some n) : IsInode n ∧ diskEntry s.disk n = newEntry c.type := by
  cases pc with
  | claimed m =>
    obtain rfl := Option.some.inj hn
    exact ⟨h.1, h.2.1⟩
  | got m q =>
    obtain rfl := Option.some.inj hn
    exact ⟨h.2.2.1 ▸ hl.isInode q h.2.1, h.1⟩
  | locked m q =>
    obtain rfl := Option.some.inj hn
    exact ⟨h.2.2.1 ▸ hl.isInode q h.2.1, h.1⟩
  | scanning todo => cases hn
  | failed => cases hn
  | panicked => cases hn

/-- A change of the disk that leaves the inode of an allocating process as it is. -/
theorem AllocOk.disk {stale : Prop} {pc : AllocPc} (h : AllocOk p s stale c pc)
    (hlist : s'.list = s.list) (hmem : s'.mem = s.mem)
    (hd : ∀ n, pc.number = some n → diskEntry s'.disk n = diskEntry s.disk n) :
    AllocOk p s' stale c pc := by
  cases pc with
  | scanning todo => exact h
  | failed => trivial
  | panicked => exact h
  | claimed n =>
    simp only [AllocOk, hlist, hmem, hd n rfl]
    exact h
  | got n q =>
    simp only [AllocOk, hlist, hmem, hd n rfl]
    exact h
  | locked n q =>
    simp only [AllocOk, hlist, hmem, hd n rfl]
    exact h

/-- A process allocates a free inode. -/
theorem RaceInv.claim (h : RaceInv p N calls r) {i : Nat}
    (hc : Claimed (calls i).type n r.fs s') (hnone : (r.alloc i).number = none) :
    RaceInv p N calls { r with fs := s', alloc := Function.update r.alloc i (.claimed n) } := by
  -- Nobody has the free inode, and no object but a stale one is about it.
  have hnobody (j : Nat) : (r.alloc j).number ≠ some n := by
    intro hj
    have he := ((h.alloc j).entry h.list hj).2
    have hf := hc.free
    rw [he] at hf
    exact (calls j).valid hf
  have hobj (q : Ptr) (hq : q ∈ r.fs.list) (hqn : (r.fs.mem q).inodeNo = n) : q = p ∧ r.put.stale := by
    by_contra hns
    have hu := h.inUse q hq fun hqp hs => hns ⟨hqp, hs⟩
    exact hu.2 (hqn ▸ hc.free)
  have hnN (hs : ¬r.put.stale) (hnd : r.put ≠ .done) : n ≠ N := by
    rintro rfl
    obtain ⟨hp, hpn, -⟩ := h.object hnd
    exact hs (hobj p hp hpn).2
  have hentry (m : Nat) (hm : IsInode m) := hc.entries hm
  constructor
  case list =>
    obtain ⟨h1, h2, h3, h4, h5⟩ := h.list
    rw [← hc.frame.list, ← hc.frame.mem] at *
    rw [← hc.frame.fresh] at h2
    exact ⟨h1, h2, h3, h4, h5⟩
  case held => exact hc.frame.held.trans h.held
  case inUse =>
    intro q hq hs
    rw [hc.frame.list] at hq
    simp only [hc.frame.mem]
    have hu := h.inUse q hq hs
    refine ⟨hu.1, ?_⟩
    simp only [hentry _ hu.1]
    split
    · exact (calls i).valid
    · exact hu.2
  case object =>
    intro hnd
    simp only [hc.frame.list, hc.frame.mem]
    exact h.object hnd
  case data =>
    intro hs hnd pl hne
    obtain ⟨hp, hpn, -⟩ := h.object hnd
    have hloaded : s'.loaded p = r.fs.loaded p := by
      simp only [State.loaded, hc.frame.mem, hpn]
      rw [hentry N (hpn ▸ h.list.isInode p hp), if_neg (hnN hs hnd).symm]
    have hd := h.data hs hnd
    have hblocks : blockOf (r.fs.loaded p) s'.disk = blockOf (r.fs.loaded p) r.fs.disk := by
      refine blockOf_congr fun h0 => hc.sameData _ ?_
      exact (hd .table fun hz => h0 (toNat_eq_zero.mp hz)).not_inodes
    simp only [hloaded, hblocks] at hne ⊢
    exact hd pl hne
  case loaded =>
    intro hcl
    simp only [hc.frame.mem]
    exact h.loaded hcl
  case free =>
    intro hs hnd j
    simp only [Function.update_apply]
    split
    · exact fun heq => hnN hs hnd (Option.some.inj heq)
    · exact h.free hs hnd j
  case other =>
    intro hnd j m q
    simp only [Function.update_apply]
    split
    · simp
    · exact h.other hnd j m q
  case alloc =>
    intro j
    simp only [Function.update_apply]
    split
    case isTrue hj =>
      subst hj
      refine ⟨hc.isInode, ?_, fun q hq hqn => ?_⟩
      · rw [hentry n hc.isInode, if_pos rfl]
      · rw [hc.frame.list] at hq
        rw [hc.frame.mem] at hqn
        exact hobj q hq hqn
    case isFalse =>
      refine (h.alloc j).disk hc.frame.list hc.frame.mem fun m hm => ?_
      have hne : m ≠ n := by
        rintro rfl
        exact hnobody j hm
      rw [hentry m ((h.alloc j).entry h.list hm).1, if_neg hne]
  case distinct =>
    intro j k m
    simp only [Function.update_apply]
    split
    case isTrue hj =>
      split
      case isTrue hk => exact fun _ _ => hj.trans hk.symm
      case isFalse =>
        intro hm hkm
        obtain rfl := Option.some.inj hm
        exact absurd hkm (hnobody k)
    case isFalse =>
      split
      case isTrue =>
        intro hjm hm
        obtain rfl := Option.some.inj hm
        exact absurd hjm (hnobody j)
      case isFalse => exact h.distinct j k m

/-- A process gets the inode that it allocated, for which the list has no object. -/
theorem RaceInv.getInode (h : RaceInv p N calls r) {i : Nat} (hi : r.alloc i = .claimed n)
    (hcond : n = N → ¬r.put.stale) (hr : Runs (inodeGet sblock n) r.fs q s') :
    RaceInv p N calls { r with fs := s', alloc := Function.update r.alloc i (.got n q) } := by
  have hok := h.alloc i
  rw [hi] at hok
  obtain ⟨hn, he, hobj⟩ := hok
  have hnum : (r.alloc i).number = some n := by rw [hi]; rfl
  have hnN (hnd : r.put ≠ .done) : n ≠ N := by
    intro hnN
    have hne := h.free (hcond hnN) hnd i
    rw [hnum] at hne
    exact hne (congrArg some hnN)
  have hno : ∀ q ∈ r.fs.list, (r.fs.mem q).inodeNo ≠ n := by
    intro q hq hqn
    obtain ⟨rfl, hs⟩ := hobj q hq hqn
    have hnd : r.put ≠ .done := by
      intro hd
      rw [hd] at hs
      exact hs
    exact hnN hnd (hqn.symm.trans (h.object hnd).2.1)
  obtain ⟨-, ⟨hq, hqn, -⟩ | ⟨-, rfl, rfl⟩⟩ := (runs_inodeGet h.list).mp hr
  · exact absurd hqn (hno q hq)
  have hnew : Function.update r.fs.mem r.fs.fresh (r.fs.newInode n) r.fs.fresh =
      r.fs.newInode n := Function.update_self ..
  have hold (q : Ptr) (hq : q ∈ r.fs.list) :
      Function.update r.fs.mem r.fs.fresh (r.fs.newInode n) q = r.fs.mem q :=
    Function.update_of_ne (Nat.ne_of_lt (h.list.fresh q hq)) ..
  have hpold (hnd : r.put ≠ .done) := hold p (h.object hnd).1
  have hclnd (hcl : r.put.clearing) : r.put ≠ .done := by
    intro hd
    rw [hd] at hcl
    exact hcl
  constructor
  case list => exact h.list.cons hn hno
  case held => exact h.held
  case inUse =>
    intro q hq hs
    rcases List.mem_cons.mp hq with rfl | hq
    · simp only [hnew]
      refine ⟨hn, ?_⟩
      show (diskEntry r.fs.disk n).type ≠ inodeInvalid
      rw [he]
      exact (calls i).valid
    · simp only [hold q hq]
      exact h.inUse q hq hs
  case object =>
    intro hnd
    simp only [hpold hnd]
    obtain ⟨hp, hrest⟩ := h.object hnd
    exact ⟨by simp [hp], hrest⟩
  case data =>
    intro hs hnd
    have hd := h.data hs hnd
    unfold DataOnly State.loaded at hd ⊢
    simp only [hpold hnd]
    exact hd
  case loaded =>
    intro hcl
    simp only [hpold (hclnd hcl)]
    exact h.loaded hcl
  case free =>
    intro hs hnd j
    simp only [Function.update_apply]
    split
    · exact fun heq => hnN hnd (Option.some.inj heq)
    · exact h.free hs hnd j
  case other =>
    intro hnd j m q
    simp only [Function.update_apply]
    split
    · rintro (heq | heq)
      · obtain ⟨rfl, -⟩ := AllocPc.got.inj heq
        exact hnN hnd
      · cases heq
    · exact h.other hnd j m q
  case alloc =>
    intro j
    simp only [Function.update_apply]
    split
    case isTrue hj =>
      subst hj
      refine ⟨he, by simp, ?_, ?_, ?_⟩ <;> simp [State.newInode]
    case isFalse hj =>
      have hjok := h.alloc j
      have hdist := h.distinct j i
      revert hjok hdist
      cases r.alloc j with
      | scanning todo => exact fun hjok _ => hjok
      | failed => exact fun _ _ => trivial
      | panicked => exact fun hjok _ => hjok
      | claimed m =>
        rintro ⟨hm, hme, hmobj⟩ hdist
        refine ⟨hm, hme, fun q hq hqm => ?_⟩
        rcases List.mem_cons.mp hq with rfl | hq
        · simp only [hnew] at hqm
          have hnm : n = m := hqm
          exact absurd (hdist n (by rw [hnm]; rfl) hnum) hj
        · simp only [hold q hq] at hqm
          exact hmobj q hq hqm
      | got m q =>
        rintro ⟨hme, hq, hqm, hv, hk⟩ -
        refine ⟨hme, List.mem_cons_of_mem _ hq, ?_, ?_, ?_⟩ <;> simp only [hold q hq] <;> assumption
      | locked m q =>
        rintro ⟨hme, hq, hqm, hent⟩ -
        refine ⟨hme, List.mem_cons_of_mem _ hq, ?_, ?_⟩ <;> simp only [hold q hq] <;> assumption
  case distinct =>
    intro j k m
    simp only [Function.update_apply]
    split
    case isTrue hj =>
      split
      case isTrue hk => exact fun _ _ => hj.trans hk.symm
      case isFalse =>
        intro hm hkm
        obtain rfl := Option.some.inj hm
        exact hj.trans (h.distinct i k n hnum hkm)
    case isFalse =>
      split
      case isTrue hk =>
        intro hjm hm
        obtain rfl := Option.some.inj hm
        exact (h.distinct j i n hjm hnum).trans hk.symm
      case isFalse => exact h.distinct j k m

/-- The lock of an inode that a process got: it loads the entry that the process wrote. -/
theorem RaceInv.runs_lock (h : RaceInv p N calls r) {i : Nat} (hi : r.alloc i = .got n q) :
    Runs (inodeLock sblock q) r.fs () (r.fs.setInode q (r.fs.lockedInode q)) ∧
      r.fs.loaded q = newEntry (calls i).type := by
  have hok := h.alloc i
  rw [hi] at hok
  obtain ⟨he, hq, hqn, hv, hk⟩ := hok
  have hloaded : r.fs.loaded q = newEntry (calls i).type := by
    rw [State.loaded, if_neg (by simp [hv]), hqn, he]
  refine ⟨runs_inodeLock.mpr ⟨h.list.rc q hq, hk, by simp [h.held], ?_, rfl⟩, hloaded⟩
  rw [hloaded]
  exact (calls i).valid

theorem RaceInv.lockInode (h : RaceInv p N calls r) {i : Nat} (hi : r.alloc i = .got n q) :
    RaceInv p N calls { r with
      fs := r.fs.setInode q (r.fs.lockedInode q)
      alloc := Function.update r.alloc i (.locked n q) } := by
  have hok := h.alloc i
  rw [hi] at hok
  obtain ⟨he, hq, hqn, -, -⟩ := hok
  have hloaded := (h.runs_lock hi).2
  have hnum : (r.alloc i).number = some n := by rw [hi]; rfl
  have hnos (q' : Ptr) : ((r.fs.setInode q (r.fs.lockedInode q)).mem q').inodeNo =
      (r.fs.mem q').inodeNo := by
    by_cases hqq : q' = q
    · rw [hqq, State.mem_setInode_same]
      rfl
    · rw [State.mem_setInode_ne _ hqq]
  have hqp (hnd : r.put ≠ .done) : p ≠ q := by
    rintro rfl
    exact h.other hnd i n p (.inl hi) (hqn.symm.trans (h.object hnd).2.1)
  have hp (hnd : r.put ≠ .done) : (r.fs.setInode q (r.fs.lockedInode q)).mem p = r.fs.mem p :=
    State.mem_setInode_ne _ (hqp hnd)
  have hclnd (hcl : r.put.clearing) : r.put ≠ .done := by
    intro hd
    rw [hd] at hcl
    exact hcl
  constructor
  case list =>
    refine ⟨h.list.nodup, h.list.fresh, fun q' hq' => ?_, fun q' hq' => ?_, fun a ha b hb hab => ?_⟩
    · by_cases hqq : q' = q
      · simp only [hqq, State.mem_setInode_same]
        exact h.list.rc q hq
      · simp only [State.mem_setInode_ne _ hqq]
        exact h.list.rc q' hq'
    · simp only [hnos]
      exact h.list.isInode q' hq'
    · simp only [hnos] at hab
      exact h.list.inj a ha b hb hab
  case held => exact h.held
  case inUse =>
    intro q' hq' hs
    simp only [hnos]
    exact h.inUse q' hq' hs
  case object =>
    intro hnd
    simp only [hp hnd]
    exact h.object hnd
  case data =>
    intro hs hnd
    have hd := h.data hs hnd
    unfold DataOnly State.loaded at hd ⊢
    simp only [hp hnd]
    exact hd
  case loaded =>
    intro hcl
    simp only [hp (hclnd hcl)]
    exact h.loaded hcl
  case free =>
    intro hs hnd j
    have hj := h.free hs hnd i
    rw [hnum] at hj
    simp only [Function.update_apply]
    split
    · exact hj
    · exact h.free hs hnd j
  case other =>
    intro hnd j m q'
    simp only [Function.update_apply]
    split
    · rintro (heq | heq)
      · cases heq
      · obtain ⟨rfl, -⟩ := AllocPc.locked.inj heq
        exact h.other hnd i n q (.inl hi)
    · exact h.other hnd j m q'
  case alloc =>
    intro j
    simp only [Function.update_apply]
    split
    case isTrue hj =>
      subst hj
      refine ⟨he, hq, by rw [hnos, hqn], ?_⟩
      rw [State.mem_setInode_same]
      exact hloaded
    case isFalse hj =>
      have hjok := h.alloc j
      have hdist := h.distinct j i
      revert hjok hdist
      cases r.alloc j with
      | scanning todo => exact fun hjok _ => hjok
      | failed => exact fun _ _ => trivial
      | panicked => exact fun hjok _ => hjok
      | claimed m =>
        rintro ⟨hm, hme, hmobj⟩ -
        refine ⟨hm, hme, fun q' hq' hqm => ?_⟩
        rw [hnos] at hqm
        exact hmobj q' hq' hqm
      | got m q' =>
        rintro ⟨hme, hq', hqm, hv, hk⟩ hdist
        have hqq : q' ≠ q := by
          rintro rfl
          exact hj (hdist n (by rw [← hqn, hqm]; rfl) hnum)
        rw [AllocOk, State.mem_setInode_ne _ hqq]
        exact ⟨hme, hq', hqm, hv, hk⟩
      | locked m q' =>
        rintro ⟨hme, hq', hqm, hent⟩ hdist
        have hqq : q' ≠ q := by
          rintro rfl
          exact hj (hdist n (by rw [← hqn, hqm]; rfl) hnum)
        rw [AllocOk, State.mem_setInode_ne _ hqq]
        exact ⟨hme, hq', hqm, hent⟩
  case distinct =>
    intro j k m
    have hsame (k : Nat) : (Function.update r.alloc i (.locked n q) k).number =
        (r.alloc k).number := by
      rw [Function.update_apply]
      split
      case isTrue hk => rw [hk, hnum]; rfl
      case isFalse => rfl
    simp only [hsame]
    exact h.distinct j k m

/-! ### Runs -/

theorem claimInode_returns (type : UInt16) (n : Nat) (hheld : s.held = []) :
    ∃ found s', Runs (claimInode sblock false type n) s found s' := by
  have hacquire : Runs (cacheAcquire (toBlockNo sblock n)) s (s.disk (toBlockNo sblock n))
      { s with held := toBlockNo sblock n :: s.held } :=
    runs_cacheAcquire.mpr ⟨by simp [hheld], rfl, rfl⟩
  suffices h : ∃ found s', Runs (if (getEntry (s.disk (toBlockNo sblock n))
      (n % inodePerBlock)).type = inodeInvalid then do
        writeBack false (toBlockNo sblock n) (setEntry (s.disk (toBlockNo sblock n))
          (n % inodePerBlock) { InodeEntry.zero with type })
        pure (some n)
      else do
        cacheRelease (toBlockNo sblock n)
        pure none) { s with held := toBlockNo sblock n :: s.held } found s' by
    obtain ⟨found, s', hr⟩ := h
    exact ⟨found, s', runs_bind.mpr ⟨_, _, hacquire, hr⟩⟩
  split
  case isTrue =>
    exact ⟨some n, _, runs_bind.mpr ⟨(), _, runs_writeBack.mpr ⟨_, rfl, rfl⟩,
      runs_pure.mpr ⟨rfl, rfl⟩⟩⟩
  case isFalse =>
    exact ⟨none, _, runs_bind.mpr ⟨(), _, runs_cacheRelease.mpr rfl, runs_pure.mpr ⟨rfl, rfl⟩⟩⟩

theorem inodeGet_returns (hl : ListOk s) (hn : IsInode n) :
    ∃ q s', Runs (inodeGet sblock n) s q s' := by
  by_cases hq : ∃ q ∈ s.list, (s.mem q).inodeNo = n
  · obtain ⟨q, hq, hqn⟩ := hq
    exact ⟨q, _, (runs_inodeGet hl).mpr ⟨hn, .inl ⟨hq, hqn, rfl⟩⟩⟩
  · refine ⟨s.fresh, _, (runs_inodeGet hl).mpr ⟨hn, .inr ⟨fun q hq' hqn => ?_, rfl, rfl⟩⟩⟩
    exact hq ⟨q, hq', hqn⟩

theorem RaceInv.init (h : (races p N calls).init r) : RaceInv p N calls r := by
  obtain ⟨hh, hp, hpn, hrc, -, hput, halloc⟩ := h
  have hns : ¬r.put.stale := by simp [hput, PutPc.stale]
  constructor
  case list => exact hh.cached.list
  case held => exact hh.cached.held
  case inUse => exact fun q hq _ => hh.inUse q hq
  case object => exact fun _ => ⟨hp, hpn, hrc⟩
  case data =>
    intro _ _ pl hne
    rw [hh.loaded hp] at hne ⊢
    exact hh.cached.owned.isData pl (hh.inUse p hp) hne
  case loaded =>
    intro hc
    rw [hput] at hc
    exact hc.elim
  case free => simp [halloc, AllocPc.number]
  case other => simp [halloc]
  case alloc =>
    intro i
    rw [halloc i]
    exact (calls i).isInode_order
  case distinct => simp [halloc, AllocPc.number]

/-- A step of an allocating process in which it does not get a stale object. -/
theorem RaceInv.allocStep {i : Nat} (h : RaceInv p N calls r) (hC : GetsNoStale N r (.alloc i))
    (hn : (races p N calls).next r (.alloc i) = some r') : RaceInv p N calls r' := by
  simp only [races] at hn
  cases hpc : r.alloc i with
  | scanning todo =>
    rw [hpc] at hn
    have hok := h.alloc i
    rw [hpc] at hok
    cases todo with
    | nil =>
      obtain rfl := Option.some.inj hn
      exact h.scan i rfl trivial (by simp)
    | cons ino todo =>
      obtain ⟨found, s', hrun⟩ := claimInode_returns (calls i).type ino h.held
      have hspec := claimInode_spec (hok ino (by simp)) hrun
      cases found with
      | none =>
        have hstep : Fs.allocStep (calls i) (.scanning (ino :: todo)) r.fs =
            .ok (.scanning todo, s') :=
          show Runs (Fs.allocStep (calls i) (.scanning (ino :: todo))) r.fs _ _ from
            runs_bind.mpr ⟨none, s', hrun, runs_pure.mpr ⟨rfl, rfl⟩⟩
        obtain rfl : s' = r.fs := hspec
        rw [hstep] at hn
        obtain rfl := Option.some.inj hn
        exact h.scan i rfl (fun n hn => hok n (by simp [hn])) (by simp)
      | some n =>
        have hstep : Fs.allocStep (calls i) (.scanning (ino :: todo)) r.fs = .ok (.claimed n, s') :=
          show Runs (Fs.allocStep (calls i) (.scanning (ino :: todo))) r.fs _ _ from
            runs_bind.mpr ⟨some n, s', hrun, runs_pure.mpr ⟨rfl, rfl⟩⟩
        obtain ⟨rfl, hc⟩ := hspec
        rw [hstep] at hn
        obtain rfl := Option.some.inj hn
        exact h.claim hc (by rw [hpc]; rfl)
  | claimed n =>
    have hok := h.alloc i
    rw [hpc] at hok
    obtain ⟨q, s', hrun⟩ := inodeGet_returns h.list hok.1
    have hstep : Fs.allocStep (calls i) (.claimed n) r.fs = .ok (.got n q, s') :=
      show Runs (Fs.allocStep (calls i) (.claimed n)) r.fs _ _ from
        runs_bind.mpr ⟨q, s', hrun, runs_pure.mpr ⟨rfl, rfl⟩⟩
    rw [hpc, hstep] at hn
    obtain rfl := Option.some.inj hn
    refine h.getInode hpc ?_ hrun
    rintro rfl
    exact hC hpc
  | got n q =>
    obtain ⟨hrun, -⟩ := h.runs_lock hpc
    have hstep : Fs.allocStep (calls i) (.got n q) r.fs =
        .ok (.locked n q, r.fs.setInode q (r.fs.lockedInode q)) :=
      show Runs (Fs.allocStep (calls i) (.got n q)) r.fs _ _ from
        runs_bind.mpr ⟨(), _, hrun, runs_pure.mpr ⟨rfl, rfl⟩⟩
    rw [hpc, hstep] at hn
    obtain rfl := Option.some.inj hn
    exact h.lockInode hpc
  | failed | locked | panicked =>
    rw [hpc] at hn
    cases hn

/-- In every run in which no process gets the freed inode between the store of its invalid entry and
the removal of its object from the list, the allocated inodes are locked with the entries that were
written for them, and no assertion of `inode_lock` fails. -/
theorem races_no_collision
    (hr : (races p N calls).ReachableUnder (GetsNoStale N) r) : NoCollision calls r := by
  refine RaceInv.noCollision (p := p) (N := N) (hr.invariant (fun r => RaceInv.init) ?_)
  intro r a r' h hC hn
  cases a with
  | put =>
    simp only [races] at hn
    split at hn
    case h_1 pc s' hstep =>
      obtain rfl := Option.some.inj hn
      exact h.put hstep
    case h_2 => cases hn
  | alloc i => exact h.allocStep hC hn

/-! ### The collision -/

/-- The race for inode 2: its last reference is put while all others allocate a regular file. -/
def unlinkedRace : Race :=
  ⟨firstHandle unlinkedImage 2 .zero, .decide, fun _ => .scanning (List.range' 1 sblock.numInodes)⟩

def regularCall : AllocCall := ⟨inodeRegular, none, by decide⟩

theorem init_unlinkedRace : (races 0 2 fun _ => regularCall).init unlinkedRace := by
  have hu : InUse (diskEntry unlinkedImage) 2 := ⟨isInode_two, by decide +kernel⟩
  refine ⟨handles_handled unlinkedImage_owned (reachable_firstHandle unlinkedImage_owned hu _), ?_, rfl,
    rfl, by decide +kernel, rfl, fun _ => rfl⟩
  exact List.mem_singleton.mpr rfl

/-- A process allocates inode 2 and gets its stale object between the store of the invalid entry and
the removal of the object: the assertion of its `inode_lock` fails. -/
theorem races_collision : ∃ r, (races 0 2 fun _ => regularCall).Reachable r ∧
    ¬NoCollision (fun _ => regularCall) r := by
  have hrun : ((races 0 2 fun _ => regularCall).run unlinkedRace
      (List.replicate 17 .put ++ [.alloc 0, .alloc 0, .alloc 0, .put, .put, .alloc 0])).map
      (fun r => decide (r.alloc 0 = .panicked)) = some true := by decide +kernel
  obtain ⟨r, hr, hp⟩ := Machine.Reachable.of_run init_unlinkedRace hrun
  exact ⟨r, hr, fun h => (h 0).1 (of_decide_eq_true hp)⟩

/-- The same process after `inode_put` is done: it gets a new object for inode 2. -/
theorem races_no_collision_after : ∃ r,
    (races 0 2 fun _ => regularCall).ReachableUnder (GetsNoStale 2) r ∧
    r.alloc 0 = .locked 2 1 ∧ (r.fs.mem 1).entry = newEntry inodeRegular := by
  have hrun : ((races 0 2 fun _ => regularCall).runUnder (GetsNoStale 2) unlinkedRace
      (List.replicate 19 .put ++ List.replicate 4 (.alloc 0))).map
      (fun r => decide (r.alloc 0 = .locked 2 1)) = some true := by decide +kernel
  obtain ⟨r, hr, hp⟩ := Option.map_eq_some_iff.mp hrun
  have hreach := Machine.ReachableUnder.runUnder (.init init_unlinkedRace) hr
  have hlocked := of_decide_eq_true hp
  exact ⟨r, hreach, hlocked, ((races_no_collision hreach 0).2 2 1 hlocked).1⟩

end FtosFfs.Fs
