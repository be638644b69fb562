import FtosFfs.Fs.Clear

/-! `inode_put`: when it frees the inode on disk, what it takes for the freeing to return, and what
it has done then. -/

namespace FtosFfs.Fs

open Lib Lib.Exec Cache

variable {s s' : State} {ctx : Bool} {p : Ptr} {n : Nat} {u : Unit} {E : Nat → InodeEntry}

/-- The entry of an inode that `inode_put` freed. -/
def freedEntry (e : InodeEntry) : InodeEntry := { cleared e with type := inodeInvalid }

/-- The object of an inode that `inode_put` freed. -/
def State.freedInode (s : State) (p : Ptr) : Inode :=
  { s.mem p with locked := false, valid := true, entry := freedEntry (s.loaded p) }

/-- The blocks that the freeing of inode `n` syncs: the bitmaps of its blocks, and twice the block
of its entry. -/
def freedRecord (e : InodeEntry) (d : Nat → BlockData) (n : Nat) : List Nat :=
  bitmapsOf (blocksOf e d) ++ [toBlockNo sblock n] ++ [toBlockNo sblock n]

/-- What the freeing of inode `n` has done when it returns. -/
structure FreeDone (ctx : Bool) (p : Ptr) (n : Nat) (E : Nat → InodeEntry) (s s' : State) :
    Prop where
  frame : OnBlocks (s.setInode p (s.freedInode p)) s'
  owned : BlocksOwned (Function.update E n (freedEntry (E n))) s'.disk
  same : ∀ c, ¬IsBitmap c → ¬IsInodes c → s'.disk c = s.disk c
  entries : ∀ m, IsInode m →
    diskEntry s'.disk m = if m = n then freedEntry (E n) else diskEntry s.disk m
  record : recordAll ctx s.ctx (freedRecord (E n) s.disk n) = some s'.ctx

/-- An inode without blocks leaves no references when it is no longer in use. -/
theorem ref_freed {d : Nat → BlockData} (hn : InUse E n) :
    ref (Function.update E n (freedEntry (E n))) d =
      ref (Function.update E n (cleared (E n))) d := by
  funext ⟨m, pl⟩
  by_cases hmn : m = n
  · subst hmn
    have hfree : ¬InUse (Function.update E m (freedEntry (E m))) m := by
      simp [InUse, freedEntry]
    have huse : InUse (Function.update E m (cleared (E m))) m := by
      refine ⟨hn.1, ?_⟩
      rw [Function.update_self]
      exact hn.2
    rw [ref_of_not_inUse hfree, ref_of_inUse huse, Function.update_self]
    cases pl <;> simp [blockOf, cleared, InodeEntry.addr]
  · rw [ref_update_ne hmn, ref_update_ne hmn]

/-- The entry that `inode_put` syncs last. -/
theorem runs_freeEnd (hv : (s.mem p).valid = true) :
    Runs (do
      modifyEntry p fun e => { e with type := inodeInvalid }
      inodeSync sblock ctx p true
      inodeUnlock p) s u s' ↔
      toBlockNo sblock (s.mem p).inodeNo ∉ s.held ∧ (s.mem p).locked = true ∧ 0 < (s.mem p).rc ∧
      ∃ c, recorded ctx s.ctx (toBlockNo sblock (s.mem p).inodeNo) = some c ∧ s' = { s with
        disk := storeEntry s.disk (s.mem p).inodeNo { (s.mem p).entry with type := inodeInvalid }
        ctx := c
        mem := Function.update s.mem p { s.mem p with
          locked := false, entry := { (s.mem p).entry with type := inodeInvalid } } } := by
  simp only [runs_bind, runs_modifyEntry, runs_inodeUnlock]
  constructor
  · rintro ⟨_, _, rfl, _, _, hsync, hk, hrc, rfl⟩
    rw [runs_inodeSync_write (by simpa using hv)] at hsync
    obtain ⟨hh, c, hc, rfl⟩ := hsync
    simp only [State.mem_setInode_same, State.held_setInode, State.ctx_setInode] at hh hc hk hrc
    refine ⟨hh, hk, hrc, c, hc, ?_⟩
    simp [State.setInode]
  · rintro ⟨hh, hk, hrc, c, hc, rfl⟩
    refine ⟨⟨⟩, _, rfl, ⟨⟩, _, (runs_inodeSync_write (by simpa using hv)).mpr ⟨?_, c, ?_, rfl⟩, ?_,
      ?_, ?_⟩ <;> simp [*, State.setInode]

/-- The state after the lock of `inode_put`, for the inode that it frees. -/
theorem lockedInode_inode (hno : (s.mem p).inodeNo = n) (hE : E n = s.loaded p) :
    ((s.setInode p (s.lockedInode p)).mem p).valid = true ∧
      ((s.setInode p (s.lockedInode p)).mem p).inodeNo = n ∧
      E n = ((s.setInode p (s.lockedInode p)).mem p).entry := by
  rw [State.mem_setInode_same]
  exact ⟨rfl, hno, hE⟩

theorem freeInode_spec (hno : (s.mem p).inodeNo = n) (hn : IsInode n) (hE : E n = s.loaded p)
    (ho : BlocksOwned E s.disk) (hr : Runs (freeInode sblock ctx p) s u s') :
    InUse E n ∧ 0 < (s.mem p).rc ∧ (s.mem p).locked = false ∧ FreeDone ctx p n E s s' := by
  unfold freeInode at hr
  simp only [runs_bind (x := inodeLock sblock p), runs_bind (x := inodeClear sblock ctx p),
    runs_inodeLock] at hr
  obtain ⟨_, _, ⟨hrc, hk, -, ht, rfl⟩, _, t, hclear, hend⟩ := hr
  have hu : InUse E n := ⟨hn, by rw [hE]; exact ht⟩
  obtain ⟨hv₁, hno₁, hE₁⟩ := lockedInode_inode hno hE
  have hc := inodeClear_spec hv₁ hno₁ hE₁ hu ho hclear
  have hinode := hc.frame.inode
  rw [State.mem_setInode_same] at hinode
  rw [runs_freeEnd (by rw [hinode]; rfl)] at hend
  obtain ⟨-, -, -, c, hrec, rfl⟩ := hend
  have hno₂ : (t.mem p).inodeNo = n := by rw [hinode]; exact hno
  have he : { (t.mem p).entry with type := inodeInvalid } = freedEntry (E n) := by
    rw [hinode]
    rfl
  rw [hno₂] at hrec
  simp only [hno₂, he]
  refine ⟨hu, hrc, hk, ?_⟩
  constructor
  case frame =>
    refine ⟨hc.frame.held, hc.frame.log, hc.frame.list, ?_, hc.frame.fresh, hc.frame.file,
      hc.frame.proc, fun hu => (sameData_storeEntry hn).usedExact (hc.frame.used hu)⟩
    simp only [hc.frame.mem, State.setInode, Function.update_self, Function.update_idem, hE,
      State.freedInode, State.lockedInode, hno]
  case owned =>
    refine BlocksOwned.resync (E := Function.update E n (freedEntry (E n))) ?_ (fun _ _ => .refl _)
      (sameData_storeEntry hn)
    exact hc.owned.congr (ref_freed hu) fun _ _ => rfl
  case same => exact fun b hb hi => (sameData_storeEntry hn b hi).trans (hc.same b hb hi)
  case entries =>
    intro m hm
    rw [diskEntry_storeEntry hn hm]
    split
    case isTrue => rfl
    case isFalse hmn => rw [hc.entries m hm, if_neg hmn, State.disk_setInode]
  case record =>
    have hrec₁ := hc.record
    simp only [State.ctx_setInode, State.disk_setInode] at hrec₁
    rw [freedRecord, recordAll_append, hrec₁, Option.bind_some, recordAll_cons, hrec]
    rfl

theorem freeInode_returns (hno : (s.mem p).inodeNo = n) (hE : E n = s.loaded p) (hn : InUse E n)
    (ho : BlocksOwned E s.disk) (hrc : 0 < (s.mem p).rc) (hk : (s.mem p).locked = false)
    (hheld : s.held = []) {c : OpContext}
    (hc : recordAll ctx s.ctx (freedRecord (E n) s.disk n) = some c) :
    ∃ s', Runs (freeInode sblock ctx p) s () s' := by
  rw [freedRecord, recordAll_append, Option.bind_eq_some_iff] at hc
  obtain ⟨c₁, hc₁, hc⟩ := hc
  obtain ⟨hv₁, hno₁, hE₁⟩ := lockedInode_inode hno hE
  obtain ⟨t, hclear⟩ := inodeClear_returns hv₁ hno₁ hE₁ hn ho hheld hc₁
  have hdone := inodeClear_spec hv₁ hno₁ hE₁ hn ho hclear
  have hinode := hdone.frame.inode
  rw [State.mem_setInode_same] at hinode
  have hct : t.ctx = c₁ := Option.some.inj (hdone.record.symm.trans hc₁)
  rw [recordAll_cons, Option.bind_eq_some_iff] at hc
  obtain ⟨c₂, hc₂, -⟩ := hc
  unfold freeInode
  simp only [runs_bind (x := inodeLock sblock p), runs_bind (x := inodeClear sblock ctx p),
    runs_inodeLock]
  refine ⟨_, ⟨⟩, _, ⟨hrc, hk, by simp [hheld], by rw [← hE]; exact hn.2, rfl⟩, ⟨⟩, t, hclear,
    (runs_freeEnd (by rw [hinode]; rfl)).mpr ⟨?_, ?_, ?_, c₂, ?_, rfl⟩⟩
  · rw [hdone.frame.held]
    simp [hheld]
  · rw [hinode]
    rfl
  · rw [hinode]
    exact hrc
  · rw [hinode, hct, show ({ s.lockedInode p with entry := cleared (E n) } : Inode).inodeNo = n
      from hno]
    exact hc₂

/-! ### The call -/

/-- The state after the reference at `p` is dropped. -/
def State.dropped (s : State) (p : Ptr) : State :=
  { s.setInode p { s.mem p with rc := (s.mem p).rc - 1 } with
    list := if (s.mem p).rc - 1 ≤ 0 then s.list.erase p else s.list }

@[simp] theorem State.mem_dropped_same :
    (s.dropped p).mem p = { s.mem p with rc := (s.mem p).rc - 1 } :=
  State.mem_setInode_same _

theorem State.mem_list_of_dropped {q : Ptr} (hq : q ∈ (s.dropped p).list) : q ∈ s.list := by
  unfold State.dropped at hq
  simp only at hq
  split at hq
  case isTrue => exact List.mem_of_mem_erase hq
  case isFalse => exact hq

theorem runs_inodePut :
    Runs (inodePut sblock ctx p) s u s' ↔
      if (s.mem p).isLast then ∃ t, Runs (freeInode sblock ctx p) s () t ∧ s' = t.dropped p
      else s' = s.dropped p := by
  simp only [inodePut, runs_bind, runs_get, runs_dropRef]
  constructor
  · rintro ⟨_, _, ⟨rfl, rfl⟩, _, t, hw, hd⟩
    rcases runs_when.mp hw with ⟨hl, hf⟩ | ⟨hl, rfl⟩
    · rw [if_pos hl]
      exact ⟨t, hf, hd⟩
    · rw [if_neg hl]
      exact hd
  · intro h
    split at h
    case isTrue hl =>
      obtain ⟨t, hf, hd⟩ := h
      exact ⟨s, s, ⟨rfl, rfl⟩, ⟨⟩, t, runs_when.mpr (.inl ⟨hl, hf⟩), hd⟩
    case isFalse hl => exact ⟨s, s, ⟨rfl, rfl⟩, ⟨⟩, s, runs_when.mpr (.inr ⟨hl, rfl⟩), h⟩

end FtosFfs.Fs
