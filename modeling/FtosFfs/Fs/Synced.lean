import FtosFfs.Fs.Groups
import Mathlib.Data.List.Find

/-! The blocks that a call syncs: the same call with the null context, which records nothing, decides
the result and the blocks, and with a context the call returns exactly if they can be recorded. -/

namespace FtosFfs.Fs

open Lib Lib.Exec Cache

variable {α β : Type} {s t u : State} {a : α} {b : β} {l m : List Nat} {p : Ptr} {n g k : Nat}

/-- From `s`, the call returns `a` in `t` after it synced the blocks `l`, in this order; with a
context it records them, and fails in `cache_sync` if they are too many. -/
structure Syncs (x : Bool → M α) (s : State) (a : α) (t : State) (l : List Nat) : Prop where
  plain : Runs (x false) s a t
  logged : ∀ c, x true { s with ctx := c } = match recordAll true c l with
    | some c' => .ok (a, { t with ctx := c' })
    | none => .error .overflow

namespace Syncs

/-- What the call does in its state. -/
theorem eq {x : Bool → M α} (h : Syncs x s a t l) : x true s = match recordAll true s.ctx l with
    | some c' => .ok (a, { t with ctx := c' })
    | none => .error .overflow :=
  h.logged s.ctx

theorem runs {x : Bool → M α} (h : Syncs x s a t l) {c : OpContext}
    (hc : recordAll true s.ctx l = some c) : Runs (x true) s a { t with ctx := c } := by
  unfold Runs
  rw [h.eq, hc]

/-- A call that syncs too many blocks fails. -/
theorem eq_overflow {x : Bool → M α} (h : Syncs x s a t l)
    (hc : recordAll true s.ctx l = none) : x true s = .error .overflow := by
  rw [h.eq, hc]

/-- A call that records nothing and does not look at the record. -/
theorem silent {x : M α} (h : ∀ c, Runs x { s with ctx := c } a { t with ctx := c })
    (hctx : t.ctx = s.ctx) : Syncs (fun _ => x) s a t [] := by
  constructor
  · have hs := h s.ctx
    rwa [show ({ t with ctx := s.ctx } : State) = t by rw [← hctx]] at hs
  · exact fun c => h c

theorem pure (a : α) (s : State) : Syncs (fun _ => Pure.pure a) s a s [] :=
  silent (fun _ => runs_pure.mpr ⟨rfl, rfl⟩) rfl

theorem bind {x : Bool → M α} {f : Bool → α → M β} (hx : Syncs x s a t l)
    (hf : Syncs (fun ctx => f ctx a) t b u m) : Syncs (fun ctx => x ctx >>= f ctx) s b u (l ++ m) := by
  constructor
  · exact runs_bind.mpr ⟨a, t, hx.plain, hf.plain⟩
  · intro c
    show (x true { s with ctx := c } >>= fun r => f true r.1 r.2) = _
    rw [hx.logged, recordAll_append]
    cases recordAll true c l with
    | none => rfl
    | some c' => exact hf.logged c'

/-- A call that looks at the state, but not at the record. -/
theorem get {f : Bool → State → M α} (hctx : ∀ ctx c, f ctx { s with ctx := c } = f ctx s)
    (hf : Syncs (fun ctx => f ctx s) s a t l) :
    Syncs (fun ctx => MonadState.get >>= f ctx) s a t l := by
  constructor
  · exact runs_bind.mpr ⟨s, s, runs_get.mpr ⟨rfl, rfl⟩, hf.plain⟩
  · intro c
    show f true { s with ctx := c } { s with ctx := c } = _
    rw [hctx]
    exact hf.logged c

theorem modify {f : State → State} (hf : ∀ c, f { s with ctx := c } = { f s with ctx := c }) :
    Syncs (fun _ => modifyThe State f) s ⟨⟩ (f s) [] := by
  have hs : f s = { f s with ctx := s.ctx } := hf s.ctx
  exact silent (fun c => runs_modify.mpr (hf c).symm) (by rw [hs])

theorem acquire {b : Nat} (hb : b ∉ s.held) :
    Syncs (fun _ => cacheAcquire b) s (s.disk b) { s with held := b :: s.held } [] :=
  silent (fun _ => runs_cacheAcquire.mpr ⟨hb, rfl, rfl⟩) rfl

theorem release (b : Nat) (s : State) :
    Syncs (fun _ => cacheRelease b) s () { s with held := s.held.erase b } [] :=
  silent (fun _ => runs_cacheRelease.mpr rfl) rfl

theorem require {c : Prop} [Decidable c] (hc : c) (s : State) :
    Syncs (fun _ => assert c) s () s [] :=
  silent (fun _ => runs_require.mpr ⟨hc, rfl⟩) rfl

theorem sync (b : Nat) (s : State) : Syncs (fun ctx => cacheSync ctx b) s () s [b] := by
  constructor
  · exact runs_cacheSync.mpr ⟨s.ctx, rfl, rfl⟩
  · intro c
    have heq : cacheSync true b { s with ctx := c } = (match c.record b with
        | some c' => (set { s with ctx := c' } : M Unit)
        | none => throw Fault.overflow) { s with ctx := c } := rfl
    rw [heq, recordAll_cons, recorded, if_pos rfl]
    cases c.record b with
    | none => rfl
    | some c' => rfl

theorem writeBack (b : Nat) (d : BlockData) (s : State) :
    Syncs (fun ctx => Fs.writeBack ctx b d) s ()
      { s with disk := Function.update s.disk b d, held := s.held.erase b } [b] :=
  (modify (f := fun s => { s with disk := Function.update s.disk b d }) fun _ => rfl).bind
    ((sync b _).bind (release b _))

/-- A search in which the rounds sync what their result says. -/
theorem search {f : Bool → β → M (Option α)} {B : α → List Nat} {L : List β} {r : Option α}
    (hf : ∀ b ∈ L, ∀ s r t, Runs (f false b) s r t →
      Syncs (fun ctx => f ctx b) s r t (r.elim [] B))
    (hr : Runs (Exec.search (f false) L) s r t) :
    Syncs (fun ctx => Exec.search (f ctx) L) s r t (r.elim [] B) := by
  induction L generalizing s with
  | nil =>
    obtain ⟨rfl, rfl⟩ := runs_pure.mp hr
    exact pure none s
  | cons b L ih =>
    obtain ⟨o, u, hb, hr⟩ := runs_bind.mp hr
    have hround := hf b (by simp) s o u hb
    cases o with
    | none => exact hround.bind (ih (fun b hb => hf b (by simp [hb])) hr)
    | some a =>
      obtain ⟨rfl, rfl⟩ := runs_pure.mp hr
      have hall : Syncs (fun ctx => Exec.search (f ctx) (b :: L)) s (some a) u (B a ++ []) :=
        hround.bind (pure (some a) u)
      rwa [List.append_nil] at hall

end Syncs

/-! ### Allocation -/

/-- The group of block `b`. -/
theorem groupOf_block {g j : Nat} (hj : j < 1000) :
    groupOf (sblock.bgStart + g * sblock.blocksPerGroup + 0 + j) = g := by
  show (65 + g * 1000 + 0 + j - 65) / 1000 = g
  omega

theorem bitmapOf_block {g j : Nat} (hj : j < 1000) :
    bitmapOf (sblock.bgStart + g * sblock.blocksPerGroup + 0 + j) = bitmapBlock sblock g 0 := by
  show 65 + (65 + g * 1000 + 0 + j - 65) / 1000 * 1000 + 3 = 65 + g * 1000 + 3 + 0 / 4096
  omega

/-- The blocks that the allocation of block `b` syncs. -/
def allocSyncs (b : Nat) : List Nat := [bitmapOf b, b]

theorem allocIn_syncs {g bound : Nat} {r : Option Nat} (hbound : bound ≤ 1000)
    (hr : Runs (allocIn sblock false g 0 bound) s r t) :
    Syncs (fun ctx => allocIn sblock ctx g 0 bound) s r t (r.elim [] allocSyncs) := by
  simp only [allocIn, runs_bind, runs_cacheAcquire] at hr ⊢
  obtain ⟨_, _, ⟨hheld, rfl, rfl⟩, hr⟩ := hr
  cases hf : (List.range bound).find? fun j => !bitmapGet (s.disk (bitmapBlock sblock g 0)) j with
  | none =>
    rw [hf] at hr
    simp only [runs_bind, runs_cacheRelease, runs_pure] at hr
    obtain ⟨_, _, rfl, rfl, rfl⟩ := hr
    refine (Syncs.acquire hheld).bind ?_
    rw [hf]
    exact (Syncs.release _ _).bind (.pure _ _)
  | some j =>
    have hj : j < 1000 := by
      have := List.mem_range.mp (List.mem_of_find?_eq_some hf)
      omega
    rw [hf] at hr
    simp only [runs_bind, runs_writeBack, runs_cacheAcquire, runs_modify, runs_pure] at hr
    obtain ⟨_, _, ⟨c1, hc1, rfl⟩, _, _, ⟨hheld', -, rfl⟩, _, _, ⟨c2, hc2, rfl⟩, _, _, rfl, rfl, rfl⟩ := hr
    cases hc1
    cases hc2
    refine (Syncs.acquire hheld).bind (m := allocSyncs _) ?_
    rw [hf, allocSyncs, bitmapOf_block hj]
    exact (Syncs.writeBack _ _ _).bind ((Syncs.acquire hheld').bind
      ((Syncs.writeBack _ _ _).bind ((Syncs.modify fun _ => rfl).bind (.pure _ _))))

/-- The rounds of an allocation over the bitmap blocks of one group. -/
theorem searchGroup_syncs {g : Nat} (bound : Nat → Nat) {r : Option Nat} (hbound : bound 0 ≤ 1000)
    (hr : Runs (Exec.search (fun i => allocIn sblock false g i (bound i)) (bitmapStarts sblock))
      s r t) :
    Syncs (fun ctx => Exec.search (fun i => allocIn sblock ctx g i (bound i)) (bitmapStarts sblock))
      s r t (r.elim [] allocSyncs) := by
  rw [bitmapStarts_sblock] at hr ⊢
  refine .search (fun i hi s r t hr => ?_) hr
  obtain rfl : i = 0 := by simpa using hi
  exact allocIn_syncs hbound hr

theorem cacheAllocg_syncs {b : Nat} (hr : Runs (cacheAllocg sblock false g) s b t) :
    (b = 0 ∧ ¬HasClear s.disk g ∧ t = s ∧ Syncs (fun ctx => cacheAllocg sblock ctx g) s b t []) ∨
      (TakenIn g b s t ∧ Syncs (fun ctx => cacheAllocg sblock ctx g) s b t (allocSyncs b)) := by
  simp only [cacheAllocg, runs_bind, runs_require, runs_pure] at hr ⊢
  obtain ⟨_, _, ⟨hg, rfl⟩, found, u, hsearch, rfl, rfl⟩ := hr
  have htaken := searchGroup_taken rfl hg hsearch
  have hsyncs := searchGroup_syncs (fun _ => min bitPerBlock sblock.blocksPerGroup)
    (Nat.min_le_right ..) hsearch
  cases found with
  | none => exact .inl ⟨rfl, htaken.1, htaken.2, (Syncs.require hg s).bind (hsyncs.bind (.pure _ _))⟩
  | some b => exact .inr ⟨htaken, (Syncs.require hg s).bind (hsyncs.bind (.pure _ _))⟩

/-- The first group that has a free block by `used_block`. -/
def firstFree (used : Nat → UInt32) : Option Nat :=
  (List.range ngroups).find? fun g => (used g).toNat ≠ sblock.numDatablocksPerGroup

theorem cacheAlloc_syncs {b : Nat} (hm : MetaUsed s.disk) (hu : UsedExact s.disk s.usedBlock)
    (hr : Runs (cacheAlloc sblock false) s b t) :
    Syncs (fun ctx => cacheAlloc sblock ctx) s b t (allocSyncs b) ∧
      firstFree s.usedBlock = some (groupOf b) ∧ t.usedBlock = countUp s.usedBlock (groupOf b) := by
  obtain ⟨found, u, hsearch, hr⟩ := runs_bind.mp hr
  cases found with
  | none => exact absurd hr runs_throw
  | some c =>
    obtain ⟨rfl, rfl⟩ := runs_pure.mp hr
    refine ⟨(Syncs.search (B := allocSyncs) (fun g _ s r t hr =>
      searchGroup_syncs (fun i => min bitPerBlock (sblock.blocksPerGroup - i)) (Nat.min_le_right ..) hr)
      hsearch).bind (.pure c u), ?_⟩
    -- The search stops at the first group with a clear bit, which is the first with a free block.
    obtain ⟨g, -, hfirst, htaken⟩ := searchGroups_taken (fun h hh => List.mem_range.mp hh) hsearch
    refine ⟨?_, by rw [htaken.group, htaken.used]⟩
    rw [htaken.group, ← hfirst]
    refine List.find?_congr fun h hh => ?_
    have hh10 : h < 10 := List.mem_range.mp hh
    rw [hu h hh10]
    exact decide_eq_decide.mpr (hasClear_iff hh10 hm).symm

/-! ### Groups of new blocks -/

/-- What a block is allocated for: a place near the inode, or slot `k` of the index block. -/
inductive Want
  | near
  | slot (k : Nat)

/-- The group in which an inode of group `home` gets the block. -/
def Want.group (home : Nat) (used : Nat → UInt32) : Want → Nat
  | near => if (used home).toNat = sblock.numDatablocksPerGroup then (firstFree used).getD 0 else home
  | slot k => (tableGroup sblock used k).getD 0

/-- The groups of blocks that are allocated one after the other. -/
def groupsFor (home : Nat) : (Nat → UInt32) → List Want → List Nat
  | _, [] => []
  | used, w :: ws => w.group home used :: groupsFor home (countUp used (w.group home used)) ws

theorem groupsFor_append (home : Nat) (used : Nat → UInt32) (ws ws' : List Want) :
    groupsFor home used (ws ++ ws') = groupsFor home used ws ++
      groupsFor home ((groupsFor home used ws).foldl countUp used) ws' := by
  induction ws generalizing used with
  | nil => rfl
  | cons w ws ih =>
    rw [List.cons_append, groupsFor, ih, groupsFor, List.cons_append, List.foldl_cons]

theorem allocNear_syncs {b : Nat} (hg : g < 10) (hm : MetaUsed s.disk)
    (hu : UsedExact s.disk s.usedBlock) (hr : Runs (allocNear sblock false g) s b t) :
    Syncs (fun ctx => allocNear sblock ctx g) s b t (allocSyncs b) ∧
      groupOf b = Want.near.group g s.usedBlock ∧
      t.usedBlock = countUp s.usedBlock (groupOf b) := by
  obtain ⟨c, u, hallocg, hrest⟩ := runs_bind.mp hr
  have hclear := hasClear_iff hg hm
  rw [← hu g hg] at hclear
  rcases cacheAllocg_syncs hallocg with ⟨rfl, hmiss, rfl, hsyncs⟩ | ⟨htaken, hsyncs⟩
  · -- The group is full.
    rw [if_pos rfl] at hrest
    obtain ⟨hsyncs', hfirst, hused⟩ := cacheAlloc_syncs hm hu hrest
    refine ⟨hsyncs.bind (m := allocSyncs b) (by simpa using hsyncs'), ?_, hused⟩
    rw [Want.group, if_pos (not_not.mp fun h => hmiss (hclear.mpr h)), hfirst, Option.getD_some]
  · have hc0 : c ≠ 0 := Nat.ne_of_gt htaken.block.1
    rw [if_neg hc0] at hrest
    obtain ⟨rfl, rfl⟩ := runs_pure.mp hrest
    refine ⟨hsyncs.bind (m := []) ?_, ?_, ?_⟩
    · simp only [if_neg hc0]
      exact .pure c u
    · rw [htaken.group, Want.group, if_neg (hclear.mp htaken.clear)]
    · rw [htaken.group, htaken.used]

/-! ### Blocks of an inode -/

variable {E : Nat → InodeEntry} {b : Nat} {m : Bool}

/-- The allocations of `inode_map` for block `k`, if the block and the index block are there or
not. -/
def wantsAt (mapped table : Bool) (k : Nat) : List Want :=
  if mapped then []
  else if k < inodeNumDirect then [.near]
  else (if table then [] else [.near]) ++ [.slot (k - inodeNumDirect)]

/-- What `inode_map` for block `k` of inode `n` syncs and allocates: the blocks `new`, and the index
block if one of its slots is filled. -/
structure MapSyncs (p : Ptr) (n off b : Nat) (m : Bool) (E : Nat → InodeEntry) (s t : State)
    (new : List Nat) : Prop where
  syncs : Syncs (fun ctx => inodeMap sblock ctx p off) s (b, m) t (new.flatMap allocSyncs ++
    if inodeNumDirect ≤ off / blockSize ∧ ref E s.disk (n, place (off / blockSize)) = 0 then
      [(t.mem p).entry.indirect.toNat] else [])
  groups : new.map groupOf = groupsFor (inodeGroup n) s.usedBlock
    (wantsAt (ref E s.disk (n, place (off / blockSize)) ≠ 0) (ref E s.disk (n, .table) ≠ 0)
      (off / blockSize))
  used : t.usedBlock = (new.map groupOf).foldl countUp s.usedBlock
  blocks : ∀ c ∈ new, IsData c ∧ (c = b ∨ (inodeNumDirect ≤ off / blockSize ∧
    ref E s.disk (n, place (off / blockSize)) = 0 ∧ c = (t.mem p).entry.indirect.toNat))
  table : (s.mem p).entry.indirect ≠ 0 ∨ off / blockSize < inodeNumDirect →
    (t.mem p).entry.indirect = (s.mem p).entry.indirect
  modified : m = true ↔ new ≠ []

theorem mapDirect_syncs (hE : E n = (s.mem p).entry) (hno : (s.mem p).inodeNo = n)
    (hn : InUse E n) (ho : BlocksOwned E s.disk) (hu : UsedExact s.disk s.usedBlock) (hk : k < inodeNumDirect)
    (hr : Runs (mapDirect sblock false p k) s (b, m) t) :
    ∃ new, Syncs (fun ctx => mapDirect sblock ctx p k) s (b, m) t (new.flatMap allocSyncs) ∧
      new.map groupOf = groupsFor (inodeGroup n) s.usedBlock
        (wantsAt (ref E s.disk (n, place k) ≠ 0) (ref E s.disk (n, .table) ≠ 0) k) ∧
      t.usedBlock = (new.map groupOf).foldl countUp s.usedBlock ∧ (∀ c ∈ new, IsData c ∧ c = b) ∧
      (t.mem p).entry.indirect = (s.mem p).entry.indirect ∧ (m = true ↔ new ≠ []) := by
  have hblock : ref E s.disk (n, place k) = ((s.mem p).entry.addr k).toNat := by
    rw [show place k = .direct k from if_pos hk, ref_of_inUse hn, hE]
    rfl
  rw [hblock]
  simp only [mapDirect, runs_bind, runs_get] at hr ⊢
  obtain ⟨_, _, ⟨rfl, rfl⟩, hr⟩ := hr
  by_cases h0 : (s.mem p).entry.addr k = 0
  · rw [if_pos h0] at hr
    simp only [runs_bind, runs_modifyEntry, runs_pure] at hr
    obtain ⟨c, u, halloc, _, _, rfl, hbm, rfl⟩ := hr
    obtain ⟨rfl, rfl⟩ := Prod.mk.inj hbm
    obtain ⟨hsyncs, hgroup, hused⟩ := allocNear_syncs (inodeGroup_lt (hno ▸ hn.1)) ho.metaUsed hu halloc
    obtain ⟨hob, ha⟩ := allocNear_spec ho.metaUsed halloc
    refine ⟨[c], .get (fun _ _ => rfl) ?_, ?_, ?_, by simp [ha.data], ?_, by simp⟩
    · simp only [if_pos h0]
      exact hsyncs.bind ((Syncs.modify fun _ => rfl).bind (.pure _ _))
    · rw [h0, hno] at *
      simp [wantsAt, hk, groupsFor, hgroup]
    · exact hused
    · rw [State.mem_setInode_same, hob.mem]
      rfl
  · rw [if_neg h0] at hr
    obtain ⟨hbm, rfl⟩ := runs_pure.mp hr
    obtain ⟨rfl, rfl⟩ := Prod.mk.inj hbm
    refine ⟨[], .get (fun _ _ => rfl) ?_, ?_, rfl, by simp, rfl, by simp⟩
    · simp only [if_neg h0]
      exact .pure _ _
    · simp [wantsAt, groupsFor, toNat_eq_zero, h0]

theorem mapTable_syncs (hE : E n = (s.mem p).entry) (hno : (s.mem p).inodeNo = n)
    (hn : InUse E n) (ho : BlocksOwned E s.disk) (hu : UsedExact s.disk s.usedBlock)
    (hr : Runs (mapTable sblock false p) s m t) :
    ∃ new, Syncs (fun ctx => mapTable sblock ctx p) s m t (new.flatMap allocSyncs) ∧
      new.map groupOf = groupsFor (inodeGroup n) s.usedBlock
        (if ref E s.disk (n, .table) ≠ 0 then [] else [.near]) ∧
      t.usedBlock = (new.map groupOf).foldl countUp s.usedBlock ∧
      (∀ c ∈ new, IsData c ∧ c = (t.mem p).entry.indirect.toNat) ∧
      ((s.mem p).entry.indirect ≠ 0 → (t.mem p).entry.indirect = (s.mem p).entry.indirect) ∧
      (m = true ↔ new ≠ []) := by
  have htab : ref E s.disk (n, .table) = (s.mem p).entry.indirect.toNat := by
    rw [ref_of_inUse hn, hE]
    rfl
  rw [htab]
  simp only [mapTable, runs_bind, runs_get] at hr ⊢
  obtain ⟨_, _, ⟨rfl, rfl⟩, hr⟩ := hr
  by_cases h0 : (s.mem p).entry.indirect = 0
  · rw [if_pos h0] at hr
    simp only [runs_bind, runs_modifyEntry, runs_pure] at hr
    obtain ⟨c, u, halloc, _, _, rfl, rfl, rfl⟩ := hr
    obtain ⟨hsyncs, hgroup, hused⟩ := allocNear_syncs (inodeGroup_lt (hno ▸ hn.1)) ho.metaUsed hu halloc
    obtain ⟨hob, ha⟩ := allocNear_spec ho.metaUsed halloc
    refine ⟨[c], .get (fun _ _ => rfl) ?_, ?_, hused, ?_, fun h => absurd h0 h, by simp⟩
    · simp only [if_pos h0]
      exact hsyncs.bind ((Syncs.modify fun _ => rfl).bind (.pure _ _))
    · rw [h0]
      rw [hno] at hgroup
      simp [groupsFor, hgroup]
    · intro x hx
      obtain rfl := List.mem_singleton.mp hx
      refine ⟨ha.data, ?_⟩
      rw [State.mem_setInode_same]
      exact (toNat_ofNat_data ha.data).symm
  · rw [if_neg h0] at hr
    obtain ⟨rfl, rfl⟩ := runs_pure.mp hr
    refine ⟨[], .get (fun _ _ => rfl) ?_, ?_, rfl, by simp, fun _ => rfl, by simp⟩
    · simp only [if_neg h0]
      exact .pure _ _
    · simp [groupsFor, toNat_eq_zero, h0]

theorem mapSlot_syncs {m' : Bool} (hn : InUse E n) (ho : BlocksOwned E s.disk)
    (h0 : (E n).indirect ≠ 0) (hheld : s.held = []) (hu : UsedExact s.disk s.usedBlock)
    (hr : Runs (mapSlot sblock false (E n).indirect.toNat k m) s (b, m') t) :
    (ref E s.disk (n, .slot k) ≠ 0 ∧ m' = m ∧ t = s ∧
      Syncs (fun ctx => mapSlot sblock ctx (E n).indirect.toNat k m) s (b, m') t []) ∨
    (ref E s.disk (n, .slot k) = 0 ∧ m' = true ∧ IsData b ∧
      Syncs (fun ctx => mapSlot sblock ctx (E n).indirect.toNat k m) s (b, m') t
        (allocSyncs b ++ [(E n).indirect.toNat]) ∧
      groupOf b = (Want.slot k).group (inodeGroup n) s.usedBlock ∧
      t.usedBlock = countUp s.usedBlock (groupOf b)) := by
  set a := (E n).indirect.toNat with ha'
  have hblock : ref E s.disk (n, .slot k) = (getAddr (s.disk a) k).toNat := by
    rw [ref_of_inUse hn]
    simp [blockOf, h0, ← ha']
  have hacquire : a ∉ s.held := by simp [hheld]
  simp only [mapSlot, runs_bind, runs_cacheAcquire] at hr ⊢
  obtain ⟨_, _, ⟨-, rfl, rfl⟩, hr⟩ := hr
  by_cases hslot : getAddr (s.disk a) k = 0
  · rw [if_pos hslot] at hr
    simp only [runs_bind, runs_get] at hr
    obtain ⟨_, _, ⟨rfl, rfl⟩, hr⟩ := hr
    cases hg : tableGroup sblock s.usedBlock k with
    | none =>
      simp only [hg] at hr
      exact absurd hr runs_throw
    | some g =>
      simp only [hg, runs_bind, runs_writeBack, runs_pure] at hr
      obtain ⟨c, u, hallocg, _, _, ⟨ct, hct, rfl⟩, hbm, rfl⟩ := hr
      cases hct
      obtain ⟨rfl, rfl⟩ := Prod.mk.inj hbm
      obtain ⟨hg10, hfull⟩ := nextGroup_spec (Nat.mod_lt _ (by decide)) hg
      obtain ⟨-, hc⟩ := cacheAllocg_spec (s := { s with held := a :: s.held }) ho.metaUsed hallocg
      rcases cacheAllocg_syncs hallocg with ⟨rfl, hmiss, -⟩ | ⟨htaken, hsyncs⟩
      · rw [decide_eq_false_iff_not, hu g hg10] at hfull
        exact absurd ((hasClear_iff hg10 ho.metaUsed).mpr hfull) hmiss
      · refine .inr ⟨by rw [hblock, hslot]; rfl, rfl, ?_, ?_, ?_, ?_⟩
        · rcases hc with ⟨rfl, -⟩ | ha
          · exact absurd rfl (Nat.ne_of_gt htaken.block.1)
          · exact ha.data
        · refine (Syncs.acquire hacquire).bind (m := allocSyncs c ++ [a]) ?_
          simp only [if_pos hslot]
          refine .get (fun _ _ => rfl) ?_
          simp only [hg]
          exact hsyncs.bind ((Syncs.writeBack a _ u).bind (.pure _ _))
        · rw [htaken.group, Want.group, hg, Option.getD_some]
        · rw [htaken.group]
          exact htaken.used
  · rw [if_neg hslot] at hr
    simp only [runs_bind, runs_cacheRelease, runs_pure, List.erase_cons_head] at hr
    obtain ⟨_, _, rfl, hbm, rfl⟩ := hr
    obtain ⟨rfl, rfl⟩ := Prod.mk.inj hbm
    refine .inl ⟨by rw [hblock]; exact fun h => hslot (toNat_eq_zero.mp h), rfl, rfl, ?_⟩
    refine (Syncs.acquire hacquire).bind (m := []) ?_
    simp only [if_neg hslot]
    have hrelease := Syncs.release a { s with held := a :: s.held }
    rw [List.erase_cons_head] at hrelease
    exact hrelease.bind (.pure _ _)

/-- `inode_map` syncs the blocks that it allocates, with their bitmaps, and the index block. -/
theorem inodeMap_syncs {off : Nat} (hE : E n = (s.mem p).entry) (hno : (s.mem p).inodeNo = n)
    (hn : InUse E n) (ho : BlocksOwned E s.disk) (hheld : s.held = [])
    (hu : UsedExact s.disk s.usedBlock) (hr : Runs (inodeMap sblock false p off) s (b, m) t) :
    ∃ new, MapSyncs p n off b m E s t new := by
  by_cases hi : off / blockSize < inodeNumDirect
  · have hno' : ¬inodeNumDirect ≤ off / blockSize := Nat.not_le.mpr hi
    have hr' : Runs (mapDirect sblock false p (off / blockSize)) s (b, m) t := by
      simpa only [inodeMap, if_pos hi] using hr
    obtain ⟨new, hsyncs, hgroups, hused, hblocks, htable, hmod⟩ :=
      mapDirect_syncs hE hno hn ho hu hi hr'
    refine ⟨new, ?_, hgroups, hused, fun c hc => ⟨(hblocks c hc).1, .inl (hblocks c hc).2⟩,
      fun _ => htable, hmod⟩
    simp only [inodeMap, if_pos hi, hno', false_and, if_false, List.append_nil]
    exact hsyncs
  · obtain ⟨k, hk⟩ : ∃ k, off / blockSize = inodeNumDirect + k :=
      ⟨off / blockSize - inodeNumDirect, by omega⟩
    have hpl : place (inodeNumDirect + k) = .slot k := by simp [place]
    obtain ⟨hk', m₁, u, htab, hslot⟩ := (runs_inodeMap_slot hk).mp hr
    obtain ⟨new, hsyncs, hgroups, hused, hblocks, htable, hmod⟩ :=
      mapTable_syncs hE hno hn ho hu htab
    obtain ⟨e', hmeta, hframe, hne, howned, href, -, -, -, -⟩ := mapTable_spec hE hn ho htab
    have hn' : InUse (Function.update E n e') n := (inUse_update (by rw [hmeta.type, hE])).mpr hn
    have he' : Function.update E n e' n = e' := Function.update_self ..
    have hent : (u.mem p).entry = e' := by rw [hframe.inode]
    have h0' : (Function.update E n e' n).indirect ≠ 0 := by rwa [he']
    have hslot' : Runs (mapSlot sblock false (Function.update E n e' n).indirect.toNat k m₁) u (b, m) t := by
      rwa [he', ← hent]
    have hframe' := (mapSlot_spec hn' howned h0' hk' hslot').1
    have hcases := mapSlot_syncs hn' howned h0' (hframe.held.trans hheld) (hframe.used hu) hslot'
    rw [href (n, .slot k) (by simp), he', ← hent] at hcases
    have hge : ¬inodeNumDirect + k < inodeNumDirect := by omega
    have hall {l : List Nat} (hl : Syncs (fun ctx => mapSlot sblock ctx (u.mem p).entry.indirect.toNat k
        m₁) u (b, m) t l) :
        Syncs (fun ctx => inodeMap sblock ctx p off) s (b, m) t (new.flatMap allocSyncs ++ l) := by
      simp only [inodeMap, hk, if_neg hge, Nat.add_sub_cancel_left]
      rw [← List.nil_append (_ ++ l)]
      have hlt : off / blockSize - inodeNumDirect < inodeNumIndirect := by
        rwa [hk, Nat.add_sub_cancel_left]
      exact (Syncs.require hlt s).bind (hsyncs.bind (.get (fun _ _ => rfl) hl))
    rcases hcases with ⟨hmapped, rfl, rfl, hl⟩ | ⟨hempty, rfl, hdata, hl, hgroup, hused'⟩
    · -- The slot has a block, and so there is an index block.
      have htab0 : ref E s.disk (n, .table) ≠ 0 :=
        table_of_slot (Nat.le_add_right _ k) (by rwa [hpl])
      obtain rfl : new = [] := by
        rw [if_pos htab0, groupsFor] at hgroups
        exact List.map_eq_nil_iff.mp hgroups
      have hne0 : (s.mem p).entry.indirect ≠ 0 := by
        rw [ref_of_inUse hn, hE] at htab0
        exact fun h => htab0 (by rw [blockOf, h]; rfl)
      refine ⟨[], ?_, ?_, hused, by simp, fun _ => htable hne0, hmod⟩
      · rw [hk, hpl, if_neg fun h => hmapped h.2]
        exact hall hl
      · rw [hk, hpl]
        simp [wantsAt, hmapped, groupsFor]
    · refine ⟨new ++ [b], ?_, ?_, ?_, ?_, fun h => ?_, by simp⟩
      · rw [hk, hpl, if_pos ⟨Nat.le_add_right _ k, hempty⟩, List.flatMap_append, List.append_assoc,
          hframe'.mem]
        exact hall hl
      · rw [hk, hpl, wantsAt]
        simp only [hempty, ne_eq, not_true_eq_false, decide_false, Bool.false_eq_true, if_false, if_neg hge,
          Nat.add_sub_cancel_left, decide_eq_true_eq]
        rw [groupsFor_append, ← hgroups, ← hused, List.map_append, List.map_singleton, hgroup]
        rfl
      · rw [List.map_append, List.foldl_append, ← hused]
        exact hused'
      · intro c hc
        rw [hk, hpl, hframe'.mem]
        rcases List.mem_append.mp hc with hc | hc
        · exact ⟨(hblocks c hc).1, .inr ⟨Nat.le_add_right _ k, hempty, (hblocks c hc).2⟩⟩
        · obtain rfl := List.mem_singleton.mp hc
          exact ⟨hdata, .inl rfl⟩
      · rw [hframe'.mem]
        exact htable (h.resolve_right (by rw [hk]; exact hge))

end FtosFfs.Fs
