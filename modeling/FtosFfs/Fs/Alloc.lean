import FtosFfs.Fs.Used

/-! What the calls of the block layer have done to the state when they return: acquiring and
syncing a block, and the allocation and freeing of blocks. -/

namespace FtosFfs.Fs

open Lib Lib.Exec Cache

variable {s s' : State} {ctx : Bool} {b : Nat}

/-! ### Blocks -/

/-- The states differ at most in the blocks, the record of the operation, and `used_block`, which
stays exact. -/
structure OnBlocks (s s' : State) : Prop where
  held : s'.held = s.held
  log : s'.log = s.log
  list : s'.list = s.list
  mem : s'.mem = s.mem
  fresh : s'.fresh = s.fresh
  file : s'.file = s.file
  proc : s'.proc = s.proc
  used : UsedExact s.disk s.usedBlock → UsedExact s'.disk s'.usedBlock

theorem OnBlocks.refl (s : State) : OnBlocks s s := ⟨rfl, rfl, rfl, rfl, rfl, rfl, rfl, id⟩

theorem OnBlocks.trans {t : State} (h : OnBlocks s t) (h' : OnBlocks t s') : OnBlocks s s' :=
  ⟨h'.held.trans h.held, h'.log.trans h.log, h'.list.trans h.list, h'.mem.trans h.mem,
    h'.fresh.trans h.fresh, h'.file.trans h.file, h'.proc.trans h.proc, fun hu => h'.used (h.used hu)⟩

theorem runs_cacheAcquire {d : BlockData} :
    Runs (cacheAcquire b) s d s' ↔
      b ∉ s.held ∧ d = s.disk b ∧ s' = { s with held := b :: s.held } := by
  simp only [cacheAcquire, runs_bind, runs_get]
  constructor
  · rintro ⟨_, _, ⟨rfl, rfl⟩, h⟩
    split at h
    case isTrue => exact absurd h runs_throw
    case isFalse hb =>
      obtain ⟨_, _, hset, h⟩ := runs_bind.mp h
      obtain ⟨rfl, rfl⟩ := runs_pure.mp h
      exact ⟨hb, rfl, runs_set.mp hset⟩
  · rintro ⟨hb, rfl, rfl⟩
    refine ⟨s, s, ⟨rfl, rfl⟩, ?_⟩
    rw [if_neg hb]
    exact runs_bind.mpr ⟨⟨⟩, _, runs_set.mpr rfl, runs_pure.mpr ⟨rfl, rfl⟩⟩

@[simp] theorem runs_cacheRelease {u : Unit} :
    Runs (cacheRelease b) s u s' ↔ s' = { s with held := s.held.erase b } :=
  runs_modify

@[simp] theorem runs_setData {d : BlockData} {u : Unit} :
    Runs (setData b d) s u s' ↔ s' = { s with disk := Function.update s.disk b d } :=
  runs_modify

/-- The record after a sync of block `b`. -/
def recorded (ctx : Bool) (c : OpContext) (b : Nat) : Option OpContext :=
  if ctx then c.record b else some c

theorem runs_cacheSync {u : Unit} :
    Runs (cacheSync ctx b) s u s' ↔
      ∃ c, recorded ctx s.ctx b = some c ∧ s' = { s with ctx := c } := by
  simp only [cacheSync, runs_bind, runs_get, recorded]
  constructor
  · rintro ⟨_, _, ⟨rfl, rfl⟩, h⟩
    cases ctx with
    | false =>
      obtain ⟨-, rfl⟩ := runs_pure.mp h
      exact ⟨_, rfl, rfl⟩
    | true =>
      simp only [if_true] at h ⊢
      cases hc : OpContext.record _ b with
      | none =>
        rw [hc] at h
        exact absurd h runs_throw
      | some c =>
        rw [hc] at h
        exact ⟨c, rfl, runs_set.mp h⟩
  · rintro ⟨c, hc, rfl⟩
    refine ⟨s, s, ⟨rfl, rfl⟩, ?_⟩
    cases ctx with
    | false =>
      obtain rfl : s.ctx = c := by simpa using hc
      exact runs_pure.mpr ⟨rfl, rfl⟩
    | true =>
      simp only [if_true] at hc ⊢
      rw [hc]
      exact runs_set.mpr rfl

theorem runs_writeBack {d : BlockData} {u : Unit} :
    Runs (writeBack ctx b d) s u s' ↔ ∃ c, recorded ctx s.ctx b = some c ∧
      s' = { s with disk := Function.update s.disk b d, ctx := c, held := s.held.erase b } := by
  simp only [writeBack, runs_bind, runs_setData, runs_cacheSync, runs_cacheRelease]
  constructor
  · rintro ⟨_, _, rfl, _, _, ⟨c, hc, rfl⟩, rfl⟩
    exact ⟨c, hc, rfl⟩
  · rintro ⟨c, hc, rfl⟩
    exact ⟨⟨⟩, _, rfl, ⟨⟩, _, ⟨c, hc, rfl⟩, rfl⟩

/-! ### Allocation -/

/-- Block `b` is allocated: it was free, it holds zeroes, and its bit is set. -/
structure Allocated (b : Nat) (d d' : Nat → BlockData) : Prop where
  data : IsData b
  free : blockBit d b = false
  zero : d' b = Bytes.zero
  same : ∀ c, ¬IsBitmap c → c ≠ b → d' c = d c
  bit : ∀ c, InGroups c → blockBit d' c = if c = b then true else blockBit d c

/-- Block `b` is freed: its bit was set and is cleared. -/
structure Freed (b : Nat) (d d' : Nat → BlockData) : Prop where
  used : blockBit d b = true
  same : ∀ c, ¬IsBitmap c → d' c = d c
  bit : ∀ c, InGroups c → blockBit d' c = if c = b then false else blockBit d c

/-- The bits of the blocks outside of the data areas are set. -/
def MetaUsed (d : Nat → BlockData) : Prop := ∀ b, InGroups b → ¬IsData b → blockBit d b = true

theorem Allocated.metaUsed {d d' : Nat → BlockData} (h : Allocated b d d') (hm : MetaUsed d) :
    MetaUsed d' := by
  intro c hc hd
  rw [h.bit c hc, hm c hc hd, ite_self]

theorem Freed.metaUsed {d d' : Nat → BlockData} (h : Freed b d d') (hb : IsData b)
    (hm : MetaUsed d) : MetaUsed d' := by
  intro c hc hd
  have hcb : c ≠ b := by
    rintro rfl
    exact hd hb
  rw [h.bit c hc, if_neg hcb, hm c hc hd]

/-- Setting a clear bit of a bitmap and zeroing its block allocates the block. -/
theorem allocated_of_bit {d : Nat → BlockData} {h j : Nat} (hh : h < 10) (hj : j < 1000)
    (hm : MetaUsed d) (hfree : bitmapGet (d (bitmapBlock sblock h 0)) j = false) :
    Allocated (sblock.bgStart + h * sblock.blocksPerGroup + 0 + j) d
      (Function.update (Function.update d (bitmapBlock sblock h 0)
        (bitmapSet (d (bitmapBlock sblock h 0)) j))
        (sblock.bgStart + h * sblock.blocksPerGroup + 0 + j) Bytes.zero) := by
  have hbm : bitmapBlock sblock h 0 = bitmapBlock sblock h j := by
    rw [bitmapBlock_eq, bitmapBlock_eq]
    omega
  rw [hbm] at hfree ⊢
  have hb : sblock.bgStart + h * sblock.blocksPerGroup + 0 + j = 65 + h * 1000 + j := rfl
  rw [hb]
  have hg : InGroups (65 + h * 1000 + j) := by
    rw [inGroups_iff]
    omega
  have hbit : blockBit d (65 + h * 1000 + j) = false := by
    rw [← hfree, blockBit_eq, bitmapBlock_eq]
    congr <;> omega
  have hdata : IsData (65 + h * 1000 + j) := by
    by_contra hd
    rw [hm _ hg hd] at hbit
    cases hbit
  constructor
  case data => exact hdata
  case free => exact hbit
  case zero => exact Function.update_self ..
  case same =>
    intro c hc hcb
    have hne : c ≠ bitmapBlock sblock h j := by
      rintro rfl
      exact hc (isBitmap_bitmapBlock hh hj)
    rw [Function.update_of_ne hcb, Function.update_of_ne hne]
  case bit =>
    intro c hc
    rw [blockBit_update hdata.not_bitmap hc, blockBit_bitmap hj _ hc]
    intro k
    rw [bitmapGet_bitmapSet (show j < 4096 by omega)]
    split <;> simp [*]

theorem allocIn_spec {h i : Nat} {r : Option Nat} (hh : h < 10) (hm : MetaUsed s.disk)
    (hi : i ≤ 1000) (hr : Runs (allocIn sblock ctx h 0 i) s r s') :
    OnBlocks s s' ∧ match r with
      | none => s' = s
      | some b => Allocated b s.disk s'.disk := by
  simp only [allocIn, runs_bind, runs_cacheAcquire] at hr
  obtain ⟨_, _, ⟨-, rfl, rfl⟩, hr⟩ := hr
  cases hf : (List.range i).find? fun j => !bitmapGet (s.disk (bitmapBlock sblock h 0)) j with
  | none =>
    rw [hf] at hr
    simp only [runs_bind, runs_cacheRelease, runs_pure, List.erase_cons_head] at hr
    obtain ⟨_, _, rfl, rfl, rfl⟩ := hr
    exact ⟨.refl s, rfl⟩
  | some j =>
    have hj : j < i := by simpa using List.mem_of_find?_eq_some hf
    have hfree : bitmapGet (s.disk (bitmapBlock sblock h 0)) j = false := by
      simpa using List.find?_some hf
    rw [hf] at hr
    simp only [runs_bind, runs_writeBack, runs_cacheAcquire, runs_modify, runs_pure] at hr
    obtain ⟨_, _, ⟨c1, -, rfl⟩, _, _, ⟨-, -, rfl⟩, _, _, ⟨c2, -, rfl⟩, _, _, rfl, rfl, rfl⟩ := hr
    have ha := allocated_of_bit hh (by omega) hm hfree
    refine ⟨⟨by simp, rfl, rfl, rfl, rfl, rfl, rfl, fun hu => ?_⟩, ha⟩
    have hgroup : (sblock.bgStart + h * sblock.blocksPerGroup + 0 + j - 65) / 1000 = h := by
      show (65 + h * 1000 + 0 + j - 65) / 1000 = h
      omega
    have hset := hu.set ha.data ha.free ha.bit
    rwa [hgroup] at hset

theorem bitmapStarts_sblock : bitmapStarts sblock = [0] := by decide

/-- The rounds of an allocation over the bitmap blocks of one group. -/
theorem searchGroup_spec {h : Nat} (bound : Nat → Nat) {r : Option Nat} (hh : h < 10)
    (hm : MetaUsed s.disk) (hbound : bound 0 ≤ 1000)
    (hr : Runs (Exec.search (fun i => allocIn sblock ctx h i (bound i)) (bitmapStarts sblock))
      s r s') :
    OnBlocks s s' ∧ match r with
      | none => s' = s
      | some b => Allocated b s.disk s'.disk := by
  rw [bitmapStarts_sblock] at hr
  have hmiss : ∀ i ∈ [0], ∀ t, Runs (allocIn sblock ctx h i (bound i)) s none t → t = s := by
    intro i hi t ht
    obtain rfl : i = 0 := by simpa using hi
    exact (allocIn_spec hh hm hbound ht).2
  rcases hr.search hmiss with ⟨rfl, rfl⟩ | ⟨i, hi, a, rfl, h⟩
  · exact ⟨.refl _, rfl⟩
  · obtain rfl : i = 0 := by simpa using hi
    exact allocIn_spec hh hm hbound h

/-- An allocation that returned 0 changed nothing; any other one allocated the block it returned. -/
theorem cacheAllocg_spec {gno : Nat} (hm : MetaUsed s.disk)
    (hr : Runs (cacheAllocg sblock ctx gno) s b s') :
    OnBlocks s s' ∧ ((b = 0 ∧ s' = s) ∨ Allocated b s.disk s'.disk) := by
  simp only [cacheAllocg, runs_bind, runs_require, runs_pure] at hr
  obtain ⟨_, _, ⟨hg, rfl⟩, found, t, hs, rfl, rfl⟩ := hr
  obtain ⟨hob, h⟩ := searchGroup_spec (fun _ => min bitPerBlock sblock.blocksPerGroup) hg hm
    (Nat.min_le_right ..) hs
  cases found with
  | none => exact ⟨hob, .inl ⟨rfl, h⟩⟩
  | some b => exact ⟨hob, .inr h⟩

theorem cacheAlloc_spec (hm : MetaUsed s.disk) (hr : Runs (cacheAlloc sblock ctx) s b s') :
    OnBlocks s s' ∧ Allocated b s.disk s'.disk := by
  simp only [cacheAlloc, runs_bind] at hr
  obtain ⟨found, t, hs, hr⟩ := hr
  let bound (i : Nat) : Nat := min bitPerBlock (sblock.blocksPerGroup - i)
  have hbound : bound 0 ≤ 1000 := Nat.min_le_right ..
  have hlt {h : Nat} (hh : h ∈ List.range sblock.numGroups) : h < 10 := List.mem_range.mp hh
  rcases hs.search fun h hh t ht => (searchGroup_spec bound (hlt hh) hm hbound ht).2 with
    ⟨rfl, rfl⟩ | ⟨h, hh, a, rfl, h⟩
  · exact absurd hr runs_throw
  · obtain ⟨rfl, rfl⟩ := runs_pure.mp hr
    exact searchGroup_spec bound (hlt hh) hm hbound h

/-- A round of `cache_allocg` ends without a block when all bits that it looks at are set. -/
theorem runs_allocIn_none {sb : SuperBlock} {g i bound : Nat} :
    Runs (allocIn sb ctx g i bound) s none s' ↔ bitmapBlock sb g i ∉ s.held ∧
      (∀ j < bound, bitmapGet (s.disk (bitmapBlock sb g i)) j = true) ∧ s' = s := by
  have hall : (∀ j < bound, bitmapGet (s.disk (bitmapBlock sb g i)) j = true) ↔
      (List.range bound).find? (fun j => !bitmapGet (s.disk (bitmapBlock sb g i)) j) = none := by
    simp [List.find?_eq_none]
  simp only [allocIn, runs_bind, runs_cacheAcquire, hall]
  constructor
  · rintro ⟨_, _, ⟨hheld, rfl, rfl⟩, hr⟩
    cases hf : (List.range bound).find? fun j => !bitmapGet (s.disk (bitmapBlock sb g i)) j with
    | none =>
      rw [hf] at hr
      simp only [runs_bind, runs_cacheRelease, runs_pure, List.erase_cons_head] at hr
      obtain ⟨_, _, rfl, -, rfl⟩ := hr
      exact ⟨hheld, rfl, rfl⟩
    | some j =>
      rw [hf] at hr
      simp only [runs_bind, runs_pure, reduceCtorEq, false_and, and_false, exists_false] at hr
  · rintro ⟨hheld, hf, rfl⟩
    refine ⟨_, _, ⟨hheld, rfl, rfl⟩, ?_⟩
    rw [hf]
    simp only [runs_bind, runs_cacheRelease, runs_pure, List.erase_cons_head]
    exact ⟨⟨⟩, s', rfl, trivial, rfl⟩

/-- `cache_allocg` returns 0 exactly for the groups whose data areas are used up. -/
theorem cacheAllocg_zero (hm : MetaUsed s.disk) {g : Nat} (hg : g < ngroups) :
    (∃ s', Runs (cacheAllocg sblock ctx g) s 0 s') ↔ bitmapBlock sblock g 0 ∉ s.held ∧
      (usedBits s.disk g).card = sblock.numDatablocksPerGroup := by
  have hg' : g < 10 := hg
  have hfull : (∀ j < 1000, bitmapGet (s.disk (bitmapBlock sblock g 0)) j = true) ↔
      (usedBits s.disk g).card = sblock.numDatablocksPerGroup := by
    rw [card_usedBits_eq]
    constructor
    · intro h j _ hj
      rw [← bitmapGet_eq_blockBit hj]
      exact h j hj
    · intro h j hj
      rw [bitmapGet_eq_blockBit hj]
      by_cases h4 : 4 ≤ j
      · exact h j h4 hj
      · refine hm _ (by rw [inGroups_iff]; omega) ?_
        rw [isData_iff]
        omega
  have hround (t : State) : Runs (allocIn sblock ctx g 0 1000) s none t ↔
      (bitmapBlock sblock g 0 ∉ s.held ∧
        (usedBits s.disk g).card = sblock.numDatablocksPerGroup) ∧ t = s := by
    rw [runs_allocIn_none, hfull, and_assoc]
  simp only [cacheAllocg, bitmapStarts_sblock, runs_bind, runs_require, runs_pure]
  constructor
  · rintro ⟨s', _, _, ⟨-, rfl⟩, found, t, hsearch, h0, rfl⟩
    simp only [Exec.search, runs_bind] at hsearch
    obtain ⟨o, t', hround', hrest⟩ := hsearch
    cases o with
    | none => exact ((hround t').mp hround').1
    | some b =>
      obtain ⟨rfl, rfl⟩ := runs_pure.mp hrest
      have ha := (allocIn_spec hg' hm (Nat.le_refl 1000) hround').2
      exact absurd h0 ha.data.pos
  · intro hcard
    refine ⟨s, ⟨⟩, s, ⟨hg, rfl⟩, none, s, ?_, rfl, rfl⟩
    simp only [Exec.search, runs_bind]
    exact ⟨none, s, (hround s).mpr ⟨hcard, rfl⟩, runs_pure.mpr ⟨rfl, rfl⟩⟩

theorem allocNear_spec {gno : Nat} (hm : MetaUsed s.disk)
    (hr : Runs (allocNear sblock ctx gno) s b s') :
    OnBlocks s s' ∧ Allocated b s.disk s'.disk := by
  simp only [allocNear, runs_bind] at hr
  obtain ⟨c, t, hg, hr⟩ := hr
  obtain ⟨hob, hc⟩ := cacheAllocg_spec hm hg
  split at hr
  case isTrue h0 =>
    rcases hc with ⟨-, rfl⟩ | ha
    · exact cacheAlloc_spec hm hr
    · exact absurd h0 ha.data.pos
  case isFalse h0 =>
    obtain ⟨rfl, rfl⟩ := runs_pure.mp hr
    rcases hc with ⟨rfl, -⟩ | ha
    · exact absurd rfl h0
    · exact ⟨hob, ha⟩

/-! ### Freeing -/

/-- The bitmap block of block `b`. -/
def bitmapOf (b : Nat) : Nat := 65 + (b - 65) / 1000 * 1000 + 3

theorem isBitmap_bitmapOf (hb : InGroups b) : IsBitmap (bitmapOf b) := by
  rw [inGroups_iff] at hb
  rw [isBitmap_iff, bitmapOf]
  omega

theorem usizeSub_bgStart (hb : InGroups b) : Log.usizeSub b sblock.bgStart = b - 65 := by
  rw [inGroups_iff] at hb
  show (b + 2 ^ 64 - 65) % 2 ^ 64 = b - 65
  omega

/-- What it takes for a free of a block of the groups to return, and its effect. -/
theorem runs_cacheFree (hb : InGroups b) {u : Unit} :
    Runs (cacheFree sblock ctx b) s u s' ↔
      bitmapOf b ∉ s.held ∧ blockBit s.disk b = true ∧
      ∃ c, recorded ctx s.ctx (bitmapOf b) = some c ∧ s' = { s with
        disk := Function.update s.disk (bitmapOf b)
          (bitmapClear (s.disk (bitmapOf b)) ((b - 65) % 1000))
        usedBlock := Function.update s.usedBlock ((b - 65) / 1000)
          (s.usedBlock ((b - 65) / 1000) - 1)
        ctx := c } := by
  have hoff : (b - 65) % 1000 % 4096 = (b - 65) % 1000 := by omega
  have hbm : bitmapBlock sblock ((b - 65) / sblock.blocksPerGroup)
      ((b - 65) % sblock.blocksPerGroup) = bitmapOf b := by
    show 65 + (b - 65) / 1000 * 1000 + 3 + (b - 65) % 1000 / 4096 = bitmapOf b
    rw [bitmapOf]
    omega
  have hbit : blockBit s.disk b = bitmapGet (s.disk (bitmapOf b)) ((b - 65) % 1000) := by
    rw [blockBit_eq, hoff, show (b - 65) % 1000 / 4096 = 0 by omega, bitmapOf]
  have hoff' : (b - 65) % sblock.blocksPerGroup % bitPerBlock = (b - 65) % 1000 := hoff
  simp only [cacheFree, usizeSub_bgStart hb, hbm, hoff', runs_bind, runs_cacheAcquire,
    runs_require, runs_modify, runs_writeBack]
  constructor
  · rintro ⟨_, _, ⟨hheld, rfl, rfl⟩, _, _, ⟨hget, rfl⟩, _, _, rfl, c, hc, rfl⟩
    refine ⟨hheld, by rw [hbit]; exact hget, c, hc, ?_⟩
    simp only [List.erase_cons_head]
    rfl
  · rintro ⟨hheld, hget, c, hc, rfl⟩
    refine ⟨_, _, ⟨hheld, rfl, rfl⟩, ⟨⟩, _, ⟨by rw [← hbit]; exact hget, rfl⟩, ⟨⟩, _, rfl, c, hc, ?_⟩
    simp only [List.erase_cons_head]
    rfl

theorem cacheFree_spec {u : Unit} (hd : IsData b) (hr : Runs (cacheFree sblock ctx b) s u s') :
    OnBlocks s s' ∧ Freed b s.disk s'.disk := by
  have hb := hd.1
  obtain ⟨-, hbit, c, -, rfl⟩ := (runs_cacheFree hb).mp hr
  suffices hf : Freed b s.disk (Function.update s.disk (bitmapOf b)
      (bitmapClear (s.disk (bitmapOf b)) ((b - 65) % 1000))) from
    ⟨⟨rfl, rfl, rfl, rfl, rfl, rfl, rfl, fun hu => hu.clear hd hbit hf.bit⟩, hf⟩
  refine ⟨hbit, ?_, ?_⟩
  · intro c hc
    have hne : c ≠ bitmapOf b := by
      rintro rfl
      exact hc (isBitmap_bitmapOf hb)
    exact Function.update_of_ne hne ..
  · intro c hc
    rw [inGroups_iff] at hb
    have hbm : bitmapOf b = bitmapBlock sblock ((b - 65) / 1000) ((b - 65) % 1000) := by
      rw [bitmapBlock_eq, bitmapOf]
      omega
    have hcb : 65 + (b - 65) / 1000 * 1000 + (b - 65) % 1000 = b := by omega
    rw [hbm, blockBit_bitmap (v := false) (by omega) _ hc, hcb]
    intro k
    rw [bitmapGet_bitmapClear (show (b - 65) % 1000 < 4096 by omega)]
    split <;> simp [*]

end FtosFfs.Fs
