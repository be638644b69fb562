import FtosFfs.Fs.BlockOps
import FtosFfs.Fs.Grow

/-! Block groups of any size, with one or several bitmap blocks: when `cache_allocg` returns the
first free block of a group, and when `init_filesystem` counts the used blocks. -/

namespace FtosFfs.Fs

open Lib Lib.Exec Cache

variable {sb : SuperBlock} {s s' : State} {ctx : Bool} {d : Nat → BlockData} {g h i k : Nat}

/-- A super block whose groups start behind the boot block, with the bitmap inside of each group, on
a device whose blocks a `u32` numbers. -/
structure Geometry (sb : SuperBlock) : Prop where
  groups : sb.numGroups = ngroups
  start : 0 < sb.bgStart
  bitmap : sb.bitmapStartPerGroup < sb.blocksPerGroup
  fits : sb.bgStart + ngroups * sb.blocksPerGroup ≤ 2 ^ 32

/-- Bit `k` of the bitmap of group `g`, which goes on behind the group up to the end of its last
block. -/
def groupBit (sb : SuperBlock) (d : Nat → BlockData) (g k : Nat) : Bool :=
  bitmapGet (d (bitmapBlock sb g k)) (k % bitPerBlock)

/-- Block `k` of group `g`. -/
def groupBlock (sb : SuperBlock) (g k : Nat) : Nat := sb.bgStart + g * sb.blocksPerGroup + k

/-- Group `g` has a clear bit, and `k` is the first. -/
structure FirstClear (sb : SuperBlock) (d : Nat → BlockData) (g k : Nat) : Prop where
  lt : k < sb.blocksPerGroup
  clear : groupBit sb d g k = false
  first : ∀ i < k, groupBit sb d g i = true

theorem firstClear_or_full (sb : SuperBlock) (d : Nat → BlockData) (g : Nat) :
    (∃ k, FirstClear sb d g k) ∨ ∀ i < sb.blocksPerGroup, groupBit sb d g i = true := by
  cases hf : (List.range sb.blocksPerGroup).find? fun i => !groupBit sb d g i with
  | some k =>
    obtain ⟨hclear, hlt, hfirst⟩ := List.find?_range_eq_some.mp hf
    refine .inl ⟨k, List.mem_range.mp hlt, by simpa using hclear, fun i hi => ?_⟩
    simpa using hfirst i hi
  | none =>
    refine .inr fun i hi => ?_
    simpa using List.find?_range_eq_none.mp hf i hi

/-- The bits of two groups, or of two bitmap blocks of a group, are in different blocks. -/
theorem bitmapBlock_inj {h' i' : Nat} (hi : i < sb.blocksPerGroup) (hi' : i' < sb.blocksPerGroup)
    (heq : bitmapBlock sb h i = bitmapBlock sb h' i') :
    h = h' ∧ i / bitPerBlock = i' / bitPerBlock := by
  have hlt : i / bitPerBlock < sb.blocksPerGroup := Nat.lt_of_le_of_lt (Nat.div_le_self _ _) hi
  have hlt' : i' / bitPerBlock < sb.blocksPerGroup := Nat.lt_of_le_of_lt (Nat.div_le_self _ _) hi'
  have hsum : sb.blocksPerGroup * h + i / bitPerBlock = sb.blocksPerGroup * h' + i' / bitPerBlock := by
    rw [Nat.mul_comm _ h, Nat.mul_comm _ h']
    unfold bitmapBlock at heq
    omega
  have hpos : 0 < sb.blocksPerGroup := Nat.zero_lt_of_lt hi
  have hdiv := congrArg (· / sb.blocksPerGroup) hsum
  simp only [Nat.mul_add_div hpos, Nat.div_eq_of_lt hlt, Nat.div_eq_of_lt hlt', Nat.add_zero] at hdiv
  subst hdiv
  exact ⟨rfl, Nat.add_left_cancel hsum⟩

/-! ### Allocation in a group -/

/-- The search of `cache_alloc` and `cache_allocg` in group `g`, on the first `bound i` bits of the
bitmap block that starts with bit `i`. -/
abbrev searchGroup (sb : SuperBlock) (ctx : Bool) (g : Nat) (bound : Nat → Nat) : M (Option Nat) :=
  Exec.search (fun i => allocIn sb ctx g i (bound i)) (bitmapStarts sb)

/-- No bitmap block of group `g` and no block of it with a clear bit is held. -/
structure GroupUnheld (sb : SuperBlock) (g : Nat) (s : State) : Prop where
  bitmap : ∀ i < sb.blocksPerGroup, bitmapBlock sb g i ∉ s.held
  clear : ∀ k < sb.blocksPerGroup, groupBlock sb g k ∈ s.held → groupBit sb s.disk g k = true

theorem mem_bitmapStarts :
    i ∈ bitmapStarts sb ↔ i % bitPerBlock = 0 ∧ i < sb.blocksPerGroup := by
  simp only [bitmapStarts, List.mem_map, List.mem_range]
  show (∃ a, a < (sb.blocksPerGroup + 4096 - 1) / 4096 ∧ a * 4096 = i) ↔ i % 4096 = 0 ∧ _
  constructor
  · rintro ⟨a, ha, rfl⟩
    omega
  · intro hi
    exact ⟨i / 4096, by omega, by omega⟩

/-- The bitmap blocks before the one of bit `k`. -/
theorem bitmapStarts_split (hk : k < sb.blocksPerGroup) :
    ∃ l l', bitmapStarts sb = l ++ (k / bitPerBlock * bitPerBlock) :: l' ∧
      ∀ i ∈ l, i % bitPerBlock = 0 ∧ i + bitPerBlock ≤ k := by
  have hlt : k / bitPerBlock < (sb.blocksPerGroup + bitPerBlock - 1) / bitPerBlock := by
    show k / 4096 < (sb.blocksPerGroup + 4096 - 1) / 4096
    omega
  obtain ⟨m, hm⟩ := Nat.exists_eq_add_of_lt hlt
  refine ⟨(List.range (k / bitPerBlock)).map (· * bitPerBlock),
    (List.range m).map fun a => (k / bitPerBlock + 1 + a) * bitPerBlock, ?_, ?_⟩
  · rw [bitmapStarts, hm, show k / bitPerBlock + m + 1 = k / bitPerBlock + 1 + m by omega,
      List.range_add, List.range_succ]
    simp [Function.comp_def]
  · intro i hi
    obtain ⟨a, ha, rfl⟩ := List.mem_map.mp hi
    rw [List.mem_range] at ha
    change a < k / 4096 at ha
    show a * 4096 % 4096 = 0 ∧ a * 4096 + 4096 ≤ k
    omega

/-- The state after the allocation of block `k` of group `g`, with the record `c`. -/
def allocState (sb : SuperBlock) (g k : Nat) (c : OpContext) (s : State) : State :=
  { s with
    disk := Function.update (Function.update s.disk (bitmapBlock sb g k)
      (bitmapSet (s.disk (bitmapBlock sb g k)) (k % bitPerBlock))) (groupBlock sb g k) Bytes.zero
    ctx := c
    usedBlock := Function.update s.usedBlock g (s.usedBlock g + 1) }

theorem bitmapBlock_start (sb : SuperBlock) (g k : Nat) :
    bitmapBlock sb g (k / bitPerBlock * bitPerBlock) = bitmapBlock sb g k := by
  unfold bitmapBlock
  rw [Nat.mul_div_cancel _ (by decide)]

/-- The bits of the bitmap block that starts with bit `i`. -/
theorem groupBit_start {j : Nat} (hi : i % bitPerBlock = 0) (hj : j < bitPerBlock) :
    groupBit sb d g (i + j) = bitmapGet (d (bitmapBlock sb g i)) j := by
  change i % 4096 = 0 at hi
  change j < 4096 at hj
  show bitmapGet (d (_ + (i + j) / 4096)) ((i + j) % 4096) = bitmapGet (d (_ + i / 4096)) j
  rw [show (i + j) / 4096 = i / 4096 by omega, show (i + j) % 4096 = j by omega]

/-- With bounds that reach the end of the group, the search finds its first clear bit. -/
theorem searchGroup_first (hu : GroupUnheld sb g s) (hk : FirstClear sb s.disk g k)
    (hroom : Room ctx s.ctx 2) :
    ∃ c, Room ctx c 0 ∧ Noted ctx c (bitmapBlock sb g k) ∧ ∀ bound : Nat → Nat,
      (∀ i < sb.blocksPerGroup, min bitPerBlock (sb.blocksPerGroup - i) ≤ bound i) →
      (∀ i, bound i ≤ bitPerBlock) →
      Runs (searchGroup sb ctx g bound) s (some (groupBlock sb g k)) (allocState sb g k c s) := by
  have hB := hu.bitmap k hk.lt
  have htarget : groupBlock sb g k ∉ s.held := fun h => by
    have hbit := hu.clear k hk.lt h
    rw [hk.clear] at hbit
    cases hbit
  obtain ⟨c₁, h1, hroom₁, hnoted₁, -⟩ := recorded_room (b := bitmapBlock sb g k) hroom
  obtain ⟨c₂, h2, hroom₂, -, hkept⟩ := recorded_room (b := groupBlock sb g k) hroom₁
  refine ⟨c₂, hroom₂, hkept.noted hnoted₁, fun bound hlow hhigh => ?_⟩
  obtain ⟨l, l', hl, hbefore⟩ := bitmapStarts_split hk.lt
  -- the bits of the bitmap blocks before are set
  have hmiss : ∀ i ∈ l, Runs (allocIn sb ctx g i (bound i)) s none s := by
    intro i hi
    obtain ⟨hmod, hle⟩ := hbefore i hi
    have hpos : 0 < bitPerBlock := by decide
    refine runs_allocIn_none.mpr ⟨hu.bitmap i ?_, fun j hj => ?_, rfl⟩
    · have := hk.lt
      omega
    · have hjb : j < bitPerBlock := Nat.lt_of_lt_of_le hj (hhigh i)
      rw [← groupBit_start hmod hjb]
      exact hk.first (i + j) (by omega)
  have hfind : (List.range (bound (k / bitPerBlock * bitPerBlock))).find?
      (fun j => !bitmapGet (s.disk (bitmapBlock sb g k)) j) = some (k % bitPerBlock) := by
    have hle := hlow (k / bitPerBlock * bitPerBlock)
      (Nat.lt_of_le_of_lt (Nat.div_mul_le_self k bitPerBlock) hk.lt)
    have hmod : k % bitPerBlock < bitPerBlock := Nat.mod_lt _ (by decide)
    have hsum : k / bitPerBlock * bitPerBlock + k % bitPerBlock = k := by
      rw [Nat.mul_comm, Nat.div_add_mod]
    have hlt := hk.lt
    refine List.find?_range_eq_some.mpr ⟨?_, List.mem_range.mpr (by omega), fun j hj => ?_⟩
    · have hclear : bitmapGet (s.disk (bitmapBlock sb g k)) (k % bitPerBlock) = false := hk.clear
      simp [hclear]
    · have hbit : bitmapGet (s.disk (bitmapBlock sb g k)) j = true := by
        rw [← bitmapBlock_start, ← groupBit_start (Nat.mul_mod_left _ _) (by omega)]
        exact hk.first _ (by omega)
      simp [hbit]
  have hhit : Runs (allocIn sb ctx g (k / bitPerBlock * bitPerBlock)
      (bound (k / bitPerBlock * bitPerBlock))) s (some (groupBlock sb g k))
      (allocState sb g k c₂ s) := by
    have hno : sb.bgStart + g * sb.blocksPerGroup + k / bitPerBlock * bitPerBlock + k % bitPerBlock =
        groupBlock sb g k := by
      rw [groupBlock, Nat.add_assoc, Nat.mul_comm (k / bitPerBlock), Nat.div_add_mod]
    rw [allocIn, bitmapBlock_start, runs_bind]
    refine ⟨_, _, runs_cacheAcquire.mpr ⟨hB, rfl, rfl⟩, ?_⟩
    rw [hfind]
    simp only [hno, runs_bind, runs_writeBack, runs_cacheAcquire, runs_modify, runs_pure,
      List.erase_cons_head]
    refine ⟨⟨⟩, _, ⟨c₁, h1, rfl⟩, _, _, ⟨htarget, rfl, rfl⟩, ⟨⟩, _, ⟨c₂, h2, rfl⟩, ⟨⟩, _, rfl, trivial, ?_⟩
    simp only [List.erase_cons_head]
    rfl
  unfold Runs
  rw [searchGroup, hl, search_append hmiss]
  exact runs_search_hit hhit

/-- A search without clear bits below its bounds changes nothing. -/
theorem searchGroup_none {bound : Nat → Nat} (hu : GroupUnheld sb g s)
    (hset : ∀ i ∈ bitmapStarts sb, ∀ j < bound i, bitmapGet (s.disk (bitmapBlock sb g i)) j = true) :
    Runs (searchGroup sb ctx g bound) s none s := by
  have hmiss (i : Nat) (hi : i ∈ bitmapStarts sb) :
      Runs (allocIn sb ctx g i (bound i)) s none s :=
    runs_allocIn_none.mpr ⟨hu.bitmap i (mem_bitmapStarts.mp hi).2, hset i hi, rfl⟩
  have happ : Exec.search (fun i => allocIn sb ctx g i (bound i)) (bitmapStarts sb ++ []) s = _ :=
    search_append hmiss
  rwa [List.append_nil] at happ

/-- `cache_allocg` from `s` returns the first block of group `g` with a clear bit, sets this bit
alone, zeroes this block alone, and `cache_free` then restores the bitmap; it returns 0 and changes
nothing exactly when all bits are set; and it does what the search of `cache_alloc` in the group
does. -/
structure AllocgExact (sb : SuperBlock) (ctx : Bool) (g : Nat) (s : State) : Prop where
  hit : ∀ k, FirstClear sb s.disk g k → ∃ s', Runs (cacheAllocg sb ctx g) s (groupBlock sb g k) s' ∧
    s'.held = s.held ∧ s'.disk (groupBlock sb g k) = Bytes.zero ∧
    (∀ b, b ≠ groupBlock sb g k → b ≠ bitmapBlock sb g k → s'.disk b = s.disk b) ∧
    (∀ h < ngroups, ∀ i < sb.blocksPerGroup,
      groupBit sb s'.disk h i = (decide (h = g ∧ i = k) || groupBit sb s.disk h i)) ∧
    ∃ s'', Runs (cacheFree sb ctx (groupBlock sb g k)) s' () s'' ∧
      ∀ h < ngroups, ∀ i < sb.blocksPerGroup, groupBit sb s''.disk h i = groupBit sb s.disk h i
  miss : Runs (cacheAllocg sb ctx g) s 0 s ↔ ∀ i < sb.blocksPerGroup, groupBit sb s.disk g i = true
  inner : ∀ r s', Runs (cacheAllocg sb ctx g) s r s' ↔ ∃ found,
    Runs (searchGroup sb ctx g fun i => min bitPerBlock (sb.blocksPerGroup - i)) s found s' ∧
      r = found.getD 0

/-- The first clear bit is not that of a bitmap block, unless this block holds other bits that are
all clear, and behind a group of several bitmap blocks that is full no bit is clear. -/
structure AllocgSafe (sb : SuperBlock) (d : Nat → BlockData) (g : Nat) : Prop where
  bitmap : ∀ k, FirstClear sb d g k → ∀ h < ngroups, ∀ i < sb.blocksPerGroup,
    bitmapBlock sb h i = groupBlock sb g k → ¬(h = g ∧ i = k) ∧ groupBit sb d h i = false
  behind : (∀ i < sb.blocksPerGroup, groupBit sb d g i = true) → bitPerBlock < sb.blocksPerGroup →
    ∀ k, k / bitPerBlock = (sb.blocksPerGroup - 1) / bitPerBlock → groupBit sb d g k = true

theorem runs_cacheAllocg {r : Nat} (hg : g < ngroups) :
    Runs (cacheAllocg sb ctx g) s r s' ↔ ∃ found,
      Runs (searchGroup sb ctx g fun _ => min bitPerBlock sb.blocksPerGroup) s found s' ∧
        r = found.getD 0 := by
  simp only [cacheAllocg, runs_bind, runs_require, runs_pure]
  constructor
  · rintro ⟨_, _, ⟨-, rfl⟩, found, _, hr, rfl, rfl⟩
    exact ⟨found, hr, rfl⟩
  · rintro ⟨found, hr, rfl⟩
    exact ⟨⟨⟩, s, ⟨hg, rfl⟩, found, s', hr, rfl, rfl⟩

/-- The bits of the groups after a store of bit `k` of group `g`. -/
theorem groupBit_store {x : BlockData} {v : Bool} (hi : i < sb.blocksPerGroup)
    (hk : k < sb.blocksPerGroup)
    (hx : ∀ j, bitmapGet x j =
      if j = k % bitPerBlock then v else bitmapGet (d (bitmapBlock sb g k)) j) :
    groupBit sb (Function.update d (bitmapBlock sb g k) x) h i =
      if h = g ∧ i = k then v else groupBit sb d h i := by
  unfold groupBit
  by_cases hB : bitmapBlock sb h i = bitmapBlock sb g k
  · obtain ⟨rfl, hdiv⟩ := bitmapBlock_inj hi hk hB
    have hiff : i % bitPerBlock = k % bitPerBlock ↔ h = h ∧ i = k := by
      constructor
      · intro hmod
        refine ⟨rfl, ?_⟩
        rw [← Nat.div_add_mod i bitPerBlock, ← Nat.div_add_mod k bitPerBlock, hdiv, hmod]
      · rintro ⟨-, rfl⟩
        rfl
    rw [hB, Function.update_self, hx]
    exact if_congr hiff rfl rfl
  · have hik : ¬(h = g ∧ i = k) := by
      rintro ⟨rfl, rfl⟩
      exact hB rfl
    rw [Function.update_of_ne hB, if_neg hik]

theorem groupBit_allocState {c : OpContext} (hi : i < sb.blocksPerGroup) (hk : k < sb.blocksPerGroup) :
    groupBit sb (allocState sb g k c s).disk h i =
      if bitmapBlock sb h i = groupBlock sb g k then false
      else if h = g ∧ i = k then true else groupBit sb s.disk h i := by
  have hset (j : Nat) := bitmapGet_bitmapSet (d := s.disk (bitmapBlock sb g k)) (j := j)
    (Nat.mod_lt k (show 0 < bitPerBlock by decide))
  split
  case isTrue heq =>
    rw [groupBit, heq]
    simp [allocState, bitmapGet]
  case isFalse hne =>
    rw [← groupBit_store hi hk fun j => (hset j).trans (by split <;> simp [*])]
    simp only [groupBit, allocState, Function.update_of_ne hne]

theorem groupBlock_pos (hsb : Geometry sb) (g k : Nat) : groupBlock sb g k ≠ 0 := by
  have := hsb.start
  unfold groupBlock
  omega

/-- `cache_free` of a block of a group finds its bit. -/
theorem usizeSub_groupBlock (hsb : Geometry sb) (hg : g < ngroups) (hk : k < sb.blocksPerGroup) :
    Log.usizeSub (groupBlock sb g k) sb.bgStart = sb.blocksPerGroup * g + k := by
  have hfits := hsb.fits
  have hlt : g * sb.blocksPerGroup + k < ngroups * sb.blocksPerGroup := by
    calc g * sb.blocksPerGroup + k < g * sb.blocksPerGroup + sb.blocksPerGroup := by omega
      _ = (g + 1) * sb.blocksPerGroup := by rw [Nat.add_mul, Nat.one_mul]
      _ ≤ ngroups * sb.blocksPerGroup := Nat.mul_le_mul_right _ hg
  unfold Log.usizeSub groupBlock
  rw [Nat.mul_comm sb.blocksPerGroup,
    show sb.bgStart + g * sb.blocksPerGroup + k + 2 ^ 64 - sb.bgStart =
      g * sb.blocksPerGroup + k + 2 ^ 64 by omega, Nat.add_mod_right, Nat.mod_eq_of_lt (by omega)]

theorem runs_allocIn_some {bound b : Nat} (hr : Runs (allocIn sb ctx g i bound) s (some b) s') :
    ∃ j, b = groupBlock sb g (i + j) := by
  simp only [allocIn, runs_bind] at hr
  obtain ⟨bitmap, _, -, hr⟩ := hr
  split at hr
  case h_1 j _ =>
    simp only [runs_bind, runs_pure, Option.some.injEq] at hr
    obtain ⟨_, _, -, _, _, -, _, _, -, _, _, -, rfl, -⟩ := hr
    exact ⟨j, by rw [groupBlock, Nat.add_assoc _ i j]⟩
  case h_2 =>
    simp only [runs_bind, runs_pure, reduceCtorEq, false_and, and_false, exists_false] at hr

theorem AllocgExact.safe (hsb : Geometry sb) (hg : g < ngroups) (h : AllocgExact sb ctx g s) :
    AllocgSafe sb s.disk g where
  bitmap k hk h' hh i hi heq := by
    obtain ⟨s', -, -, hzero, -, hbits, -⟩ := h.hit k hk
    have hbit := hbits h' hh i hi
    have hclear : groupBit sb s'.disk h' i = false := by
      rw [groupBit, heq, hzero]
      simp [bitmapGet]
    rw [hclear, eq_comm, Bool.or_eq_false_iff, decide_eq_false_iff_not] at hbit
    exact hbit
  behind hfull hbig k hk := by
    obtain ⟨found, hr, hzero⟩ := (runs_cacheAllocg hg).mp (h.miss.mpr hfull)
    have hmiss (i : Nat) (_ : i ∈ bitmapStarts sb) (t : State)
        (hi : Runs (allocIn sb ctx g i (min bitPerBlock sb.blocksPerGroup)) s none t) : t = s :=
      (runs_allocIn_none.mp hi).2.2
    cases found with
    | some b =>
      -- the block found has a number from `bg_start` on
      rcases hr.search hmiss with ⟨hno, -⟩ | ⟨i, -, b', hb, hi⟩
      · cases hno
      · obtain rfl : b = b' := Option.some.inj hb
        obtain ⟨j, hj⟩ := runs_allocIn_some hi
        exact absurd (hj.symm.trans hzero.symm) (groupBlock_pos hsb g _)
    | none =>
      have hstart : k / bitPerBlock * bitPerBlock ∈ bitmapStarts sb := by
        rw [mem_bitmapStarts, hk]
        refine ⟨Nat.mul_mod_left _ _, ?_⟩
        have := Nat.div_mul_le_self (sb.blocksPerGroup - 1) bitPerBlock
        omega
      have hset := (runs_allocIn_none.mp (hr.search_none hmiss _ hstart)).2.1 (k % bitPerBlock)
        (by rw [min_eq_left hbig.le]; exact Nat.mod_lt _ (by decide))
      rwa [bitmapBlock_start] at hset

/-- A full group without a clear bit behind it has no block for `cache_allocg`. -/
theorem AllocgSafe.miss (hs : AllocgSafe sb s.disk g) (ctx : Bool) (hu : GroupUnheld sb g s)
    (hfull : ∀ i < sb.blocksPerGroup, groupBit sb s.disk g i = true) :
    Runs (searchGroup sb ctx g fun _ => min bitPerBlock sb.blocksPerGroup) s none s ∧
      Runs (searchGroup sb ctx g fun i => min bitPerBlock (sb.blocksPerGroup - i)) s none s := by
  constructor
  · refine searchGroup_none hu fun i hi j hj => ?_
    obtain ⟨hmod, hlt⟩ := mem_bitmapStarts.mp hi
    rw [← groupBit_start hmod (by omega)]
    by_cases hin : i + j < sb.blocksPerGroup
    · exact hfull _ hin
    · change i % 4096 = 0 at hmod
      have hj' : j < 4096 ∧ j < sb.blocksPerGroup := Nat.lt_min.mp hj
      refine hs.behind hfull ?_ _ ?_
      · show 4096 < sb.blocksPerGroup
        omega
      · show (i + j) / 4096 = (sb.blocksPerGroup - 1) / 4096
        omega
  · refine searchGroup_none hu fun i hi j hj => ?_
    rw [← groupBit_start (mem_bitmapStarts.mp hi).1 (by omega)]
    exact hfull _ (by omega)

/-- `cache_free` of the allocated block, whose bit is in another block, clears its bit. -/
theorem runs_cacheFree_allocState {c : OpContext} (hsb : Geometry sb) (hg : g < ngroups)
    (hk : k < sb.blocksPerGroup) (hne : bitmapBlock sb g k ≠ groupBlock sb g k)
    (hheld : bitmapBlock sb g k ∉ s.held) (hroom : Room ctx c 0)
    (hnoted : Noted ctx c (bitmapBlock sb g k)) :
    ∃ s'', Runs (cacheFree sb ctx (groupBlock sb g k)) (allocState sb g k c s) () s'' ∧
      ∀ h, ∀ i < sb.blocksPerGroup, groupBit sb s''.disk h i =
        if h = g ∧ i = k then false else groupBit sb (allocState sb g k c s).disk h i := by
  have hpos : 0 < sb.blocksPerGroup := Nat.zero_lt_of_lt hk
  have hlt : k % bitPerBlock < bitPerBlock := Nat.mod_lt _ (by decide)
  have hset : bitmapGet ((allocState sb g k c s).disk (bitmapBlock sb g k)) (k % bitPerBlock) = true := by
    simp only [allocState, Function.update_of_ne hne, Function.update_self, bitmapGet_bitmapSet hlt,
      decide_true, Bool.true_or]
  rw [cacheFree, usizeSub_groupBlock hsb hg hk, Nat.mul_add_div hpos, Nat.div_eq_of_lt hk, Nat.add_zero,
    Nat.mul_add_mod, Nat.mod_eq_of_lt hk]
  simp only [runs_bind, runs_cacheAcquire, runs_require, runs_modify, runs_writeBack]
  refine ⟨_, ⟨_, _, ⟨hheld, rfl, rfl⟩, ⟨⟩, _, ⟨hset, rfl⟩, ⟨⟩, _, rfl, c, recorded_noted hroom hnoted,
    rfl⟩, fun h i hi => ?_⟩
  refine groupBit_store hi hk fun j => ?_
  rw [bitmapGet_bitmapClear hlt]
  split <;> simp [*]

theorem AllocgSafe.hit (hs : AllocgSafe sb s.disk g) (hsb : Geometry sb) (hg : g < ngroups)
    (hu : GroupUnheld sb g s) (hroom : Room ctx s.ctx 2) (hk : FirstClear sb s.disk g k) :
    ∃ s', Runs (searchGroup sb ctx g fun _ => min bitPerBlock sb.blocksPerGroup) s
        (some (groupBlock sb g k)) s' ∧
      Runs (searchGroup sb ctx g fun i => min bitPerBlock (sb.blocksPerGroup - i)) s
        (some (groupBlock sb g k)) s' ∧
      s'.held = s.held ∧ s'.disk (groupBlock sb g k) = Bytes.zero ∧
      (∀ b, b ≠ groupBlock sb g k → b ≠ bitmapBlock sb g k → s'.disk b = s.disk b) ∧
      (∀ h < ngroups, ∀ i < sb.blocksPerGroup,
        groupBit sb s'.disk h i = (decide (h = g ∧ i = k) || groupBit sb s.disk h i)) ∧
      ∃ s'', Runs (cacheFree sb ctx (groupBlock sb g k)) s' () s'' ∧
        ∀ h < ngroups, ∀ i < sb.blocksPerGroup, groupBit sb s''.disk h i = groupBit sb s.disk h i := by
  obtain ⟨c, hroom', hnoted, hruns⟩ := searchGroup_first hu hk hroom
  have hne : bitmapBlock sb g k ≠ groupBlock sb g k := fun h =>
    (hs.bitmap k hk g hg k hk.lt h).1 ⟨rfl, rfl⟩
  have hbits (h : Nat) (hh : h < ngroups) (i : Nat) (hi : i < sb.blocksPerGroup) :
      groupBit sb (allocState sb g k c s).disk h i =
        (decide (h = g ∧ i = k) || groupBit sb s.disk h i) := by
    rw [groupBit_allocState hi hk.lt]
    split
    case isTrue heq =>
      obtain ⟨hik, hold⟩ := hs.bitmap k hk h hh i hi heq
      rw [hold, decide_eq_false hik]
      rfl
    case isFalse => split <;> simp [*]
  obtain ⟨s'', hfree, hrestored⟩ := runs_cacheFree_allocState hsb hg hk.lt hne (hu.bitmap k hk.lt)
    hroom' hnoted
  refine ⟨allocState sb g k c s, hruns _ (fun i _ => by omega) fun i => by omega,
    hruns _ (fun i _ => by omega) fun i => by omega, rfl, Function.update_self .., fun b hb hb' => ?_,
    hbits, s'', hfree, fun h hh i hi => ?_⟩
  · simp only [allocState, Function.update_of_ne hb, Function.update_of_ne hb']
  · rw [hrestored h i hi]
    split
    case isTrue hik =>
      obtain ⟨rfl, rfl⟩ := hik
      exact hk.clear.symm
    case isFalse hik =>
      rw [hbits h hh i hi, decide_eq_false hik]
      rfl

/-- `cache_allocg` is exact if and only if the first clear bit of the group is not that of a bitmap
block in use and, in a full group of several bitmap blocks, no bit behind the group is clear. -/
theorem cacheAllocg_exact (hsb : Geometry sb) (hg : g < ngroups) (hu : GroupUnheld sb g s)
    (hroom : Room ctx s.ctx 2) : AllocgExact sb ctx g s ↔ AllocgSafe sb s.disk g := by
  refine ⟨fun h => h.safe hsb hg, fun hs => ?_⟩
  rcases firstClear_or_full sb s.disk g with ⟨k, hk⟩ | hfull
  · have hnot : ¬∀ i < sb.blocksPerGroup, groupBit sb s.disk g i = true := fun hfull => by
      have hset := hfull k hk.lt
      rw [hk.clear] at hset
      cases hset
    obtain ⟨s', hrun, hrun', hrest⟩ := hs.hit hsb hg hu hroom hk
    have hallocg : Runs (cacheAllocg sb ctx g) s (groupBlock sb g k) s' :=
      (runs_cacheAllocg hg).mpr ⟨_, hrun, rfl⟩
    refine ⟨fun k' hk' => ?_, ⟨fun hr => ?_, fun h => absurd h hnot⟩, fun r t => ?_⟩
    · obtain rfl : k' = k := by
        rcases Nat.lt_trichotomy k' k with hlt | heq | hlt
        · have hset := hk.first k' hlt
          rw [hk'.clear] at hset
          cases hset
        · exact heq
        · have hset := hk'.first k hlt
          rw [hk.clear] at hset
          cases hset
      exact ⟨s', hallocg, hrest⟩
    · exact absurd (hallocg.unique hr).1 (groupBlock_pos hsb g k)
    · constructor
      · intro hr
        obtain ⟨rfl, rfl⟩ := hr.unique hallocg
        exact ⟨_, hrun', rfl⟩
      · rintro ⟨found, hr, rfl⟩
        obtain ⟨rfl, rfl⟩ := hr.unique hrun'
        exact hallocg
  · obtain ⟨hrun, hrun'⟩ := hs.miss ctx hu hfull
    have hallocg : Runs (cacheAllocg sb ctx g) s 0 s := (runs_cacheAllocg hg).mpr ⟨_, hrun, rfl⟩
    refine ⟨fun k hk => ?_, ⟨fun _ => hfull, fun _ => hallocg⟩, fun r t => ?_⟩
    · have hset := hfull k hk.lt
      rw [hk.clear] at hset
      cases hset
    · constructor
      · intro hr
        obtain ⟨rfl, rfl⟩ := hr.unique hallocg
        exact ⟨_, hrun', rfl⟩
      · rintro ⟨found, hr, rfl⟩
        obtain ⟨rfl, rfl⟩ := hr.unique hrun'
        exact hallocg

/-- Groups of 5000 blocks, with two bitmap blocks each. -/
def wideSuperBlock : SuperBlock :=
  { mkfsSuperBlock with
    numBlocks := 50065
    blocksPerGroup := 5000
    numBitmapPerGroup := 2
    numDatablocksPerGroup := 4995
    dataStartPerGroup := 5 }

theorem geometry_wideSuperBlock : Geometry wideSuperBlock := ⟨rfl, by decide, by decide, by decide⟩

theorem bitmapBlock_wideSuperBlock (g k : Nat) :
    bitmapBlock wideSuperBlock g k = 65 + g * 5000 + 3 + k / 4096 := rfl

def fullBlock : BlockData := Bytes.ofFn fun _ => 255

theorem bitmapGet_fullBlock (hk : k < bitPerBlock) : bitmapGet fullBlock k = true := by
  change k < 4096 at hk
  have hbyte : ∀ t < 8, (255 : UInt8).toNat.testBit t = true := by decide
  rw [bitmapGet_byte, fullBlock, Bytes.get_ofFn (show k / 8 < blockSize by show _ < 512; omega)]
  exact hbyte _ (Nat.mod_lt _ (by decide))

/-- A disk of which all bitmaps are full, but for bit `j` of the second bitmap block of the first
group. -/
def fullBut (j : Nat) : Nat → BlockData :=
  Function.update (fun _ => fullBlock) 69 (bitmapClear fullBlock j)

theorem groupBit_fullBut {j : Nat} (hj : j < bitPerBlock) (g k : Nat) :
    groupBit wideSuperBlock (fullBut j) g k =
      !decide (65 + g * 5000 + 3 + k / 4096 = 69 ∧ k % 4096 = j) := by
  have hk : k % bitPerBlock < bitPerBlock := Nat.mod_lt _ (by decide)
  rw [groupBit, bitmapBlock_wideSuperBlock, fullBut, Function.update_apply]
  split
  case isTrue h =>
    rw [bitmapGet_bitmapClear hj, bitmapGet_fullBlock hk, Bool.and_true]
    simp only [h, true_and]
    rfl
  case isFalse h =>
    rw [bitmapGet_fullBlock hk]
    simp only [h, false_and, decide_false, Bool.not_false]

/-- The file system on such a disk. -/
def mountBut (j : Nat) : State :=
  mount wideSuperBlock (fullBut j) fun _ => ⟨false, 0, 0, false, InodeEntry.zero⟩

theorem groupUnheld_mountBut (g j : Nat) : GroupUnheld wideSuperBlock g (mountBut j) :=
  ⟨fun _ _ => List.not_mem_nil, fun _ _ h => nomatch h⟩

theorem room_mountBut (j : Nat) : Room true (mountBut j).ctx 2 := fun _ => by
  show 0 + 2 ≤ 10
  decide

theorem groupBit_mountBut {j : Nat} (hj : j < bitPerBlock) (k : Nat) :
    groupBit wideSuperBlock (mountBut j).disk 0 k = !decide (k / 4096 = 1 ∧ k % 4096 = j) := by
  refine (groupBit_fullBut hj 0 k).trans ?_
  congr 1
  rw [decide_eq_decide]
  omega

/-- Block 4565, of the second bitmap block of its group, is the only free block. -/
theorem cacheAllocg_exact_second : GroupUnheld wideSuperBlock 0 (mountBut 404) ∧
    Room true (mountBut 404).ctx 2 ∧ AllocgExact wideSuperBlock true 0 (mountBut 404) ∧
    ∃ s', Runs (cacheAllocg wideSuperBlock true 0) (mountBut 404) 4565 s' := by
  have hu := groupUnheld_mountBut 0 404
  have hroom := room_mountBut 404
  have hbit (k : Nat) := groupBit_mountBut (show 404 < bitPerBlock by decide) k
  have hfirst : FirstClear wideSuperBlock (mountBut 404).disk 0 4500 := by
    refine ⟨by decide, by rw [hbit]; rfl, fun i hi => ?_⟩
    rw [hbit, Bool.not_eq_true', decide_eq_false_iff_not]
    omega
  have hsafe : AllocgSafe wideSuperBlock (mountBut 404).disk 0 := by
    refine ⟨fun k hk h hh i hi heq => ?_, fun hfull => ?_⟩
    · have hclear := hk.clear
      change i < 5000 at hi
      change 65 + h * 5000 + 3 + i / 4096 = 65 + 0 * 5000 + k at heq
      rw [hbit, Bool.not_eq_false', decide_eq_true_eq] at hclear
      omega
    · have hset := hfull 4500 (by decide)
      rw [hfirst.clear] at hset
      cases hset
  have hexact := (cacheAllocg_exact geometry_wideSuperBlock (show 0 < ngroups by decide) hu hroom).mpr
    hsafe
  obtain ⟨s', hr, -⟩ := hexact.hit 4500 hfirst
  exact ⟨hu, hroom, hexact, s', hr⟩

/-- All 5000 blocks of the first group are in use, but its second bitmap block has a clear bit behind
them, which would be that of block 5065 of the next group. -/
theorem cacheAllocg_leaves_group : Geometry wideSuperBlock ∧ 0 < ngroups ∧
    GroupUnheld wideSuperBlock 0 (mountBut 904) ∧ Room true (mountBut 904).ctx 2 ∧
    (∀ i < wideSuperBlock.blocksPerGroup, groupBit wideSuperBlock (mountBut 904).disk 0 i = true) ∧
    ¬AllocgExact wideSuperBlock true 0 (mountBut 904) := by
  have hbit (k : Nat) := groupBit_mountBut (show 904 < bitPerBlock by decide) k
  have hfull : ∀ i < wideSuperBlock.blocksPerGroup,
      groupBit wideSuperBlock (mountBut 904).disk 0 i = true := by
    intro i hi
    change i < 5000 at hi
    rw [hbit, Bool.not_eq_true', decide_eq_false_iff_not]
    omega
  refine ⟨geometry_wideSuperBlock, by decide, groupUnheld_mountBut 0 904, room_mountBut 904, hfull,
    fun h => ?_⟩
  have hset := (h.safe geometry_wideSuperBlock (by decide)).behind hfull (by decide) 5000 (by decide)
  rw [hbit] at hset
  cases hset

/-! ### The count of used blocks -/

/-- The set bits of the data area of group `g`. -/
def groupUsed (sb : SuperBlock) (d : Nat → BlockData) (g : Nat) : Finset Nat :=
  (Finset.Ico sb.dataStartPerGroup sb.blocksPerGroup).filter fun k => groupBit sb d g k = true

/-- The round of `init_filesystem` for the first bitmap block counts the bits of this block, and the
rounds for the others count nothing. -/
theorem toNat_countUsed (hsb : Geometry sb) (hg : g < ngroups) :
    (countUsed sb d g).toNat = ((groupUsed sb d g).filter (· < bitPerBlock)).card := by
  let count (i : Nat) : Nat := (List.range' sb.dataStartPerGroup
    (sb.blocksPerGroup - sb.dataStartPerGroup)).countP fun j =>
      decide (i + j < bitPerBlock) && bitmapGet (d (bitmapBlock sb g i)) j
  have hpos : 0 < sb.blocksPerGroup := Nat.zero_lt_of_lt hsb.bitmap
  have hfirst : count 0 = ((groupUsed sb d g).filter (· < bitPerBlock)).card := by
    rw [groupUsed, Finset.filter_filter]
    refine (countP_range' _ _ _).trans (congrArg Finset.card (Finset.filter_congr fun j _ => ?_))
    rw [Bool.and_eq_true, decide_eq_true_eq, Nat.zero_add, and_comm]
    refine and_congr_left fun hj => ?_
    rw [← groupBit_start (by rfl) hj, Nat.zero_add]
  have hrest (a : Nat) : count ((a + 1) * bitPerBlock) = 0 := by
    refine List.countP_eq_zero.mpr fun j _ => ?_
    have hge : ¬(a + 1) * bitPerBlock + j < bitPerBlock := by
      rw [Nat.add_mul, Nat.one_mul]
      omega
    rw [decide_eq_false hge]
    simp
  have hsum : ((bitmapStarts sb).map count).sum = count 0 := by
    obtain ⟨m, hm⟩ : ∃ m, (sb.blocksPerGroup + bitPerBlock - 1) / bitPerBlock = m + 1 := by
      refine Nat.exists_eq_succ_of_ne_zero ?_
      show (sb.blocksPerGroup + 4096 - 1) / 4096 ≠ 0
      omega
    rw [bitmapStarts, hm, List.range_succ_eq_map, List.map_map, List.map_cons, List.sum_cons]
    simp only [List.map_map]
    rw [List.sum_eq_zero]
    · show count (0 * bitPerBlock) + 0 = count 0
      rw [Nat.zero_mul, Nat.add_zero]
    · intro x hx
      obtain ⟨a, -, rfl⟩ := List.mem_map.mp hx
      exact hrest a
  have hle : count 0 ≤ sb.blocksPerGroup := by
    refine (List.countP_le_length ..).trans ?_
    rw [List.length_range']
    exact Nat.sub_le _ _
  have hfits := hsb.fits
  rw [countUsed, if_pos hg]
  show (UInt32.ofNat ((bitmapStarts sb).map count).sum).toNat = _
  rw [hsum, UInt32.toNat_ofNat', Nat.mod_eq_of_lt, hfirst]
  change _ + 10 * _ ≤ _ at hfits
  omega

/-- After `init_filesystem` the count of a group is the number of the set bits of its data area if and
only if no such bit is in a bitmap block behind the first. -/
theorem countUsed_exact (hsb : Geometry sb) (hg : g < ngroups) :
    (countUsed sb d g).toNat = (groupUsed sb d g).card ↔
      ∀ k, sb.dataStartPerGroup ≤ k → bitPerBlock ≤ k → k < sb.blocksPerGroup →
        groupBit sb d g k = false := by
  rw [toNat_countUsed hsb hg, Finset.card_filter_eq_iff]
  constructor
  · intro h k hdata hbit hk
    by_contra hset
    rw [Bool.not_eq_false] at hset
    have hlt := h k (Finset.mem_filter.mpr ⟨Finset.mem_Ico.mpr ⟨hdata, hk⟩, hset⟩)
    omega
  · intro h k hk
    obtain ⟨hin, hset⟩ := Finset.mem_filter.mp hk
    obtain ⟨hdata, hlt⟩ := Finset.mem_Ico.mp hin
    by_contra hge
    rw [h k hdata (by omega) hlt] at hset
    cases hset

/-- Without set bits behind the first bitmap block of each group. -/
theorem countUsed_exact_first :
    let d := fun b => if (b - 65) % 5000 = 3 then fullBlock else Bytes.zero
    (countUsed wideSuperBlock d 9).toNat = (groupUsed wideSuperBlock d 9).card := by
  intro d
  refine (countUsed_exact geometry_wideSuperBlock (by decide)).mpr fun k _ hbit hk => ?_
  change 4096 ≤ k at hbit
  change k < 5000 at hk
  have hd : d (bitmapBlock wideSuperBlock 9 k) = Bytes.zero := by
    rw [bitmapBlock_wideSuperBlock]
    exact if_neg (by omega)
  rw [groupBit, hd]
  simp [bitmapGet]

/-- On a full disk the 904 blocks of the second bitmap block of a group are not counted. -/
theorem countUsed_misses_second : Geometry wideSuperBlock ∧
    (countUsed wideSuperBlock (fun _ => fullBlock) 0).toNat = 4091 ∧
    (groupUsed wideSuperBlock (fun _ => fullBlock) 0).card = 4995 := by
  have hset (k : Nat) : groupBit wideSuperBlock (fun _ => fullBlock) 0 k = true :=
    bitmapGet_fullBlock (Nat.mod_lt _ (by decide))
  have hall : groupUsed wideSuperBlock (fun _ => fullBlock) 0 = Finset.Ico 5 5000 :=
    Finset.filter_true_of_mem fun k _ => hset k
  refine ⟨geometry_wideSuperBlock, ?_, ?_⟩
  · have hlow : (Finset.Ico 5 5000).filter (· < bitPerBlock) = Finset.Ico 5 4096 := by
      ext k
      rw [Finset.mem_filter, Finset.mem_Ico, Finset.mem_Ico]
      show _ ∧ k < 4096 ↔ _
      omega
    rw [toNat_countUsed geometry_wideSuperBlock (by decide), hall, hlow, Nat.card_Ico]
  · rw [hall, Nat.card_Ico]

end FtosFfs.Fs
