import FtosFfs.Fs.Synced

/-! The blocks that `inode_write` syncs, and the operations of `filewrite` against the limit of
`OP_MAX_NUM_BLOCKS` blocks. -/

namespace FtosFfs.Fs

open Lib Lib.Exec Cache

variable {s t u : State} {p : Ptr} {n g k b : Nat} {m m' : Bool} {E : Nat → InodeEntry}

/-! ### The loop of `inode_write` -/

/-- The blocks of a file that bytes `start` to `stop - 1` lie in. -/
def blocksAt (start stop : Nat) : List Nat := List.range' (start / blockSize) (touched start stop)

theorem mem_blocksAt_iff {start stop : Nat} :
    k ∈ blocksAt start stop ↔ start < stop ∧ start / blockSize ≤ k ∧ k * blockSize < stop := by
  unfold blocksAt touched
  rw [List.mem_range'_1]
  show _ ↔ start < stop ∧ start / 512 ≤ k ∧ k * 512 < stop
  split
  case isTrue hlt =>
    show start / 512 ≤ k ∧ k < start / 512 + ((stop + 512 - 1) / 512 - start / 512) ↔ _
    omega
  case isFalse hge =>
    show start / 512 ≤ k ∧ k < start / 512 + 0 ↔ _
    omega

theorem blocksAt_step {start stop step : Nat} (hlt : start < stop)
    (hstep : step = min (stop - start) (blockSize - start % blockSize)) :
    blocksAt start stop = start / blockSize :: blocksAt (start + step) stop ∧
      start / blockSize ∉ blocksAt (start + step) stop := by
  have hstep' : step = min (stop - start) (512 - start % 512) := hstep
  have htouched : touched start stop = touched (start + step) stop + 1 := by
    unfold touched
    rw [if_pos hlt]
    show (stop + 512 - 1) / 512 - start / 512 =
      (if start + step < stop then (stop + 512 - 1) / 512 - (start + step) / 512 else 0) + 1
    split <;> omega
  have hrest : List.range' (start / blockSize + 1) (touched (start + step) stop) =
      List.range' ((start + step) / blockSize) (touched (start + step) stop) := by
    by_cases hmore : start + step < stop
    · have hnext : start / blockSize + 1 = (start + step) / blockSize := by
        show start / 512 + 1 = (start + step) / 512
        omega
      rw [hnext]
    · have hnone : touched (start + step) stop = 0 := if_neg hmore
      rw [hnone]
      rfl
  unfold blocksAt
  rw [htouched, List.range'_succ, hrest]
  refine ⟨rfl, ?_⟩
  rw [← hrest, List.mem_range'_1]
  omega

/-- The allocations for the blocks `ks` of a file, with `table` if the index block is there. -/
def wants (mapped : Nat → Bool) : Bool → List Nat → List Want
  | _, [] => []
  | table, k :: ks => wantsAt (mapped k) table k ++
      wants mapped (table || (!mapped k && decide (inodeNumDirect ≤ k))) ks

theorem wants_congr {mapped mapped' : Nat → Bool} {ks : List Nat}
    (h : ∀ k ∈ ks, mapped k = mapped' k) (table : Bool) :
    wants mapped table ks = wants mapped' table ks := by
  induction ks generalizing table with
  | nil => rfl
  | cons k ks ih =>
    rw [wants, wants, h k (by simp), ih fun k hk => h k (by simp [hk])]

/-- Block `k` of inode `n` is there. -/
def isMapped (E : Nat → InodeEntry) (d : Nat → BlockData) (n k : Nat) : Bool :=
  ref E d (n, place k) ≠ 0

def hasTable (E : Nat → InodeEntry) (d : Nat → BlockData) (n : Nat) : Bool := ref E d (n, .table) ≠ 0

theorem isMapped_congr {E' : Nat → InodeEntry} {d d' : Nat → BlockData} (h : ref E d = ref E' d') :
    isMapped E d = isMapped E' d' := by
  funext n k
  rw [isMapped, h, isMapped]

theorem hasTable_congr {E' : Nat → InodeEntry} {d d' : Nat → BlockData} (h : ref E d = ref E' d') :
    hasTable E d = hasTable E' d' := by
  funext n
  rw [hasTable, h, hasTable]

/-- What the loop of `inode_write` syncs and allocates for the blocks `ks` of inode `n`: the blocks
themselves, the bitmaps of the new blocks, and the index block if one of its slots is filled. -/
structure LoopSyncs (p : Ptr) (n : Nat) (ks : List Nat) (E : Nat → InodeEntry) (s t : State)
    (l new : List Nat) : Prop where
  groups : new.map groupOf = groupsFor (inodeGroup n) s.usedBlock
    (wants (isMapped E s.disk n) (hasTable E s.disk n) ks)
  used : t.usedBlock = (new.map groupOf).foldl countUp s.usedBlock
  data : ∀ c ∈ new, IsData c
  mem : ∀ x, x ∈ l ↔ x ∈ new.map bitmapOf ∨
    (∃ k ∈ ks, x = ref (Function.update E n (t.mem p).entry) t.disk (n, place k)) ∨
    ((∃ k ∈ ks, inodeNumDirect ≤ k ∧ isMapped E s.disk n k = false) ∧
      x = (t.mem p).entry.indirect.toNat)
  table : ((s.mem p).entry.indirect ≠ 0 ∨ ∀ k ∈ ks, k < inodeNumDirect) →
    (t.mem p).entry.indirect = (s.mem p).entry.indirect

theorem LoopSyncs.nothing (p : Ptr) (n : Nat) (E : Nat → InodeEntry) (s : State) :
    LoopSyncs p n [] E s s [] [] := by
  refine ⟨rfl, rfl, by simp, by simp, fun _ => rfl⟩

theorem mem_flatMap_allocSyncs {new : List Nat} {x : Nat} :
    x ∈ new.flatMap allocSyncs ↔ x ∈ new.map bitmapOf ∨ x ∈ new := by
  simp only [List.mem_flatMap, allocSyncs, List.mem_cons, List.not_mem_nil, or_false, List.mem_map]
  constructor
  · rintro ⟨c, hc, rfl | rfl⟩
    · exact .inl ⟨c, hc, rfl⟩
    · exact .inr hc
  · rintro (⟨c, hc, rfl⟩ | hx)
    · exact ⟨c, hc, .inl rfl⟩
    · exact ⟨x, hx, .inr rfl⟩

/-- The ways in which a block is synced for the first block of a file and for the rest. -/
theorem join_syncs {map new map' this rest here there top : Prop} (h : new → this ∨ here ∧ top) :
    ((map ∨ new) ∨ here ∧ top) ∨ this ∨ map' ∨ rest ∨ there ∧ top ↔
      (map ∨ map') ∨ (this ∨ rest) ∨ (here ∨ there) ∧ top := by
  tauto

/-- A block and then the blocks `ks`. -/
theorem LoopSyncs.cons {off : Nat} {ks l new new' : List Nat} {e : InodeEntry} {v : State}
    (hE : E n = (s.mem p).entry) (hn : InUse E n) (hd : MapDone p n (off / blockSize) b m E s t e)
    (hb : b ≠ 0) (hm : MapSyncs p n off b m E s t new) (hks : off / blockSize ∉ ks)
    (hmem : v.mem = t.mem) (hused : v.usedBlock = t.usedBlock)
    (href : ref (Function.update E n e) v.disk = ref (Function.update E n e) t.disk)
    (hrest : LoopSyncs p n ks (Function.update E n e) v u l new')
    (hkept : ref (Function.update E n (u.mem p).entry) u.disk (n, place (off / blockSize)) = b) :
    LoopSyncs p n (off / blockSize :: ks) E s u ((new.flatMap allocSyncs ++
      if inodeNumDirect ≤ off / blockSize ∧ ref E s.disk (n, place (off / blockSize)) = 0 then
        [(t.mem p).entry.indirect.toNat] else []) ++ b :: l) (new ++ new') := by
  have hn' : InUse (Function.update E n e) n := (inUse_update (by rw [hd.fields.type, hE])).mpr hn
  have hent : (t.mem p).entry = e := by rw [hd.frame.inode]
  have hmapped (k : Nat) (hk : k ∈ ks) :
      isMapped (Function.update E n e) v.disk n k = isMapped E s.disk n k := by
    have hne : k ≠ off / blockSize := fun h => hks (h ▸ hk)
    unfold isMapped
    rw [href, hd.mapped.other (n, place k) (place_ne_table k) (by simpa using fun h => hne (place_inj h))]
  have htab : ref E s.disk (n, .table) = (s.mem p).entry.indirect.toNat := by
    rw [ref_of_inUse hn, hE]
    rfl
  have htab' : ref (Function.update E n e) v.disk (n, .table) = (t.mem p).entry.indirect.toNat := by
    rw [href, ref_of_inUse hn', Function.update_self, hent]
    rfl
  -- The index block is there after `inode_map` if it was or a slot was mapped.
  have htable : hasTable (Function.update E n e) v.disk n = (hasTable E s.disk n ||
      (!isMapped E s.disk n (off / blockSize) && decide (inodeNumDirect ≤ off / blockSize))) := by
    unfold hasTable isMapped
    by_cases h0 : (s.mem p).entry.indirect = 0
    · by_cases h12 : inodeNumDirect ≤ off / blockSize
      · have hslot : ref E s.disk (n, place (off / blockSize)) = 0 := by
          by_contra hne
          exact table_of_slot h12 hne (by rw [htab, h0]; rfl)
        have hnew : ref (Function.update E n e) v.disk (n, .table) ≠ 0 := by
          rw [href]
          exact table_of_slot h12 (by rw [hd.mapped.here]; exact hb)
        simp [hslot, h12, hnew]
      · rw [htab', hm.table (.inr (Nat.not_le.mp h12)), htab]
        simp [h12]
    · rw [htab', hm.table (.inl h0), htab]
      simp [toNat_eq_zero, h0]
  -- The index block stays once it is there.
  have hsame (h : inodeNumDirect ≤ off / blockSize ∧
      ref E s.disk (n, place (off / blockSize)) = 0) :
      (u.mem p).entry.indirect = (t.mem p).entry.indirect := by
    rw [hrest.table, hmem]
    rw [hmem]
    have hnew : ref (Function.update E n e) v.disk (n, .table) ≠ 0 := by
      rw [href]
      exact table_of_slot h.1 (by rw [hd.mapped.here]; exact hb)
    rw [htab'] at hnew
    exact .inl fun h0 => hnew (by rw [h0]; rfl)
  constructor
  case groups =>
    have hgroups := hrest.groups
    rw [wants_congr hmapped, htable, hused, hm.used] at hgroups
    rw [List.map_append, hgroups, wants, groupsFor_append, hm.groups]
    rfl
  case used => rw [hrest.used, hused, hm.used, List.map_append, List.foldl_append]
  case data =>
    intro c hc
    rcases List.mem_append.mp hc with hc | hc
    · exact (hm.blocks c hc).1
    · exact hrest.data c hc
  case mem =>
    intro x
    have hslots : (∃ k ∈ ks, inodeNumDirect ≤ k ∧ isMapped (Function.update E n e) v.disk n k = false) ↔
        ∃ k ∈ ks, inodeNumDirect ≤ k ∧ isMapped E s.disk n k = false := by
      refine exists_congr fun k => and_congr_right fun hk => ?_
      rw [hmapped k hk]
    have hcond : (inodeNumDirect ≤ off / blockSize ∧ isMapped E s.disk n (off / blockSize) = false) ↔
        inodeNumDirect ≤ off / blockSize ∧ ref E s.disk (n, place (off / blockSize)) = 0 := by
      simp [isMapped]
    have htop : (x ∈ if inodeNumDirect ≤ off / blockSize ∧
        ref E s.disk (n, place (off / blockSize)) = 0 then [(t.mem p).entry.indirect.toNat] else []) ↔
        (inodeNumDirect ≤ off / blockSize ∧ isMapped E s.disk n (off / blockSize) = false) ∧
          x = (u.mem p).entry.indirect.toNat := by
      rw [hcond]
      split
      case isTrue hc => rw [hsame hc, List.mem_singleton, and_iff_right hc]
      case isFalse hc => simp [hc]
    have hnew (hx : x ∈ new) : x = b ∨ ((inodeNumDirect ≤ off / blockSize ∧
        isMapped E s.disk n (off / blockSize) = false) ∧ x = (u.mem p).entry.indirect.toNat) := by
      refine (hm.blocks x hx).2.imp id fun h => ?_
      exact ⟨hcond.mpr ⟨h.1, h.2.1⟩, by rw [hsame ⟨h.1, h.2.1⟩]; exact h.2.2⟩
    rw [List.mem_append, List.mem_append, List.mem_cons, htop, mem_flatMap_allocSyncs, hrest.mem, hslots,
      Function.update_idem, List.map_append, List.mem_append, List.exists_mem_cons_iff,
      List.exists_mem_cons_iff, hkept]
    exact join_syncs hnew
  case table =>
    intro h
    have hkeep := hm.table (h.imp_right fun hall => hall _ List.mem_cons_self)
    rw [hrest.table, hmem, hkeep]
    rw [hmem, hkeep]
    exact h.imp_right fun hall k hk => hall k (List.mem_cons_of_mem _ hk)

theorem blocksAt_nil {start stop : Nat} (h : ¬start < stop) : blocksAt start stop = [] := by
  rw [blocksAt, touched, if_neg h]
  rfl

/-- The loop of `inode_write` from `start` on, with enough fuel. -/
theorem writeLoop_syncs {src : Nat → UInt8} {off stop fuel start : Nat}
    (hE : E n = (s.mem p).entry) (hno : (s.mem p).inodeNo = n) (hn : InUse E n)
    (ho : BlocksOwned E s.disk) (hheld : s.held = []) (hu : UsedExact s.disk s.usedBlock)
    (hoff : off ≤ start) (hfuel : stop ≤ start + fuel)
    (hr : Runs (writeLoop sblock false p src off stop fuel start m) s m' t) :
    ∃ l new, Syncs (fun ctx => writeLoop sblock ctx p src off stop fuel start m) s m' t l ∧
      LoopSyncs p n (blocksAt start stop) E s t l new ∧ (m' = true ↔ m = true ∨ new ≠ []) := by
  induction fuel generalizing s start m E with
  | zero =>
    obtain ⟨rfl, rfl⟩ := runs_pure.mp hr
    refine ⟨[], [], .pure _ _, ?_, by simp⟩
    rw [blocksAt_nil (by omega)]
    exact .nothing ..
  | succ fuel ih =>
    unfold writeLoop at hr ⊢
    by_cases hlt : start < stop
    · simp only [if_pos hlt] at hr ⊢
      obtain ⟨⟨b, m₁⟩, u, hmap, hrest⟩ := runs_bind.mp hr
      simp only [runs_bind, runs_cacheAcquire, runs_writeBack] at hrest
      obtain ⟨_, _, ⟨hbheld, rfl, rfl⟩, _, _, ⟨c, hc, rfl⟩, hloop⟩ := hrest
      cases hc
      set step := min (stop - start) (blockSize - start % blockSize) with hstep
      have hstep' : step = min (stop - start) (512 - start % 512) := hstep
      obtain ⟨-, e, hd⟩ := inodeMap_spec hE hn ho hmap
      obtain ⟨new, hm⟩ := inodeMap_syncs hE hno hn ho hheld hu hmap
      have hb : b ≠ 0 := hd.filled hu
      obtain ⟨hks, hnotin⟩ := blocksAt_step hlt hstep
      have hmeta := hd.mapped.owned.not_meta hd.mapped.here.symm
      set x := (u.disk b).splice (start % blockSize) step fun i => src (start - off + i) with hx
      set v : State := { u with
        disk := Function.update u.disk b x
        held := (b :: u.held).erase b } with hv
      have hframe : OnEntry p e s v := hd.frame.store hmeta.2 x u.ctx
      have hn' : InUse (Function.update E n e) n :=
        (inUse_update (by rw [hd.fields.type, hE])).mpr hn
      have howned : BlocksOwned (Function.update E n e) v.disk :=
        hd.mapped.owned.store hd.mapped.here.symm
      have href : ref (Function.update E n e) v.disk = ref (Function.update E n e) u.disk :=
        ref_store hd.mapped.owned hd.mapped.here.symm
      have hent : Function.update E n e n = (v.mem p).entry := by
        rw [Function.update_self, hframe.inode]
      have hno' : (v.mem p).inodeNo = n := by rw [hframe.inode]; exact hno
      obtain ⟨l, new', hsyncs, hloopSyncs, hmod⟩ := ih (s := v) hent hno' hn' howned
        (hframe.held.trans hheld) (hframe.used hu) (by omega) (by omega) hloop
      obtain ⟨e', -, hframe', hwrote, -⟩ := writeLoop_spec hn' hent howned (by omega) (by omega) hloop
      rw [Function.update_idem] at hwrote
      have hkept : ref (Function.update E n (t.mem p).entry) t.disk (n, place (start / blockSize)) = b := by
        have hhere : ref (Function.update E n e) v.disk (n, place (start / blockSize)) = b := by
          rw [href, hd.mapped.here]
        rw [hframe'.inode, hwrote.refs n (start / blockSize) (by rw [hhere]; exact hb), hhere]
      refine ⟨_, new ++ new', hm.syncs.bind ((Syncs.acquire hbheld).bind ((Syncs.writeBack b _ _).bind
        hsyncs)), ?_, ?_⟩
      · rw [hks]
        exact .cons (v := v) hE hn hd hb hm hnotin rfl rfl href hloopSyncs hkept
      · rw [hmod, Bool.or_eq_true, hm.modified, ne_eq, ne_eq, ne_eq, List.append_eq_nil_iff]
        tauto
    · simp only [if_neg hlt] at hr ⊢
      obtain ⟨rfl, rfl⟩ := runs_pure.mp hr
      refine ⟨[], [], .pure _ _, ?_, by simp⟩
      rw [blocksAt_nil hlt]
      exact .nothing ..

/-! ### How many blocks a write syncs -/

theorem wants_eq_nil_iff {mapped : Nat → Bool} {ks : List Nat} (table : Bool) :
    wants mapped table ks = [] ↔ ∀ k ∈ ks, mapped k = true := by
  induction ks generalizing table with
  | nil => simp [wants]
  | cons k ks ih =>
    rw [wants, List.append_eq_nil_iff, ih, List.forall_mem_cons]
    refine and_congr_left fun _ => ?_
    unfold wantsAt
    split
    · simp [*]
    · split <;> simp [*]

theorem groupsFor_eq_nil_iff {home : Nat} {used : Nat → UInt32} {ws : List Want} :
    groupsFor home used ws = [] ↔ ws = [] := by
  cases ws <;> simp [groupsFor]

theorem bitmapOf_eq_groupOf (b : Nat) : bitmapOf b = 65 + groupOf b * 1000 + 3 := rfl

/-- The blocks of the bitmaps of some blocks are as many as their groups. -/
theorem card_map_bitmapOf (l : List Nat) :
    (l.map bitmapOf).toFinset.card = (l.map groupOf).toFinset.card := by
  have himage : (l.map bitmapOf).toFinset =
      (l.map groupOf).toFinset.image fun g => 65 + g * 1000 + 3 := by
    ext x
    simp [bitmapOf_eq_groupOf]
  rw [himage]
  refine Finset.card_image_of_injective _ fun g h hgh => ?_
  have hgh' : 65 + g * 1000 + 3 = 65 + h * 1000 + 3 := hgh
  omega

/-- The number of blocks that the loop of `inode_write` syncs for the blocks `ks` of a file. -/
def loopSize (mapped : Nat → Bool) (table : Bool) (home : Nat) (used : Nat → UInt32)
    (ks : List Nat) : Nat :=
  ks.length + (groupsFor home used (wants mapped table ks)).toFinset.card +
    if ks.any fun k => inodeNumDirect ≤ k ∧ mapped k = false then 1 else 0

theorem any_unmapped {mapped : Nat → Bool} {ks : List Nat} (h : ∀ k ∈ ks, mapped k = true) :
    (ks.any fun k => mapped k = false) = false := by
  refine List.any_eq_false.mpr fun k hk => ?_
  simp [h k hk]

/-- For blocks that are there, only they are synced. -/
theorem loopSize_mapped {mapped : Nat → Bool} {ks : List Nat} (table : Bool) (home : Nat) (used : Nat → UInt32)
    (h : ∀ k ∈ ks, mapped k = true) : loopSize mapped table home used ks = ks.length := by
  have hslot : (ks.any fun k => inodeNumDirect ≤ k ∧ mapped k = false) = false := by
    refine List.any_eq_false.mpr fun k hk => ?_
    simp [h k hk]
  rw [loopSize, (wants_eq_nil_iff table).mpr h, hslot]
  rfl

section

variable {ks l new : List Nat} (h : LoopSyncs p n ks E s t l new)
  (ho : BlocksOwned (Function.update E n (t.mem p).entry) t.disk)
  (hn : InUse (Function.update E n (t.mem p).entry) n)
  (hfilled : ∀ k ∈ ks, ref (Function.update E n (t.mem p).entry) t.disk (n, place k) ≠ 0)

include h ho hn hfilled

omit h ho in
/-- The index block is a block of its own. -/
theorem LoopSyncs.table_ref (hslot : ∃ k ∈ ks, inodeNumDirect ≤ k ∧ isMapped E s.disk n k = false) :
    ref (Function.update E n (t.mem p).entry) t.disk (n, .table) = (t.mem p).entry.indirect.toNat ∧
      (t.mem p).entry.indirect.toNat ≠ 0 := by
  have htab : ref (Function.update E n (t.mem p).entry) t.disk (n, .table) =
      (t.mem p).entry.indirect.toNat := by
    rw [ref_of_inUse hn, Function.update_self]
    rfl
  obtain ⟨k, hk, hk12, -⟩ := hslot
  exact ⟨htab, htab ▸ table_of_slot hk12 (hfilled k hk)⟩

theorem LoopSyncs.kinds : ∀ x ∈ l, IsBitmap x ∨ IsData x := by
  intro x hx
  rcases (h.mem x).mp hx with hx | ⟨k, hk, rfl⟩ | ⟨hslot, rfl⟩
  · obtain ⟨c, hc, rfl⟩ := List.mem_map.mp hx
    exact .inl (isBitmap_bitmapOf (h.data c hc).1)
  · exact .inr (ho.owns.inArea _ (hfilled k hk))
  · obtain ⟨htab, h0⟩ := LoopSyncs.table_ref hn hfilled hslot
    rw [← htab] at h0 ⊢
    exact .inr (ho.owns.inArea _ h0)

theorem LoopSyncs.card (hks : ks.Nodup) :
    l.toFinset.card = loopSize (isMapped E s.disk n) (hasTable E s.disk n) (inodeGroup n) s.usedBlock
      ks := by
  set f : Nat → Nat := fun k => ref (Function.update E n (t.mem p).entry) t.disk (n, place k) with hf
  -- The three kinds of blocks.
  have hset : l.toFinset = (new.map bitmapOf).toFinset ∪ ((ks.map f).toFinset ∪
      if ∃ k ∈ ks, inodeNumDirect ≤ k ∧ isMapped E s.disk n k = false then
        {(t.mem p).entry.indirect.toNat} else ∅) := by
    ext x
    rw [List.mem_toFinset, h.mem, Finset.mem_union, Finset.mem_union, List.mem_toFinset,
      List.mem_toFinset]
    have hmap : (∃ k ∈ ks, x = f k) ↔ x ∈ ks.map f := by
      simp only [List.mem_map, eq_comm]
    rw [hmap]
    refine or_congr_right (or_congr_right ?_)
    split
    case isTrue hslot => simp [hslot]
    case isFalse hslot => simp [hslot]
  have hdata (x : Nat) (hx : x ∈ ks.map f) : IsData x := by
    obtain ⟨k, hk, rfl⟩ := List.mem_map.mp hx
    exact ho.owns.inArea _ (hfilled k hk)
  have hinj : (ks.map f).Nodup := by
    refine hks.map_on fun k hk k' _ heq => ?_
    have hi := ho.owns.distinct _ _ (hfilled k hk) heq
    exact place_inj (Prod.mk.inj hi).2
  have hgroups : (new.map bitmapOf).toFinset.card = (groupsFor (inodeGroup n) s.usedBlock
      (wants (isMapped E s.disk n) (hasTable E s.disk n) ks)).toFinset.card := by
    rw [card_map_bitmapOf, h.groups]
  have hbitmap (x : Nat) (hx : x ∈ (new.map bitmapOf).toFinset) : IsBitmap x := by
    obtain ⟨c, hc, rfl⟩ := List.mem_map.mp (List.mem_toFinset.mp hx)
    exact isBitmap_bitmapOf (h.data c hc).1
  have hany : (ks.any fun k => inodeNumDirect ≤ k ∧ isMapped E s.disk n k = false) = true ↔
      ∃ k ∈ ks, inodeNumDirect ≤ k ∧ isMapped E s.disk n k = false := by
    simp
  rw [hset, loopSize]
  by_cases hslot : ∃ k ∈ ks, inodeNumDirect ≤ k ∧ isMapped E s.disk n k = false
  · obtain ⟨htab, h0⟩ := LoopSyncs.table_ref hn hfilled hslot
    have htabData : IsData (t.mem p).entry.indirect.toNat := by
      rw [← htab] at h0 ⊢
      exact ho.owns.inArea _ h0
    have hnot : Disjoint (ks.map f).toFinset {(t.mem p).entry.indirect.toNat} := by
      rw [Finset.disjoint_singleton_right, List.mem_toFinset]
      intro hmem
      obtain ⟨k, hk, heq⟩ := List.mem_map.mp hmem
      have hi := ho.owns.distinct _ _ (hfilled k hk) (heq.trans htab.symm)
      exact place_ne_table k (Prod.mk.inj hi).2
    rw [if_pos hslot, if_pos (hany.mpr hslot), Finset.card_union_of_disjoint, Finset.card_union_of_disjoint
      hnot, List.toFinset_card_of_nodup hinj, List.length_map, Finset.card_singleton, hgroups]
    · omega
    · refine Finset.disjoint_left.mpr fun x hx hx' => ?_
      rcases Finset.mem_union.mp hx' with hx' | hx'
      · exact (hdata x (List.mem_toFinset.mp hx')).not_bitmap (hbitmap x hx)
      · exact htabData.not_bitmap (Finset.mem_singleton.mp hx' ▸ hbitmap x hx)
  · rw [if_neg hslot, if_neg (fun hc => hslot (hany.mp hc)), Finset.union_empty,
      Finset.card_union_of_disjoint, List.toFinset_card_of_nodup hinj, List.length_map, hgroups]
    · omega
    · exact Finset.disjoint_left.mpr fun x hx hx' =>
        (hdata x (List.mem_toFinset.mp hx')).not_bitmap (hbitmap x hx)

end

/-! ### `inode_write` -/

theorem inodeSync_syncs (hv : (s.mem p).valid = true) (hheld : toBlockNo sblock (s.mem p).inodeNo ∉ s.held) :
    Syncs (fun ctx => inodeSync sblock ctx p true) s () { s with
      disk := storeEntry s.disk (s.mem p).inodeNo (s.mem p).entry }
      [toBlockNo sblock (s.mem p).inodeNo] := by
  unfold inodeSync
  refine .get (fun _ _ => rfl) ((Syncs.acquire hheld).bind ?_)
  simp only [hv, and_self, if_true]
  have hwrite := Syncs.writeBack (toBlockNo sblock (s.mem p).inodeNo)
    (setEntry (s.disk (toBlockNo sblock (s.mem p).inodeNo)) ((s.mem p).inodeNo % inodePerBlock)
      (s.mem p).entry) { s with held := toBlockNo sblock (s.mem p).inodeNo :: s.held }
  rw [List.erase_cons_head] at hwrite
  exact hwrite

theorem LoopSyncs.congr {ks l new : List Nat} (h : LoopSyncs p n ks E s t l new)
    (hused : u.usedBlock = t.usedBlock)
    (href : ref (Function.update E n (u.mem p).entry) u.disk =
      ref (Function.update E n (t.mem p).entry) t.disk)
    (hind : (u.mem p).entry.indirect = (t.mem p).entry.indirect) : LoopSyncs p n ks E s u l new := by
  refine ⟨h.groups, hused.trans h.used, h.data, fun x => ?_, fun h0 => hind.trans (h.table h0)⟩
  rw [href, hind]
  exact h.mem x

/-- `inode_write` syncs what its loop syncs, and the block of the inode if the inode changed. -/
theorem inodeWrite_syncs {src : Nat → UInt8} {off count r : Nat} (hv : (s.mem p).valid = true)
    (hno : (s.mem p).inodeNo = n) (hE : E n = (s.mem p).entry) (hn : InUse E n)
    (ho : BlocksOwned E s.disk) (hheld : s.held = []) (hu : UsedExact s.disk s.usedBlock)
    (hdev : (s.mem p).entry.type ≠ inodeDevice)
    (hr : Runs (inodeWrite sblock false p src off count) s r t) :
    ∃ l new, LoopSyncs p n (blocksAt off (off + count)) E s t l new ∧
      Syncs (fun ctx => inodeWrite sblock ctx p src off count) s r t
        (l ++ if off + count > (s.mem p).entry.numBytes.toNat ∨ new ≠ [] then [toBlockNo sblock n]
          else []) := by
  simp only [inodeWrite, runs_bind, runs_get] at hr ⊢
  obtain ⟨_, _, ⟨rfl, rfl⟩, hr⟩ := hr
  rw [if_neg hdev] at hr
  simp only [runs_bind, runs_require, runs_pure] at hr
  obtain ⟨_, _, ⟨hoff, rfl⟩, _, _, ⟨hmax, rfl⟩, m, u, hloop, _, v, hsize, _, w, hsync, rfl, rfl⟩ := hr
  obtain ⟨l, new, hsyncs, hloopSyncs, hmod⟩ := writeLoop_syncs hE hno hn ho hheld hu (Nat.le_refl off)
    (Nat.le_refl _) hloop
  obtain ⟨e, hmeta, hframe, hwrote, -⟩ := writeLoop_spec hn hE ho (Nat.le_refl off) (Nat.le_refl _) hloop
  have hent : (u.mem p).entry = e := by rw [hframe.inode]
  have hmem : (u.mem p).inodeNo = n ∧ (u.mem p).valid = true := by
    rw [hframe.inode]
    exact ⟨hno, hv⟩
  -- The size is all that changes after the loop, in memory and then on disk.
  obtain ⟨hsizes, hdisk, hheldv, hnov, hvv, hblocks⟩ : Syncs (fun _ => Exec.when
      (off + count > (s.mem p).entry.numBytes.toNat)
      (modifyEntry p fun e => { e with numBytes := UInt32.ofNat (off + count) })) u () v [] ∧
      v.disk = u.disk ∧ v.held = [] ∧ (v.mem p).inodeNo = n ∧ (v.mem p).valid = true ∧
      SameBlocks (u.mem p).entry (v.mem p).entry := by
    have hheldu : u.held = [] := hframe.held.trans hheld
    rcases runs_when.mp hsize with ⟨hc, hset⟩ | ⟨hc, rfl⟩
    · obtain rfl := runs_modifyEntry.mp hset
      refine ⟨?_, rfl, hheldu, ?_, ?_, ?_⟩
      · simp only [Exec.when, if_pos hc]
        exact .modify fun _ => rfl
      · rw [State.mem_setInode_same]
        exact hmem.1
      · rw [State.mem_setInode_same]
        exact hmem.2
      · rw [State.mem_setInode_same]
        exact ⟨rfl, rfl, rfl⟩
    · refine ⟨?_, rfl, hheldu, hmem.1, hmem.2, .refl _⟩
      simp only [Exec.when, if_neg hc]
      exact .pure _ _
  have hrefv : ref (Function.update E n (v.mem p).entry) v.disk =
      ref (Function.update E n (u.mem p).entry) u.disk := by
    rw [hdisk]
    refine ref_sameBlocks fun m _ => ?_
    simp only [Function.update_apply]
    split
    · exact hblocks
    · exact .refl _
  have hownedv : BlocksOwned (Function.update E n (v.mem p).entry) v.disk := by
    rw [← hent] at hwrote
    exact hwrote.owned.congr hrefv fun c _ => by rw [hdisk]
  have husedv : v.usedBlock = u.usedBlock := by
    rcases runs_when.mp hsize with ⟨-, hset⟩ | ⟨-, rfl⟩
    · rw [runs_modifyEntry.mp hset]
      rfl
    · rfl
  have hloopv := hloopSyncs.congr husedv hrefv hblocks.indirect
  have hchanged : (off + count > (s.mem p).entry.numBytes.toNat ∨ m = true) ↔
      off + count > (s.mem p).entry.numBytes.toNat ∨ new ≠ [] := by
    rw [hmod]
    simp
  refine ⟨l, new, ?_, .get (fun _ _ => rfl) ?_⟩
  · rcases runs_when.mp hsync with ⟨-, hstore⟩ | ⟨-, rfl⟩
    · obtain ⟨-, c, -, rfl⟩ := (runs_inodeSync_write hvv).mp hstore
      refine hloopv.congr rfl ?_ rfl
      rw [hnov]
      exact (sameData_storeEntry hn.1).ref hownedv
    · exact hloopv
  · simp only [if_neg hdev]
    have hlast : Syncs (fun ctx => Exec.when (off + count > (s.mem p).entry.numBytes.toNat ∨ m = true)
        (inodeSync sblock ctx p true)) v () w
        (if off + count > (s.mem p).entry.numBytes.toNat ∨ new ≠ [] then [toBlockNo sblock n] else []) := by
      by_cases hc : off + count > (s.mem p).entry.numBytes.toNat ∨ m = true
      · rcases runs_when.mp hsync with ⟨-, hstore⟩ | ⟨hc', -⟩
        · obtain ⟨-, c, hctx, rfl⟩ := (runs_inodeSync_write hvv).mp hstore
          cases hctx
          simp only [Exec.when, if_pos hc, if_pos (hchanged.mp hc)]
          rw [← hnov]
          exact inodeSync_syncs hvv (by simp [hheldv])
        · exact absurd hc hc'
      · rcases runs_when.mp hsync with ⟨hc', -⟩ | ⟨-, rfl⟩
        · exact absurd hc' hc
        · simp only [Exec.when, if_neg hc, if_neg fun h => hc (hchanged.mpr h)]
          exact .pure _ _
    rw [← List.nil_append (l ++ _), ← List.nil_append (l ++ _), ← List.append_nil (ite _ _ _),
      ← List.nil_append (ite _ _ _ ++ _)]
    exact (Syncs.require hoff s).bind ((Syncs.require hmax s).bind (hsyncs.bind (hsizes.bind
      (hlast.bind (.pure count w)))))

end FtosFfs.Fs
