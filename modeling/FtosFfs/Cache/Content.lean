import FtosFfs.Cache.Blocks

/-! What a block cache holds when one thread uses it at a time: the contents of each block as seen
through the cache, the pinned blocks, the blocks held by the caller, and how each operation of
`fs/cache.c` on blocks changes them. -/

namespace FtosFfs.Cache.BCache

open Lib

/-- The state between two calls of a single user: block numbers are distinct, every cached block
is loaded, a block is acquired exactly when its lock is taken, and a block that is neither locked
nor pinned agrees with the device. -/
structure Ok (c : BCache) : Prop where
  nodup : c.list.Nodup
  bound : ∀ p ∈ c.list, p < c.list.length
  inj : ∀ p ∈ c.list, ∀ q ∈ c.list, (c.mem p).blockNo = (c.mem q).blockNo → p = q
  valid : ∀ p ∈ c.list, (c.mem p).valid = true
  acquired : ∀ p ∈ c.list, (c.mem p).acquired = (c.mem p).locked
  clean : ∀ p ∈ c.list, (c.mem p).locked = false → (c.mem p).pinned = false →
    (c.mem p).data = c.device (c.mem p).blockNo

/-- The contents of block `b` as seen through the cache. -/
def view (c : BCache) (b : Nat) : BlockData :=
  match c.list.find? fun p => (c.mem p).blockNo = b with
  | some p => (c.mem p).data
  | none => c.device b

/-- Block `b` is pinned in the cache. -/
def Pinned (c : BCache) (b : Nat) : Prop :=
  ∃ p ∈ c.list, (c.mem p).blockNo = b ∧ (c.mem p).pinned = true

/-- Block `b` is in the cache. -/
def Cached (c : BCache) (b : Nat) : Prop := ∃ p ∈ c.list, (c.mem p).blockNo = b

/-- The caller has block `b`, at `p`. -/
def Holds (c : BCache) (b : Nat) (p : Ptr) : Prop :=
  p ∈ c.list ∧ (c.mem p).blockNo = b ∧ (c.mem p).locked = true

/-- No block is held. -/
def Quiet (c : BCache) : Prop := ∀ p ∈ c.list, (c.mem p).locked = false

theorem view_cached {c : BCache} (h : c.Ok) {p : Ptr} (hp : p ∈ c.list) :
    c.view (c.mem p).blockNo = (c.mem p).data := by
  rw [view]
  cases hf : c.list.find? fun q => (c.mem q).blockNo = (c.mem p).blockNo with
  | none =>
    have := List.find?_eq_none.mp hf p hp
    simp at this
  | some q =>
    have hq := List.find?_some hf
    obtain rfl := h.inj q (List.mem_of_find?_eq_some hf) p hp (by simpa using hq)
    rfl

theorem view_missing {c : BCache} {b : Nat} (h : ∀ p ∈ c.list, (c.mem p).blockNo ≠ b) :
    c.view b = c.device b := by
  rw [view, List.find?_eq_none.mpr fun p hp => by simpa using h p hp]

theorem Holds.view {c : BCache} (h : c.Ok) {b : Nat} {p : Ptr} (hp : c.Holds b p) :
    c.view b = (c.mem p).data := by
  rw [← hp.2.1]
  exact view_cached h hp.1

/-- A block that is not pinned and not held has the contents of the device. -/
theorem view_clean {c : BCache} (h : c.Ok) {b : Nat} (hb : ¬c.Pinned b)
    (hheld : ∀ p, ¬c.Holds b p) : c.view b = c.device b := by
  by_cases hc : ∃ p ∈ c.list, (c.mem p).blockNo = b
  · obtain ⟨p, hp, rfl⟩ := hc
    rw [view_cached h hp]
    have hl : (c.mem p).locked = false := by
      by_contra hl
      exact hheld p ⟨hp, rfl, by simpa using hl⟩
    refine h.clean p hp hl ?_
    by_contra hpin
    exact hb ⟨p, hp, rfl, by simpa using hpin⟩
  · exact view_missing fun p hp hpb => hc ⟨p, hp, hpb⟩

/-! ### Changes of one block -/

@[simp] theorem set_list (c : BCache) (p : Ptr) (blk : Block) : (c.set p blk).list = c.list := rfl

@[simp] theorem set_device (c : BCache) (p : Ptr) (blk : Block) :
    (c.set p blk).device = c.device := rfl

theorem set_mem (c : BCache) (p : Ptr) (blk : Block) (q : Ptr) :
    (c.set p blk).mem q = if q = p then blk else c.mem q := by
  simp [set, Function.update_apply]

theorem set_mem_self (c : BCache) (p : Ptr) (blk : Block) : (c.set p blk).mem p = blk := by
  simp [set]

theorem set_mem_ne (c : BCache) {p q : Ptr} (blk : Block) (h : q ≠ p) :
    (c.set p blk).mem q = c.mem q := by
  simp [set, h]

/-- A change of a cached block that keeps its number and its flags in order, and that leaves it
clean, locked, or pinned, keeps the cache in order. -/
theorem Ok.set {c : BCache} (h : c.Ok) {p : Ptr} {blk : Block}
    (hno : blk.blockNo = (c.mem p).blockNo) (hvalid : blk.valid = true)
    (hacq : blk.acquired = blk.locked)
    (hclean : blk.locked = false → blk.pinned = false → blk.data = c.device blk.blockNo) :
    (c.set p blk).Ok := by
  have hblock (q : Ptr) : ((c.set p blk).mem q).blockNo = (c.mem q).blockNo := by
    rw [set_mem]
    split
    · rename_i hq; rw [hq, hno]
    · rfl
  refine ⟨h.nodup, h.bound, fun q hq r hr hqr => ?_, fun q hq => ?_, fun q hq => ?_,
    fun q hq => ?_⟩
  · rw [hblock, hblock] at hqr
    exact h.inj q hq r hr hqr
  all_goals rw [set_mem]; split
  · exact hvalid
  · exact h.valid q hq
  · exact hacq
  · exact h.acquired q hq
  · exact hclean
  · exact h.clean q hq

/-- The contents seen after a change of a cached block. -/
theorem view_set {c : BCache} (h : c.Ok) {p : Ptr} (hp : p ∈ c.list) {k : Block}
    (hno : k.blockNo = (c.mem p).blockNo) :
    (c.set p k).view = Function.update c.view (c.mem p).blockNo k.data := by
  have hblock (q : Ptr) : ((c.set p k).mem q).blockNo = (c.mem q).blockNo := by
    rw [set_mem]
    split
    · rename_i hq; rw [hq, hno]
    · rfl
  funext b
  have hfind : (c.set p k).list.find? (fun q => ((c.set p k).mem q).blockNo = b) =
      c.list.find? fun q => (c.mem q).blockNo = b := by
    simp only [hblock, set_list]
  rw [BCache.view, hfind]
  by_cases hb : b = (c.mem p).blockNo
  · subst hb
    cases hf : c.list.find? fun q => (c.mem q).blockNo = (c.mem p).blockNo with
    | none =>
      have := List.find?_eq_none.mp hf p hp
      simp at this
    | some q =>
      have hq := List.find?_some hf
      obtain rfl := h.inj q (List.mem_of_find?_eq_some hf) p hp (by simpa using hq)
      simp [set_mem_self]
  · rw [Function.update_of_ne hb, BCache.view]
    cases hf : c.list.find? fun q => (c.mem q).blockNo = b with
    | none => rfl
    | some q =>
      have hq : (c.mem q).blockNo = b := by simpa using List.find?_some hf
      have hqp : q ≠ p := by rintro rfl; exact hb hq.symm
      simp [set_mem_ne c k hqp]

theorem pinned_set {c : BCache} (h : c.Ok) {p : Ptr} (hp : p ∈ c.list) {k : Block}
    (hno : k.blockNo = (c.mem p).blockNo) (b : Nat) :
    (c.set p k).Pinned b ↔
      if b = (c.mem p).blockNo then k.pinned = true else c.Pinned b := by
  constructor
  · rintro ⟨q, hq, hqb, hpin⟩
    rw [set_mem] at hqb hpin
    by_cases hqp : q = p
    · rw [if_pos hqp] at hqb hpin
      rw [if_pos (by rw [← hqb, hno])]
      exact hpin
    · rw [if_neg hqp] at hqb hpin
      have hb : b ≠ (c.mem p).blockNo := by
        rintro rfl
        exact hqp (h.inj q hq p hp hqb)
      rw [if_neg hb]
      exact ⟨q, hq, hqb, hpin⟩
  · split
    · rename_i hb
      intro hpin
      exact ⟨p, hp, by rw [set_mem_self, hno, hb], by rw [set_mem_self]; exact hpin⟩
    · rename_i hb
      rintro ⟨q, hq, hqb, hpin⟩
      have hqp : q ≠ p := by rintro rfl; exact hb hqb.symm
      exact ⟨q, hq, by rwa [set_mem_ne c k hqp], by rwa [set_mem_ne c k hqp]⟩

/-- A change of a cached block that keeps its number and its data is not seen. -/
theorem view_set_same {c : BCache} (h : c.Ok) {p : Ptr} (hp : p ∈ c.list) {k : Block}
    (hno : k.blockNo = (c.mem p).blockNo) (hdata : k.data = (c.mem p).data) :
    (c.set p k).view = c.view := by
  rw [view_set h hp hno, hdata, ← view_cached h hp, Function.update_eq_self]

theorem pinned_set_same {c : BCache} (h : c.Ok) {p : Ptr} (hp : p ∈ c.list) {k : Block}
    (hno : k.blockNo = (c.mem p).blockNo) (hpin : k.pinned = (c.mem p).pinned) (b : Nat) :
    (c.set p k).Pinned b ↔ c.Pinned b := by
  rw [pinned_set h hp hno]
  split
  · rename_i hb
    rw [hpin]
    refine ⟨fun hpp => ⟨p, hp, hb.symm, hpp⟩, ?_⟩
    rintro ⟨q, hq, hqb, hpp⟩
    rwa [h.inj q hq p hp (hqb.trans hb)] at hpp
  · rfl

theorem cached_set {c : BCache} {p : Ptr} {k : Block} (hno : k.blockNo = (c.mem p).blockNo)
    (b : Nat) : (c.set p k).Cached b ↔ c.Cached b := by
  refine exists_congr fun q => and_congr_right fun _ => ?_
  by_cases hq : q = p
  · rw [hq, set_mem_self, hno]
  · rw [set_mem_ne c k hq]

theorem holds_set_ne {c : BCache} {p q : Ptr} {blk : Block} (h : q ≠ p) (b : Nat) :
    (c.set p blk).Holds b q ↔ c.Holds b q := by
  rw [Holds, Holds, set_mem_ne c blk h, set_list]

/-! ### Acquire -/

/-- The cache `c'` after `cache_acquire(b)` returned block `p` from cache `c`: the contents seen,
the pinned blocks, the device, and the other held blocks are as before. -/
structure Acquired (c : BCache) (b : Nat) (c' : BCache) (p : Ptr) : Prop where
  ok : c'.Ok
  holds : c'.Holds b p
  view : c'.view = c.view
  pinned : ∀ x, c'.Pinned x ↔ c.Pinned x
  device : c'.device = c.device
  kept : ∀ x q, c.Holds x q → q ≠ p ∧ c'.Holds x q ∧ c'.mem q = c.mem q
  back : ∀ x q, c'.Holds x q → x = b ∧ q = p ∨ c.Holds x q
  cached : ∀ x, c'.Cached x → x = b ∨ c.Cached x
  clean : (c'.mem p).pinned = true ∨ (c'.mem p).data = c.device b

theorem Acquired.data {c c' : BCache} {b : Nat} {p : Ptr} (h : Acquired c b c' p) :
    (c'.mem p).data = c.view b := by
  rw [← h.holds.view h.ok, h.view]

theorem front_mem_ne (c : BCache) {p q : Ptr} (blk : Block) (h : q ≠ p) :
    (c.front p blk).mem q = c.mem q := by
  simp [h]

/-- The cache after an acquire that makes `blk` the block at `p`: either `p` was the block `b`
and `blk` differs from it in `acquired` and `locked`, or `b` was not cached, `p` was free, and
`blk` is a clean copy of block `b`. -/
theorem acquired_front {c : BCache} (h : c.Ok) {b : Nat} {p : Ptr} {blk : Block}
    (hp : p ∈ c.list ∨ p = c.list.length) (hno : blk.blockNo = b) (hl : blk.locked = true)
    (hacq : blk.acquired = true) (hvalid : blk.valid = true)
    (hfree : p ∈ c.list → (c.mem p).locked = false)
    (hcase : p ∈ c.list ∧ (c.mem p).blockNo = b ∧ blk.data = (c.mem p).data ∧
        blk.pinned = (c.mem p).pinned ∨
      (∀ q ∈ c.list, (c.mem q).blockNo ≠ b) ∧ (p ∈ c.list → (c.mem p).pinned = false) ∧
        blk.data = c.device b ∧ blk.pinned = false) :
    Acquired c b (c.front p blk) p := by
  have hnew : p ∉ c.list → p = c.list.length := fun hn => hp.resolve_left hn
  have hmem (q : Ptr) : q ∈ (c.front p blk).list ↔ q = p ∨ q ∈ c.list := mem_front
  -- another cached block has another number than `b`
  have hother (q : Ptr) (hq : q ∈ c.list) (hqp : q ≠ p) : (c.mem q).blockNo ≠ b := by
    rcases hcase with ⟨hpl, hpb, -⟩ | ⟨hmiss, -⟩
    · intro hqb
      exact hqp (h.inj q hq p hpl (hqb.trans hpb.symm))
    · exact hmiss q hq
  have hblk : (c.front p blk).mem p = blk := by simp
  have hok : (c.front p blk).Ok := by
    refine ⟨?_, ?_, ?_, ?_, ?_, ?_⟩
    · exact List.nodup_cons.mpr ⟨h.nodup.not_mem_erase, h.nodup.erase p⟩
    · intro q hq
      by_cases hpl : p ∈ c.list
      · have hpos := List.length_pos_of_mem hpl
        have hlen : (c.front p blk).list.length = c.list.length := by
          simp [front, List.length_erase_of_mem hpl]; omega
        rw [hlen]
        rcases (hmem q).mp hq with rfl | hq
        · exact h.bound q hpl
        · exact h.bound q hq
      · have hlen : (c.front p blk).list.length = c.list.length + 1 := by
          simp [front, List.erase_of_not_mem hpl]
        rw [hlen]
        rcases (hmem q).mp hq with rfl | hq
        · exact Nat.lt_succ_of_le (Nat.le_of_eq (hnew hpl))
        · exact Nat.lt_succ_of_lt (h.bound q hq)
    · intro q hq r hr hqr
      by_cases hqp : q = p
      · by_cases hrp : r = p
        · rw [hqp, hrp]
        · rw [hqp, hblk, front_mem_ne c blk hrp, hno] at hqr
          exact absurd hqr.symm (hother r (((hmem r).mp hr).resolve_left hrp) hrp)
      · by_cases hrp : r = p
        · rw [hrp, hblk, front_mem_ne c blk hqp, hno] at hqr
          exact absurd hqr (hother q (((hmem q).mp hq).resolve_left hqp) hqp)
        · rw [front_mem_ne c blk hqp, front_mem_ne c blk hrp] at hqr
          exact h.inj q (((hmem q).mp hq).resolve_left hqp) r (((hmem r).mp hr).resolve_left hrp)
            hqr
    all_goals intro q hq; by_cases hqp : q = p
    · rw [hqp, hblk]; exact hvalid
    · rw [front_mem_ne c blk hqp]; exact h.valid q (((hmem q).mp hq).resolve_left hqp)
    · rw [hqp, hblk, hacq, hl]
    · rw [front_mem_ne c blk hqp]; exact h.acquired q (((hmem q).mp hq).resolve_left hqp)
    · rw [hqp, hblk, hl]; exact fun hf => absurd hf (by simp)
    · rw [front_mem_ne c blk hqp, front_device]
      exact h.clean q (((hmem q).mp hq).resolve_left hqp)
  have hholds : (c.front p blk).Holds b p :=
    ⟨(hmem p).mpr (.inl rfl), by rw [hblk, hno], by rw [hblk, hl]⟩
  refine ⟨hok, hholds, ?_, ?_, rfl, ?_, ?_, ?_, ?_⟩
  · funext x
    by_cases hxb : x = b
    · subst hxb
      rw [hholds.view hok, hblk]
      rcases hcase with ⟨hpl, rfl, hdata, -⟩ | ⟨hmiss, -, hdata, -⟩
      · rw [hdata, view_cached h hpl]
      · rw [hdata, view_missing hmiss]
    by_cases hx : ∃ q ∈ c.list, (c.mem q).blockNo = x
    · obtain ⟨q, hq, rfl⟩ := hx
      rw [view_cached h hq]
      by_cases hqp : q = p
      · -- block `x` was evicted, so it agreed with the device
        subst hqp
        rcases hcase with ⟨-, hpb, -⟩ | ⟨-, hpin, -⟩
        · exact absurd hpb hxb
        rw [h.clean q hq (hfree hq) (hpin hq)]
        refine view_missing fun r hr hrx => ?_
        by_cases hrq : r = q
        · rw [hrq, hblk, hno] at hrx; exact hxb hrx.symm
        · rw [front_mem_ne c blk hrq] at hrx
          exact hrq (h.inj r (((hmem r).mp hr).resolve_left hrq) q hq hrx)
      · have := view_cached hok ((hmem q).mpr (.inr hq))
        rwa [front_mem_ne c blk hqp] at this
    · rw [view_missing fun q hq hqx => hx ⟨q, hq, hqx⟩]
      refine view_missing fun r hr hrx => ?_
      by_cases hrp : r = p
      · rw [hrp, hblk, hno] at hrx; exact hxb hrx.symm
      · rw [front_mem_ne c blk hrp] at hrx
        exact hx ⟨r, ((hmem r).mp hr).resolve_left hrp, hrx⟩
  · intro x
    constructor
    · rintro ⟨q, hq, hqx, hpin⟩
      by_cases hqp : q = p
      · rw [hqp, hblk] at hqx hpin
        rcases hcase with ⟨hpl, hpb, -, hpp⟩ | ⟨-, -, -, hpp⟩
        · exact ⟨p, hpl, by rw [hpb, ← hqx, hno], by rw [← hpp, hpin]⟩
        · rw [hpp] at hpin; cases hpin
      · rw [front_mem_ne c blk hqp] at hqx hpin
        exact ⟨q, ((hmem q).mp hq).resolve_left hqp, hqx, hpin⟩
    · rintro ⟨q, hq, hqx, hpin⟩
      by_cases hqp : q = p
      · subst hqp
        rcases hcase with ⟨-, hpb, -, hpp⟩ | ⟨-, hpp, -⟩
        · exact ⟨q, (hmem q).mpr (.inl rfl), by rw [hblk, hno, ← hqx, hpb],
            by rw [hblk, hpp, hpin]⟩
        · rw [hpp hq] at hpin; cases hpin
      · exact ⟨q, (hmem q).mpr (.inr hq), by rwa [front_mem_ne c blk hqp],
          by rwa [front_mem_ne c blk hqp]⟩
  · rintro x q ⟨hq, hqx, hql⟩
    have hqp : q ≠ p := by rintro rfl; rw [hfree hq] at hql; cases hql
    exact ⟨hqp, ⟨(hmem q).mpr (.inr hq), by rwa [front_mem_ne c blk hqp],
      by rwa [front_mem_ne c blk hqp]⟩, front_mem_ne c blk hqp⟩
  · rintro x q ⟨hq, hqx, hql⟩
    by_cases hqp : q = p
    · rw [hqp, hblk, hno] at hqx
      exact .inl ⟨hqx.symm, hqp⟩
    · rw [front_mem_ne c blk hqp] at hqx hql
      exact .inr ⟨((hmem q).mp hq).resolve_left hqp, hqx, hql⟩
  · rintro x ⟨q, hq, hqx⟩
    by_cases hqp : q = p
    · rw [hqp, hblk, hno] at hqx
      exact .inl hqx.symm
    · rw [front_mem_ne c blk hqp] at hqx
      exact .inr ⟨q, ((hmem q).mp hq).resolve_left hqp, hqx⟩
  · rw [hblk]
    rcases hcase with ⟨hpl, hpb, hdata, hpin⟩ | ⟨-, -, hdata, -⟩
    · rw [hdata, hpin]
      by_cases hpp : (c.mem p).pinned = true
      · exact .inl hpp
      · exact .inr (by rw [h.clean p hpl (hfree hpl) (by simpa using hpp), hpb])
    · exact .inr hdata

theorem front_set (c : BCache) (p : Ptr) (blk blk' : Block) :
    (c.front p blk).set p blk' = c.front p blk' := by
  simp [front, set]

/-- `cache_acquire` of a block that is not held returns, as `Acquired` says; of a held block it
does not. -/
theorem cacheAcquire_cases {c : BCache} (h : c.Ok) (b : Nat) :
    (∃ c' p, c.cacheAcquire b = some (c', p) ∧ Acquired c b c' p) ∨
      c.cacheAcquire b = none ∧ ∃ p, c.Holds b p := by
  have hnew : c.list.length ∉ c.list := fun hmem => Nat.lt_irrefl _ (h.bound _ hmem)
  rcases c.acquireSlot_cases b with ⟨p, hp, hb, he⟩ | ⟨p, hp, hmiss, ha, hpin, he⟩ | ⟨hmiss, he⟩
  · by_cases hl : (c.mem p).locked = true
    · exact .inr ⟨by simp [cacheAcquire, he, acquireSleeplock, hl], p, hp, hb, hl⟩
    · refine .inl ⟨c.front p { c.mem p with acquired := true, locked := true }, p, ?_, ?_⟩
      · simp [cacheAcquire, he, acquireSleeplock, hl, front_set, load, h.valid p hp]
      · exact acquired_front h (.inl hp) hb rfl rfl (h.valid p hp) (fun _ => by simpa using hl)
          (.inl ⟨hp, hb, rfl, rfl⟩)
  · have hl : (c.mem p).locked = false := by rw [← h.acquired p hp, ha]
    refine .inl ⟨c.front p ⟨b, true, (c.mem p).pinned, true, true, c.device b⟩, p, ?_, ?_⟩
    · simp [cacheAcquire, he, acquireSleeplock, hl, front_set, load]
    · exact acquired_front h (.inl hp) rfl rfl rfl rfl (fun _ => hl)
        (.inr ⟨hmiss, fun _ => hpin, rfl, hpin⟩)
  · refine .inl ⟨c.front c.list.length ⟨b, true, false, true, true, c.device b⟩,
      c.list.length, ?_, ?_⟩
    · simp [cacheAcquire, he, allocSlot, acquireSleeplock, initBlock, front_set, load]
    · exact acquired_front h (.inr rfl) rfl rfl rfl rfl (fun hp => absurd hp hnew)
        (.inr ⟨hmiss, fun hp => absurd hp hnew, rfl, rfl⟩)

theorem cacheAcquire_spec {c c' : BCache} (h : c.Ok) {b : Nat} {p : Ptr}
    (ha : c.cacheAcquire b = some (c', p)) : Acquired c b c' p := by
  rcases cacheAcquire_cases h b with ⟨d, q, hd, hq⟩ | ⟨hnone, -⟩
  · rw [ha] at hd
    cases hd
    exact hq
  · rw [ha] at hnone; cases hnone

theorem cacheAcquire_returns {c : BCache} (h : c.Ok) {b : Nat} (hb : ∀ p, ¬c.Holds b p) :
    ∃ c' p, c.cacheAcquire b = some (c', p) ∧ Acquired c b c' p := by
  rcases cacheAcquire_cases h b with hret | ⟨-, p, hp⟩
  · exact hret
  · exact absurd hp (hb p)

/-! ### Operations on a held block -/

section Held

variable {c : BCache} {b : Nat} {p : Ptr}

theorem Holds.setData_ok (h : c.Ok) (hp : c.Holds b p) (d : BlockData) : (c.setData p d).Ok :=
  h.set rfl (h.valid p hp.1) (h.acquired p hp.1) fun hl => by simp [hp.2.2] at hl

theorem Holds.setData_view (h : c.Ok) (hp : c.Holds b p) (d : BlockData) :
    (c.setData p d).view = Function.update c.view b d := by
  have hv := view_set h hp.1 (k := { c.mem p with data := d }) rfl
  rwa [hp.2.1] at hv

theorem Holds.setData_pinned (h : c.Ok) (hp : c.Holds b p) (d : BlockData) (x : Nat) :
    (c.setData p d).Pinned x ↔ c.Pinned x :=
  pinned_set_same h hp.1 (k := { c.mem p with data := d }) rfl rfl x

theorem setData_cached (d : BlockData) (x : Nat) : (c.setData p d).Cached x ↔ c.Cached x :=
  cached_set (k := { c.mem p with data := d }) rfl x

theorem setData_holds (d : BlockData) (x : Nat) (q : Ptr) :
    (c.setData p d).Holds x q ↔ c.Holds x q := by
  by_cases hq : q = p
  · subst hq; simp [Holds, setData, set_mem_self]
  · exact holds_set_ne hq x

theorem Holds.setPinned_ok (h : c.Ok) (hp : c.Holds b p) (v : Bool) : (c.setPinned p v).Ok :=
  h.set rfl (h.valid p hp.1) (h.acquired p hp.1) fun hl => by simp [hp.2.2] at hl

theorem Holds.setPinned_view (h : c.Ok) (hp : c.Holds b p) (v : Bool) :
    (c.setPinned p v).view = c.view :=
  view_set_same h hp.1 rfl rfl

theorem Holds.setPinned_pinned (h : c.Ok) (hp : c.Holds b p) (v : Bool) (x : Nat) :
    (c.setPinned p v).Pinned x ↔ if x = b then v = true else c.Pinned x := by
  have hset := pinned_set h hp.1 (k := { c.mem p with pinned := v }) rfl x
  rwa [hp.2.1] at hset

theorem setPinned_cached (v : Bool) (x : Nat) : (c.setPinned p v).Cached x ↔ c.Cached x :=
  cached_set (k := { c.mem p with pinned := v }) rfl x

theorem setPinned_holds (v : Bool) (x : Nat) (q : Ptr) :
    (c.setPinned p v).Holds x q ↔ c.Holds x q := by
  by_cases hq : q = p
  · subst hq; simp [Holds, setPinned, set_mem_self]
  · exact holds_set_ne hq x

theorem Holds.deviceWrite_device (hp : c.Holds b p) :
    (c.deviceWrite p).device = Function.update c.device b (c.mem p).data := by
  rw [deviceWrite, hp.2.1]

theorem Holds.deviceWrite_ok (h : c.Ok) (hp : c.Holds b p) : (c.deviceWrite p).Ok := by
  refine ⟨h.nodup, h.bound, h.inj, h.valid, h.acquired, fun q hq hl hpin => ?_⟩
  rw [hp.deviceWrite_device]
  have hqb : (c.mem q).blockNo ≠ b := by
    intro hqb
    have hqp := h.inj q hq p hp.1 (hqb.trans hp.2.1.symm)
    subst hqp
    exact absurd (hl.symm.trans hp.2.2) (by simp)
  exact (h.clean q hq hl hpin).trans (Function.update_of_ne hqb _ _).symm

theorem Holds.deviceWrite_view (h : c.Ok) (hp : c.Holds b p) :
    (c.deviceWrite p).view = c.view := by
  funext x
  by_cases hx : ∃ q ∈ c.list, (c.mem q).blockNo = x
  · obtain ⟨q, hq, rfl⟩ := hx
    rw [view_cached h hq]
    exact view_cached (hp.deviceWrite_ok h) hq
  · have hmiss : ∀ q ∈ c.list, (c.mem q).blockNo ≠ x := fun q hq hqx => hx ⟨q, hq, hqx⟩
    rw [view_missing hmiss, view_missing (c := c.deviceWrite p) hmiss, hp.deviceWrite_device,
      Function.update_of_ne]
    rintro rfl
    exact hmiss p hp.1 hp.2.1

/-- The block after `cache_release`. -/
theorem cacheRelease_eq (c : BCache) (p : Ptr) :
    c.cacheRelease p = c.set p { c.mem p with locked := false, acquired := false } := by
  simp [cacheRelease, releaseSleeplock, clearAcquired, set]

/-- A block may be released once it is pinned or agrees with the device. -/
theorem Holds.cacheRelease_ok (h : c.Ok) (hp : c.Holds b p)
    (hclean : (c.mem p).pinned = true ∨ (c.mem p).data = c.device b) : (c.cacheRelease p).Ok := by
  rw [cacheRelease_eq]
  refine h.set rfl (h.valid p hp.1) rfl fun _ hpin => ?_
  rcases hclean with hpp | hd
  · exact absurd (hpp.symm.trans hpin) (by simp)
  · simpa [hp.2.1] using hd

theorem Holds.cacheRelease_view (h : c.Ok) (hp : c.Holds b p) :
    (c.cacheRelease p).view = c.view := by
  rw [cacheRelease_eq]
  exact view_set_same h hp.1 rfl rfl

theorem Holds.cacheRelease_pinned (h : c.Ok) (hp : c.Holds b p) (x : Nat) :
    (c.cacheRelease p).Pinned x ↔ c.Pinned x := by
  rw [cacheRelease_eq]
  exact pinned_set_same h hp.1
    (k := { c.mem p with locked := false, acquired := false }) rfl rfl x

theorem cacheRelease_cached (x : Nat) : (c.cacheRelease p).Cached x ↔ c.Cached x := by
  rw [cacheRelease_eq]
  exact cached_set (k := { c.mem p with locked := false, acquired := false }) rfl x

theorem cacheRelease_holds (x : Nat) (q : Ptr) :
    (c.cacheRelease p).Holds x q ↔ c.Holds x q ∧ q ≠ p := by
  rw [cacheRelease_eq]
  by_cases hq : q = p
  · subst hq; simp [Holds, set_mem_self]
  · simp [holds_set_ne hq, hq]

@[simp] theorem cacheRelease_device (c : BCache) (p : Ptr) :
    (c.cacheRelease p).device = c.device := rfl

@[simp] theorem setData_device (c : BCache) (p : Ptr) (d : BlockData) :
    (c.setData p d).device = c.device := rfl

@[simp] theorem setPinned_device (c : BCache) (p : Ptr) (v : Bool) :
    (c.setPinned p v).device = c.device := rfl

end Held

theorem Quiet.not_holds {c : BCache} (h : c.Quiet) (b : Nat) (p : Ptr) : ¬c.Holds b p :=
  fun hp => absurd ((h p hp.1).symm.trans hp.2.2) (by simp)

theorem quiet_of_not_holds {c : BCache} (h : ∀ b p, ¬c.Holds b p) : c.Quiet := by
  intro p hp
  by_contra hl
  exact h _ p ⟨hp, rfl, by simpa using hl⟩

end FtosFfs.Cache.BCache
