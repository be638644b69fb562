import FtosFfs.Cache.Blocks
import FtosFfs.Lib.Machine

/-! Threads that run `cache_acquire` and `cache_release` on one block cache.  A step is one region
under the cache lock, one acquire or release of a sleep lock, or the read that ends
`cache_acquire`.  A thread's `cache_release` can clear `acquired` after another thread took the
block, so a held block can lose its protection from eviction.  In the runs where `acquired` is
cleared only once no thread uses the block, every held block keeps its number, its contents, and
the flag. -/

namespace FtosFfs.Cache

open Lib

namespace Held

/-- Where a thread is inside `cache_acquire` or `cache_release`. -/
inductive Call
  | none
  /-- Past the cache lock, before the sleep lock. -/
  | queued (blockNo : Nat) (p : Ptr)
  /-- With the sleep lock, before the read of an invalid block. -/
  | locked (blockNo : Nat) (p : Ptr)
  /-- Past the release of the sleep lock, before `acquired` is cleared. -/
  | released (p : Ptr)
  deriving DecidableEq

/-- A thread, with the blocks it got from `cache_acquire` and has not released. -/
structure Thread where
  call : Call
  held : List (Nat × Ptr)
  deriving DecidableEq

structure World where
  cache : BCache
  thread : Nat → Thread

inductive Label
  | acquire (t b : Nat)
  | lock (t : Nat)
  | load (t : Nat)
  | unlock (t b : Nat) (p : Ptr)
  | clear (t : Nat)

instance : LawfulBEq (Nat × Ptr) := inferInstance

namespace World

def put (w : World) (c : BCache) (t : Nat) (th : Thread) : World where
  cache := c
  thread := Function.update w.thread t th

def next (w : World) : Label → Option World
  | .acquire t b =>
    if (w.thread t).call = .none then
      let (c, p) := w.cache.acquireSlot b
      some (w.put c t { w.thread t with call := .queued b p })
    else none
  | .lock t =>
    match (w.thread t).call with
    | .queued b p =>
      (w.cache.acquireSleeplock p).map fun c =>
        w.put c t { w.thread t with call := .locked b p }
    | _ => none
  | .load t =>
    match (w.thread t).call with
    | .locked b p => some (w.put (w.cache.load p) t ⟨.none, (b, p) :: (w.thread t).held⟩)
    | _ => none
  | .unlock t b p =>
    if (w.thread t).call = .none ∧ (b, p) ∈ (w.thread t).held then
      some (w.put (w.cache.releaseSleeplock p) t ⟨.released p, (w.thread t).held.erase (b, p)⟩)
    else none
  | .clear t =>
    match (w.thread t).call with
    | .released p => some (w.put (w.cache.clearAcquired p) t { w.thread t with call := .none })
    | _ => none

/-- Every thread is outside the cache, and the arena has handed out the blocks in the list. -/
def Init (w : World) : Prop :=
  (∀ p ∈ w.cache.list, p < w.cache.list.length) ∧ ∀ t, w.thread t = ⟨.none, []⟩

/-- Thread `t` is between the choice of block `p` for number `b` and the release of its lock. -/
def Uses (w : World) (t b : Nat) (p : Ptr) : Prop :=
  (w.thread t).call = .queued b p ∨ (w.thread t).call = .locked b p ∨ (b, p) ∈ (w.thread t).held

/-- The blocks whose sleep lock thread `t` has. -/
def owned (w : World) (t : Nat) : List Ptr :=
  (match (w.thread t).call with | .locked _ p => [p] | _ => []) ++ (w.thread t).held.map Prod.snd

/-- Each block that a thread holds has its number, is valid, and is marked acquired. -/
def HeldOk (w : World) : Prop :=
  ∀ t b p, (b, p) ∈ (w.thread t).held →
    (w.cache.mem p).blockNo = b ∧ (w.cache.mem p).valid = true ∧
      (w.cache.mem p).acquired = true

/-- The step clears `acquired` only on a block that no thread uses. -/
def Unshared (w : World) : Label → Prop
  | .clear t => ∀ p, (w.thread t).call = .released p → ∀ u b, ¬w.Uses u b p
  | _ => True

end World

def machine : Machine World Label where
  init := World.Init
  next := World.next

/-! ### The invariant of the runs that clear `acquired` in time -/

open World

/-- What holds while `acquired` is cleared only on unused blocks: a block in use is in the list,
has its number, and is marked acquired; its lock has one owner; and a held block is valid. -/
structure Inv (w : World) : Prop where
  bound : ∀ p ∈ w.cache.list, p < w.cache.list.length
  uses : ∀ t b p, w.Uses t b p →
    p ∈ w.cache.list ∧ (w.cache.mem p).blockNo = b ∧ (w.cache.mem p).acquired = true
  locked : ∀ t, ∀ p ∈ w.owned t, (w.cache.mem p).locked = true
  valid : ∀ t b p, (b, p) ∈ (w.thread t).held → (w.cache.mem p).valid = true
  nodup : ∀ t, (w.owned t).Nodup
  disjoint : ∀ t u, t ≠ u → ∀ p ∈ w.owned t, p ∉ w.owned u

theorem Inv.heldOk {w : World} (h : Inv w) : w.HeldOk := fun t b p hp =>
  ⟨(h.uses t b p (.inr (.inr hp))).2.1, h.valid t b p hp, (h.uses t b p (.inr (.inr hp))).2.2⟩

theorem uses_put_same {w : World} {c : BCache} {t : Nat} {th : Thread} {b : Nat} {p : Ptr} :
    (w.put c t th).Uses t b p ↔ th.call = .queued b p ∨ th.call = .locked b p ∨ (b, p) ∈ th.held := by
  simp [Uses, put]

theorem uses_put_ne {w : World} {c : BCache} {t u : Nat} {th : Thread} {b : Nat} {p : Ptr}
    (h : u ≠ t) : (w.put c t th).Uses u b p ↔ w.Uses u b p := by
  simp [Uses, put, h]

theorem owned_put_ne {w : World} {c : BCache} {t u : Nat} {th : Thread} (h : u ≠ t) :
    (w.put c t th).owned u = w.owned u := by
  simp [owned, put, h]

theorem uses_of_owned {w : World} {t : Nat} {p : Ptr} (h : p ∈ w.owned t) :
    ∃ b, w.Uses t b p := by
  rw [owned, List.mem_append] at h
  rcases h with h | h
  · split at h
    · rename_i b q hc
      simp only [List.mem_singleton] at h
      exact ⟨b, .inr (.inl (h ▸ hc))⟩
    · simp at h
  · obtain ⟨⟨b, q⟩, hq, rfl⟩ := List.mem_map.mp h
    exact ⟨b, .inr (.inr hq)⟩

/-- A block that some thread uses is kept by the search for a slot. -/
theorem acquireSlot_keeps {w : World} (h : Inv w) (b : Nat) {t b' : Nat} {p : Ptr}
    (hp : w.Uses t b' p) :
    p ∈ (w.cache.acquireSlot b).1.list ∧
      ((w.cache.acquireSlot b).1.mem p).blockNo = (w.cache.mem p).blockNo ∧
      ((w.cache.acquireSlot b).1.mem p).acquired = true ∧
      ((w.cache.acquireSlot b).1.mem p).valid = (w.cache.mem p).valid ∧
      ((w.cache.acquireSlot b).1.mem p).locked = (w.cache.mem p).locked := by
  obtain ⟨hmem, -, hacq⟩ := h.uses t b' p hp
  rcases w.cache.acquireSlot_cases b with ⟨q, hq, hb, he⟩ | ⟨q, hq, -, ha, -, he⟩ | ⟨-, he⟩
  · by_cases hpq : p = q
    · subst hpq
      simp [he, BCache.mem_front]
    · simp [he, BCache.mem_front, hpq, hmem, hacq]
  · -- the victim is not acquired, so it is another block
    have hpq : p ≠ q := by rintro rfl; simp [ha] at hacq
    simp [he, BCache.mem_front, hpq, hmem, hacq]
  · have hpq : p ≠ w.cache.list.length := Nat.ne_of_lt (h.bound p hmem)
    simp [he, BCache.allocSlot, BCache.mem_front, hpq, hmem, hacq]

theorem acquireSlot_slot (c : BCache) (b : Nat) :
    (c.acquireSlot b).2 ∈ (c.acquireSlot b).1.list ∧
      ((c.acquireSlot b).1.mem (c.acquireSlot b).2).blockNo = b ∧
      ((c.acquireSlot b).1.mem (c.acquireSlot b).2).acquired = true := by
  rcases c.acquireSlot_cases b with ⟨q, hq, hb, he⟩ | ⟨q, hq, -, ha, -, he⟩ | ⟨-, he⟩
  · simp [he, BCache.mem_front, hb]
  · simp [he, BCache.mem_front]
  · simp [he, BCache.allocSlot, BCache.mem_front]

theorem acquireSlot_bound {c : BCache} (h : ∀ p ∈ c.list, p < c.list.length) (b : Nat) :
    ∀ p ∈ (c.acquireSlot b).1.list, p < (c.acquireSlot b).1.list.length := by
  have hfront (q : Ptr) (hq : q ∈ c.list) (blk : Block) :
      ∀ p ∈ (c.front q blk).list, p < (c.front q blk).list.length := by
    have hpos := List.length_pos_of_mem hq
    have hlen : (c.front q blk).list.length = c.list.length := by
      simp [BCache.front, List.length_erase_of_mem hq]; omega
    intro p hp
    rw [hlen]
    rcases BCache.mem_front.mp hp with rfl | hp
    · exact h p hq
    · exact h p hp
  rcases c.acquireSlot_cases b with ⟨q, hq, -, he⟩ | ⟨q, hq, -, -, -, he⟩ | ⟨-, he⟩
  · rw [he]; exact hfront q hq _
  · rw [he]; exact hfront q hq _
  · have hnew : c.list.length ∉ c.list := fun hmem => Nat.lt_irrefl _ (h _ hmem)
    have hlen : (c.allocSlot b).1.list.length = c.list.length + 1 := by
      simp [BCache.allocSlot, BCache.front, List.erase_of_not_mem hnew]
    rw [he, hlen]
    intro p hp
    rcases BCache.mem_front.mp hp with rfl | hp
    · exact Nat.lt_succ_self _
    · exact Nat.lt_succ_of_lt (h p hp)

theorem inv_init {w : World} (h : w.Init) : Inv w := by
  have huses (t b : Nat) (p : Ptr) : ¬w.Uses t b p := by simp [Uses, h.2 t]
  have howned (t : Nat) : w.owned t = [] := by simp [owned, h.2 t]
  exact ⟨h.1, fun t b p hp => absurd hp (huses t b p), by simp [howned], by simp [h.2],
    by simp [howned], by simp [howned]⟩

/-- A step of thread `t` keeps the invariant when the cache keeps the blocks of the other threads
and the invariant holds of the blocks of `t`. -/
theorem inv_put {w : World} (h : Inv w) {c : BCache} {t : Nat} {th : Thread}
    (bound : ∀ p ∈ c.list, p < c.list.length)
    (others : ∀ u b p, u ≠ t → w.Uses u b p →
      p ∈ c.list ∧ (c.mem p).blockNo = b ∧ (c.mem p).acquired = true ∧
        ((b, p) ∈ (w.thread u).held → (c.mem p).valid = true) ∧
        (p ∈ w.owned u → (c.mem p).locked = true))
    (uses : ∀ b p, (w.put c t th).Uses t b p →
      p ∈ c.list ∧ (c.mem p).blockNo = b ∧ (c.mem p).acquired = true)
    (locked : ∀ p ∈ (w.put c t th).owned t, (c.mem p).locked = true)
    (valid : ∀ b p, (b, p) ∈ th.held → (c.mem p).valid = true)
    (nodup : ((w.put c t th).owned t).Nodup)
    (disjoint : ∀ u ≠ t, ∀ p ∈ (w.put c t th).owned t, p ∉ w.owned u) :
    Inv (w.put c t th) := by
  refine ⟨bound, fun u b p hp => ?_, fun u p hp => ?_, fun u b p hp => ?_, fun u => ?_,
    fun u v huv p hp hq => ?_⟩
  · by_cases hu : u = t
    · subst hu; exact uses b p hp
    · obtain ⟨h1, h2, h3, -⟩ := others u b p hu ((uses_put_ne hu).mp hp)
      exact ⟨h1, h2, h3⟩
  · by_cases hu : u = t
    · subst hu; exact locked p hp
    · rw [owned_put_ne hu] at hp
      obtain ⟨b, hb⟩ := uses_of_owned hp
      exact (others u b p hu hb).2.2.2.2 hp
  · by_cases hu : u = t
    · subst hu; exact valid b p (by simpa [put] using hp)
    · have hold : (b, p) ∈ (w.thread u).held := by simpa [put, hu] using hp
      exact (others u b p hu (.inr (.inr hold))).2.2.2.1 hold
  · by_cases hu : u = t
    · subst hu; exact nodup
    · rw [owned_put_ne hu]; exact h.nodup u
  · by_cases hu : u = t
    · subst hu
      rw [owned_put_ne (Ne.symm huv)] at hq
      exact disjoint v (Ne.symm huv) p hp hq
    · rw [owned_put_ne hu] at hp
      by_cases hv : v = t
      · subst hv; exact disjoint u hu p hq hp
      · rw [owned_put_ne hv] at hq
        exact h.disjoint u v huv p hp hq

theorem inv_acquire {w : World} (h : Inv w) {t : Nat} (b : Nat)
    (hcall : (w.thread t).call = .none) :
    Inv (w.put (w.cache.acquireSlot b).1 t
      { w.thread t with call := .queued b (w.cache.acquireSlot b).2 }) := by
  have howned (th : Thread) (hth : th = { w.thread t with
      call := .queued b (w.cache.acquireSlot b).2 }) :
      (w.put (w.cache.acquireSlot b).1 t th).owned t = w.owned t := by
    simp [owned, put, hth, hcall]
  have keeps {u b' : Nat} {p : Ptr} (hp : w.Uses u b' p) := acquireSlot_keeps h b hp
  refine inv_put h (acquireSlot_bound h.bound b) (fun u b' p _ hp => ?_) (fun b' p hp => ?_)
    (fun p hp => ?_) (fun b' p hp => ?_) ?_ (fun u hu p hp => ?_)
  · obtain ⟨h1, h2, h3, h4, h5⟩ := keeps hp
    exact ⟨h1, h2.trans (h.uses u b' p hp).2.1, h3, fun hh => h4.trans (h.valid u b' p hh),
      fun ho => h5.trans (h.locked u p ho)⟩
  · rcases uses_put_same.mp hp with hq | hq | hq
    · obtain ⟨rfl, rfl⟩ := Call.queued.inj hq
      exact acquireSlot_slot w.cache _
    · cases hq
    · obtain ⟨h1, h2, h3, -⟩ := keeps (.inr (.inr hq))
      exact ⟨h1, h2.trans (h.uses t b' p (.inr (.inr hq))).2.1, h3⟩
  · rw [howned _ rfl] at hp
    obtain ⟨b', hb'⟩ := uses_of_owned hp
    exact (keeps hb').2.2.2.2.trans (h.locked t p hp)
  · exact (keeps (.inr (.inr hp))).2.2.2.1.trans (h.valid t b' p hp)
  · rw [howned _ rfl]; exact h.nodup t
  · rw [howned _ rfl] at hp; exact h.disjoint t u (Ne.symm hu) p hp

/-- A change of block `p` that keeps its number, and keeps `acquired`, `valid`, and `locked` set
where another thread than `t` relies on them, is invisible to those threads. -/
theorem others_set {w : World} (h : Inv w) {t : Nat} {p : Ptr} {blk : Block}
    (hno : blk.blockNo = (w.cache.mem p).blockNo)
    (hacq : ∀ u b, u ≠ t → w.Uses u b p → blk.acquired = true)
    (hown : ∀ u ≠ t, p ∉ w.owned u) (hvalid : (w.cache.mem p).valid = true → blk.valid = true) :
    ∀ u b q, u ≠ t → w.Uses u b q →
      q ∈ (w.cache.set p blk).list ∧ ((w.cache.set p blk).mem q).blockNo = b ∧
        ((w.cache.set p blk).mem q).acquired = true ∧
        ((b, q) ∈ (w.thread u).held → ((w.cache.set p blk).mem q).valid = true) ∧
        (q ∈ w.owned u → ((w.cache.set p blk).mem q).locked = true) := by
  intro u b q hu hq
  obtain ⟨h1, h2, h3⟩ := h.uses u b q hq
  by_cases hqp : q = p
  · subst hqp
    simp only [BCache.set, Function.update_self]
    exact ⟨h1, hno.trans h2, hacq u b hu hq, fun hheld => hvalid (h.valid u b q hheld),
      fun ho => absurd ho (hown u hu)⟩
  · simp only [BCache.set, Function.update_of_ne hqp]
    exact ⟨h1, h2, h3, h.valid u b q, h.locked u q⟩

theorem owned_eq {w : World} {c : BCache} {t : Nat} {th : Thread} :
    (w.put c t th).owned t =
      (match th.call with | .locked _ p => [p] | _ => []) ++ th.held.map Prod.snd := by
  simp [owned, put]

theorem mem_owned_held {w : World} {t b : Nat} {p : Ptr} (h : (b, p) ∈ (w.thread t).held) :
    p ∈ w.owned t := by
  rw [owned, List.mem_append]
  exact .inr (List.mem_map.mpr ⟨(b, p), h, rfl⟩)

theorem inv_lock {w : World} (h : Inv w) {t b : Nat} {p : Ptr}
    (hcall : (w.thread t).call = .queued b p) (hfree : (w.cache.mem p).locked = false) :
    Inv (w.put (w.cache.set p { w.cache.mem p with locked := true }) t
      { w.thread t with call := .locked b p }) := by
  have hnot (u : Nat) : p ∉ w.owned u := fun hp => by simp [h.locked u p hp] at hfree
  have howned : w.owned t = (w.thread t).held.map Prod.snd := by simp [owned, hcall]
  have huse := h.uses t b p (.inl hcall)
  refine inv_put h h.bound (others_set h rfl (fun _ _ _ _ => huse.2.2) (fun u _ => hnot u) id)
    (fun b' q hq => ?_) (fun q hq => ?_) (fun b' q hq => ?_) ?_ (fun u hu q hq => ?_)
  · have hold : w.Uses t b' q := by
      rcases uses_put_same.mp hq with hq | hq | hq
      · cases hq
      · obtain ⟨rfl, rfl⟩ := Call.locked.inj hq
        exact .inl hcall
      · exact .inr (.inr hq)
    obtain ⟨h1, h2, h3⟩ := h.uses t b' q hold
    by_cases hqp : q = p
    · subst hqp; simpa [BCache.set] using ⟨h1, h2, h3⟩
    · simpa [BCache.set, hqp] using ⟨h1, h2, h3⟩
  · by_cases hqp : q = p
    · simp [BCache.set, hqp]
    · simp only [owned_eq, List.cons_append, List.nil_append, List.mem_cons, hqp, false_or,
        ← howned] at hq
      simpa [BCache.set, hqp] using h.locked t q hq
  · have hqp : q ≠ p := by rintro rfl; exact hnot t (mem_owned_held hq)
    simpa [BCache.set, hqp] using h.valid t b' q hq
  · simp only [owned_eq, List.cons_append, List.nil_append, List.nodup_cons, ← howned]
    exact ⟨hnot t, h.nodup t⟩
  · simp only [owned_eq, List.cons_append, List.nil_append, List.mem_cons, ← howned] at hq
    rcases hq with rfl | hq
    · exact hnot u
    · exact h.disjoint t u (Ne.symm hu) q hq

/-- The block that the read leaves differs only in its data and its flag `valid`. -/
theorem load_eq (c : BCache) (p : Ptr) :
    ∃ d, c.load p = c.set p { c.mem p with data := d, valid := true } := by
  by_cases hv : (c.mem p).valid = true
  · refine ⟨(c.mem p).data, ?_⟩
    have hblk : { c.mem p with data := (c.mem p).data, valid := true } = c.mem p := by
      rw [← hv]
    rw [hblk, BCache.load, if_pos hv, BCache.set, Function.update_eq_self]
  · exact ⟨c.device (c.mem p).blockNo, by rw [BCache.load, if_neg hv]⟩

theorem inv_load {w : World} (h : Inv w) {t b : Nat} {p : Ptr}
    (hcall : (w.thread t).call = .locked b p) :
    Inv (w.put (w.cache.load p) t ⟨.none, (b, p) :: (w.thread t).held⟩) := by
  obtain ⟨d, hd⟩ := load_eq w.cache p
  rw [hd]
  have howned : w.owned t = p :: (w.thread t).held.map Prod.snd := by simp [owned, hcall]
  have hmine : p ∈ w.owned t := by simp [howned]
  have hlocked := h.locked t p hmine
  have huse := h.uses t b p (.inr (.inl hcall))
  refine inv_put h h.bound (others_set h rfl (fun _ _ _ _ => huse.2.2)
      (fun u hu hp => h.disjoint t u (Ne.symm hu) p hmine hp) fun _ => rfl)
    (fun b' q hq => ?_) (fun q hq => ?_) (fun b' q hq => ?_) ?_ (fun u hu q hq => ?_)
  · have hold : w.Uses t b' q := by
      rcases uses_put_same.mp hq with hq | hq | hq
      · cases hq
      · cases hq
      · rcases List.mem_cons.mp hq with hq | hq
        · obtain ⟨rfl, rfl⟩ := Prod.mk.inj hq
          exact .inr (.inl hcall)
        · exact .inr (.inr hq)
    obtain ⟨h1, h2, h3⟩ := h.uses t b' q hold
    by_cases hqp : q = p
    · subst hqp; simpa [BCache.set] using ⟨h1, h2, h3⟩
    · simpa [BCache.set, hqp] using ⟨h1, h2, h3⟩
  · have hq' : q ∈ w.owned t := by simpa [owned_eq, howned] using hq
    by_cases hqp : q = p
    · subst hqp; simpa [BCache.set] using hlocked
    · simpa [BCache.set, hqp] using h.locked t q hq'
  · by_cases hqp : q = p
    · simp [BCache.set, hqp]
    · have hheld : (b', q) ∈ (w.thread t).held := by simpa [hqp] using hq
      simpa [BCache.set, hqp] using h.valid t b' q hheld
  · have hn := h.nodup t
    rw [howned] at hn
    simpa [owned_eq] using hn
  · have hq' : q ∈ w.owned t := by simpa [owned_eq, howned] using hq
    exact h.disjoint t u (Ne.symm hu) q hq'

theorem inv_unlock {w : World} (h : Inv w) {t b : Nat} {p : Ptr}
    (hcall : (w.thread t).call = .none) (hheld : (b, p) ∈ (w.thread t).held) :
    Inv (w.put (w.cache.releaseSleeplock p) t
      ⟨.released p, (w.thread t).held.erase (b, p)⟩) := by
  have howned : w.owned t = (w.thread t).held.map Prod.snd := by simp [owned, hcall]
  have hnodup : ((w.thread t).held.map Prod.snd).Nodup := howned ▸ h.nodup t
  have hmine := mem_owned_held hheld
  have huse := h.uses t b p (.inr (.inr hheld))
  have hsub (q : Nat × Ptr) (hq : q ∈ (w.thread t).held.erase (b, p)) : q ∈ (w.thread t).held :=
    List.mem_of_mem_erase hq
  -- the lock had one entry in `held`, so the block is no longer among the owned ones
  have hgone (b' : Nat) : (b', p) ∉ (w.thread t).held.erase (b, p) := by
    intro hin
    have hb : b' = b := (h.uses t b' p (.inr (.inr (hsub _ hin)))).2.1.symm.trans huse.2.1
    subst hb
    exact (List.Nodup.of_map _ hnodup).not_mem_erase hin
  have howned' : (w.put (w.cache.releaseSleeplock p) t
      ⟨.released p, (w.thread t).held.erase (b, p)⟩).owned t =
      ((w.thread t).held.erase (b, p)).map Prod.snd := by simp [owned_eq]
  have hmem (q : Ptr) (hq : q ∈ ((w.thread t).held.erase (b, p)).map Prod.snd) :
      q ≠ p ∧ q ∈ w.owned t := by
    obtain ⟨⟨b', q'⟩, hq', rfl⟩ := List.mem_map.mp hq
    refine ⟨?_, mem_owned_held (hsub _ hq')⟩
    rintro rfl
    exact hgone b' hq'
  refine inv_put h h.bound (others_set h rfl (fun _ _ _ _ => huse.2.2)
      (fun u hu hp => h.disjoint t u (Ne.symm hu) p hmine hp) id)
    (fun b' q hq => ?_) (fun q hq => ?_) (fun b' q hq => ?_) ?_ (fun u hu q hq => ?_)
  · rcases uses_put_same.mp hq with hq | hq | hq
    · cases hq
    · cases hq
    · have hqp : q ≠ p := by rintro rfl; exact hgone b' hq
      simpa [BCache.releaseSleeplock, BCache.set, hqp] using
        h.uses t b' q (.inr (.inr (hsub _ hq)))
  · rw [howned'] at hq
    obtain ⟨hqp, hq⟩ := hmem q hq
    simpa [BCache.releaseSleeplock, BCache.set, hqp] using h.locked t q hq
  · have hqp : q ≠ p := by rintro rfl; exact hgone b' hq
    simpa [BCache.releaseSleeplock, BCache.set, hqp] using h.valid t b' q (hsub _ hq)
  · rw [howned']
    exact hnodup.sublist (List.erase_sublist.map _)
  · rw [howned'] at hq
    exact h.disjoint t u (Ne.symm hu) q (hmem q hq).2

theorem inv_clear {w : World} (h : Inv w) {t : Nat} {p : Ptr}
    (hcall : (w.thread t).call = .released p) (hfree : ∀ u b, ¬w.Uses u b p) :
    Inv (w.put (w.cache.clearAcquired p) t { w.thread t with call := .none }) := by
  have howned : (w.put (w.cache.clearAcquired p) t
      { w.thread t with call := .none }).owned t = w.owned t := by
    rw [owned_eq, owned, hcall]
  have hne (u b' : Nat) (q : Ptr) (hq : w.Uses u b' q) : q ≠ p := by
    rintro rfl; exact hfree u b' hq
  refine inv_put h h.bound (others_set h rfl (fun u b _ hu => absurd hu (hfree u b))
      (fun u _ hp => ?_) id)
    (fun b' q hq => ?_) (fun q hq => ?_) (fun b' q hq => ?_) ?_ (fun u hu q hq => ?_)
  · obtain ⟨b', hb'⟩ := uses_of_owned hp
    exact hfree u b' hb'
  · rcases uses_put_same.mp hq with hq | hq | hq
    · cases hq
    · cases hq
    · have hq' : w.Uses t b' q := .inr (.inr hq)
      simpa [BCache.clearAcquired, BCache.set, hne t b' q hq'] using h.uses t b' q hq'
  · rw [howned] at hq
    obtain ⟨b', hb'⟩ := uses_of_owned hq
    simpa [BCache.clearAcquired, BCache.set, hne t b' q hb'] using h.locked t q hq
  · have hq' : w.Uses t b' q := .inr (.inr hq)
    simpa [BCache.clearAcquired, BCache.set, hne t b' q hq'] using h.valid t b' q hq
  · rw [howned]; exact h.nodup t
  · rw [howned] at hq; exact h.disjoint t u (Ne.symm hu) q hq

theorem inv_next {w w' : World} {a : Label} (h : Inv w) (hC : w.Unshared a)
    (hn : w.next a = some w') : Inv w' := by
  cases a with
  | acquire t b =>
    simp only [World.next] at hn
    split at hn
    · rename_i hcall
      cases hn
      exact inv_acquire h b hcall
    · cases hn
  | lock t =>
    simp only [World.next] at hn
    split at hn
    · rename_i b p hcall
      simp only [BCache.acquireSleeplock] at hn
      split at hn
      · cases hn
      · rename_i hfree
        cases hn
        exact inv_lock h hcall (by simpa using hfree)
    · cases hn
  | load t =>
    simp only [World.next] at hn
    split at hn
    · rename_i b p hcall
      cases hn
      exact inv_load h hcall
    · cases hn
  | unlock t b p =>
    simp only [World.next] at hn
    split at hn
    · rename_i hcall
      cases hn
      exact inv_unlock h hcall.1 hcall.2
    · cases hn
  | clear t =>
    simp only [World.next] at hn
    split at hn
    · rename_i p hcall
      cases hn
      exact inv_clear h hcall (hC p hcall)
    · cases hn

/-- In the runs that clear `acquired` only on blocks that no thread uses, every held block has
its number, is valid, and is marked acquired. -/
theorem held_never_retargeted (w : World) (h : machine.ReachableUnder World.Unshared w) :
    w.HeldOk :=
  (h.invariant (I := Inv) (fun _ hw => inv_init hw) fun _ _ _ hw hC hn => inv_next hw hC hn).heldOk

/-- The empty cache of `init_bcache`, over a blank device, with every thread outside. -/
def start : World where
  cache := ⟨fun _ => Bytes.zero, [], fun _ => initBlock⟩
  thread _ := ⟨.none, []⟩

theorem start_init : start.Init := ⟨by simp [start], fun _ => rfl⟩

/-- Thread 0 acquires and releases block 7 while thread 1 waits for it, and clears `acquired`
only after thread 1 has the block.  Thread 2 then goes through 19 further blocks, which fills the
cache to the threshold, and asks for block 200. -/
def lateClear : List Label :=
  [.acquire 0 7, .lock 0, .load 0, .acquire 1 7, .unlock 0 7 0, .lock 1, .load 1, .clear 0] ++
    ((List.range 19).flatMap fun i =>
      [.acquire 2 (100 + i), .lock 2, .load 2, .unlock 2 (100 + i) (i + 1), .clear 2]) ++
    [.acquire 2 200]

set_option maxRecDepth 10000 in
/-- After `lateClear`, thread 1 holds block 7 in a block that now has number 200 and is not
valid. -/
theorem held_retargeted : ¬∀ w, machine.Reachable w → w.HeldOk := by
  intro hall
  obtain ⟨w, hw, hp⟩ := Machine.Reachable.of_run (M := machine) (l := lateClear)
    (p := fun w => (w.cache.mem 0).blockNo = 200 ∧ (w.cache.mem 0).valid = false ∧
      (w.thread 1).held = [(7, 0)]) start_init (by decide +kernel)
  obtain ⟨hno, -, hheld⟩ := of_decide_eq_true hp
  have hok := hall w hw 1 7 0 (by simp [hheld])
  omega

/-- The thread of a step. -/
def Label.thread : Label → Nat
  | .acquire t _ | .lock t | .load t | .unlock t _ _ | .clear t => t

theorem next_thread {w w' : World} {a : Label} {t : Nat} (hn : w.next a = some w') (ht : t ≠ a.thread) :
    w'.thread t = w.thread t := by
  cases a with
  | acquire u b | unlock u b p =>
    obtain ⟨-, hn⟩ := Option.ite_none_right_eq_some.mp hn
    cases hn
    exact Function.update_of_ne ht _ _
  | lock u =>
    simp only [World.next] at hn
    split at hn
    · obtain ⟨c, -, hn⟩ := Option.map_eq_some_iff.mp hn
      cases hn
      exact Function.update_of_ne ht _ _
    · cases hn
  | load u | clear u =>
    simp only [World.next] at hn
    split at hn
    · cases hn
      exact Function.update_of_ne ht _ _
    · cases hn

/-- The blocks that the thread uses. -/
def Thread.blocks (th : Thread) : List Ptr :=
  (match th.call with | .queued _ p | .locked _ p => [p] | _ => []) ++ th.held.map Prod.snd

/-- The block whose flag `acquired` the step clears. -/
def Label.clears (w : World) : Label → Option Ptr
  | .clear t => match (w.thread t).call with | .released p => some p | _ => Option.none
  | _ => Option.none

/-- The step is one of the first `n` threads, and clears `acquired` only on a block that none of them uses. -/
def Timely (n : Nat) (w : World) (a : Label) : Prop :=
  a.thread < n ∧ ∀ p ∈ a.clears w, ∀ u < n, p ∉ (w.thread u).blocks

instance (n : Nat) (w : World) (a : Label) : Decidable (Timely n w a) := inferInstanceAs (Decidable (_ ∧ _))

theorem mem_blocks {w : World} {u b : Nat} {p : Ptr} (h : w.Uses u b p) : p ∈ (w.thread u).blocks := by
  rw [Thread.blocks, List.mem_append]
  rcases h with hq | hl | hheld
  · exact .inl (by rw [hq]; exact List.mem_singleton_self p)
  · exact .inl (by rw [hl]; exact List.mem_singleton_self p)
  · exact .inr (List.mem_map.mpr ⟨(b, p), hheld, rfl⟩)

/-- The steps of the first `n` threads leave the others outside the cache. -/
theorem timely_reachable {n : Nat} {w : World} (h : machine.ReachableUnder (Timely n) w) :
    machine.ReachableUnder World.Unshared w ∧ ∀ t, n ≤ t → w.thread t = ⟨.none, []⟩ := by
  induction h with
  | init hw => exact ⟨.init hw, fun t _ => hw.2 t⟩
  | @step w w' a _ ha hn ih =>
    obtain ⟨hreach, hout⟩ := ih
    refine ⟨hreach.step ?_ hn, fun t ht => (next_thread hn ?_).trans (hout t ht)⟩
    · cases a with
      | clear t =>
        intro p hp u b huses
        have hclears : (Label.clear t).clears w = some p := by rw [Label.clears, hp]
        by_cases hu : u < n
        · exact ha.2 p hclears u hu (mem_blocks huses)
        · simp [World.Uses, hout u (Nat.le_of_not_lt hu)] at huses
      | _ => trivial
    · have hlt := ha.1
      omega

/-- As `lateClear`, but thread 1 releases the block before `acquired` is cleared, and takes it again. -/
def timelyClear : List Label :=
  [.acquire 0 7, .lock 0, .load 0, .acquire 1 7, .unlock 0 7 0, .lock 1, .load 1, .unlock 1 7 0, .clear 0,
      .clear 1, .acquire 1 7, .lock 1, .load 1] ++
    ((List.range 19).flatMap fun i =>
      [.acquire 2 (100 + i), .lock 2, .load 2, .unlock 2 (100 + i) (i + 1), .clear 2]) ++
    [.acquire 2 200]

set_option maxRecDepth 10000 in
/-- After `timelyClear`, thread 1 holds block 7 in the block that it got, and thread 2 has taken another one for
block 200. -/
theorem held_never_retargeted_shared : ∃ w, machine.ReachableUnder World.Unshared w ∧
    (w.thread 1).held = [(7, 0)] ∧ (w.thread 2).call = .queued 200 1 ∧ w.HeldOk := by
  have hruns : (machine.runUnder (Timely 3) start timelyClear).map (fun w =>
      decide ((w.thread 1).held = [(7, 0)] ∧ (w.thread 2).call = .queued 200 1)) = some true := by
    decide +kernel
  obtain ⟨w, hw, hp⟩ := Option.map_eq_some_iff.mp hruns
  obtain ⟨hheld, hcall⟩ := of_decide_eq_true hp
  have hreach := (timely_reachable (Machine.ReachableUnder.runUnder (.init start_init) hw)).1
  exact ⟨w, hreach, hheld, hcall, held_never_retargeted w hreach⟩

end Held

end FtosFfs.Cache
