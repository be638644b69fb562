import FtosFfs.Fs.Write

/-! `inode_clear`: what it takes for it to return, and what it has done to the blocks then. -/

namespace FtosFfs.Fs

open Lib Lib.Exec Cache

variable {s s' : State} {ctx : Bool} {p : Ptr} {n : Nat} {u : Unit} {d : Nat → BlockData}
  {r : Nat × Place → Nat}

/-- The record of an operation after syncs of the blocks of a list. -/
def recordAll (ctx : Bool) (c : OpContext) (bs : List Nat) : Option OpContext :=
  bs.foldlM (recorded ctx) c

theorem recordAll_append {c : OpContext} {bs bs' : List Nat} :
    recordAll ctx c (bs ++ bs') = (recordAll ctx c bs).bind fun c' => recordAll ctx c' bs' := by
  simp [recordAll]

theorem recordAll_cons {c : OpContext} {b : Nat} {bs : List Nat} :
    recordAll ctx c (b :: bs) = (recorded ctx c b).bind fun c' => recordAll ctx c' bs := rfl

theorem recordAll_false (c : OpContext) (l : List Nat) : recordAll false c l = some c := by
  induction l with
  | nil => rfl
  | cons b l ih => exact ih

/-- The bitmap blocks of the addresses of a list other than 0. -/
def bitmapsOf (l : List Nat) : List Nat := (l.filter (· ≠ 0)).map bitmapOf

theorem bitmapsOf_cons {b : Nat} {l : List Nat} (hb : b ≠ 0) :
    bitmapsOf (b :: l) = bitmapOf b :: bitmapsOf l := by
  simp [bitmapsOf, hb]

theorem bitmapsOf_cons_zero {l : List Nat} : bitmapsOf (0 :: l) = bitmapsOf l := by
  simp [bitmapsOf]

theorem bitmapsOf_append {l l' : List Nat} :
    bitmapsOf (l ++ l') = bitmapsOf l ++ bitmapsOf l' := by
  simp [bitmapsOf]

/-! ### Frees -/

/-- While blocks are freed: `r` are the references left, and the blocks other than bitmaps are those
of `d`. -/
structure Freeing (d : Nat → BlockData) (r : Nat × Place → Nat) (s : State) : Prop where
  owns : Owns {b | IsData b} r (fun b => blockBit s.disk b = true)
  metaUsed : MetaUsed s.disk
  same : ∀ c, ¬IsBitmap c → s.disk c = d c

theorem Freeing.free (h : Freeing d r s) {i : Nat × Place} {b : Nat} (hb : r i = b) (hi : b ≠ 0)
    (hr : Runs (cacheFree sblock ctx b) s u s') :
    OnBlocks s s' ∧ Freeing d (Function.update r i 0) s' ∧
      recorded ctx s.ctx (bitmapOf b) = some s'.ctx := by
  subst hb
  have hd : IsData (r i) := h.owns.inArea i hi
  obtain ⟨hob, hf⟩ := cacheFree_spec hd hr
  refine ⟨hob, ⟨?_, hf.metaUsed hd h.metaUsed, ?_⟩, ?_⟩
  · refine h.owns.drop hi fun c hc => ?_
    rw [hf.bit c hc.1]
    split <;> simp [*]
  · exact fun c hc => (hf.same c hc).trans (h.same c hc)
  · obtain ⟨-, -, c, hc, rfl⟩ := (runs_cacheFree hd.1).mp hr
    exact hc

theorem Freeing.free_returns (h : Freeing d r s) {i : Nat × Place} {b : Nat} (hb : r i = b)
    (hi : b ≠ 0) (hheld : bitmapOf b ∉ s.held) {c : OpContext}
    (hc : recorded ctx s.ctx (bitmapOf b) = some c) :
    ∃ s', Runs (cacheFree sblock ctx b) s () s' := by
  subst hb
  have hd : IsData (r i) := h.owns.inArea i hi
  exact ⟨_, (runs_cacheFree hd.1).mpr ⟨hheld, h.owns.used_ref hi, c, hc, rfl⟩⟩

/-- The references without those of the places `pl i` of inode `n`, for `i` in a list. -/
def without (r : Nat × Place → Nat) (n : Nat) (pl : Nat → Place) (l : List Nat) :
    Nat × Place → Nat :=
  fun j => if ∃ i ∈ l, j = (n, pl i) then 0 else r j

theorem without_cons {pl : Nat → Place} {i : Nat} {l : List Nat} :
    without (Function.update r (n, pl i) 0) n pl l = without r n pl (i :: l) := by
  funext j
  by_cases hj : j = (n, pl i)
  · simp [without, hj]
  · simp [without, hj]

theorem without_zero {pl : Nat → Place} {i : Nat} {l : List Nat} (h : r (n, pl i) = 0) :
    without r n pl l = without r n pl (i :: l) := by
  rw [← without_cons, Function.update_eq_self_iff.mpr h.symm]

variable {a : Nat → UInt32} {pl : Nat → Place} {l : List Nat}

/-- The addresses left in the places of the rest of a list. -/
theorem update_places {i : Nat} (hpl : Function.Injective pl) (hi : i ∉ l)
    (ha : ∀ j ∈ i :: l, r (n, pl j) = (a j).toNat) :
    ∀ j ∈ l, Function.update r (n, pl i) 0 (n, pl j) = (a j).toNat := by
  intro j hj
  have hji : (n, pl j) ≠ (n, pl i) := by
    intro heq
    rw [hpl (Prod.mk.inj heq).2] at hj
    exact hi hj
  rw [Function.update_of_ne hji, ha j (by simp [hj])]

/-- The frees of the addresses in the places of a list. -/
theorem freeAddrs_spec (hpl : Function.Injective pl) (hl : l.Nodup) (h : Freeing d r s)
    (ha : ∀ i ∈ l, r (n, pl i) = (a i).toNat)
    (hr : Runs (l.forM fun i => freeAddr sblock ctx (a i)) s u s') :
    OnBlocks s s' ∧ Freeing d (without r n pl l) s' ∧
      recordAll ctx s.ctx (bitmapsOf (l.map fun i => (a i).toNat)) = some s'.ctx := by
  induction l generalizing s r with
  | nil =>
    obtain ⟨-, rfl⟩ := runs_pure.mp (show Runs (pure ()) s u s' from hr)
    refine ⟨.refl s, ?_, rfl⟩
    have hnil : without r n pl [] = r := by
      funext j
      simp [without]
    rwa [hnil]
  | cons i l ih =>
    obtain ⟨_, t, hfree, hr⟩ := runs_bind.mp
      (show Runs (freeAddr sblock ctx (a i) >>= fun _ => l.forM _) s u s' from hr)
    obtain ⟨hil, hl⟩ := List.nodup_cons.mp hl
    have hai := ha i (by simp)
    rcases runs_when.mp hfree with ⟨hne, hfree⟩ | ⟨hz, rfl⟩
    · have hne' : (a i).toNat ≠ 0 := fun hz => hne (toNat_eq_zero.mp hz)
      obtain ⟨hob, hf, hc⟩ := h.free hai hne' hfree
      obtain ⟨hob', hf', hc'⟩ := ih hl hf (update_places hpl hil ha) hr
      rw [without_cons] at hf'
      refine ⟨hob.trans hob', hf', ?_⟩
      rw [List.map_cons, bitmapsOf_cons hne', recordAll_cons, hc]
      exact hc'
    · have hz' : a i = 0 := by simpa using hz
      have hri : r (n, pl i) = 0 := by rw [hai, hz']; rfl
      obtain ⟨hob', hf', hc'⟩ := ih hl h (fun j hj => ha j (by simp [hj])) hr
      rw [without_zero hri] at hf'
      refine ⟨hob', hf', ?_⟩
      rw [List.map_cons, hz', UInt32.toNat_zero, bitmapsOf_cons_zero]
      exact hc'

theorem freeAddrs_returns (hpl : Function.Injective pl) (hl : l.Nodup) (h : Freeing d r s)
    (ha : ∀ i ∈ l, r (n, pl i) = (a i).toNat) (hheld : ∀ b, IsBitmap b → b ∉ s.held)
    {c : OpContext} (hc : recordAll ctx s.ctx (bitmapsOf (l.map fun i => (a i).toNat)) = some c) :
    ∃ s', Runs (l.forM fun i => freeAddr sblock ctx (a i)) s () s' := by
  induction l generalizing s r with
  | nil => exact ⟨s, runs_pure.mpr ⟨rfl, rfl⟩⟩
  | cons i l ih =>
    obtain ⟨hil, hl⟩ := List.nodup_cons.mp hl
    have hai := ha i (by simp)
    suffices h : ∃ t, Runs (freeAddr sblock ctx (a i)) s () t ∧
        ∃ s', Runs (l.forM fun i => freeAddr sblock ctx (a i)) t () s' by
      obtain ⟨t, ht, s', hs'⟩ := h
      exact ⟨s', runs_bind.mpr ⟨⟨⟩, t, ht, hs'⟩⟩
    by_cases hz : a i = 0
    · refine ⟨s, runs_when.mpr (.inr ⟨by simp [hz], rfl⟩), ?_⟩
      rw [List.map_cons, hz, UInt32.toNat_zero, bitmapsOf_cons_zero] at hc
      exact ih hl h (fun j hj => ha j (by simp [hj])) hheld hc
    · have hne : (a i).toNat ≠ 0 := fun h0 => hz (toNat_eq_zero.mp h0)
      have hd : IsData (a i).toNat := by
        rw [← hai] at hne ⊢
        exact h.owns.inArea _ hne
      rw [List.map_cons, bitmapsOf_cons hne, recordAll_cons, Option.bind_eq_some_iff] at hc
      obtain ⟨c₁, hc₁, hc⟩ := hc
      obtain ⟨t, ht⟩ := h.free_returns hai hne (hheld _ (isBitmap_bitmapOf hd.1)) hc₁
      obtain ⟨hob, hf, hct⟩ := h.free hai hne ht
      refine ⟨t, runs_when.mpr (.inl ⟨hz, ht⟩), ih hl hf (update_places hpl hil ha)
        (by rw [hob.held]; exact hheld) ?_⟩
      rw [hct] at hc₁
      rw [Option.some.inj hc₁]
      exact hc

/-! ### The inode -/

/-- The entry after `inode_clear`. -/
def cleared (e : InodeEntry) : InodeEntry :=
  { e with numBytes := 0, addrs := fun _ => 0, indirect := 0 }

/-- The block numbers in the table of an entry. -/
def tableBlocks (e : InodeEntry) (d : Nat → BlockData) : List Nat :=
  if e.indirect = 0 then []
  else (List.range inodeNumIndirect).map (fun i => (getAddr (d e.indirect.toNat) i).toNat) ++
    [e.indirect.toNat]

/-- The block numbers of an entry, in the order of the frees. -/
def blocksOf (e : InodeEntry) (d : Nat → BlockData) : List Nat :=
  (List.range inodeNumDirect).map (fun i => (e.addr i).toNat) ++ tableBlocks e d

theorem addr_of_le {e : InodeEntry} {i : Nat} (hi : inodeNumDirect ≤ i) : e.addr i = 0 := by
  simp [InodeEntry.addr, Nat.not_lt.mpr hi]

variable {E : Nat → InodeEntry} {e : InodeEntry}

/-- The references without all those of inode `n`. -/
def withoutInode (r : Nat × Place → Nat) (n : Nat) : Nat × Place → Nat :=
  fun j => if j.1 = n then 0 else r j

theorem ref_cleared (hn : InUse E n) (d' : Nat → BlockData)
    (hd : ∀ c, IsData c → d' c = d c) (ho : BlocksOwned E d) :
    ref (Function.update E n (cleared (E n))) d' = withoutInode (ref E d) n := by
  have hu (m : Nat) : InUse (Function.update E n (cleared (E n))) m ↔ InUse E m :=
    inUse_update (show (cleared (E n)).type = (E n).type from rfl)
  funext ⟨m, pl⟩
  by_cases hmn : m = n
  · subst hmn
    rw [ref_of_inUse ((hu m).mpr hn), Function.update_self]
    cases pl <;> simp [blockOf, cleared, withoutInode, InodeEntry.addr]
  · simp only [withoutInode, hmn, if_false, ref, Function.update_of_ne hmn]
    rw [if_congr (hu m) rfl rfl]
    split
    case isTrue hm =>
      exact congrFun (blockOf_congr fun h0 => hd _ (ho.isData_table hm h0)) pl
    case isFalse => rfl

/-- After the frees of the direct blocks. -/
theorem withoutInode_direct (hn : InUse E n) (h0 : (E n).indirect = 0) :
    without (ref E d) n .direct (List.range inodeNumDirect) = withoutInode (ref E d) n := by
  funext ⟨m, pl⟩
  by_cases hmn : m = n
  · subst hmn
    cases pl with
    | direct i =>
      by_cases hi : i < inodeNumDirect
      · simp [without, withoutInode, hi]
      · simp [without, withoutInode, hi, ref_of_inUse hn, blockOf, addr_of_le (Nat.not_lt.mp hi)]
    | table => simp [without, withoutInode, ref_of_inUse hn, blockOf, h0]
    | slot k => simp [without, withoutInode, ref_of_inUse hn, blockOf, h0]
  · simp [without, withoutInode, hmn]

/-- After the frees of the direct blocks, of the blocks in the table, and of the table. -/
theorem withoutInode_table (hn : InUse E n) (h0 : (E n).indirect ≠ 0) :
    Function.update (without (without (ref E d) n .direct (List.range inodeNumDirect)) n .slot
      (List.range inodeNumIndirect)) (n, .table) 0 = withoutInode (ref E d) n := by
  funext ⟨m, pl⟩
  by_cases hmn : m = n
  · subst hmn
    cases pl with
    | direct i =>
      by_cases hi : i < inodeNumDirect
      · simp [without, withoutInode, hi]
      · simp [without, withoutInode, hi, ref_of_inUse hn, blockOf, addr_of_le (Nat.not_lt.mp hi)]
    | table => simp [withoutInode]
    | slot k =>
      by_cases hk : k < inodeNumIndirect
      · simp [without, withoutInode, hk]
      · simp [without, withoutInode, hk, ref_of_inUse hn, blockOf, h0,
          getAddr_of_le (Nat.not_lt.mp hk)]
  · simp [without, withoutInode, hmn]

/-- Ownership once the blocks of inode `n` are freed and its entry is cleared. -/
theorem Freeing.cleared (ho : BlocksOwned E d) (hn : InUse E n)
    (h : Freeing d (withoutInode (ref E d) n) s) :
    BlocksOwned (Function.update E n (cleared (E n))) s.disk := by
  refine ⟨?_, h.metaUsed⟩
  rw [ref_cleared hn s.disk (fun c hc => h.same c hc.not_bitmap) ho]
  exact h.owns

theorem Freeing.congr {t : State} (h : Freeing d r s) (ht : t.disk = s.disk) : Freeing d r t := by
  obtain ⟨h1, h2, h3⟩ := h
  rw [← ht] at h1 h2 h3
  exact ⟨h1, h2, h3⟩

theorem Freeing.setInode (h : Freeing d r s) (p : Ptr) (ip : Inode) : Freeing d r (s.setInode p ip) :=
  h.congr rfl

theorem place_direct_injective : Function.Injective Place.direct := fun _ _ h => Place.direct.inj h

theorem place_slot_injective : Function.Injective Place.slot := fun _ _ h => Place.slot.inj h

theorem BlocksOwned.freeing (h : BlocksOwned E s.disk) : Freeing s.disk (ref E s.disk) s :=
  ⟨h.owns, h.metaUsed, fun _ _ => rfl⟩

/-- The references of the table while the direct blocks are freed. -/
theorem without_direct_slot (hn : InUse E n) (h0 : (E n).indirect ≠ 0) {l : List Nat} (k : Nat) :
    without (ref E d) n .direct l (n, .slot k) = (getAddr (d (E n).indirect.toNat) k).toNat := by
  simp [without, ref_of_inUse hn, blockOf, h0]

theorem without_table (hn : InUse E n) (l l' : List Nat) :
    without (without (ref E d) n .direct l) n .slot l' (n, .table) = (E n).indirect.toNat := by
  simp [without, ref_of_inUse hn, blockOf]

/-- `clearTable` after the frees of the direct blocks, from state `s` with blocks `d` before. -/
theorem clearTable_spec (ho : BlocksOwned E d) (hn : InUse E n) (h0 : (E n).indirect ≠ 0)
    (h : Freeing d (without (ref E d) n .direct (List.range inodeNumDirect)) s)
    (hr : Runs (clearTable sblock ctx p (E n).indirect.toNat) s u s') :
    OnEntry p { (s.mem p).entry with indirect := 0 } s s' ∧
      Freeing d (withoutInode (ref E d) n) s' ∧
      recordAll ctx s.ctx (bitmapsOf (tableBlocks (E n) d)) = some s'.ctx := by
  have htd : IsData (E n).indirect.toNat := ho.isData_table hn h0
  simp only [clearTable, runs_bind, runs_cacheAcquire, runs_cacheRelease, runs_modifyEntry] at hr
  obtain ⟨_, _, ⟨-, rfl, rfl⟩, _, t, hloop, _, _, rfl, _, t', hfree, rfl⟩ := hr
  rw [h.same _ htd.not_bitmap] at hloop
  obtain ⟨hob, hf, hc⟩ := freeAddrs_spec (s := { s with held := (E n).indirect.toNat :: s.held })
    place_slot_injective List.nodup_range (h.congr rfl)
    (fun i _ => without_direct_slot hn h0 i) hloop
  have htable := without_table (d := d) hn (List.range inodeNumDirect) (List.range inodeNumIndirect)
  have hf' := hf.congr (t := { t with held := t.held.erase (E n).indirect.toNat }) rfl
  obtain ⟨hob', hf'', hc'⟩ := hf'.free htable htd.pos hfree
  rw [withoutInode_table hn h0] at hf''
  refine ⟨?_, hf''.congr rfl, ?_⟩
  · refine ⟨?_, hob'.log.trans hob.log, hob'.list.trans hob.list, ?_, hob'.fresh.trans hob.fresh,
      hob'.file.trans hob.file, hob'.proc.trans hob.proc, fun hu => hob'.used (hob.used hu)⟩
    · rw [State.held_setInode, State.held_setInode, hob'.held]
      simp only [hob.held, List.erase_cons_head]
    · have hmem : t'.mem = s.mem := hob'.mem.trans hob.mem
      simp only [State.setInode, hmem]
  · rw [tableBlocks, if_neg h0, bitmapsOf_append, recordAll_append, hc, Option.bind_some,
      bitmapsOf_cons htd.pos, recordAll_cons]
    simp only [hc', Option.bind_some]
    rfl

theorem clearTable_returns (ho : BlocksOwned E d) (hn : InUse E n) (h0 : (E n).indirect ≠ 0)
    (h : Freeing d (without (ref E d) n .direct (List.range inodeNumDirect)) s)
    (hheld : s.held = []) {c : OpContext}
    (hc : recordAll ctx s.ctx (bitmapsOf (tableBlocks (E n) d)) = some c) :
    ∃ s', Runs (clearTable sblock ctx p (E n).indirect.toNat) s () s' := by
  have htd : IsData (E n).indirect.toNat := ho.isData_table hn h0
  have htable := without_table (d := d) hn (List.range inodeNumDirect) (List.range inodeNumIndirect)
  rw [tableBlocks, if_neg h0, bitmapsOf_append, recordAll_append, Option.bind_eq_some_iff] at hc
  obtain ⟨c₁, hc₁, hc⟩ := hc
  have hnotheld : ∀ b, IsBitmap b → b ∉ { s with held := (E n).indirect.toNat :: s.held }.held := by
    intro b hb
    simp only [hheld, List.mem_singleton]
    rintro rfl
    exact htd.not_bitmap hb
  obtain ⟨t, ht⟩ := freeAddrs_returns (s := { s with held := (E n).indirect.toNat :: s.held })
    place_slot_injective List.nodup_range (h.congr rfl)
    (fun i _ => without_direct_slot hn h0 i) hnotheld hc₁
  obtain ⟨hob, hf, hct⟩ := freeAddrs_spec (s := { s with held := (E n).indirect.toNat :: s.held })
    place_slot_injective List.nodup_range (h.congr rfl)
    (fun i _ => without_direct_slot hn h0 i) ht
  have hf' := hf.congr (t := { t with held := t.held.erase (E n).indirect.toNat }) rfl
  rw [hct, Option.some.injEq] at hc₁
  rw [bitmapsOf_cons htd.pos, recordAll_cons, Option.bind_eq_some_iff, ← hc₁] at hc
  obtain ⟨c₂, hc₂, -⟩ := hc
  obtain ⟨t', ht'⟩ := hf'.free_returns htable htd.pos (by simp [hob.held, hheld]) hc₂
  simp only [clearTable, runs_bind, runs_cacheAcquire, runs_cacheRelease, runs_modifyEntry]
  refine ⟨_, _, _, ⟨by simp [hheld], rfl, rfl⟩, ⟨⟩, t, ?_, ⟨⟩, _, rfl, ⟨⟩, t', ht', rfl⟩
  rw [h.same _ htd.not_bitmap]
  exact ht

/-- What `inode_clear` has done when it returns. -/
structure ClearDone (ctx : Bool) (p : Ptr) (n : Nat) (E : Nat → InodeEntry) (s s' : State) :
    Prop where
  frame : OnEntry p (cleared (E n)) s s'
  owned : BlocksOwned (Function.update E n (cleared (E n))) s'.disk
  same : ∀ c, ¬IsBitmap c → ¬IsInodes c → s'.disk c = s.disk c
  entries : ∀ m, IsInode m →
    diskEntry s'.disk m = if m = n then cleared (E n) else diskEntry s.disk m
  record : recordAll ctx s.ctx (bitmapsOf (blocksOf (E n) s.disk) ++ [toBlockNo sblock n]) =
    some s'.ctx

/-- The frees of `inode_clear`: the direct blocks, then the table if there is one. -/
theorem clearBlocks_spec {t t' : State} (hE : E n = (s.mem p).entry) (hn : InUse E n)
    (ho : BlocksOwned E s.disk)
    (hdirect : Runs ((List.range inodeNumDirect).forM fun i => freeAddr sblock ctx ((E n).addr i))
      s u t)
    (htable : Runs (Exec.when ((E n).indirect ≠ 0) (clearTable sblock ctx p (E n).indirect.toNat))
      (t.setInode p { t.mem p with entry := { (t.mem p).entry with addrs := fun _ => 0 } }) u t') :
    OnEntry p { E n with addrs := fun _ => 0, indirect := 0 } s t' ∧
      Freeing s.disk (withoutInode (ref E s.disk) n) t' ∧
      recordAll ctx s.ctx (bitmapsOf (blocksOf (E n) s.disk)) = some t'.ctx := by
  obtain ⟨hob, hf, hc⟩ := freeAddrs_spec place_direct_injective List.nodup_range ho.freeing
    (fun i _ => ref_of_inUse hn) hdirect
  have hframe : OnEntry p { E n with addrs := fun _ => 0 } s
      (t.setInode p { t.mem p with entry := { (t.mem p).entry with addrs := fun _ => 0 } }) := by
    refine ⟨hob.held, hob.log, hob.list, ?_, hob.fresh, hob.file, hob.proc, hob.used⟩
    simp only [State.setInode, hob.mem, hE]
  rw [blocksOf, bitmapsOf_append, recordAll_append, hc, Option.bind_some]
  rcases runs_when.mp htable with ⟨h0, htable⟩ | ⟨h0, rfl⟩
  · obtain ⟨hframe', hf', hc'⟩ := clearTable_spec ho hn h0 (hf.setInode _ _) htable
    have he : { E n with addrs := fun _ => 0, indirect := 0 } = { ((t.setInode p { t.mem p with
        entry := { (t.mem p).entry with addrs := fun _ => 0 } }).mem p).entry with
        indirect := 0 } := by
      rw [State.mem_setInode_same, hob.mem, ← hE]
    rw [he]
    exact ⟨hframe.trans hframe', hf', hc'⟩
  · have h0' : (E n).indirect = 0 := by simpa using h0
    rw [withoutInode_direct hn h0'] at hf
    refine ⟨?_, hf.setInode _ _, by simp [tableBlocks, h0', bitmapsOf, recordAll]⟩
    have he : { E n with addrs := fun _ => 0, indirect := 0 } =
        { E n with addrs := fun _ => 0 } := by rw [← h0']
    rw [he]
    exact hframe

theorem inodeClear_spec (hv : (s.mem p).valid = true) (hno : (s.mem p).inodeNo = n)
    (hE : E n = (s.mem p).entry) (hn : InUse E n) (ho : BlocksOwned E s.disk)
    (hr : Runs (inodeClear sblock ctx p) s u s') : ClearDone ctx p n E s s' := by
  simp only [inodeClear, runs_bind, runs_get, runs_modifyEntry] at hr
  obtain ⟨_, _, ⟨rfl, rfl⟩, _, t₁, hdirect, _, _, rfl, _, t₂, htable, _, _, rfl, hsync⟩ := hr
  rw [← hE] at hdirect htable
  obtain ⟨hframe, hf, hc⟩ := clearBlocks_spec hE hn ho hdirect htable
  have he : { (t₂.mem p).entry with numBytes := 0 } = cleared (E n) := by
    rw [hframe.inode]
    rfl
  rw [he] at hsync
  have hframe₂ : OnEntry p (cleared (E n)) s
      (t₂.setInode p { t₂.mem p with entry := cleared (E n) }) :=
    hframe.trans (OnBlocks.refl _)
  have hinode := hframe₂.inode
  rw [runs_inodeSync_write (by rw [hinode]; exact hv)] at hsync
  obtain ⟨-, c, hc', rfl⟩ := hsync
  simp only [hinode, hno, State.disk_setInode, State.ctx_setInode] at hc' ⊢
  constructor
  case frame =>
    exact ⟨hframe₂.held, hframe₂.log, hframe₂.list, hframe₂.mem, hframe₂.fresh, hframe₂.file,
      hframe₂.proc, fun hu => (sameData_storeEntry hn.1).usedExact (hframe₂.used hu)⟩
  case owned =>
    exact (hf.cleared ho hn).resync (fun _ _ => .refl _) (sameData_storeEntry hn.1)
  case same =>
    intro b hb hi
    exact (sameData_storeEntry hn.1 b hi).trans (hf.same b hb)
  case entries =>
    intro m hm
    rw [diskEntry_storeEntry hn.1 hm]
    split
    case isTrue => rfl
    case isFalse => rw [diskEntry, hf.same _ (isInodes_toBlockNo hm).not_bitmap, diskEntry]
  case record =>
    rw [recordAll_append, hc, Option.bind_some, recordAll_cons, hc', Option.bind_some]
    rfl

theorem inodeClear_returns (hv : (s.mem p).valid = true) (hno : (s.mem p).inodeNo = n)
    (hE : E n = (s.mem p).entry) (hn : InUse E n) (ho : BlocksOwned E s.disk)
    (hheld : s.held = []) {c : OpContext}
    (hc : recordAll ctx s.ctx (bitmapsOf (blocksOf (E n) s.disk) ++ [toBlockNo sblock n]) = some c) :
    ∃ s', Runs (inodeClear sblock ctx p) s () s' := by
  rw [recordAll_append, Option.bind_eq_some_iff] at hc
  obtain ⟨c₂, hc₂, hc⟩ := hc
  have hc₁ := hc₂
  rw [blocksOf, bitmapsOf_append, recordAll_append, Option.bind_eq_some_iff] at hc₁
  obtain ⟨c₁, hc₁, htab⟩ := hc₁
  obtain ⟨t₁, hdirect⟩ := freeAddrs_returns place_direct_injective List.nodup_range ho.freeing
    (fun i _ => ref_of_inUse hn) (by simp [hheld]) hc₁
  obtain ⟨hob, hf, hct⟩ := freeAddrs_spec place_direct_injective List.nodup_range ho.freeing
    (fun i _ => ref_of_inUse hn) hdirect
  have htable : ∃ t₂, Runs (Exec.when ((E n).indirect ≠ 0)
      (clearTable sblock ctx p (E n).indirect.toNat))
      (t₁.setInode p { t₁.mem p with entry := { (t₁.mem p).entry with addrs := fun _ => 0 } })
      () t₂ := by
    by_cases h0 : (E n).indirect = 0
    · exact ⟨_, runs_when.mpr (.inr ⟨by simp [h0], rfl⟩)⟩
    · obtain ⟨t₂, ht₂⟩ := clearTable_returns (p := p) ho hn h0 (hf.setInode p
        { t₁.mem p with entry := { (t₁.mem p).entry with addrs := fun _ => 0 } })
        (by rw [State.held_setInode, hob.held, hheld])
        (by rw [State.ctx_setInode, Option.some.inj (hct.symm.trans hc₁)]; exact htab)
      exact ⟨t₂, runs_when.mpr (.inl ⟨h0, ht₂⟩)⟩
  obtain ⟨t₂, htable⟩ := htable
  obtain ⟨hframe, hf₂, hct₂⟩ := clearBlocks_spec hE hn ho hdirect htable
  have hinode : (t₂.setInode p { t₂.mem p with
      entry := { (t₂.mem p).entry with numBytes := 0 } }).mem p =
      { s.mem p with entry := cleared (E n) } := by
    rw [State.mem_setInode_same, hframe.inode]
    rfl
  simp only [inodeClear, runs_bind, runs_get, runs_modifyEntry]
  rw [recordAll_cons, Option.bind_eq_some_iff] at hc
  obtain ⟨c₃, hc₃, -⟩ := hc
  refine ⟨_, s, s, ⟨rfl, rfl⟩, ⟨⟩, t₁, by rw [← hE]; exact hdirect, ⟨⟩, _, rfl, ⟨⟩, t₂,
    by rw [← hE]; exact htable, ⟨⟩, _, rfl,
    (runs_inodeSync_write (by rw [hinode]; exact hv)).mpr ⟨?_, c₃, ?_, rfl⟩⟩
  · rw [State.held_setInode, hframe.held, State.held_setInode, hheld]
    exact List.not_mem_nil
  · rw [hinode, hno, State.ctx_setInode, Option.some.inj (hct₂.symm.trans hc₂)]
    exact hc₃

end FtosFfs.Fs
