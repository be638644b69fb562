import FtosFfs.Fs.Handle

/-! The bytes of files, and what `inode_write` has done to them when it returns. -/

namespace FtosFfs.Fs

open Lib Lib.Exec Cache

variable {E E' : Nat → InodeEntry} {d d' : Nat → BlockData} {n b : Nat} {g : Nat → UInt8}

/-- Byte `i` of the file of inode `n`, 0 where it has no block. -/
def fileByte (E : Nat → InodeEntry) (d : Nat → BlockData) (n i : Nat) : UInt8 :=
  if ref E d (n, place (i / blockSize)) = 0 then 0
  else (d (ref E d (n, place (i / blockSize)))).get (i % blockSize)

theorem place_inj {i j : Nat} (h : place i = place j) : i = j := by
  unfold place at h
  split at h <;> split at h <;> simp at h <;> omega

theorem place_ne_table (i : Nat) : place i ≠ .table := by
  unfold place
  split <;> simp

/-- Bytes `start` to `stop - 1` of the file of inode `n` are those of `g` wherever the file has a
block now, and all the other bytes of files are what they were. -/
structure Wrote (n : Nat) (g : Nat → UInt8) (start stop : Nat) (E E' : Nat → InodeEntry)
    (d d' : Nat → BlockData) : Prop where
  owned : BlocksOwned E' d'
  bytes : ∀ m i, fileByte E' d' m i =
    if m = n ∧ start ≤ i ∧ i < stop ∧ ref E' d' (n, place (i / blockSize)) ≠ 0 then g i
    else fileByte E d m i
  refs : ∀ m k, ref E d (m, place k) ≠ 0 → ref E' d' (m, place k) = ref E d (m, place k)
  outside : ∀ m k, m ≠ n ∨ stop ≤ start ∨ k < start / blockSize ∨ stop ≤ k * blockSize →
    ref E' d' (m, place k) = ref E d (m, place k)
  direct : ∀ k, start < (k + 1) * blockSize → k * blockSize < stop → start < stop →
    k < inodeNumDirect → ref E' d' (n, place k) ≠ 0

theorem Wrote.nothing {start stop : Nat} (h : BlocksOwned E d) (hs : stop ≤ start) :
    Wrote n g start stop E E d d := by
  refine ⟨h, fun m i => ?_, fun _ _ _ => rfl, fun _ _ _ => rfl, fun k _ _ hlt => by omega⟩
  rw [if_neg (by omega)]

theorem Wrote.congr {g' : Nat → UInt8} {start stop : Nat} (h : Wrote n g start stop E E' d d')
    (hg : ∀ i, start ≤ i → i < stop → g' i = g i) : Wrote n g' start stop E E' d d' := by
  refine ⟨h.owned, fun m i => ?_, h.refs, h.outside, h.direct⟩
  rw [h.bytes]
  split
  case isTrue hi => rw [hg i hi.2.1 hi.2.2.1]
  case isFalse => rfl

/-- Two writes one after the other, the first up to the end of a block or of both. -/
theorem Wrote.trans {E'' : Nat → InodeEntry} {d'' : Nat → BlockData} {start mid stop : Nat}
    (h : Wrote n g start mid E E' d d') (h' : Wrote n g mid stop E' E'' d' d'')
    (hle : start < mid) (hmid : mid ≤ stop) (haligned : mid % blockSize = 0 ∨ mid = stop) :
    Wrote n g start stop E E'' d d'' := by
  have hdiv (k : Nat) : k < mid / blockSize ↔ (k + 1) * blockSize ≤ mid := by
    rw [← Nat.succ_le_iff, Nat.le_div_iff_mul_le (by decide)]
  have hbs : blockSize = 512 := rfl
  have hearly (i : Nat) (hi : i < mid) : ref E'' d'' (n, place (i / blockSize)) =
      ref E' d' (n, place (i / blockSize)) := by
    refine h'.outside _ _ ?_
    rw [hdiv]
    rw [hbs] at haligned ⊢
    omega
  constructor
  case owned => exact h'.owned
  case bytes =>
    intro m i
    rw [h'.bytes, h.bytes]
    by_cases hmn : m = n
    · subst hmn
      by_cases hi : i < mid
      · rw [if_neg (by omega), hearly i hi]
        exact if_congr (by simp only [true_and]; omega) rfl rfl
      · rw [if_neg (show ¬(m = m ∧ start ≤ i ∧ i < mid ∧ _) by omega)]
        exact if_congr (by simp only [true_and]; omega) rfl rfl
    · simp [hmn]
  case refs =>
    intro m k hne
    have h1 := h.refs m k hne
    rw [h'.refs m k (by rwa [h1]), h1]
  case outside =>
    intro m k hk
    rw [h'.outside m k, h.outside m k]
    · rw [hbs] at *
      omega
    · rw [hbs] at *
      omega
  case direct =>
    intro k hk1 hk2 _ hk
    by_cases hkm : mid < (k + 1) * blockSize ∧ mid < stop
    · exact h'.direct k hkm.1 hk2 hkm.2 hk
    · have h1 := h.direct k hk1 (by rw [hbs] at *; omega) hle hk
      rwa [h'.refs n k h1]

/-- The slots do not depend on blocks that are no tables. -/
theorem ref_congr (h : ∀ m, InUse E m → (E m).indirect ≠ 0 →
    d' (E m).indirect.toNat = d (E m).indirect.toNat) : ref E d' = ref E d := by
  funext ⟨m, pl⟩
  simp only [ref]
  split
  case isTrue hm => rw [blockOf_congr (h m hm)]
  case isFalse => rfl

theorem BlocksOwned.congr (h : BlocksOwned E d) (href : ref E' d' = ref E d)
    (hbit : ∀ c, InGroups c → blockBit d' c = blockBit d c) : BlocksOwned E' d' := by
  constructor
  case owns =>
    rw [href]
    exact h.owns.congr fun c hc => by rw [hbit c hc.1]
  case metaUsed => exact fun c hc hd => by rw [hbit c hc]; exact h.metaUsed c hc hd

/-- Bytes `start` to `stop - 1` of the file of inode `n` have blocks. -/
def Filled (n start stop : Nat) (E : Nat → InodeEntry) (d : Nat → BlockData) : Prop :=
  ∀ i, start ≤ i → i < stop → ref E d (n, place (i / blockSize)) ≠ 0

theorem Filled.nothing {start stop : Nat} (hs : stop ≤ start) : Filled n start stop E d :=
  fun i hi hi' => absurd hi' (by omega)

theorem Filled.congr {start stop : Nat} (h : Filled n start stop E d)
    (href : ref E' d' = ref E d) : Filled n start stop E' d' := by
  unfold Filled
  rw [href]
  exact h

/-- A write of the rest of the bytes after those of the first block. -/
theorem Filled.cons {start mid stop : Nat} (hw : Wrote n g mid stop E E' d d')
    (hrest : Filled n mid stop E' d') (hb : ref E d (n, place (start / blockSize)) ≠ 0)
    (hmid : mid ≤ (start / blockSize + 1) * blockSize) :
    Filled n start stop E' d' := by
  intro i hi hi'
  by_cases hlt : mid ≤ i
  · exact hrest i hlt hi'
  · have hdiv : i / blockSize = start / blockSize := by
      have hlt' : i < (start / 512 + 1) * 512 := Nat.lt_of_lt_of_le (Nat.not_le.mp hlt) hmid
      show i / 512 = start / 512
      omega
    rw [hdiv, hw.refs n _ hb]
    exact hb

/-! ### Changes of inode entries -/

/-- The entries hold the same block numbers. -/
structure SameBlocks (e e' : InodeEntry) : Prop where
  type : e'.type = e.type
  addrs : e'.addrs = e.addrs
  indirect : e'.indirect = e.indirect

theorem SameBlocks.refl (e : InodeEntry) : SameBlocks e e := ⟨rfl, rfl, rfl⟩

theorem SameBlocks.symm {e e' : InodeEntry} (h : SameBlocks e e') : SameBlocks e' e :=
  ⟨h.type.symm, h.addrs.symm, h.indirect.symm⟩

theorem SameBlocks.blockOf {e e' : InodeEntry} (h : SameBlocks e e') :
    blockOf e' d = blockOf e d := by
  funext pl
  cases pl <;> simp [Fs.blockOf, InodeEntry.addr, h.addrs, h.indirect]

theorem ref_sameBlocks (h : ∀ m, IsInode m → SameBlocks (E m) (E' m)) : ref E' d = ref E d := by
  funext ⟨m, pl⟩
  by_cases hm : IsInode m
  · have hu : InUse E' m ↔ InUse E m := by rw [InUse, InUse, (h m hm).type]
    simp only [ref]
    rw [(h m hm).blockOf]
    exact if_congr hu rfl rfl
  · simp [ref, InUse, hm]

/-- The blocks other than inode blocks are the same. -/
def SameData (d d' : Nat → BlockData) : Prop := ∀ c, ¬IsInodes c → d' c = d c

theorem SameData.blockBit (h : SameData d d') {c : Nat} (hc : InGroups c) :
    blockBit d' c = blockBit d c := by
  rw [inGroups_iff] at hc
  rw [blockBit_eq, blockBit_eq, h]
  rw [isInodes_iff]
  omega

theorem SameData.usedExact (h : SameData d d') {used : Nat → UInt32} (hu : UsedExact d used) :
    UsedExact d' used :=
  hu.congr fun _ hc => h.blockBit hc

theorem SameData.ref (h : SameData d d') (ho : BlocksOwned E d) : ref E d' = ref E d :=
  ref_congr fun _ hm h0 => h _ (ho.isData_table hm h0).not_inodes

theorem BlocksOwned.resync (h : BlocksOwned E d)
    (hE : ∀ m, IsInode m → SameBlocks (E m) (E' m)) (hd : SameData d d') : BlocksOwned E' d' :=
  h.congr (by rw [ref_sameBlocks hE, hd.ref h]) fun _ hc => hd.blockBit hc

theorem fileByte_resync (h : BlocksOwned E d) (hE : ∀ m, IsInode m → SameBlocks (E m) (E' m))
    (hd : SameData d d') (m i : Nat) : fileByte E' d' m i = fileByte E d m i := by
  unfold fileByte
  rw [ref_sameBlocks hE, hd.ref h]
  split
  case isTrue => rfl
  case isFalse hz => rw [hd _ (IsData.not_inodes (h.owns.inArea _ hz))]

theorem Wrote.resync {E'' : Nat → InodeEntry} {d'' : Nat → BlockData} {start stop : Nat}
    (h : Wrote n g start stop E E' d d') (hE : ∀ m, IsInode m → SameBlocks (E' m) (E'' m))
    (hd : SameData d' d'') : Wrote n g start stop E E'' d d'' := by
  have href : ref E'' d'' = ref E' d' := by rw [ref_sameBlocks hE, hd.ref h.owned]
  constructor
  case owned => exact h.owned.resync hE hd
  case bytes =>
    intro m i
    rw [fileByte_resync h.owned hE hd, h.bytes, href]
  case refs => exact fun m k hne => by rw [href]; exact h.refs m k hne
  case outside => exact fun m k hk => by rw [href]; exact h.outside m k hk
  case direct => exact fun k h1 h2 h3 h4 => by rw [href]; exact h.direct k h1 h2 h3 h4

theorem sameData_storeEntry {e : InodeEntry} (hn : IsInode n) : SameData d (storeEntry d n e) := by
  intro c hc
  refine Function.update_of_ne ?_ ..
  rintro rfl
  exact hc (isInodes_toBlockNo hn)

theorem diskEntry_storeEntry {e : InodeEntry} {m : Nat} (hn : IsInode n) (hm : IsInode m) :
    diskEntry (storeEntry d n e) m = if m = n then e else diskEntry d m :=
  diskEntry_store hn hm

/-! ### A write to one block -/

section

variable {k : Nat} {x : BlockData}

/-- The block of a file is no table. -/
theorem BlocksOwned.table_ne (h : BlocksOwned E d) (hb : b = ref E d (n, place k)) {m : Nat}
    (hm : InUse E m) (h0 : (E m).indirect ≠ 0) : (E m).indirect.toNat ≠ b := by
  have htable : ref E d (m, .table) = (E m).indirect.toNat := ref_of_inUse hm
  intro heq
  have hne : ref E d (m, .table) ≠ 0 := by
    rw [htable]
    exact fun hz => h0 (toNat_eq_zero.mp hz)
  have := h.owns.distinct (m, .table) (n, place k) hne (by rw [htable, heq, hb])
  exact place_ne_table k (Prod.mk.inj this).2.symm

theorem ref_store (h : BlocksOwned E d) (hb : b = ref E d (n, place k)) :
    ref E (Function.update d b x) = ref E d :=
  ref_congr fun _ hm h0 => Function.update_of_ne (h.table_ne hb hm h0) ..

/-- Block 0 and the blocks of files are outside of the inode blocks and the bitmaps. -/
theorem BlocksOwned.not_meta (h : BlocksOwned E d) (hb : b = ref E d (n, place k)) :
    ¬IsInodes b ∧ ¬IsBitmap b := by
  by_cases hz : b = 0
  · rw [hz, isInodes_iff, isBitmap_iff]
    omega
  · have hd : IsData b := by
      rw [hb] at hz ⊢
      exact h.owns.inArea _ hz
    exact ⟨hd.not_inodes, hd.not_bitmap⟩

theorem BlocksOwned.store (h : BlocksOwned E d) (hb : b = ref E d (n, place k)) :
    BlocksOwned E (Function.update d b x) :=
  h.congr (ref_store h hb) fun _ hc => blockBit_update (h.not_meta hb).2 hc

end

/-- Block `index` of inode `n` is `b`: the block that was there, or a new one with zeroes. -/
structure Placed (n index b : Nat) (E E' : Nat → InodeEntry) (d d' : Nat → BlockData) : Prop
    extends Mapped n index b E E' d d' where
  present : ref E d (n, place index) ≠ 0 → E' = E ∧ d' = d
  new : ref E d (n, place index) = 0 → b = 0 ∨ d' b = Bytes.zero
  direct : index < inodeNumDirect → b ≠ 0

theorem MapDone.placed {s s' : State} {p : Ptr} {modified : Bool} {e' : InodeEntry} {index : Nat}
    (hm : MapDone p n index b modified E s s' e') (hE : E n = (s.mem p).entry) :
    Placed n index b E (Function.update E n e') s.disk s'.disk := by
  have hsame (hmod : modified = false) : Function.update E n e' = E ∧ s' = s := by
    obtain ⟨rfl, -⟩ := hm.same hmod
    have he : (s'.mem p).entry = e' := by
      have hi := hm.frame.inode
      rw [hi]
    exact ⟨by rw [← he, ← hE, Function.update_eq_self], rfl⟩
  refine ⟨hm.mapped, fun hne => ?_, fun hz => ?_, hm.direct⟩
  · have hmod : modified = false := by
      by_contra hc
      exact hne (hm.new (by simpa using hc)).1
    obtain ⟨hself, rfl⟩ := hsame hmod
    exact ⟨hself, rfl⟩
  · cases modified with
    | true => exact (hm.new rfl).2
    | false =>
      obtain ⟨hself, rfl⟩ := hsame rfl
      have hh := hm.mapped.here
      rw [hself, hz] at hh
      exact .inl hh.symm

namespace Placed

variable {index : Nat} (hp : Placed n index b E E' d d')

include hp

theorem eq_ref (hne : ref E d (n, place index) ≠ 0) : b = ref E d (n, place index) := by
  obtain ⟨rfl, rfl⟩ := hp.present hne
  exact hp.here.symm

theorem ref_other {m k : Nat} (hne : ¬(m = n ∧ k = index)) :
    ref E' d' (m, place k) = ref E d (m, place k) := by
  refine hp.other _ (place_ne_table k) fun heq => hne ?_
  obtain ⟨hmn, hk⟩ := Prod.mk.inj heq
  exact ⟨hmn, place_inj hk⟩

/-- The bytes of files are the same, a new block counts as zeroes. -/
theorem fileByte (m i : Nat) : fileByte E' d' m i = fileByte E d m i := by
  unfold Fs.fileByte
  by_cases hmi : m = n ∧ i / blockSize = index
  · obtain ⟨rfl, hi⟩ := hmi
    rw [hi, hp.here]
    by_cases hz : ref E d (m, place index) = 0
    · rw [if_pos hz]
      split
      case isTrue => rfl
      case isFalse hb => rw [(hp.new hz).resolve_left hb, Bytes.get_zero]
    · have hb := hp.eq_ref hz
      obtain ⟨rfl, rfl⟩ := hp.present hz
      rw [hb]
  · rw [hp.ref_other hmi]
    split
    case isTrue => rfl
    case isFalse hz => rw [hp.kept _ (place_ne_table _) hz]

end Placed

/-- The bytes of files after a store to the block of a file. -/
theorem fileByte_store (h : BlocksOwned E d) {k : Nat} (hb : b = ref E d (n, place k))
    {x : BlockData} (m i : Nat) :
    fileByte E (Function.update d b x) m i =
      if m = n ∧ i / blockSize = k ∧ b ≠ 0 then x.get (i % blockSize) else fileByte E d m i := by
  unfold fileByte
  rw [ref_store h hb]
  by_cases hmi : m = n ∧ i / blockSize = k
  · obtain ⟨rfl, rfl⟩ := hmi
    rw [← hb]
    by_cases hz : b = 0
    · simp [hz]
    · simp [hz]
  · rw [if_neg fun hc : m = n ∧ i / blockSize = k ∧ b ≠ 0 => hmi ⟨hc.1, hc.2.1⟩]
    split
    case isTrue => rfl
    case isFalse hz =>
      have hne : ref E d (m, place (i / blockSize)) ≠ b := by
        intro heq
        obtain ⟨hmn, hk⟩ := Prod.mk.inj (h.owns.distinct _ (n, place k) hz (heq.trans hb))
        exact hmi ⟨hmn, place_inj hk⟩
      rw [Function.update_of_ne hne]

/-- A write within one block that is in its place. -/
theorem Placed.wrote {start : Nat} (step : Nat) (hm : Placed n (start / blockSize) b E E' d d')
    (hpos : 0 < step) (hstep : start % 512 + step ≤ 512) :
    Wrote n g start (start + step) E E' d (Function.update d' b
      ((d' b).splice (start % blockSize) step fun i => g (start + i))) := by
  have hbs : blockSize = 512 := rfl
  have hb : b = ref E' d' (n, place (start / blockSize)) := hm.here.symm
  have href := ref_store (x := (d' b).splice (start % blockSize) step fun i => g (start + i))
    hm.owned hb
  constructor
  case owned => exact hm.owned.store hb
  case bytes =>
    intro m i
    rw [fileByte_store hm.owned hb, href, hm.fileByte]
    by_cases hmi : m = n ∧ i / blockSize = start / blockSize
    · obtain ⟨rfl, hi⟩ := hmi
      rw [hi, ← hb]
      by_cases hz : b = 0
      · simp [hz]
      · have hi' : i / 512 = start / 512 := hi
        rw [if_pos ⟨rfl, rfl, hz⟩]
        split
        case isTrue hin =>
          have hoff : i % blockSize = start % blockSize + (i - start) := by
            show i % 512 = start % 512 + (i - start)
            omega
          have hlt : start % blockSize + (i - start) < blockSize := by
            show start % 512 + (i - start) < 512
            omega
          rw [hoff, Bytes.get_splice_in (by omega) hlt, Nat.add_sub_cancel' (by omega)]
        case isFalse hout =>
          have hoff : i % blockSize < start % blockSize ∨ start % blockSize + step ≤ i % blockSize := by
            show i % 512 < start % 512 ∨ start % 512 + step ≤ i % 512
            omega
          rw [Bytes.get_splice_out hoff, ← hm.fileByte m i, Fs.fileByte, hi, ← hb, if_neg hz]
    · have hmi' : ¬(m = n ∧ i / 512 = start / 512) := hmi
      rw [if_neg fun hc : m = n ∧ i / blockSize = start / blockSize ∧ b ≠ 0 => hmi ⟨hc.1, hc.2.1⟩,
        if_neg (by omega)]
  case refs =>
    intro m k hne
    rw [href]
    by_cases heq : m = n ∧ k = start / blockSize
    · obtain ⟨rfl, rfl⟩ := heq
      rw [← hb, hm.eq_ref hne]
    · exact hm.ref_other heq
  case outside =>
    intro m k hk
    rw [href]
    refine hm.ref_other fun heq => ?_
    rw [hbs] at hk heq
    omega
  case direct =>
    intro k hk1 hk2 _ hk
    rw [href]
    obtain rfl : k = start / blockSize := by
      rw [hbs] at hk1 hk2 ⊢
      omega
    rw [← hb]
    exact hm.direct hk

/-! ### The calls -/

variable {s s' : State} {p : Ptr} {ctx : Bool}

/-- A write to a held block other than a bitmap and its release, after a change of an entry. -/
theorem OnEntry.store {e' : InodeEntry} (h : OnEntry p e' s s') (hb : ¬IsBitmap b)
    (x : BlockData) (c : OpContext) : OnEntry p e' s { s' with
      disk := Function.update s'.disk b x, ctx := c, held := (b :: s'.held).erase b } := by
  refine ⟨?_, h.log, h.list, h.mem, h.fresh, h.file, h.proc,
    fun hu => (h.used hu).congr fun c hc => blockBit_update hb hc⟩
  rw [List.erase_cons_head]
  exact h.held

/-- The loop of `inode_write` from `start` on, with enough fuel. -/
theorem writeLoop_spec {src : Nat → UInt8} {off stop fuel start : Nat} {m m' : Bool}
    (hn : InUse E n) (hE : E n = (s.mem p).entry) (ho : BlocksOwned E s.disk)
    (hoff : off ≤ start) (hfuel : stop ≤ start + fuel)
    (hr : Runs (writeLoop sblock ctx p src off stop fuel start m) s m' s') :
    ∃ e', SameMeta (s.mem p).entry e' ∧ OnEntry p e' s s' ∧
      Wrote n (fun i => src (i - off)) start stop E (Function.update E n e') s.disk s'.disk ∧
      (∀ c, IsInodes c → s'.disk c = s.disk c) ∧
      (m' = false → m = false ∧ e' = (s.mem p).entry) ∧ (m = true → m' = true) ∧
      (UsedExact s.disk s.usedBlock → Filled n start stop (Function.update E n e') s'.disk) := by
  induction fuel generalizing s start m E with
  | zero =>
    obtain ⟨rfl, rfl⟩ := runs_pure.mp hr
    refine ⟨(s.mem p).entry, rfl, (OnBlocks.refl _).onEntry, ?_, fun _ _ => rfl,
      fun h => ⟨h, rfl⟩, id, fun _ => .nothing hfuel⟩
    rw [← hE, Function.update_eq_self]
    exact .nothing ho hfuel
  | succ fuel ih =>
    unfold writeLoop at hr
    split at hr
    case isFalse hlt =>
      obtain ⟨rfl, rfl⟩ := runs_pure.mp hr
      refine ⟨(s.mem p).entry, rfl, (OnBlocks.refl _).onEntry, ?_, fun _ _ => rfl,
        fun h => ⟨h, rfl⟩, id, fun _ => .nothing (by omega)⟩
      rw [← hE, Function.update_eq_self]
      exact .nothing ho (by omega)
    case isTrue hlt =>
      simp only [runs_bind, runs_cacheAcquire, runs_writeBack] at hr
      obtain ⟨⟨b, m₁⟩, t, hmap, _, _, ⟨-, rfl, rfl⟩, _, _, ⟨c, -, rfl⟩, hr⟩ := hr
      obtain ⟨-, e₁, hm⟩ := inodeMap_spec hE hn ho hmap
      set step := min (stop - start) (blockSize - start % blockSize) with hstep
      have hstep' : step = min (stop - start) (512 - start % 512) := hstep
      have hchunk := (hm.placed hE).wrote (g := fun i => src (i - off)) step (by omega) (by omega)
      have hsrc : (fun i => src (start - off + i)) = fun i => src (start + i - off) := by
        funext i
        rw [show start - off + i = start + i - off by omega]
      simp only [hsrc] at hr
      have hmeta := hm.mapped.owned.not_meta hm.mapped.here.symm
      have hframe := hm.frame.store hmeta.2 ((t.disk b).splice
        (start % blockSize) step fun i => src (start + i - off)) c
      have hn₁ : InUse (Function.update E n e₁) n :=
        (inUse_update (by rw [hm.fields.type, hE])).mpr hn
      obtain ⟨e', hf', hframe', hw, hinodes, hsame, hmono, hfilled⟩ :=
        ih hn₁ (by rw [hframe.inode, Function.update_self]) hchunk.owned (by omega) (by omega) hr
      rw [hframe.inode] at hf'
      rw [Function.update_idem] at hw hfilled
      refine ⟨e', hm.fields.trans hf', hframe.trans hframe', ?_, ?_, ?_, ?_, fun hu => ?_⟩
      · refine hchunk.trans hw (by omega) (by omega) ?_
        show (start + step) % 512 = 0 ∨ start + step = stop
        omega
      · intro c hc
        rw [hinodes c hc]
        have hne : c ≠ b := by
          rintro rfl
          exact hmeta.1 hc
        simp only [Function.update_of_ne hne]
        exact hm.mapped.inodes c hc
      · intro h
        obtain ⟨hor, he⟩ := hsame h
        rw [Bool.or_eq_false_iff] at hor
        obtain ⟨hm0, hm1⟩ := hor
        obtain ⟨rfl, -⟩ := hm.same hm1
        refine ⟨hm0, ?_⟩
        rw [he, hm.frame.inode]
      · rintro rfl
        exact hmono (by simp)
      · refine Filled.cons hw (hfilled (hframe.used hu)) ?_ ?_
        · rw [ref_store hm.mapped.owned hm.mapped.here.symm, hm.mapped.here]
          exact hm.filled hu
        · show start + step ≤ (start / 512 + 1) * 512
          omega

/-- An index block that is there stays the index block. -/
theorem writeLoop_table {src : Nat → UInt8} {off stop fuel start : Nat} {m m' : Bool}
    (hn : InUse E n) (hE : E n = (s.mem p).entry) (ho : BlocksOwned E s.disk)
    (h0 : (s.mem p).entry.indirect ≠ 0)
    (hr : Runs (writeLoop sblock ctx p src off stop fuel start m) s m' s') :
    (s'.mem p).entry.indirect = (s.mem p).entry.indirect := by
  induction fuel generalizing s start m E with
  | zero =>
    obtain ⟨rfl, rfl⟩ := runs_pure.mp hr
    rfl
  | succ fuel ih =>
    unfold writeLoop at hr
    split at hr
    case isFalse =>
      obtain ⟨rfl, rfl⟩ := runs_pure.mp hr
      rfl
    case isTrue =>
      simp only [runs_bind, runs_cacheAcquire, runs_writeBack] at hr
      obtain ⟨⟨b, m₁⟩, t, hmap, _, _, ⟨-, rfl, rfl⟩, _, _, ⟨c, -, rfl⟩, hr⟩ := hr
      obtain ⟨-, e₁, hm⟩ := inodeMap_spec hE hn ho hmap
      have hent : (t.mem p).entry = e₁ := by rw [hm.frame.inode]
      have hkept : (t.mem p).entry.indirect = (s.mem p).entry.indirect := hent ▸ hm.table h0
      have hn₁ : InUse (Function.update E n e₁) n := (inUse_update (by rw [hm.fields.type, hE])).mpr hn
      refine (ih hn₁ (by rw [Function.update_self]; exact hent.symm) ?_
        (by rw [hkept]; exact h0) hr).trans hkept
      exact hm.mapped.owned.store hm.mapped.here.symm

/-- The size of a file after a write of `count` bytes at `off`. -/
def grownSize (e : InodeEntry) (off count : Nat) : UInt32 :=
  if off + count > e.numBytes.toNat then UInt32.ofNat (off + count) else e.numBytes

/-- What `inode_write` has done when it returns, for an inode that is no device. -/
structure WriteDone (p : Ptr) (n : Nat) (src : Nat → UInt8) (off count : Nat)
    (E : Nat → InodeEntry) (s s' : State) (e' : InodeEntry) : Prop where
  bound : off ≤ (s.mem p).entry.numBytes.toNat ∧ off + count ≤ inodeMaxBytes
  fields : SameMeta { (s.mem p).entry with numBytes := grownSize (s.mem p).entry off count } e'
  frame : OnEntry p e' s s'
  wrote : Wrote n (fun i => src (i - off)) off (off + count) E (Function.update E n e') s.disk s'.disk
  entries : ∀ m, IsInode m → m ≠ n → diskEntry s'.disk m = diskEntry s.disk m
  synced : diskEntry s'.disk n = e' ∨
    (off + count ≤ (s.mem p).entry.numBytes.toNat ∧ e' = (s.mem p).entry ∧
      diskEntry s'.disk n = diskEntry s.disk n)
  filled : UsedExact s.disk s.usedBlock → Filled n off (off + count) (Function.update E n e') s'.disk

theorem inodeWrite_spec {src : Nat → UInt8} {off count r : Nat} (hv : (s.mem p).valid = true)
    (hno : (s.mem p).inodeNo = n) (hE : E n = (s.mem p).entry) (hn : InUse E n)
    (ho : BlocksOwned E s.disk) (hdev : (s.mem p).entry.type ≠ inodeDevice)
    (hr : Runs (inodeWrite sblock ctx p src off count) s r s') :
    r = count ∧ ∃ e', WriteDone p n src off count E s s' e' := by
  simp only [inodeWrite, runs_bind, runs_get] at hr
  obtain ⟨_, _, ⟨rfl, rfl⟩, hr⟩ := hr
  rw [if_neg hdev] at hr
  simp only [runs_bind, runs_require, runs_pure] at hr
  obtain ⟨_, _, ⟨hoff, rfl⟩, _, _, ⟨hmax, rfl⟩, m, t, hloop, _, t₁, hsize, _, t₂, hsync, rfl, rfl⟩ := hr
  obtain ⟨e₁, hf, hframe, hw, hinodes, hsame, -, hfilled⟩ :=
    writeLoop_spec hn hE ho (Nat.le_refl off) (by omega) hloop
  set e' : InodeEntry := { e₁ with numBytes := grownSize (s.mem p).entry off count } with he'
  have ht₁ : t₁ = t.setInode p { t.mem p with entry := e' } := by
    rcases runs_when.mp hsize with ⟨hgt, h⟩ | ⟨hle, rfl⟩
    · rw [runs_modifyEntry] at h
      rw [h, he', hframe.inode, grownSize, if_pos hgt]
    · have hsz : grownSize (s.mem p).entry off count = e₁.numBytes := by
        rw [grownSize, if_neg hle, hf.numBytes]
      rw [he', hsz, show { e₁ with numBytes := e₁.numBytes } = e₁ from rfl]
      have hi : { t.mem p with entry := e₁ } = t.mem p := by rw [hframe.inode]
      rw [hi, State.setInode_self]
  have hframe₁ : OnEntry p e' s t₁ := by
    refine hframe.trans ?_
    rw [ht₁]
    exact OnBlocks.refl _
  have hfields : SameMeta { (s.mem p).entry with
      numBytes := grownSize (s.mem p).entry off count } e' := by
    rw [he', hf]
    rfl
  have hblocks : ∀ m, IsInode m → SameBlocks (Function.update E n e₁ m) (Function.update E n e' m) := by
    intro m _
    simp only [Function.update_apply]
    split
    · exact ⟨rfl, rfl, rfl⟩
    · exact .refl _
  have hdisk₁ : t₁.disk = t.disk := by rw [ht₁]; rfl
  have hentry (m : Nat) (hm : IsInode m) : diskEntry t.disk m = diskEntry s.disk m := by
    rw [diskEntry, hinodes _ (isInodes_toBlockNo hm), diskEntry]
  have hrefs {d : Nat → BlockData} (hd : SameData t.disk d) :
      ref (Function.update E n e') d = ref (Function.update E n e₁) t.disk := by
    rw [ref_sameBlocks hblocks, hd.ref hw.owned]
  have hinode := hframe₁.inode
  refine ⟨rfl, e', ?_⟩
  rcases runs_when.mp hsync with ⟨-, h⟩ | ⟨hno', rfl⟩
  · rw [runs_inodeSync_write (by rw [hinode]; exact hv)] at h
    obtain ⟨-, c, -, rfl⟩ := h
    simp only [hinode, hno, hdisk₁]
    refine ⟨⟨hoff, hmax⟩, hfields, ?_, hw.resync hblocks (sameData_storeEntry hn.1), ?_, .inl ?_,
      fun hu => (hfilled hu).congr (hrefs (sameData_storeEntry hn.1))⟩
    · exact ⟨hframe₁.held, hframe₁.log, hframe₁.list, hframe₁.mem, hframe₁.fresh, hframe₁.file,
        hframe₁.proc, fun hu => (sameData_storeEntry hn.1).usedExact (hdisk₁ ▸ hframe₁.used hu)⟩
    · intro m hm hmn
      rw [diskEntry_storeEntry hn.1 hm, if_neg hmn, hentry m hm]
    · rw [diskEntry_storeEntry hn.1 hn.1, if_pos rfl]
  · rw [not_or] at hno'
    have hsz : grownSize (s.mem p).entry off count = e₁.numBytes := by
      rw [grownSize, if_neg hno'.1, hf.numBytes]
    have he₁ : e' = (s.mem p).entry := by
      rw [he', hsz]
      exact (hsame (by simpa using hno'.2)).2
    refine ⟨⟨hoff, hmax⟩, hfields, hframe₁, ?_, ?_, .inr ⟨by omega, he₁, ?_⟩,
      fun hu => (hfilled hu).congr (hrefs fun _ _ => by rw [hdisk₁])⟩
    · rw [hdisk₁]
      exact hw.resync hblocks fun _ _ => rfl
    · intro m hm _
      rw [hdisk₁, hentry m hm]
    · rw [hdisk₁, hentry n hn.1]

theorem inodeWrite_table {src : Nat → UInt8} {off count r : Nat} (hE : E n = (s.mem p).entry) (hn : InUse E n)
    (ho : BlocksOwned E s.disk) (hv : (s.mem p).valid = true) (hdev : (s.mem p).entry.type ≠ inodeDevice)
    (h0 : (s.mem p).entry.indirect ≠ 0) (hr : Runs (inodeWrite sblock ctx p src off count) s r s') :
    (s'.mem p).entry.indirect = (s.mem p).entry.indirect := by
  simp only [inodeWrite, runs_bind, runs_get] at hr
  obtain ⟨_, _, ⟨rfl, rfl⟩, hr⟩ := hr
  rw [if_neg hdev] at hr
  simp only [runs_bind, runs_require, runs_pure] at hr
  obtain ⟨_, _, ⟨-, rfl⟩, _, _, ⟨-, rfl⟩, m, t, hloop, _, t₁, hsize, _, t₂, hsync, -, rfl⟩ := hr
  have hkept := writeLoop_table hn hE ho h0 hloop
  obtain ⟨e₁, -, hframe, -⟩ := writeLoop_spec hn hE ho (Nat.le_refl off) (by omega) hloop
  have hsized : (t₁.mem p).entry.indirect = (t.mem p).entry.indirect ∧ (t₁.mem p).valid = true := by
    have hvt : (t.mem p).valid = true := by rw [hframe.inode]; exact hv
    rcases runs_when.mp hsize with ⟨-, hsize⟩ | ⟨-, rfl⟩
    · rw [runs_modifyEntry] at hsize
      subst hsize
      rw [State.mem_setInode_same]
      exact ⟨rfl, hvt⟩
    · exact ⟨rfl, hvt⟩
  rcases runs_when.mp hsync with ⟨-, hsync⟩ | ⟨-, rfl⟩
  · obtain ⟨-, c, -, rfl⟩ := (runs_inodeSync_write hsized.2).mp hsync
    exact hsized.1.trans hkept
  · exact hsized.1.trans hkept

end FtosFfs.Fs
