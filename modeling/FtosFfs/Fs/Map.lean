import FtosFfs.Fs.Slots

/-! `inode_map`: what it has done to the slots, the blocks, and the inode when it returns. -/

namespace FtosFfs.Fs

open Lib Lib.Exec Cache

variable {E : Nat → InodeEntry} {d d' : Nat → BlockData} {e : InodeEntry} {n b : Nat}

/-! ### Changes of one place -/

theorem blockOf_setAddrs {i : Nat} {a : UInt32} (hi : i < inodeNumDirect) :
    blockOf (InodeEntry.setAddrs e i a) d = Function.update (blockOf e d) (.direct i) a.toNat := by
  funext pl
  cases pl with
  | direct j =>
    by_cases hj : j = i
    · subst hj
      simp [blockOf, InodeEntry.setAddrs, InodeEntry.addr, hi]
    · rw [Function.update_of_ne (by simpa using hj)]
      simp [blockOf, InodeEntry.setAddrs, InodeEntry.addr, hj]
  | table => rw [Function.update_of_ne (by simp)]; rfl
  | slot k => rw [Function.update_of_ne (by simp)]; rfl

theorem blockOf_setTable (h0 : e.indirect = 0) (hb : IsData b) (hz : d' b = Bytes.zero) :
    blockOf { e with indirect := UInt32.ofNat b } d' =
      Function.update (blockOf e d) .table b := by
  funext pl
  cases pl with
  | direct j => rw [Function.update_of_ne (by simp)]; rfl
  | table =>
    rw [Function.update_self]
    exact toNat_ofNat_data hb
  | slot k =>
    rw [Function.update_of_ne (by simp)]
    simp [blockOf, h0, toNat_ofNat_data hb, hz]

theorem blockOf_setSlot {k : Nat} {a : UInt32} (h0 : e.indirect ≠ 0) (hk : k < inodeNumIndirect)
    (ht : d' e.indirect.toNat = setAddr (d e.indirect.toNat) k a) :
    blockOf e d' = Function.update (blockOf e d) (.slot k) a.toNat := by
  funext pl
  cases pl with
  | direct j => rw [Function.update_of_ne (by simp)]; rfl
  | table => rw [Function.update_of_ne (by simp)]; rfl
  | slot j =>
    by_cases hj : j = k
    · subst hj
      rw [Function.update_self]
      simp [blockOf, h0, ht, getAddr_setAddr_same hk]
    · rw [Function.update_of_ne (by simpa using hj)]
      simp [blockOf, h0, ht, getAddr_setAddr_ne hj]

/-- The entries `e` and `e'` agree on everything but block numbers. -/
def SameMeta (e e' : InodeEntry) : Prop :=
  e' = { e with addrs := e'.addrs, indirect := e'.indirect }

theorem SameMeta.type {e e' : InodeEntry} (h : SameMeta e e') : e'.type = e.type := by
  rw [h]

theorem SameMeta.major {e e' : InodeEntry} (h : SameMeta e e') : e'.major = e.major := by
  rw [h]

theorem SameMeta.numBytes {e e' : InodeEntry} (h : SameMeta e e') : e'.numBytes = e.numBytes := by
  rw [h]

theorem SameMeta.numLinks {e e' : InodeEntry} (h : SameMeta e e') : e'.numLinks = e.numLinks := by
  rw [h]

theorem SameMeta.trans {e e' e'' : InodeEntry} (h : SameMeta e e') (h' : SameMeta e' e'') :
    SameMeta e e'' := by
  unfold SameMeta at *
  rw [h', h]

/-- Block `index` of inode `n` is `b`, and all the other blocks of files are where and what they
were. -/
structure Mapped (n index b : Nat) (E E' : Nat → InodeEntry) (d d' : Nat → BlockData) : Prop where
  owned : BlocksOwned E' d'
  here : ref E' d' (n, place index) = b
  other : ∀ i, i.2 ≠ .table → i ≠ (n, place index) → ref E' d' i = ref E d i
  kept : ∀ i, i.2 ≠ .table → ref E d i ≠ 0 → d' (ref E d i) = d (ref E d i)
  inodes : ∀ c, IsInodes c → d' c = d c

theorem Allocated.inodes (ha : Allocated b d d') {c : Nat} (hc : IsInodes c) : d' c = d c := by
  refine ha.same c hc.not_bitmap ?_
  rintro rfl
  exact ha.data.not_inodes hc

theorem BlocksOwned.ref_kept (h : BlocksOwned E d) (ha : Allocated b d d') {i : Nat × Place}
    (hi : ref E d i ≠ 0) : d' (ref E d i) = d (ref E d i) :=
  ha.same _ (h.owns.inArea i hi).not_bitmap (h.owns.ref_ne ha.data (by simp [ha.free]) i)

/-- The other inodes when inode `n` gets an allocated block. -/
theorem BlocksOwned.others (h : BlocksOwned E d) (ha : Allocated b d d') {m : Nat} (_ : m ≠ n)
    (hm : InUse E m) : blockOf (E m) d' = blockOf (E m) d :=
  blockOf_congr fun h0 => h.table_kept ha hm h0

/-! ### A block for one place -/

theorem mapped_direct {i : Nat} (h : BlocksOwned E d) (ha : Allocated b d d') (hn : InUse E n)
    (hi : i < inodeNumDirect) (h0 : (E n).addr i = 0) :
    Mapped n i b E (Function.update E n (InodeEntry.setAddrs (E n) i (UInt32.ofNat b))) d d' := by
  have hpl : place i = .direct i := if_pos hi
  have hblocks : blockOf (InodeEntry.setAddrs (E n) i (UInt32.ofNat b)) d' =
      Function.update (blockOf (E n) d) (.direct i) b := by
    rw [blockOf_setAddrs hi, toNat_ofNat_data ha.data]
    congr 1
    exact blockOf_congr fun h0 => h.table_kept ha hn h0
  have href := ref_update (InodeEntry.setAddrs (E n) i (UInt32.ofNat b)) hn rfl hblocks
    fun m hm hu => h.others ha hm hu
  constructor
  case owned => exact h.take ha hn (by simp [blockOf, h0]) (fun c _ => rfl) href
  case here => rw [href, hpl, Function.update_self]
  case other =>
    intro j _ hj
    rw [hpl] at hj
    rw [href, Function.update_of_ne hj]
  case kept => exact fun j _ hj => h.ref_kept ha hj
  case inodes => exact fun c hc => ha.inodes hc

/-- The allocation of the table leaves the blocks of files as they are. -/
theorem table_allocated (h : BlocksOwned E d) (ha : Allocated b d d') (hn : InUse E n)
    (h0 : (E n).indirect = 0) :
    BlocksOwned (Function.update E n { E n with indirect := UInt32.ofNat b }) d' ∧
      ∀ i, i.2 ≠ .table →
        ref (Function.update E n { E n with indirect := UInt32.ofNat b }) d' i = ref E d i := by
  have hblocks : blockOf { E n with indirect := UInt32.ofNat b } d' =
      Function.update (blockOf (E n) d) .table b := blockOf_setTable h0 ha.data ha.zero
  have href := ref_update { E n with indirect := UInt32.ofNat b } hn rfl hblocks
    fun m hm hu => h.others ha hm hu
  constructor
  · exact h.take ha hn (by simp [blockOf, h0]) (fun c _ => rfl) href
  · intro i hi
    rw [href, Function.update_of_ne]
    rintro rfl
    exact hi rfl

/-- A block in a slot of the table of inode `n`. -/
theorem mapped_slot {k : Nat} {d₁ : Nat → BlockData} (h : BlocksOwned E d)
    (ha : Allocated b d d₁) (hn : InUse E n) (h0 : (E n).indirect ≠ 0) (hk : k < inodeNumIndirect)
    (hslot : getAddr (d (E n).indirect.toNat) k = 0) :
    Mapped n (inodeNumDirect + k) b E E d (Function.update d₁ (E n).indirect.toNat
      (setAddr (d (E n).indirect.toNat) k (UInt32.ofNat b))) := by
  set t := (E n).indirect.toNat with ht
  set d' := Function.update d₁ t (setAddr (d t) k (UInt32.ofNat b)) with hd'
  have hpl : place (inodeNumDirect + k) = .slot k := by simp [place]
  have htd : IsData t := h.isData_table hn h0
  have htable : blockOf (E n) d .table ≠ 0 := fun hz => h0 (toNat_eq_zero.mp hz)
  have hblocks : blockOf (E n) d' = Function.update (blockOf (E n) d) (.slot k) b := by
    rw [blockOf_setSlot (d := d) h0 hk (Function.update_self ..), toNat_ofNat_data ha.data]
  have hother : ∀ m, m ≠ n → InUse E m → blockOf (E m) d' = blockOf (E m) d := by
    intro m hm hu
    refine blockOf_congr fun hm0 => ?_
    have hne : (E m).indirect.toNat ≠ t :=
      (h.ne .table .table hn hu htable (by simp [Ne.symm hm])).symm
    rw [hd', Function.update_of_ne hne]
    exact h.table_kept ha hu hm0
  have href := ref_update (E n) hn rfl hblocks hother
  constructor
  case owned =>
    have hz : blockOf (E n) d (.slot k) = 0 := by simp [blockOf, h0, ← ht, hslot]
    have hbit (c : Nat) (hc : InGroups c) : blockBit d' c = blockBit d₁ c := by
      rw [hd', blockBit_update htd.not_bitmap hc]
    have howned := h.take ha hn hz hbit href
    rwa [Function.update_eq_self] at howned
  case here =>
    rw [Function.update_eq_self] at href
    rw [href, hpl, Function.update_self]
  case other =>
    intro j _ hj
    rw [Function.update_eq_self] at href
    rw [hpl] at hj
    rw [href, Function.update_of_ne hj]
  case kept =>
    intro j hj hj0
    have hne : ref E d j ≠ t := by
      intro heq
      have hjt : j = (n, .table) := h.owns.distinct j (n, .table) hj0 (by
        rw [heq, ref_of_inUse hn]; rfl)
      rw [hjt] at hj
      exact hj rfl
    rw [hd', Function.update_of_ne hne]
    exact h.ref_kept ha hj0
  case inodes =>
    intro c hc
    have hne : c ≠ t := by
      rintro rfl
      exact htd.not_inodes hc
    rw [hd', Function.update_of_ne hne]
    exact ha.inodes hc

/-- A place that has a block keeps it. -/
theorem mapped_self {index : Nat} (h : BlocksOwned E d) :
    Mapped n index (ref E d (n, place index)) E E d d :=
  ⟨h, rfl, fun _ _ _ => rfl, fun _ _ _ => rfl, fun _ _ => rfl⟩

/-- A slot of the table of inode `n` that stays empty. -/
theorem mapped_empty {k : Nat} (h : BlocksOwned E d) (hn : InUse E n) (h0 : (E n).indirect ≠ 0)
    (hk : k < inodeNumIndirect) (hslot : getAddr (d (E n).indirect.toNat) k = 0) :
    Mapped n (inodeNumDirect + k) 0 E E d (Function.update d (E n).indirect.toNat
      (setAddr (d (E n).indirect.toNat) k 0)) := by
  set t := (E n).indirect.toNat with ht
  set d' := Function.update d t (setAddr (d t) k 0) with hd'
  have hpl : place (inodeNumDirect + k) = .slot k := by simp [place]
  have htd : IsData t := h.isData_table hn h0
  have hz : blockOf (E n) d (.slot k) = 0 := by simp [blockOf, h0, ← ht, hslot]
  have hblocks (m : Nat) (hm : InUse E m) : blockOf (E m) d' = blockOf (E m) d := by
    by_cases hmn : m = n
    · subst hmn
      rw [blockOf_setSlot (d := d) h0 hk (Function.update_self ..)]
      exact Function.update_eq_self_iff.mpr hz.symm
    · refine blockOf_congr fun hm0 => Function.update_of_ne ?_ ..
      exact h.ne .table .table hm hn (fun hz => hm0 (toNat_eq_zero.mp hz)) (by simp [hmn])
  have href : ref E d' = ref E d := by
    funext x
    obtain ⟨m, pl⟩ := x
    simp only [ref]
    split
    case isTrue hm => rw [hblocks m hm]
    case isFalse => rfl
  have hbit (c : Nat) (hc : InGroups c) : blockBit d' c = blockBit d c :=
    blockBit_update htd.not_bitmap hc
  constructor
  case owned =>
    refine ⟨?_, fun c hc hd => by rw [hbit c hc]; exact h.metaUsed c hc hd⟩
    rw [href]
    exact h.owns.congr fun c hc => by rw [hbit c hc.1]
  case here => rw [href, hpl, ref_of_inUse hn, hz]
  case other => exact fun _ _ _ => by rw [href]
  case kept =>
    intro j hj hj0
    refine Function.update_of_ne (fun heq => hj ?_) ..
    rw [h.owns.distinct j (n, .table) hj0 (by rw [heq, ref_of_inUse hn]; rfl)]
  case inodes =>
    intro c hc
    refine Function.update_of_ne ?_ ..
    rintro rfl
    exact htd.not_inodes hc

theorem Mapped.trans_table {E₁ E₂ : Nat → InodeEntry} {d₁ d₂ : Nat → BlockData} {index : Nat}
    (href : ∀ i, i.2 ≠ .table → ref E₁ d₁ i = ref E d i)
    (hkept : ∀ i, ref E d i ≠ 0 → d₁ (ref E d i) = d (ref E d i))
    (hinodes : ∀ c, IsInodes c → d₁ c = d c) (h : Mapped n index b E₁ E₂ d₁ d₂) :
    Mapped n index b E E₂ d d₂ := by
  constructor
  case owned => exact h.owned
  case here => exact h.here
  case other => exact fun i hi hne => (h.other i hi hne).trans (href i hi)
  case kept =>
    intro i hi hi0
    have hk := h.kept i hi (by rwa [href i hi])
    rw [href i hi] at hk
    rw [hk, hkept i hi0]
  case inodes => exact fun c hc => (h.inodes c hc).trans (hinodes c hc)

/-! ### The calls -/

variable {s s' : State} {ctx : Bool} {p : Ptr}

@[simp] theorem State.mem_setInode_same (ip : Inode) : (s.setInode p ip).mem p = ip :=
  Function.update_self ..

theorem State.mem_setInode_ne {q : Ptr} (ip : Inode) (h : q ≠ p) :
    (s.setInode p ip).mem q = s.mem q :=
  Function.update_of_ne h ..

@[simp] theorem State.disk_setInode (ip : Inode) : (s.setInode p ip).disk = s.disk := rfl
@[simp] theorem State.held_setInode (ip : Inode) : (s.setInode p ip).held = s.held := rfl
@[simp] theorem State.log_setInode (ip : Inode) : (s.setInode p ip).log = s.log := rfl
@[simp] theorem State.ctx_setInode (ip : Inode) : (s.setInode p ip).ctx = s.ctx := rfl
@[simp] theorem State.list_setInode (ip : Inode) : (s.setInode p ip).list = s.list := rfl
@[simp] theorem State.fresh_setInode (ip : Inode) : (s.setInode p ip).fresh = s.fresh := rfl
@[simp] theorem State.file_setInode (ip : Inode) : (s.setInode p ip).file = s.file := rfl
@[simp] theorem State.proc_setInode (ip : Inode) : (s.setInode p ip).proc = s.proc := rfl

@[simp] theorem State.setInode_setInode (ip ip' : Inode) :
    (s.setInode p ip).setInode p ip' = s.setInode p ip' := by
  simp [State.setInode]

@[simp] theorem State.setInode_self : s.setInode p (s.mem p) = s := by
  simp [State.setInode]

@[simp] theorem runs_modifyInode {f : Inode → Inode} {u : Unit} :
    Runs (modifyInode p f) s u s' ↔ s' = s.setInode p (f (s.mem p)) :=
  runs_modify

@[simp] theorem runs_modifyEntry {f : InodeEntry → InodeEntry} {u : Unit} :
    Runs (modifyEntry p f) s u s' ↔
      s' = s.setInode p { s.mem p with entry := f (s.mem p).entry } :=
  runs_modify

/-- The states differ at most in the blocks, the record of the operation, `used_block`, and the
entry of the inode at `p`, which is `e'` in `s'`. -/
def OnEntry (p : Ptr) (e' : InodeEntry) (s s' : State) : Prop :=
  OnBlocks (s.setInode p { s.mem p with entry := e' }) s'

theorem OnBlocks.onEntry (h : OnBlocks s s') : OnEntry p (s.mem p).entry s s' := by
  unfold OnEntry
  rw [State.setInode_self]
  exact h

theorem OnEntry.inode {e' : InodeEntry} (h : OnEntry p e' s s') :
    s'.mem p = { s.mem p with entry := e' } := by
  rw [h.mem, State.mem_setInode_same]

theorem OnEntry.other {e' : InodeEntry} (h : OnEntry p e' s s') {q : Ptr} (hq : q ≠ p) :
    s'.mem q = s.mem q := by
  rw [h.mem, State.mem_setInode_ne _ hq]

theorem OnEntry.trans {e' e'' : InodeEntry} {t : State} (h : OnEntry p e' s t)
    (h' : OnEntry p e'' t s') : OnEntry p e'' s s' := by
  refine ⟨h'.held.trans h.held, h'.log.trans h.log, h'.list.trans h.list, ?_,
    h'.fresh.trans h.fresh, h'.file.trans h.file, h'.proc.trans h.proc, fun hu => h'.used (h.used hu)⟩
  rw [h'.mem, State.setInode, h.inode, h.mem]
  exact Function.update_idem ..

/-- What `inode_map` has done when it returns block `b` for block `index` of the inode at `p`. -/
structure MapDone (p : Ptr) (n index b : Nat) (modified : Bool) (E : Nat → InodeEntry)
    (s s' : State) (e' : InodeEntry) : Prop where
  fields : SameMeta (s.mem p).entry e'
  frame : OnEntry p e' s s'
  mapped : Mapped n index b E (Function.update E n e') s.disk s'.disk
  same : modified = false → s' = s ∧ b ≠ 0
  new : modified = true → ref E s.disk (n, place index) = 0 ∧ (b = 0 ∨ s'.disk b = Bytes.zero)
  direct : index < inodeNumDirect → b ≠ 0
  filled : UsedExact s.disk s.usedBlock → b ≠ 0
  table : (s.mem p).entry.indirect ≠ 0 → e'.indirect = (s.mem p).entry.indirect

theorem mapDirect_spec {index : Nat} {modified : Bool} (hE : E n = (s.mem p).entry)
    (hn : InUse E n) (ho : BlocksOwned E s.disk) (hi : index < inodeNumDirect)
    (hr : Runs (mapDirect sblock ctx p index) s (b, modified) s') :
    ∃ e', MapDone p n index b modified E s s' e' := by
  simp only [mapDirect, runs_bind, runs_get] at hr
  obtain ⟨_, _, ⟨rfl, rfl⟩, hr⟩ := hr
  have hpl : place index = .direct index := if_pos hi
  have hblock : ref E s.disk (n, place index) = ((s.mem p).entry.addr index).toNat := by
    rw [hpl, ref_of_inUse hn, hE]
    rfl
  split at hr
  case isTrue h0 =>
    simp only [runs_bind, runs_modifyEntry, runs_pure] at hr
    obtain ⟨c, t, ha, _, _, rfl, hbm, rfl⟩ := hr
    obtain ⟨rfl, rfl⟩ := Prod.mk.inj hbm
    obtain ⟨hob, ha⟩ := allocNear_spec ho.metaUsed ha
    have hmap := mapped_direct ho ha hn hi (by rw [hE]; exact h0)
    rw [hE] at hmap
    refine ⟨InodeEntry.setAddrs (s.mem p).entry index (UInt32.ofNat c), rfl, ?_, hmap, by simp,
      fun _ => ⟨by rw [hblock, h0]; rfl, .inr ha.zero⟩, fun _ => ha.data.pos,
        fun _ => ha.data.pos, fun _ => rfl⟩
    refine ⟨hob.held, hob.log, hob.list, ?_, hob.fresh, hob.file, hob.proc, hob.used⟩
    simp only [State.setInode, hob.mem]
  case isFalse h0 =>
    obtain ⟨hbm, rfl⟩ := runs_pure.mp hr
    obtain ⟨rfl, rfl⟩ := Prod.mk.inj hbm
    have hne : ((s.mem p).entry.addr index).toNat ≠ 0 := fun h => h0 (toNat_eq_zero.mp h)
    refine ⟨(s.mem p).entry, rfl, (OnBlocks.refl _).onEntry, ?_, fun _ => ⟨rfl, hne⟩, by simp,
      fun _ => hne, fun _ => hne, fun _ => rfl⟩
    rw [← hE, Function.update_eq_self, hE, ← hblock]
    exact mapped_self ho

/-- The table is there after `mapTable`, and the blocks of files are where and what they were. -/
theorem mapTable_spec {modified : Bool} (hE : E n = (s.mem p).entry) (hn : InUse E n)
    (ho : BlocksOwned E s.disk) (hr : Runs (mapTable sblock ctx p) s modified s') :
    ∃ e', SameMeta (s.mem p).entry e' ∧ OnEntry p e' s s' ∧ e'.indirect ≠ 0 ∧
      BlocksOwned (Function.update E n e') s'.disk ∧
      (∀ i, i.2 ≠ .table → ref (Function.update E n e') s'.disk i = ref E s.disk i) ∧
      (∀ i, ref E s.disk i ≠ 0 → s'.disk (ref E s.disk i) = s.disk (ref E s.disk i)) ∧
      (∀ c, IsInodes c → s'.disk c = s.disk c) ∧
      (modified = false → s' = s) ∧
      (modified = true → ∀ k, ref (Function.update E n e') s'.disk (n, .slot k) = 0) ∧
      ((s.mem p).entry.indirect ≠ 0 → e'.indirect = (s.mem p).entry.indirect) := by
  simp only [mapTable, runs_bind, runs_get] at hr
  obtain ⟨_, _, ⟨rfl, rfl⟩, hr⟩ := hr
  split at hr
  case isTrue h0 =>
    simp only [runs_bind, runs_modifyEntry, runs_pure] at hr
    obtain ⟨c, t, ha, _, _, rfl, rfl, rfl⟩ := hr
    obtain ⟨hob, ha⟩ := allocNear_spec ho.metaUsed ha
    rw [← hE] at h0
    obtain ⟨howned, href⟩ := table_allocated ho ha hn h0
    rw [hE] at howned href
    refine ⟨{ (s.mem p).entry with indirect := UInt32.ofNat c }, rfl, ?_, ofNat_data_ne_zero ha.data,
      howned, href, fun i hi => ho.ref_kept ha hi, fun c hc => ha.inodes hc, by simp, fun _ k => ?_,
        fun h => absurd (hE ▸ h0) h⟩
    · refine ⟨hob.held, hob.log, hob.list, ?_, hob.fresh, hob.file, hob.proc, hob.used⟩
      simp only [State.setInode, hob.mem]
    · refine (href (n, .slot k) (by simp)).trans ?_
      rw [ref_of_inUse hn]
      simp [blockOf, h0]
  case isFalse h0 =>
    obtain ⟨rfl, rfl⟩ := runs_pure.mp hr
    refine ⟨(s.mem p).entry, rfl, (OnBlocks.refl _).onEntry, h0, ?_⟩
    rw [← hE, Function.update_eq_self]
    exact ⟨ho, fun _ _ => rfl, fun _ _ => rfl, fun _ _ => rfl, fun _ => rfl, by simp, fun _ => rfl⟩

/-- The search for a group ends at one that is not full. -/
theorem nextGroup_spec {full : Nat → Bool} {fuel tgno step g : Nat} (hg : tgno < 10)
    (h : nextGroup full fuel tgno step = some g) : g < 10 ∧ full g = false := by
  induction fuel generalizing tgno step with
  | zero => cases h
  | succ fuel ih =>
    unfold nextGroup at h
    split at h
    case isTrue =>
      by_cases hge : tgno + step ≥ ngroups
      · simp only [hge, if_true] at h
        exact ih (by decide) h
      · simp only [hge, if_false, and_false] at h
        exact ih (Nat.not_le.mp hge) h
    case isFalse hf =>
      obtain rfl := Option.some.inj h
      exact ⟨hg, by simpa using hf⟩

theorem mapSlot_spec {k : Nat} {modified modified' : Bool} (hn : InUse E n)
    (ho : BlocksOwned E s.disk) (h0 : (E n).indirect ≠ 0) (hk : k < inodeNumIndirect)
    (hr : Runs (mapSlot sblock ctx (E n).indirect.toNat k modified) s (b, modified') s') :
    OnBlocks s s' ∧ Mapped n (inodeNumDirect + k) b E E s.disk s'.disk ∧
      ((ref E s.disk (n, .slot k) ≠ 0 ∧ s' = s ∧ modified' = modified) ∨
        (ref E s.disk (n, .slot k) = 0 ∧ modified' = true ∧ (b = 0 ∨ s'.disk b = Bytes.zero))) ∧
      (UsedExact s.disk s.usedBlock → b ≠ 0) := by
  simp only [mapSlot, runs_bind, runs_cacheAcquire] at hr
  obtain ⟨_, t, ⟨-, rfl, rfl⟩, hr⟩ := hr
  set a := (E n).indirect.toNat with ha'
  have hblock : ref E s.disk (n, .slot k) = (getAddr (s.disk a) k).toNat := by
    rw [ref_of_inUse hn]
    simp [blockOf, h0, ← ha']
  have hpl : place (inodeNumDirect + k) = .slot k := by simp [place]
  split at hr
  case isFalse hslot =>
    simp only [runs_bind, runs_cacheRelease, runs_pure, List.erase_cons_head] at hr
    obtain ⟨_, _, rfl, hbm, rfl⟩ := hr
    obtain ⟨rfl, rfl⟩ := Prod.mk.inj hbm
    have hne : (getAddr (s.disk a) k).toNat ≠ 0 := fun h => hslot (toNat_eq_zero.mp h)
    refine ⟨.refl s, ?_, .inl ⟨by rwa [hblock], rfl, rfl⟩, fun _ => hne⟩
    rw [← hblock, ← hpl]
    exact mapped_self ho
  case isTrue hslot =>
    simp only [runs_bind, runs_get] at hr
    obtain ⟨_, _, ⟨rfl, rfl⟩, hr⟩ := hr
    cases hg : tableGroup sblock s.usedBlock k with
    | none =>
      simp only [hg] at hr
      exact absurd hr runs_throw
    | some tgno =>
      simp only [hg, runs_bind, runs_writeBack, runs_pure] at hr
      obtain ⟨c, t, hc, _, _, ⟨ct, -, rfl⟩, hbm, rfl⟩ := hr
      obtain ⟨rfl, rfl⟩ := Prod.mk.inj hbm
      have hfound : UsedExact s.disk s.usedBlock → c ≠ 0 := by
        rintro hu rfl
        obtain ⟨hg10, hfull⟩ := nextGroup_spec (Nat.mod_lt _ (by decide)) hg
        have hcard := ((cacheAllocg_zero (s := { s with held := a :: s.held }) ho.metaUsed hg10).mp
          ⟨t, hc⟩).2
        rw [decide_eq_false_iff_not, hu tgno hg10] at hfull
        exact hfull hcard
      obtain ⟨hob, hc⟩ := cacheAllocg_spec (s := { s with held := a :: s.held }) ho.metaUsed hc
      have hframe : OnBlocks s { t with
          disk := Function.update t.disk a (setAddr (s.disk a) k (UInt32.ofNat c)),
          ctx := ct, held := t.held.erase a } := by
        refine ⟨?_, hob.log, hob.list, hob.mem, hob.fresh, hob.file, hob.proc, fun hu =>
          (hob.used hu).congr fun c hc => blockBit_update (ho.isData_table hn h0).not_bitmap hc⟩
        rw [hob.held, List.erase_cons_head]
      refine ⟨hframe, ?_, .inr ⟨by rw [hblock, hslot]; rfl, rfl, ?_⟩, hfound⟩
      · rcases hc with ⟨rfl, rfl⟩ | hc
        · exact mapped_empty ho hn h0 hk hslot
        · exact mapped_slot ho hc hn h0 hk hslot
      · rcases hc with ⟨rfl, rfl⟩ | hc
        · exact .inl rfl
        · refine .inr ((Function.update_of_ne ?_ ..).trans hc.zero)
          exact (ho.ne_allocated .table hc hn).symm

/-- What `inode_map` does to the inode, the slots, and the blocks. -/
theorem inodeMap_spec {off : Nat} {modified : Bool} (hE : E n = (s.mem p).entry) (hn : InUse E n)
    (ho : BlocksOwned E s.disk) (hr : Runs (inodeMap sblock ctx p off) s (b, modified) s') :
    off / blockSize < inodeMaxBlocks ∧ ∃ e', MapDone p n (off / blockSize) b modified E s s' e' := by
  simp only [inodeMap] at hr
  split at hr
  case isTrue hi =>
    exact ⟨Nat.lt_of_lt_of_le hi (Nat.le_add_right ..), mapDirect_spec hE hn ho hi hr⟩
  case isFalse hi =>
    simp only [runs_bind, runs_require, runs_get] at hr
    obtain ⟨_, _, ⟨hk, rfl⟩, m, t, ht, _, _, ⟨rfl, rfl⟩, hr⟩ := hr
    obtain ⟨k, hk'⟩ : ∃ k, off / blockSize = inodeNumDirect + k :=
      ⟨off / blockSize - inodeNumDirect, by omega⟩
    rw [hk', Nat.add_sub_cancel_left] at hk hr
    rw [hk']
    refine ⟨Nat.add_lt_add_left hk _, ?_⟩
    obtain ⟨e', hmeta, hframe, hne, howned, href, hkept, hinodes, hsame, hnew, htable⟩ :=
      mapTable_spec hE hn ho ht
    have hn' : InUse (Function.update E n e') n :=
      (inUse_update (by rw [hmeta.type, hE])).mpr hn
    have he' : Function.update E n e' n = e' := Function.update_self ..
    have hent : (t.mem p).entry = e' := by rw [hframe.inode]
    rw [hent, ← he'] at hr
    obtain ⟨hob, hmap, hcases, hfilled⟩ := mapSlot_spec hn' howned (by rw [he']; exact hne) hk hr
    have hpl : place (inodeNumDirect + k) = .slot k := by simp [place]
    refine ⟨e', hmeta, ?_, hmap.trans_table href hkept hinodes, ?_, ?_, fun h => absurd h (by omega),
      fun hu => hfilled (hframe.used hu), htable⟩
    · exact hframe.trans (by rw [← hent]; exact hob.onEntry)
    · rintro rfl
      rcases hcases with ⟨h1, rfl, rfl⟩ | ⟨-, h, -⟩
      · refine ⟨hsame rfl, ?_⟩
        rw [← hmap.here, hpl]
        exact h1
      · cases h
    · rintro rfl
      rw [hpl, ← href _ (by simp)]
      rcases hcases with ⟨h1, rfl, hm⟩ | ⟨h1, -, h2⟩
      · exact absurd (hnew hm.symm k) h1
      · exact ⟨h1, h2⟩

end FtosFfs.Fs
