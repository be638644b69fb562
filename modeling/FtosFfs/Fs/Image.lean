import FtosFfs.Fs.Mkfs
import FtosFfs.Fs.InodeAlloc
import FtosFfs.Fs.Read

/-! What `mkfs` has done to the image while it runs.  The bitmaps are written last, by `ballocg`, from
the numbers of used blocks; over the image with the bitmaps it is going to write, the counters of
`mkfs` allocate blocks just as the kernel does. -/

namespace FtosFfs.Mkfs

open Lib Lib.Exec Fs

variable {s s' : Image} {n b g : Nat} {u : Unit} {E : Nat → InodeEntry} {din din' : InodeEntry}

/-! ### Bitmaps -/

theorem bitmapGet_setBit {buf : BlockData} {i j : Nat} (hi : i < bitPerBlock) :
    bitmapGet (setBit buf i) j = (decide (j = i) || bitmapGet buf j) := by
  have hi' : i < 4096 := hi
  rw [bitmapGet_byte, bitmapGet_byte, setBit]
  by_cases hj : j / 8 = i / 8
  · have hget : (buf.splice (i / 8) 1 fun _ => buf.get (i / 8) ||| UInt8.ofNat (2 ^ (i % 8))).get
        (j / 8) = buf.get (i / 8) ||| UInt8.ofNat (2 ^ (i % 8)) := by
      have := Bytes.get_splice_in (m := buf) (o := i / 8) (k := 1) (i := 0)
        (f := fun _ => buf.get (i / 8) ||| UInt8.ofNat (2 ^ (i % 8))) (by decide)
        (by show i / 8 + 0 < 512; omega)
      rw [Nat.add_zero] at this
      rw [hj, this]
    have hpow : (UInt8.ofNat (2 ^ (i % 8))).toNat = 2 ^ (i % 8) := by
      rw [UInt8.toNat_ofNat', Nat.mod_eq_of_lt]
      exact Nat.pow_lt_pow_right (by decide) (Nat.mod_lt _ (by decide))
    rw [hget, UInt8.toNat_or, Nat.testBit_or, hpow, Nat.testBit_two_pow, hj, Bool.or_comm]
    congr 1
    simp only [decide_eq_decide]
    omega
  · rw [Bytes.get_splice_out (by omega)]
    have : j ≠ i := by
      rintro rfl
      exact hj rfl
    simp [this]

/-- The bitmap that `ballocg` writes for a group with `used` data blocks in use. -/
def groupBitmap (used : Nat) : BlockData :=
  (List.range (used + mkfsSuperBlock.dataStartPerGroup)).foldl setBit Bytes.zero

theorem bitmapGet_foldl_setBit {l : List Nat} (hl : ∀ i ∈ l, i < bitPerBlock) {buf : BlockData}
    {j : Nat} : bitmapGet (l.foldl setBit buf) j = (decide (j ∈ l) || bitmapGet buf j) := by
  induction l generalizing buf with
  | nil => simp
  | cons i l ih =>
    rw [List.foldl_cons, ih fun k hk => hl k (by simp [hk]), bitmapGet_setBit (hl i (by simp))]
    by_cases hji : j = i <;> simp [hji]

theorem bitmapGet_zero (j : Nat) : bitmapGet Bytes.zero j = false := by
  simp [bitmapGet]

theorem bitmapGet_groupBitmap {used j : Nat} (hu : used ≤ 996) :
    bitmapGet (groupBitmap used) j = decide (j < used + 4) := by
  have hl : ∀ i ∈ List.range (used + mkfsSuperBlock.dataStartPerGroup), i < bitPerBlock := by
    intro i hi
    have hi' : i < used + 4 := List.mem_range.mp hi
    show i < 4096
    omega
  rw [groupBitmap, bitmapGet_foldl_setBit hl, bitmapGet_zero, Bool.or_false]
  exact decide_eq_decide.mpr List.mem_range

/-! ### The image with its bitmaps -/

/-- The image as it is after `ballocg`. -/
def Image.finished (s : Image) (b : Nat) : BlockData :=
  if IsBitmap b then groupBitmap (s.usedBlock ((b - 65) / 1000)) else s.disk b

theorem finished_of_not_bitmap (hb : ¬IsBitmap b) : s.finished b = s.disk b := if_neg hb

theorem finished_update {x : BlockData} (hb : ¬IsBitmap b) :
    Image.finished { s with disk := Function.update s.disk b x } =
      Function.update s.finished b x := by
  funext c
  rw [Function.update_apply]
  unfold Image.finished
  split
  case isTrue hc =>
    have hcb : c ≠ b := by
      rintro rfl
      exact hb hc
    rw [if_neg hcb]
  case isFalse hc => exact Function.update_apply ..

theorem blockBit_finished {c : Nat} (hc : InGroups c) (hu : s.usedBlock ((c - 65) / 1000) ≤ 996) :
    blockBit s.finished c = decide ((c - 65) % 1000 < s.usedBlock ((c - 65) / 1000) + 4) := by
  rw [inGroups_iff] at hc
  have hbm : IsBitmap (65 + (c - 65) / 1000 * 1000 + 3 + (c - 65) % 1000 / 4096) := by
    rw [isBitmap_iff]
    omega
  rw [blockBit_eq, Image.finished, if_pos hbm,
    show (65 + (c - 65) / 1000 * 1000 + 3 + (c - 65) % 1000 / 4096 - 65) / 1000 =
      (c - 65) / 1000 by omega,
    show (c - 65) % 1000 % 4096 = (c - 65) % 1000 by omega, bitmapGet_groupBitmap hu]

/-- The counters are in range, and the blocks not yet used hold zeroes. -/
structure Counted (s : Image) : Prop where
  bound : ∀ g, s.usedBlock g ≤ 996
  zero : ∀ b, IsData b → blockBit s.finished b = false → s.disk b = Bytes.zero

theorem Counted.metaUsed (h : Counted s) : MetaUsed s.finished := by
  intro c hc hd
  rw [blockBit_finished hc (h.bound _)]
  rw [inGroups_iff] at hc
  rw [isData_iff] at hd
  simp only [decide_eq_true_eq]
  omega

/-- `takeBlock` allocates the next block of a group that is not full. -/
theorem takeBlock_spec (h : Counted s) (hg : g < 10) (hfull : full s.usedBlock g = false)
    (hr : Runs (takeBlock g) s b s') :
    Allocated b s.finished s'.finished ∧ Counted s' ∧ s'.freeinode = s.freeinode ∧
      s'.disk = s.disk := by
  simp only [takeBlock, runs_bind, runs_get, runs_set, runs_pure] at hr
  obtain ⟨_, _, ⟨rfl, rfl⟩, _, _, rfl, rfl, rfl⟩ := hr
  have hlt : s.usedBlock g < 996 := by
    have hne : s.usedBlock g ≠ 996 := by
      rw [full, decide_eq_false_iff_not] at hfull
      exact hfull
    exact Nat.lt_of_le_of_ne (h.bound g) hne
  show Allocated (65 + g * 1000 + 4 + s.usedBlock g) _ _ ∧ _
  set s' : Image := { s with usedBlock := Function.update s.usedBlock g (s.usedBlock g + 1) } with hs'
  have hbound (k : Nat) : s'.usedBlock k ≤ 996 := by
    rw [hs']
    simp only [Function.update_apply]
    split
    · omega
    · exact h.bound k
  have hd : IsData (65 + g * 1000 + 4 + s.usedBlock g) := by
    rw [isData_iff]
    omega
  have hbit (c : Nat) (hc : InGroups c) : blockBit s'.finished c =
      if c = 65 + g * 1000 + 4 + s.usedBlock g then true else blockBit s.finished c := by
    rw [blockBit_finished hc (hbound _), blockBit_finished hc (h.bound _)]
    rw [inGroups_iff] at hc
    simp only [hs', Function.update_apply]
    by_cases hcg : (c - 65) / 1000 = g
    · rw [if_pos hcg, hcg]
      split
      · simp only [decide_eq_true_eq]
        omega
      · simp only [decide_eq_decide]
        omega
    · rw [if_neg hcg, if_neg (by omega)]
  have hsame (c : Nat) (hc : ¬IsBitmap c) : s'.finished c = s.finished c := by
    rw [finished_of_not_bitmap hc, finished_of_not_bitmap hc]
  have hfree : blockBit s.finished (65 + g * 1000 + 4 + s.usedBlock g) = false := by
    rw [blockBit_finished hd.1 (h.bound _)]
    simp only [decide_eq_false_iff_not]
    rw [show (65 + g * 1000 + 4 + s.usedBlock g - 65) / 1000 = g by omega]
    omega
  refine ⟨⟨hd, hfree, ?_, fun c hc _ => hsame c hc, hbit⟩, ⟨hbound, ?_⟩, rfl, rfl⟩
  · rw [hsame _ hd.not_bitmap, finished_of_not_bitmap hd.not_bitmap]
    exact h.zero _ hd hfree
  · intro c hc hcb
    refine h.zero c hc ?_
    rw [hbit c hc.1] at hcb
    split at hcb
    · cases hcb
    · exact hcb

/-! ### Groups -/

theorem findGroup_spec {full : Nat → Bool} {fuel gno : Nat} (hg : gno < 10)
    (h : findGroup full fuel gno = some g) : g < 10 ∧ full g = false := by
  induction fuel generalizing gno with
  | zero => cases h
  | succ fuel ih =>
    unfold findGroup at h
    split at h
    case isTrue => exact ih (Nat.mod_lt _ (by decide)) h
    case isFalse hf =>
      obtain rfl := Option.some.inj h
      exact ⟨hg, by simpa using hf⟩

/-! ### Blocks of an inode -/

theorem placeDirect_spec {fbn : Nat} (hE : E n = din) (hn : InUse E n)
    (ho : BlocksOwned E s.finished) (hc : Counted s) (hi : fbn < inodeNumDirect) (hg : g < 10)
    (hfull : full s.usedBlock g = false) (hr : Runs (placeDirect g fbn din) s (din', b) s') :
    Placed n fbn b E (Function.update E n din') s.finished s'.finished ∧ Counted s' ∧
      SameMeta din din' ∧ s'.freeinode = s.freeinode ∧ b ≠ 0 := by
  subst hE
  have hblock : ref E s.finished (n, Fs.place fbn) = ((E n).addr fbn).toNat := by
    rw [show Fs.place fbn = .direct fbn from if_pos hi, ref_of_inUse hn]
    rfl
  unfold placeDirect at hr
  split at hr
  case isTrue h0 =>
    simp only [runs_bind, runs_pure] at hr
    obtain ⟨c, t, ht, heq, rfl⟩ := hr
    obtain ⟨rfl, rfl⟩ := Prod.mk.inj heq
    obtain ⟨ha, hc', hf, -⟩ := takeBlock_spec hc hg hfull ht
    refine ⟨⟨mapped_direct ho ha hn hi h0, fun h => ?_, fun _ => .inr ha.zero, fun _ => ha.data.pos⟩,
      hc', rfl, hf, ha.data.pos⟩
    rw [hblock, h0] at h
    exact absurd rfl h
  case isFalse h0 =>
    obtain ⟨heq, rfl⟩ := runs_pure.mp hr
    obtain ⟨rfl, rfl⟩ := Prod.mk.inj heq
    have hne : ((E n).addr fbn).toNat ≠ 0 := fun h => h0 (toNat_eq_zero.mp h)
    rw [Function.update_eq_self]
    refine ⟨⟨?_, fun _ => ⟨rfl, rfl⟩, fun h => absurd (hblock ▸ h) hne, fun _ => hne⟩, hc, rfl, rfl, hne⟩
    rw [← hblock]
    exact mapped_self ho

/-- The index block is there after `placeTable`, and the blocks of files are where and what they
were. -/
theorem placeTable_spec (hE : E n = din) (hn : InUse E n) (ho : BlocksOwned E s.finished)
    (hc : Counted s) (hg : g < 10) (hfull : full s.usedBlock g = false)
    (hr : Runs (placeTable g din) s din' s') :
    Counted s' ∧ SameMeta din din' ∧ s'.freeinode = s.freeinode ∧ din'.indirect ≠ 0 ∧
      BlocksOwned (Function.update E n din') s'.finished ∧
      (∀ i, i.2 ≠ .table →
        ref (Function.update E n din') s'.finished i = ref E s.finished i) ∧
      (∀ i, ref E s.finished i ≠ 0 →
        s'.finished (ref E s.finished i) = s.finished (ref E s.finished i)) ∧
      (∀ c, IsInodes c → s'.finished c = s.finished c) ∧
      (din.indirect ≠ 0 → din' = din ∧ s' = s) := by
  subst hE
  unfold placeTable at hr
  split at hr
  case isTrue h0 =>
    simp only [runs_bind, runs_pure] at hr
    obtain ⟨c, t, ht, rfl, rfl⟩ := hr
    obtain ⟨ha, hc', hf, -⟩ := takeBlock_spec hc hg hfull ht
    obtain ⟨howned, href⟩ := table_allocated ho ha hn h0
    exact ⟨hc', rfl, hf, ofNat_data_ne_zero ha.data, howned, href, fun i hi => ho.ref_kept ha hi,
      fun c hc => ha.inodes hc, fun h => absurd h0 h⟩
  case isFalse h0 =>
    obtain ⟨rfl, rfl⟩ := runs_pure.mp hr
    rw [Function.update_eq_self]
    exact ⟨hc, rfl, rfl, h0, ho, fun _ _ => rfl, fun _ _ => rfl, fun _ _ => rfl,
      fun _ => ⟨rfl, rfl⟩⟩

theorem Counted.store (h : Counted s) {x : BlockData} (hb : IsData b)
    (hu : blockBit s.finished b = true) :
    Counted { s with disk := Function.update s.disk b x } := by
  refine ⟨h.bound, fun c hc hcb => ?_⟩
  rw [finished_update hb.not_bitmap, blockBit_update hb.not_bitmap hc.1] at hcb
  have hne : c ≠ b := by
    rintro rfl
    rw [hu] at hcb
    cases hcb
  simp only [Function.update_of_ne hne]
  exact h.zero c hc hcb

theorem placeSlot_spec {k : Nat} (hn : InUse E n) (ho : BlocksOwned E s.finished) (hc : Counted s)
    (h0 : (E n).indirect ≠ 0) (hk : k < inodeNumIndirect)
    (hr : Runs (placeSlot (E n).indirect.toNat k) s b s') :
    Mapped n (inodeNumDirect + k) b E E s.finished s'.finished ∧ Counted s' ∧
      s'.freeinode = s.freeinode ∧ b ≠ 0 ∧
      (ref E s.finished (n, .slot k) ≠ 0 → s' = s) ∧
      (ref E s.finished (n, .slot k) = 0 → s'.finished b = Bytes.zero) := by
  have htd : IsData (E n).indirect.toNat := ho.isData_table hn h0
  simp only [placeSlot, rblock, runs_bind, runs_require, runs_get, runs_pure] at hr
  obtain ⟨_, _, ⟨_, _, ⟨-, rfl⟩, _, _, ⟨rfl, rfl⟩, rfl, rfl⟩, hr⟩ := hr
  rw [← finished_of_not_bitmap htd.not_bitmap] at hr
  have hblock : ref E s.finished (n, .slot k) =
      (getAddr (s.finished (E n).indirect.toNat) k).toNat := by
    rw [ref_of_inUse hn]
    simp [blockOf, h0]
  have hpl : Fs.place (inodeNumDirect + k) = .slot k := by simp [Fs.place]
  split at hr
  case isFalse hslot =>
    obtain ⟨rfl, rfl⟩ := runs_pure.mp hr
    have hne : ref E s.finished (n, .slot k) ≠ 0 := by
      rw [hblock]
      exact fun h => hslot (toNat_eq_zero.mp h)
    refine ⟨?_, hc, rfl, by rwa [← hblock], fun _ => rfl, fun h => absurd h hne⟩
    rw [← hblock, ← hpl]
    exact mapped_self ho
  case isTrue hslot =>
    simp only [runs_bind, runs_get] at hr
    obtain ⟨_, _, ⟨rfl, rfl⟩, hr⟩ := hr
    split at hr
    case h_1 => exact absurd hr runs_throw
    case h_2 tgno htg =>
      obtain ⟨hg, hfull⟩ := nextGroup_spec (Nat.mod_lt _ (by decide)) htg
      simp only [wblock, runs_bind, runs_modify, runs_pure] at hr
      obtain ⟨c, t, ht, _, _, rfl, rfl, rfl⟩ := hr
      obtain ⟨ha, hc', hf, -⟩ := takeBlock_spec hc hg hfull ht
      have hused : blockBit t.finished (E n).indirect.toNat = true := by
        rw [ha.bit _ htd.1]
        split
        case isTrue => rfl
        case isFalse =>
          have hrt : ref E s.finished (n, .table) = (E n).indirect.toNat := ref_of_inUse hn
          have hu := ho.owns.used_ref (i := (n, .table)) (by rw [hrt]; exact htd.pos)
          rwa [hrt] at hu
      rw [finished_update htd.not_bitmap]
      refine ⟨mapped_slot ho ha hn h0 hk hslot, hc'.store htd hused, hf, ha.data.pos,
        fun h => absurd (by rw [hblock, hslot]; rfl) h, fun _ => ?_⟩
      exact (Function.update_of_ne (ho.ne_allocated .table ha hn).symm ..).trans ha.zero

theorem place_spec {fbn : Nat} (hE : E n = din) (hn : InUse E n)
    (ho : BlocksOwned E s.finished) (hc : Counted s) (hi : fbn < inodeMaxBlocks) (hg : g < 10)
    (hfull : full s.usedBlock g = false) (hr : Runs (place g fbn din) s (din', b) s') :
    Placed n fbn b E (Function.update E n din') s.finished s'.finished ∧ Counted s' ∧
      SameMeta din din' ∧ s'.freeinode = s.freeinode ∧ b ≠ 0 := by
  unfold place at hr
  split at hr
  case isTrue hd => exact placeDirect_spec hE hn ho hc hd hg hfull hr
  case isFalse hd =>
    simp only [runs_bind, runs_pure] at hr
    obtain ⟨e, t, ht, x, _, hs, heq, rfl⟩ := hr
    obtain ⟨rfl, rfl⟩ := Prod.mk.inj heq
    obtain ⟨k, rfl⟩ : ∃ k, fbn = inodeNumDirect + k := ⟨fbn - inodeNumDirect, by omega⟩
    have hk : k < inodeNumIndirect := Nat.lt_of_add_lt_add_left hi
    have hpl : Fs.place (inodeNumDirect + k) = .slot k := by simp [Fs.place]
    rw [Nat.add_sub_cancel_left] at hs
    obtain ⟨hc₁, hmeta, hf₁, hne, howned, href, hkept, hinodes, hsame⟩ :=
      placeTable_spec hE hn ho hc hg hfull ht
    have hn' : InUse (Function.update E n e) n := (inUse_update (by rw [hmeta.type, hE])).mpr hn
    have he : Function.update E n e n = e := Function.update_self ..
    rw [← he] at hs
    obtain ⟨hmap, hc₂, hf₂, hx, hkeep, hzero⟩ :=
      placeSlot_spec hn' howned hc₁ (by rw [he]; exact hne) hk hs
    refine ⟨⟨hmap.trans_table href hkept hinodes, ?_, ?_, fun h => absurd h hd⟩, hc₂, hmeta,
      hf₂.trans hf₁, hx⟩
    · -- A slot with a block is in a table that was there, so both steps kept the state.
      rw [hpl]
      intro h
      have htab : din.indirect ≠ 0 := by
        intro h0
        rw [ref_of_inUse hn, hE] at h
        simp [blockOf, h0] at h
      obtain ⟨rfl, rfl⟩ := hsame htab
      rw [hkeep (by rwa [href _ (by simp)]), ← hE, Function.update_eq_self]
      exact ⟨rfl, rfl⟩
    · rw [hpl]
      intro h
      exact .inr (hzero (by rwa [href _ (by simp)]))

/-! ### Appending -/

/-- What the loop of `iappend` has done when it returns. -/
structure Appended (n off : Nat) (p : List UInt8) (E : Nat → InodeEntry) (s s' : Image)
    (din din' : InodeEntry) : Prop where
  counted : Counted s'
  fields : SameMeta din din'
  freeinode : s'.freeinode = s.freeinode
  wrote : Wrote n (fun i => p.getD (i - off) 0) off (off + p.length) E (Function.update E n din')
    s.finished s'.finished
  inodes : ∀ c, IsInodes c → s'.finished c = s.finished c
  bound : p ≠ [] → off + p.length ≤ inodeMaxBytes
  filled : Filled n off (off + p.length) (Function.update E n din') s'.finished

theorem appendLoop_spec {fuel off off' : Nat} {p : List UInt8} (hE : E n = din) (hn : InUse E n)
    (ho : BlocksOwned E s.finished) (hc : Counted s) (hg : g < 10) (hfuel : p.length ≤ fuel)
    (hr : Runs (appendLoop fuel g off din p) s (off', din') s') :
    off' = off + p.length ∧ Appended n off p E s s' din din' := by
  induction fuel generalizing g off din p s E with
  | zero =>
    obtain ⟨heq, rfl⟩ := runs_pure.mp hr
    obtain ⟨rfl, rfl⟩ := Prod.mk.inj heq
    obtain rfl : p = [] := List.length_eq_zero_iff.mp (Nat.le_zero.mp hfuel)
    refine ⟨rfl, hc, rfl, rfl, ?_, fun _ _ => rfl, by simp, .nothing (by simp)⟩
    rw [← hE, Function.update_eq_self]
    exact .nothing ho (by simp)
  | succ fuel ih =>
    unfold appendLoop at hr
    split at hr
    case isFalse hlen =>
      obtain ⟨heq, rfl⟩ := runs_pure.mp hr
      obtain ⟨rfl, rfl⟩ := Prod.mk.inj heq
      obtain rfl : p = [] := List.length_eq_zero_iff.mp (Nat.eq_zero_of_not_pos hlen)
      refine ⟨rfl, hc, rfl, rfl, ?_, fun _ _ => rfl, by simp, .nothing (by simp)⟩
      rw [← hE, Function.update_eq_self]
      exact .nothing ho (by simp)
    case isTrue hlen =>
      simp only [runs_bind, runs_require, runs_get] at hr
      obtain ⟨_, _, ⟨hfbn, rfl⟩, _, _, ⟨rfl, rfl⟩, hr⟩ := hr
      split at hr
      case h_1 => exact absurd hr runs_throw
      case h_2 gno hgno =>
        obtain ⟨hg', hfull⟩ := findGroup_spec hg hgno
        simp only [rblock, wblock, runs_bind, runs_require, runs_get, runs_pure, runs_modify] at hr
        obtain ⟨⟨e, x⟩, t, hplace, _, _, ⟨_, _, ⟨-, rfl⟩, _, _, ⟨rfl, rfl⟩, rfl, rfl⟩, _, _, rfl, hr⟩ :=
          hr
        obtain ⟨hpl, hc₁, hmeta, hf₁, hx⟩ := place_spec hE hn ho hc hfbn hg' hfull hplace
        have hxd : IsData x := by
          rw [← hpl.here] at hx ⊢
          exact hpl.owned.owns.inArea _ hx
        have hxu : blockBit t.finished x = true := by
          rw [← hpl.here] at hx ⊢
          exact hpl.owned.owns.used_ref hx
        set n1 := min p.length ((off / blockSize + 1) * blockSize - off) with hn1
        have hn1' : n1 = min p.length ((off / 512 + 1) * 512 - off) := hn1
        have hsub : off - off / blockSize * blockSize = off % blockSize := by
          show off - off / 512 * 512 = off % 512
          omega
        have hchunk := hpl.wrote (g := fun i => p.getD (i - off) 0) n1 (by omega) (by omega)
        have hsrc : (fun i => p.getD i 0) = fun i => p.getD (off + i - off) 0 := by
          funext i
          rw [Nat.add_sub_cancel_left]
        simp only [hsub, hsrc] at hr
        rw [← finished_of_not_bitmap hxd.not_bitmap] at hr
        rw [← finished_update hxd.not_bitmap] at hchunk
        set t' : Image := { t with disk := Function.update t.disk x ((t.finished x).splice
          (off % blockSize) n1 fun i => p.getD (off + i - off) 0) } with ht'
        have hn₁ : InUse (Function.update E n e) n := (inUse_update (by rw [hmeta.type, hE])).mpr hn
        have hlen' : (p.drop n1).length = p.length - n1 := List.length_drop
        obtain ⟨rfl, hrest⟩ := ih (Function.update_self ..) hn₁ hchunk.owned (hc₁.store hxd hxu) hg'
          (by omega) hr
        have hend : off + n1 + (p.drop n1).length = off + p.length := by omega
        have hw := hrest.wrote
        have hfilled := hrest.filled
        rw [Function.update_idem, hend] at hw hfilled
        refine ⟨hend, hrest.counted, hmeta.trans hrest.fields, hrest.freeinode.trans hf₁, ?_, ?_, ?_, ?_⟩
        · refine hchunk.trans (hw.congr fun i hi _ => ?_) (by omega) (by omega) ?_
          · simp only [List.getD_eq_getElem?_getD, List.getElem?_drop]
            rw [show n1 + (i - (off + n1)) = i - off by omega]
          · show (off + n1) % 512 = 0 ∨ off + n1 = off + p.length
            omega
        · intro c hci
          have hcx : c ≠ x := by
            rintro rfl
            exact hxd.not_inodes hci
          rw [hrest.inodes c hci, ht', finished_update hxd.not_bitmap, Function.update_of_ne hcx]
          exact hpl.inodes c hci
        · intro _
          by_cases hd : p.drop n1 = []
          · have hz : (p.drop n1).length = 0 := by rw [hd]; rfl
            have hfbn' : off / 512 < 140 := hfbn
            show off + p.length ≤ 71680
            omega
          · have hb := hrest.bound hd
            omega
        · refine Filled.cons hw hfilled ?_ ?_
          · rw [ht', finished_update hxd.not_bitmap, ref_store hpl.owned hpl.here.symm, hpl.here]
            exact hx
          · show off + n1 ≤ (off / 512 + 1) * 512
            omega

end FtosFfs.Mkfs
