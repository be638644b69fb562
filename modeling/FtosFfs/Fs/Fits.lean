import FtosFfs.Fs.Contents
import FtosFfs.Fs.Need

/-! `mkfs` builds an image from all inputs that fit on the disk. -/

namespace FtosFfs.Mkfs

open Lib Lib.Exec Fs

variable {s s' t : Image} {n g : Nat} {u : Unit} {E : Nat → InodeEntry} {din : InodeEntry}
  {p : List UInt8} {files : List (List UInt8)} {entries : List DirEntry}

/-! ### Groups -/

/-- With a free block, one of the groups is not full. -/
theorem Counted.exists_free (hc : Counted s) (h : 0 < (freeBlocks s.finished).card) :
    ∃ g < 10, full s.usedBlock g = false := by
  obtain ⟨b, hb⟩ := Finset.card_pos.mp h
  obtain ⟨hd, hfree⟩ := mem_freeBlocks.mp hb
  rw [blockBit_finished hd.1 (hc.bound _), decide_eq_false_iff_not] at hfree
  rw [isData_iff] at hd
  refine ⟨(b - 65) / 1000, by omega, ?_⟩
  rw [full, decide_eq_false_iff_not]
  show s.usedBlock ((b - 65) / 1000) ≠ 996
  omega

theorem findGroup_returns {full : Nat → Bool} {fuel gno k : Nat} (hk : k < fuel)
    (hfull : full ((gno + k) % 10) = false) (hg : gno < 10) :
    ∃ r, findGroup full fuel gno = some r := by
  induction fuel generalizing gno k with
  | zero => omega
  | succ fuel ih =>
    unfold findGroup
    split
    case isTrue ht =>
      cases k with
      | zero =>
        rw [Nat.add_zero, Nat.mod_eq_of_lt hg, ht] at hfull
        cases hfull
      | succ k =>
        refine ih (k := k) (by omega) ?_ (Nat.mod_lt _ (by decide))
        rw [← hfull]
        congr 1
        show ((gno + 1) % 10 + k) % 10 = (gno + (k + 1)) % 10
        omega
    case isFalse => exact ⟨_, rfl⟩

/-! ### Blocks of an inode -/

theorem takeBlock_returns (hc : Counted s) (hg : g < 10) (hfull : full s.usedBlock g = false) :
    ∃ b s', Runs (takeBlock g) s b s' ∧ Counted s' ∧ s'.disk = s.disk ∧
      (freeBlocks s'.finished).card + 1 = (freeBlocks s.finished).card := by
  have hr : ∃ b s', Runs (takeBlock g) s b s' := by
    simp only [takeBlock, runs_bind, runs_get, runs_set, runs_pure]
    exact ⟨_, _, _, _, ⟨rfl, rfl⟩, ⟨⟩, _, rfl, rfl, rfl⟩
  obtain ⟨b, s', hr⟩ := hr
  obtain ⟨ha, hc', -, hdisk⟩ := takeBlock_spec hc hg hfull hr
  exact ⟨b, s', hr, hc', hdisk, ha.card_freeBlocks⟩

theorem placeDirect_returns {fbn : Nat} (hE : E n = din) (hn : InUse E n) (hc : Counted s)
    (hi : fbn < inodeNumDirect) (hg : g < 10) (hfull : full s.usedBlock g = false) :
    ∃ e x s', Runs (placeDirect g fbn din) s (e, x) s' ∧ e.indirect = din.indirect ∧
      (freeBlocks s.finished).card ≤ (freeBlocks s'.finished).card + needAt n fbn E s.finished := by
  have hblock : ref E s.finished (n, Fs.place fbn) = (din.addr fbn).toNat := by
    rw [show Fs.place fbn = .direct fbn from if_pos hi, ref_of_inUse hn, hE]
    rfl
  unfold placeDirect
  split
  case isTrue h0 =>
    obtain ⟨b, s', hr, -, -, hcard⟩ := takeBlock_returns hc hg hfull
    refine ⟨InodeEntry.setAddrs din fbn (UInt32.ofNat b), b, s', ?_, rfl, ?_⟩
    · simp only [runs_bind, runs_pure]
      exact ⟨b, s', hr, rfl, rfl⟩
    · have hneed : 1 ≤ needAt n fbn E s.finished := by
        unfold needAt
        rw [if_pos (by rw [hblock, h0]; rfl)]
        omega
      omega
  case isFalse => exact ⟨din, _, s, runs_pure.mpr ⟨rfl, rfl⟩, rfl, Nat.le_add_right ..⟩

theorem placeTable_returns (hc : Counted s) (hg : g < 10) (hfull : full s.usedBlock g = false) :
    ∃ e s', Runs (placeTable g din) s e s' ∧
      (freeBlocks s.finished).card ≤
        (freeBlocks s'.finished).card + if din.indirect = 0 then 1 else 0 := by
  unfold placeTable
  split
  case isTrue h0 =>
    obtain ⟨b, s', hr, -, -, hcard⟩ := takeBlock_returns hc hg hfull
    refine ⟨{ din with indirect := UInt32.ofNat b }, s', ?_, ?_⟩
    · simp only [runs_bind, runs_pure]
      exact ⟨b, s', hr, rfl, rfl⟩
    · omega
  case isFalse => exact ⟨din, s, runs_pure.mpr ⟨rfl, rfl⟩, Nat.le_add_right ..⟩

theorem placeSlot_returns {k : Nat} (hn : InUse E n) (ho : BlocksOwned E s.finished) (hc : Counted s)
    (h0 : (E n).indirect ≠ 0)
    (hfree : ref E s.finished (n, .slot k) = 0 → 0 < (freeBlocks s.finished).card) :
    ∃ x s', Runs (placeSlot (E n).indirect.toNat k) s x s' ∧
      (freeBlocks s.finished).card ≤ (freeBlocks s'.finished).card +
        if ref E s.finished (n, .slot k) = 0 then 1 else 0 := by
  have htd : IsData (E n).indirect.toNat := ho.isData_table hn h0
  have hblock : ref E s.finished (n, .slot k) = (getAddr (s.disk (E n).indirect.toNat) k).toNat := by
    rw [ref_of_inUse hn, ← finished_of_not_bitmap htd.not_bitmap]
    simp [blockOf, h0]
  simp only [placeSlot, rblock, runs_bind, runs_require, runs_get, runs_pure]
  by_cases hslot : getAddr (s.disk (E n).indirect.toNat) k = 0
  · have href : ref E s.finished (n, .slot k) = 0 := by
      rw [hblock, hslot]
      rfl
    obtain ⟨h, hh, hfull⟩ := hc.exists_free (hfree href)
    have hfuel : 20 - (k / ninblocksPerGroup + 1) % ngroups ≤ 3 * ngroups :=
      Nat.le_trans (Nat.sub_le ..) (by decide)
    have hmod : (k / ninblocksPerGroup + 1) % ngroups < 10 := Nat.mod_lt _ (by decide)
    obtain ⟨tgno, htg⟩ := nextGroup_two hh hfull hmod hfuel
    obtain ⟨hg', hfull'⟩ := nextGroup_spec hmod htg
    obtain ⟨b, s', hr, -, -, hcard⟩ := takeBlock_returns hc hg' hfull'
    refine ⟨b, { s' with
      disk := Function.update s'.disk (E n).indirect.toNat
        (setAddr (s.disk (E n).indirect.toNat) k (UInt32.ofNat b)) },
      ⟨_, s, ⟨⟨⟩, s, ⟨htd.1.2, rfl⟩, s, s, ⟨rfl, rfl⟩, rfl, rfl⟩, ?_⟩, ?_⟩
    · rw [if_pos hslot]
      simp only [runs_bind, runs_get]
      refine ⟨s, s, ⟨rfl, rfl⟩, ?_⟩
      rw [htg]
      simp only [wblock, runs_bind, runs_modify, runs_pure]
      exact ⟨b, s', hr, ⟨⟩, _, rfl, rfl, rfl⟩
    · rw [finished_update htd.not_bitmap,
        freeBlocks_congr fun c hci => blockBit_update htd.not_bitmap hci, if_pos href]
      omega
  · refine ⟨(getAddr (s.disk (E n).indirect.toNat) k).toNat, s,
      ⟨_, s, ⟨⟨⟩, s, ⟨htd.1.2, rfl⟩, s, s, ⟨rfl, rfl⟩, rfl, rfl⟩, ?_⟩, Nat.le_add_right ..⟩
    rw [if_neg hslot]
    exact runs_pure.mpr ⟨rfl, rfl⟩

/-- `place` returns if there are blocks for what it allocates. -/
theorem place_returns {fbn : Nat} (hE : E n = din) (hn : InUse E n) (ho : BlocksOwned E s.finished)
    (hc : Counted s) (hg : g < 10) (hfull : full s.usedBlock g = false)
    (hneed : needAt n fbn E s.finished ≤ (freeBlocks s.finished).card) :
    ∃ e x s', Runs (place g fbn din) s (e, x) s' ∧ (din.indirect ≠ 0 → e.indirect ≠ 0) ∧
      (freeBlocks s.finished).card ≤ (freeBlocks s'.finished).card + needAt n fbn E s.finished := by
  unfold place
  split
  case isTrue hd =>
    obtain ⟨e, x, s', hr, he, hcard⟩ := placeDirect_returns hE hn hc hd hg hfull
    exact ⟨e, x, s', hr, by rw [he]; exact id, hcard⟩
  case isFalse hd =>
    obtain ⟨k, rfl⟩ : ∃ k, fbn = inodeNumDirect + k := ⟨fbn - inodeNumDirect, by omega⟩
    have hpl : Fs.place (inodeNumDirect + k) = .slot k := by simp [Fs.place]
    have hneed' : needAt n (inodeNumDirect + k) E s.finished =
        (if ref E s.finished (n, .slot k) = 0 then 1 else 0) + if din.indirect = 0 then 1 else 0 := by
      have htab : ref E s.finished (n, .table) = din.indirect.toNat := by
        rw [ref_of_inUse hn, hE]
        rfl
      unfold needAt
      rw [hpl, htab]
      simp only [Nat.le_add_right, true_and, toNat_eq_zero]
    rw [hneed'] at hneed ⊢
    obtain ⟨e, t, ht, hcard⟩ : ∃ e t, Runs (placeTable g din) s e t ∧ _ :=
      placeTable_returns hc hg hfull
    obtain ⟨hc₁, hmeta, -, hne, howned, href, -, -, -⟩ := placeTable_spec hE hn ho hc hg hfull ht
    have hn' : InUse (Function.update E n e) n := (inUse_update (by rw [hmeta.type, hE])).mpr hn
    have he : Function.update E n e n = e := Function.update_self ..
    have hslot := href (n, .slot k) (by simp)
    obtain ⟨x, s', hs, hcard'⟩ := placeSlot_returns (k := k) hn' howned hc₁ (by rw [he]; exact hne)
      (fun h0 => by rw [← hslot, if_pos h0] at hneed; omega)
    rw [he] at hs
    rw [hslot] at hcard'
    refine ⟨e, x, s', ?_, fun _ => hne, by omega⟩
    simp only [runs_bind, runs_pure, Nat.add_sub_cancel_left]
    exact ⟨e, t, ht, x, s', hs, rfl, rfl⟩

/-! ### Appending -/

/-- The loop of `iappend` returns if there are more free blocks than it allocates. -/
theorem appendLoop_returns {fuel off : Nat} (hE : E n = din) (hn : InUse E n)
    (ho : BlocksOwned E s.finished) (hc : Counted s) (hg : g < 10)
    (hmax : off + p.length ≤ inodeMaxBytes)
    (hneed : need n off (off + p.length) E s.finished < (freeBlocks s.finished).card) :
    ∃ off' din' s', Runs (appendLoop fuel g off din p) s (off', din') s' ∧
      (freeBlocks s.finished).card ≤
        (freeBlocks s'.finished).card + need n off (off + p.length) E s.finished := by
  induction fuel generalizing g off din p s E with
  | zero => exact ⟨off, din, s, runs_pure.mpr ⟨rfl, rfl⟩, Nat.le_add_right ..⟩
  | succ fuel ih =>
    unfold appendLoop
    split
    case isFalse => exact ⟨off, din, s, runs_pure.mpr ⟨rfl, rfl⟩, Nat.le_add_right ..⟩
    case isTrue hlen =>
      have hmax' : off + p.length ≤ 71680 := hmax
      have hfbn : off / blockSize < inodeMaxBlocks := by
        show off / 512 < 140
        omega
      obtain ⟨h, hh, hfull⟩ := hc.exists_free (Nat.lt_of_le_of_lt (Nat.zero_le _) hneed)
      have hk : (h + 10 - g) % 10 < 2 * ngroups := by
        show (h + 10 - g) % 10 < 20
        omega
      have hmod : (g + (h + 10 - g) % 10) % 10 = h := by omega
      rw [← hmod] at hfull
      obtain ⟨gno, hgno⟩ := findGroup_returns hk hfull hg
      obtain ⟨hg', hfull'⟩ := findGroup_spec hg hgno
      set n1 := min p.length ((off / blockSize + 1) * blockSize - off) with hn1
      have hn1' : n1 = min p.length ((off / 512 + 1) * 512 - off) := hn1
      have hstep : n1 = min (off + p.length - off) (blockSize - off % blockSize) := by
        show n1 = min (off + p.length - off) (512 - off % 512)
        omega
      have hend : off + n1 + (p.drop n1).length = off + p.length := by
        rw [List.length_drop]
        omega
      obtain ⟨e, x, t, hplace, hind, hcard⟩ := place_returns hE hn ho hc hg' hfull'
        (Nat.le_of_lt (Nat.lt_of_le_of_lt (needAt_le_need (by omega)) hneed))
      obtain ⟨hpl, hc₁, hmeta, -, hx⟩ := place_spec hE hn ho hc hfbn hg' hfull' hplace
      have hxd : IsData x := by
        rw [← hpl.here] at hx ⊢
        exact hpl.owned.owns.inArea _ hx
      have hxu : blockBit t.finished x = true := by
        rw [← hpl.here] at hx ⊢
        exact hpl.owned.owns.used_ref hx
      have hn₁ : InUse (Function.update E n e) n := (inUse_update (by rw [hmeta.type, hE])).mpr hn
      have htable : ref E s.finished (n, .table) ≠ 0 →
          ref (Function.update E n e) t.finished (n, .table) ≠ 0 := by
        rw [ref_of_inUse hn, ref_of_inUse hn₁, hE, Function.update_self]
        exact fun h h0 => hind (fun hz => h (by rw [blockOf, hz]; rfl)) (toNat_eq_zero.mp h0)
      have hrest := need_step hpl.toMapped hx htable (by omega) hstep
      set t' : Image := { t with
        disk := Function.update t.disk x ((t.disk x).splice (off - off / blockSize * blockSize) n1
          fun i => p.getD i 0) } with ht'
      have hfin : freeBlocks t'.finished = freeBlocks t.finished := by
        rw [ht', finished_update hxd.not_bitmap]
        exact freeBlocks_congr fun c hci => blockBit_update hxd.not_bitmap hci
      have hneed' : need n (off + n1) (off + p.length) (Function.update E n e) t'.finished =
          need n (off + n1) (off + p.length) (Function.update E n e) t.finished := by
        unfold need
        rw [ht', finished_update hxd.not_bitmap, ref_store hpl.owned hpl.here.symm]
      have howned : BlocksOwned (Function.update E n e) t'.finished := by
        rw [ht', finished_update hxd.not_bitmap]
        exact hpl.owned.store hpl.here.symm
      obtain ⟨off', din', s', hr, hcard'⟩ := ih (p := p.drop n1) (s := t') (Function.update_self ..) hn₁
        howned (hc₁.store hxd hxu) hg' (hend ▸ hmax) (by rw [hend, hneed', hfin]; omega)
      rw [hend, hneed', hfin] at hcard'
      refine ⟨off', din', s', ?_, by omega⟩
      simp only [runs_bind, runs_require, runs_get]
      refine ⟨⟨⟩, s, ⟨hfbn, rfl⟩, s, s, ⟨rfl, rfl⟩, ?_⟩
      rw [hgno]
      simp only [rblock, wblock, runs_bind, runs_require, runs_get, runs_pure, runs_modify]
      exact ⟨(e, x), t, hplace, t.disk x, t, ⟨⟨⟩, t, ⟨hxd.1.2, rfl⟩, t, t, ⟨rfl, rfl⟩, rfl, rfl⟩, ⟨⟩, t',
        rfl, hr⟩

/-- The blocks that a file of `len` bytes takes. -/
def blocksFor (len : Nat) : Nat :=
  (len + blockSize - 1) / blockSize + if inodeNumDirect * blockSize < len then 1 else 0

theorem blocksFor_mono {len len' : Nat} (h : len ≤ len') : blocksFor len ≤ blocksFor len' := by
  unfold blocksFor
  have hdiv : (len + blockSize - 1) / blockSize ≤ (len' + blockSize - 1) / blockSize :=
    Nat.div_le_div_right (by omega)
  have htab : (if inodeNumDirect * blockSize < len then 1 else 0) ≤
      if inodeNumDirect * blockSize < len' then 1 else 0 := by
    split
    case isTrue hlt => rw [if_pos (Nat.lt_of_lt_of_le hlt h)]
    case isFalse => exact Nat.zero_le _
  omega

/-- A file grows by the blocks that its new size takes more. -/
theorem Tight.need_le (h : Tight n s) {stop : Nat} (hle : (s.entry n).numBytes.toNat ≤ stop) :
    need n (s.entry n).numBytes.toNat stop s.entry s.finished +
      blocksFor (s.entry n).numBytes.toNat ≤ blocksFor stop := by
  set size := (s.entry n).numBytes.toNat with hsize
  have hsum : ∑ k ∈ Finset.Ico (size / blockSize) ((stop + blockSize - 1) / blockSize),
      (if ref s.entry s.finished (n, Fs.place k) = 0 then 1 else 0) ≤
        (stop + blockSize - 1) / blockSize - (size + blockSize - 1) / blockSize := by
    rw [← Finset.card_filter, ← Nat.card_Ico ((size + blockSize - 1) / blockSize)]
    refine Finset.card_le_card fun k hk => ?_
    obtain ⟨hk, h0⟩ := Finset.mem_filter.mp hk
    refine Finset.mem_Ico.mpr ⟨?_, (Finset.mem_Ico.mp hk).2⟩
    by_contra hlt
    have hlt' : k < (size + 512 - 1) / 512 := Nat.not_le.mp hlt
    refine h.filled (k * blockSize) (Nat.zero_le _) ?_ ?_
    · show k * 512 < size
      omega
    · rwa [Nat.mul_div_cancel k (by decide)]
  have htable : inodeNumDirect * blockSize < size → ref s.entry s.finished (n, .table) ≠ 0 := by
    intro hlt
    refine table_of_slot (k := inodeNumDirect) (Nat.le_refl _) ?_
    have hb := h.filled (inodeNumDirect * blockSize) (Nat.zero_le _) hlt
    rwa [Nat.mul_div_cancel _ (by decide)] at hb
  have hdiv : (size + blockSize - 1) / blockSize ≤ (stop + blockSize - 1) / blockSize :=
    Nat.div_le_div_right (by omega)
  have htab : (if inodeNumDirect * blockSize < stop ∧ ref s.entry s.finished (n, .table) = 0
      then 1 else 0) + (if inodeNumDirect * blockSize < size then 1 else 0) ≤
      if inodeNumDirect * blockSize < stop then 1 else 0 := by
    by_cases hlt : inodeNumDirect * blockSize < size
    · simp [hlt, htable hlt, Nat.lt_of_lt_of_le hlt hle]
    · rw [if_neg hlt, Nat.add_zero]
      split
      case isTrue hc => rw [if_pos hc.1]
      case isFalse => exact Nat.zero_le _
  unfold need blocksFor
  omega

/-- The number of data blocks. -/
def capacity : Nat := ngroups * mkfsSuperBlock.numDatablocksPerGroup

/-- At most `cost` of the data blocks are used. -/
def Spent (cost : Nat) (s : Image) : Prop := capacity ≤ (freeBlocks s.finished).card + cost

/-- `iappend` returns if there are more blocks than the files take. -/
theorem iappend_returns (rest : Nat) (hs : Sound s) (hn : InUse s.entry n) (ht : Tight n s)
    (hmax : (s.entry n).numBytes.toNat + p.length ≤ inodeMaxBytes)
    (hspent : Spent (rest + blocksFor (s.entry n).numBytes.toNat) s)
    (hfit : rest + blocksFor ((s.entry n).numBytes.toNat + p.length) < capacity) :
    ∃ s', Runs (iappend n p) s () s' ∧
      Spent (rest + blocksFor ((s.entry n).numBytes.toNat + p.length)) s' := by
  have hneed := ht.need_le (Nat.le_add_right _ p.length)
  have hg : inodeGroup n < 10 := by
    have h1 := isInode_iff.mp hn.1
    show (n - 1) / 20 < 10
    omega
  unfold Spent at hspent
  obtain ⟨off', din', t, hr, hcard⟩ := appendLoop_returns rfl hn hs.owned hs.counted
    hg hmax (by omega)
  rw [entry_eq_disk hn.1] at hr
  refine ⟨{ t with disk := storeEntry t.disk n { din' with numBytes := UInt32.ofNat off' } }, ?_, ?_⟩
  · simp only [iappend, runs_bind, runs_rinode, runs_winode]
    exact ⟨_, s, ⟨iblock_lt hn.1, rfl, rfl⟩, (off', din'), t, hr, iblock_lt hn.1, rfl⟩
  · unfold Spent
    rw [finished_store hn.1, freeBlocks_congr fun c hc => (sameData_storeEntry hn.1).blockBit hc]
    omega

/-! ### The inputs -/

theorem ialloc_returns (type : UInt16) (hn : IsInode s.freeinode) :
    ∃ t, Runs (ialloc type) s s.freeinode t := by
  simp only [ialloc, runs_bind, runs_get, runs_set, runs_winode, runs_pure]
  exact ⟨_, s, s, ⟨rfl, rfl⟩, ⟨⟩, _, rfl, ⟨⟩, _, ⟨iblock_lt hn, rfl⟩, rfl, rfl⟩

theorem Spent.taken {type : UInt16} {cost : Nat} (h : Spent cost s) (ht : Taken type s s') :
    Spent cost s' := by
  unfold Spent at h ⊢
  rwa [freeBlocks_congr fun c hc => ht.same.blockBit hc]

/-- The blocks that the files and a root directory of `k` entries take. -/
def costOf (files : List (List UInt8)) (k : Nat) : Nat :=
  (files.map fun f => blocksFor f.length).sum + blocksFor (16 * k)

theorem length_entryBytes (e : DirEntry) : ((List.range 16).map e.byte).length = 16 := by simp

theorem addFile_returns {input : Input} (h : Stored files s) (hl : Listed entries s)
    (hlen : entries.length = files.length + 2) (hroom : entries.length ≤ 200)
    (hspent : Spent (costOf files entries.length) s)
    (hmax : input.reads.flatten.length ≤ inodeMaxBytes)
    (hfit : costOf (files ++ [input.reads.flatten]) (entries.length + 1) < capacity) :
    ∃ s', Runs (addFile input) s () s' ∧
      Spent (costOf (files ++ [input.reads.flatten]) (entries.length + 1)) s' := by
  have hcost (f : List UInt8) : costOf (files ++ [f]) (entries.length + 1) =
      (files.map fun f => blocksFor f.length).sum + blocksFor f.length +
        blocksFor (16 * (entries.length + 1)) := by
    simp [costOf]
  have hfree : s.freeinode = 2 + files.length := by
    rw [hl.freeinode, hlen]
    omega
  have hinode : IsInode s.freeinode := by
    rw [hl.freeinode, isInode_iff]
    omega
  obtain ⟨t, hi⟩ := ialloc_returns inodeRegular hinode
  obtain ⟨-, hzero, htaken⟩ := hl.ialloc hi
  have hroot := htaken.entry 1 isInode_one
  rw [if_neg (by omega)] at hroot
  have hin := hl.isInode hlen
  have hstored := h.taken hl.sound hzero htaken hfree hin
  have huse : InUse t.entry 1 := ⟨isInode_one, by rw [hroot, hl.type]; decide⟩
  have hsize : (t.entry 1).numBytes.toNat = 16 * entries.length := by rw [hroot, hl.size]
  set e := inputEntry s.freeinode input with he
  have hsize' : 16 * entries.length + ((List.range 16).map e.byte).length =
      16 * (entries.length + 1) := by
    rw [length_entryBytes]
    omega
  rw [hcost] at hfit
  -- The entry of the root directory.
  obtain ⟨t', hentry, hspent'⟩ := iappend_returns (p := (List.range 16).map e.byte)
    (files.map fun f => blocksFor f.length).sum htaken.sound huse (hstored.tight 1 huse)
    (by rw [hsize, hsize']; show 16 * (entries.length + 1) ≤ 71680; omega)
    (by rw [hsize]; exact hspent.taken htaken) (by rw [hsize, hsize']; omega)
  rw [hsize, hsize'] at hspent'
  obtain ⟨-, hl'⟩ := hl.newFile hi hentry
  have hin' : ∀ i < (files ++ [[]]).length, IsInode (2 + i) := by
    intro i hi
    rw [List.length_append, List.length_singleton] at hi
    rw [isInode_iff]
    omega
  have hnew := hstored.root hin' (iappend_spec htaken.sound huse hentry)
  -- The reads done so far are in the file.
  have hloop := returns_forM (f := iappend s.freeinode)
    (l := input.reads) (s := t') (I := fun l t => Listed (entries ++ [e]) t ∧
      ∃ done, done ++ l = input.reads ∧ Stored (files ++ [done.flatten]) t ∧
        Spent (costOf (files ++ [done.flatten]) (entries.length + 1)) t)
    ⟨hl', [], rfl, hnew, by rw [hcost]; exact hspent'⟩ ?_
  · obtain ⟨s', hreads, -, done, hall, -, hcost'⟩ := hloop
    rw [List.append_nil] at hall
    rw [hall] at hcost'
    refine ⟨s', ?_, hcost'⟩
    simp only [addFile, runs_bind]
    exact ⟨s.freeinode, t, hi, ⟨⟩, t', hentry, hreads⟩
  · rintro p l t ⟨hlt, done, hall, hst, hsp⟩
    have hfile := hlt.file (2 + files.length) (by omega) (by simp [hlen]; omega)
    have huse : InUse t.entry (2 + files.length) :=
      ⟨by rw [← hfree]; exact hinode, by rw [hfile.1]; decide⟩
    have hold : (t.entry (2 + files.length)).numBytes.toNat = done.flatten.length :=
      hst.size _ _ (by simp)
    have hgrown : done.flatten.length + p.length = (done ++ [p]).flatten.length := by simp
    have hle : (done ++ [p]).flatten.length ≤ input.reads.flatten.length := by
      rw [← hall, ← hgrown]
      simp only [List.flatten_append, List.flatten_cons, List.length_append]
      omega
    have hmono := blocksFor_mono hle
    rw [hcost] at hsp
    rw [hfree]
    obtain ⟨t', hr, hsp'⟩ := iappend_returns (p := p)
      ((files.map fun f => blocksFor f.length).sum + blocksFor (16 * (entries.length + 1)))
      hlt.sound huse (hst.tight _ huse) (by rw [hold, hgrown]; exact Nat.le_trans hle hmax)
      (by rw [hold, Nat.add_right_comm]; exact hsp) (by rw [hold, hgrown]; omega)
    refine ⟨t', hr, hlt.iappend (by omega) (by simp [hlen]; omega) hr, done ++ [p], by simp [← hall],
      ?_, ?_⟩
    · rw [List.flatten_append, List.flatten_cons, List.flatten_nil, List.append_nil]
      exact hst.append hin (iappend_spec hlt.sound huse hr)
    · rw [hcost, Nat.add_right_comm, ← hgrown, ← hold]
      exact hsp'

theorem addFiles_returns {inputs : List Input} (h : Stored files s) (hl : Listed entries s)
    (hlen : entries.length = files.length + 2) (hroom : entries.length + inputs.length ≤ 201)
    (hspent : Spent (costOf files entries.length) s)
    (hmax : ∀ input ∈ inputs, input.reads.flatten.length ≤ inodeMaxBytes)
    (hfit : costOf (files ++ inputs.map fun input => input.reads.flatten)
      (entries.length + inputs.length) < capacity) :
    ∃ s', Runs (inputs.forM addFile) s () s' := by
  induction inputs generalizing s files entries with
  | nil => exact ⟨s, runs_pure.mpr ⟨rfl, rfl⟩⟩
  | cons input inputs ih =>
    rw [List.length_cons] at hroom hfit
    rw [List.map_cons, List.append_cons] at hfit
    have hle : costOf (files ++ [input.reads.flatten]) (entries.length + 1) < capacity := by
      refine Nat.lt_of_le_of_lt ?_ hfit
      simp only [costOf, List.map_append, List.sum_append]
      have hmono := blocksFor_mono (show 16 * (entries.length + 1) ≤
        16 * (entries.length + (inputs.length + 1)) by omega)
      omega
    obtain ⟨t, hi, hspent'⟩ := addFile_returns h hl hlen (by omega) hspent (hmax input (by simp)) hle
    have hlen' : (entries ++ [inputEntry entries.length input]).length = entries.length + 1 := by simp
    obtain ⟨s', hr⟩ := ih (h.addFile hl hlen hi) (hl.addFile hi) (by simp [hlen])
      (by rw [hlen']; omega) (by rw [hlen']; exact hspent') (fun i hi => hmax i (by simp [hi]))
      (by rw [hlen', Nat.add_assoc, Nat.add_comm 1]; exact hfit)
    exact ⟨s', runs_bind.mpr ⟨⟨⟩, t, hi, hr⟩⟩

/-! ### The image -/

/-- Every group has 996 data blocks after its first four. -/
theorem card_isData : ((Finset.range fssize).filter IsData).card = capacity := by
  have hblocks : (Finset.range fssize).filter IsData =
      (Finset.range 10 ×ˢ Finset.range 996).image fun x => 65 + x.1 * 1000 + (4 + x.2) := by
    ext b
    simp only [Finset.mem_filter, Finset.mem_range, isData_iff, Finset.mem_image, Finset.mem_product,
      Prod.exists]
    constructor
    · rintro ⟨-, hgroups, hdata⟩
      exact ⟨(b - 65) / 1000, (b - 65) % 1000 - 4, by omega, by omega⟩
    · rintro ⟨g, j, ⟨hg, hj⟩, rfl⟩
      refine ⟨?_, by omega, by omega⟩
      show 65 + g * 1000 + (4 + j) < 10065
      omega
  rw [hblocks, Finset.card_image_of_injOn, Finset.card_product, Finset.card_range, Finset.card_range]
  · rfl
  · intro x hx y hy hxy
    simp only [Finset.coe_product, Finset.coe_range, Set.mem_prod, Set.mem_Iio] at hx hy
    have hxy' : 65 + x.1 * 1000 + (4 + x.2) = 65 + y.1 * 1000 + (4 + y.2) := hxy
    exact Prod.ext (by omega) (by omega)

theorem spent_blank : Spent 0 blank := by
  have hfree : (Finset.range fssize).filter IsData ⊆ freeBlocks blank.finished := by
    intro b hb
    have hd := (Finset.mem_filter.mp hb).2
    refine mem_freeBlocks.mpr ⟨hd, ?_⟩
    rw [blockBit_finished hd.1 (Nat.zero_le _), decide_eq_false_iff_not]
    have hd' := isData_iff.mp hd
    show ¬(b - 65) % 1000 < 0 + 4
    omega
  unfold Spent
  rw [Nat.add_zero, ← card_isData]
  exact Finset.card_le_card hfree

/-- The root directory before any input file. -/
theorem root_returns (hfit : costOf [] 2 < capacity) :
    ∃ t t' s', Runs (ialloc inodeDirectory) blank 1 t ∧
      Runs (appendEntry 1 ⟨1, fileName [46]⟩) t () t' ∧
      Runs (appendEntry 1 ⟨1, fileName [46, 46]⟩) t' () s' ∧ Spent (costOf [] 2) s' := by
  have hzero : blank.entry blank.freeinode = InodeEntry.zero := entry_blank isInode_one
  obtain ⟨t, hi⟩ := ialloc_returns (s := blank) inodeDirectory isInode_one
  obtain ⟨-, htaken⟩ := ialloc_spec sound_blank (Nat.le_refl 1) hzero hi
  have hroot : t.entry 1 = allocEntry inodeDirectory :=
    (htaken.entry 1 isInode_one).trans (if_pos rfl)
  have hsize : (t.entry 1).numBytes.toNat = 0 := by rw [hroot]; rfl
  have huse : InUse t.entry 1 := ⟨isInode_one, by rw [hroot]; decide⟩
  have htight : Tight 1 t := htaken.tight sound_blank hzero isInode_one fun hne => absurd rfl hne
  have hcost : costOf [] 2 = 0 + blocksFor (16 + 16) := by simp [costOf]
  have hmono := blocksFor_mono (show 0 + 16 ≤ 16 + 16 by omega)
  rw [hcost] at hfit ⊢
  obtain ⟨t', h1, hspent⟩ := iappend_returns 0 (p := (List.range 16).map (DirEntry.byte ⟨1, fileName [46]⟩))
    htaken.sound huse htight (by rw [hsize, length_entryBytes]; decide)
    (by rw [hsize]; exact spent_blank.taken htaken)
    (by rw [hsize, length_entryBytes]; exact Nat.lt_of_le_of_lt (Nat.add_le_add_left hmono 0) hfit)
  have hg := iappend_spec htaken.sound huse h1
  have hsize' : (t'.entry 1).numBytes.toNat = 16 := by rw [hg.size, hsize, length_entryBytes]
  rw [hsize, length_entryBytes] at hspent
  obtain ⟨s', h2, hspent'⟩ := iappend_returns 0
    (p := (List.range 16).map (DirEntry.byte ⟨1, fileName [46, 46]⟩)) hg.sound (hg.inUse.mpr huse)
    (hg.tight htight) (by rw [hsize', length_entryBytes]; decide) (by rw [hsize']; exact hspent)
    (by rw [hsize', length_entryBytes]; exact hfit)
  rw [hsize', length_entryBytes] at hspent'
  exact ⟨t, t', s', hi, h1, h2, hspent'⟩

theorem ballocg_returns (hbound : ∀ g, s.usedBlock g ≤ 996) : ∃ s', Runs ballocg s () s' := by
  obtain ⟨s', hr, -⟩ := returns_forM (f := ballocGroup) (l := List.range ngroups) (s := s)
    (I := fun _ t => ∀ g, t.usedBlock g ≤ 996) hbound fun g _ t ht => by
      simp only [ballocGroup, wblock, runs_bind, runs_get, runs_require, runs_modify]
      exact ⟨_, ⟨t, t, ⟨rfl, rfl⟩, ⟨⟩, t, ⟨ht g, rfl⟩, rfl⟩, ht⟩
  exact ⟨s', hr⟩

/-- `mkfs` builds an image from files that each fit in an inode, fewer than there are inodes, and
that take fewer blocks than there are in the data areas. -/
theorem main_returns {inputs : List Input} (hlen : inputs.length < ninodes)
    (hmax : ∀ input ∈ inputs, input.reads.flatten.length ≤ inodeMaxBytes)
    (hfit : costOf (inputs.map fun input => input.reads.flatten) (inputs.length + 2) < capacity) :
    ∃ s, Runs (main inputs) blank () s := by
  have hlen' : inputs.length < 200 := hlen
  have hmono := blocksFor_mono (show 16 * 2 ≤ 16 * (inputs.length + 2) by omega)
  have hroot : costOf [] 2 < capacity := by
    unfold costOf at hfit ⊢
    simp only [List.map_nil, List.sum_nil]
    omega
  obtain ⟨t₁, t₂, t₃, hi, h1, h2, hspent⟩ := root_returns hroot
  have hl := listed_root hi h1 h2
  have hstored := stored_root hi h1 h2
  obtain ⟨t₄, hfiles⟩ := addFiles_returns hstored hl rfl (by show 2 + inputs.length ≤ 201; omega) hspent
    hmax (by rw [Nat.add_comm]; exact hfit)
  have hl' := hl.addFiles hfiles
  have hfix : ∃ t₅, Runs fixRoot t₄ () t₅ := by
    simp only [fixRoot, runs_bind, runs_rinode, runs_winode]
    exact ⟨_, _, _, ⟨iblock_lt isInode_one, rfl, rfl⟩, iblock_lt isInode_one, rfl⟩
  obtain ⟨t₅, hfix⟩ := hfix
  obtain ⟨s, hb⟩ := ballocg_returns (hl'.fixed hfix).1.bound
  refine ⟨s, ?_⟩
  simp only [main, runs_bind, runs_require]
  exact ⟨1, t₁, hi, ⟨⟩, t₁, ⟨rfl, rfl⟩, ⟨⟩, t₂, h1, ⟨⟩, t₃, h2, ⟨⟩, t₄, hfiles, ⟨⟩, t₅, hfix, hb⟩

end FtosFfs.Mkfs
