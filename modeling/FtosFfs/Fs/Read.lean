import FtosFfs.Fs.Write

/-! What `inode_read` and the searches of directories return, as functions of the bytes of the
file. -/

namespace FtosFfs.Fs

open Lib Lib.Exec Cache

variable {E : Nat → InodeEntry} {s s' : State} {p : Ptr} {n : Nat}

/-- The file of inode `n` has a block for byte `i`. -/
def HasByte (E : Nat → InodeEntry) (d : Nat → BlockData) (n i : Nat) : Prop :=
  ref E d (n, place (i / blockSize)) ≠ 0

instance (E : Nat → InodeEntry) (d : Nat → BlockData) (n i : Nat) : Decidable (HasByte E d n i) :=
  inferInstanceAs (Decidable (_ ≠ 0))

/-- The buffer after bytes `start` to `stop - 1` of a file with bytes `f` are read to it, its byte
`i` for byte `offset + i` of the file. -/
def readTo (f : Nat → UInt8) (offset start stop : Nat) (dest : Nat → UInt8) (i : Nat) : UInt8 :=
  if start ≤ offset + i ∧ offset + i < stop then f (offset + i) else dest i

/-- One round of the loop of `inode_read`. -/
theorem read_chunk {modified : Bool} {e' : InodeEntry} {b offset start : Nat} (step : Nat)
    (dest : Nat → UInt8) (hE : E n = (s.mem p).entry)
    (hm : MapDone p n (start / blockSize) b modified E s s' e') (hmod : modified = false)
    (hoff : offset ≤ start) (hstep : start + step ≤ (start / 512 + 1) * 512) :
    s' = s ∧ HasByte E s.disk n start ∧ (fun i =>
      if start - offset ≤ i ∧ i < start - offset + step then
        (s.disk b).get (start % blockSize + (i - (start - offset)))
      else dest i) = readTo (fileByte E s.disk n) offset start (start + step) dest := by
  obtain ⟨rfl, hb⟩ := hm.same hmod
  have hself : Function.update E n e' = E := by
    have he : (s'.mem p).entry = e' := by
      have hi := hm.frame.inode
      rw [hi]
    rw [← he, ← hE, Function.update_eq_self]
  have hhere := hm.mapped.here
  rw [hself] at hhere
  refine ⟨rfl, by rw [HasByte, hhere]; exact hb, ?_⟩
  funext i
  unfold readTo
  refine if_ctx_congr (by omega) (fun hi => ?_) fun _ => rfl
  have hdiv : (offset + i) / blockSize = start / blockSize := by
    show (offset + i) / 512 = start / 512
    omega
  have hmod' : (offset + i) % blockSize = start % blockSize + (i - (start - offset)) := by
    show (offset + i) % 512 = start % 512 + (i - (start - offset))
    omega
  rw [fileByte, hdiv, hhere, if_neg hb, hmod']

theorem readTo_readTo {f : Nat → UInt8} {offset start mid stop : Nat} {dest : Nat → UInt8}
    (h : start ≤ mid) (h' : mid ≤ stop) :
    readTo f offset mid stop (readTo f offset start mid dest) = readTo f offset start stop dest := by
  funext i
  unfold readTo
  by_cases hi : mid ≤ offset + i ∧ offset + i < stop
  · rw [if_pos hi, if_pos (by omega)]
  · rw [if_neg hi]
    exact if_congr (by omega) rfl rfl

theorem readTo_empty {f : Nat → UInt8} {offset start stop : Nat} {dest : Nat → UInt8}
    (h : stop ≤ start) : readTo f offset start stop dest = dest := by
  funext i
  rw [readTo, if_neg (by omega)]

theorem readLoop_spec {offset stop fuel start : Nat} {dest dest' : Nat → UInt8}
    (hE : E n = (s.mem p).entry) (hn : InUse E n) (ho : BlocksOwned E s.disk)
    (hoff : offset ≤ start) (hfuel : stop ≤ start + fuel)
    (hr : Runs (readLoop sblock p offset stop fuel start dest) s dest' s') :
    s' = s ∧ dest' = readTo (fileByte E s.disk n) offset start stop dest ∧
      ∀ i, start ≤ i → i < stop → HasByte E s.disk n i := by
  induction fuel generalizing start dest with
  | zero =>
    obtain ⟨rfl, rfl⟩ := runs_pure.mp hr
    exact ⟨rfl, (readTo_empty hfuel).symm, fun i _ _ => by omega⟩
  | succ fuel ih =>
    unfold readLoop at hr
    split at hr
    case isFalse hlt =>
      obtain ⟨rfl, rfl⟩ := runs_pure.mp hr
      exact ⟨rfl, (readTo_empty (by omega)).symm, fun i _ _ => by omega⟩
    case isTrue hlt =>
      simp only [runs_bind, runs_require, runs_cacheAcquire, runs_cacheRelease] at hr
      obtain ⟨⟨b, m⟩, t, hmap, _, _, ⟨hm0, rfl⟩, _, _, ⟨-, rfl, rfl⟩, _, _, rfl, hr⟩ := hr
      obtain ⟨-, e', hm⟩ := inodeMap_spec hE hn ho hmap
      set step := min (stop - start) (blockSize - start % blockSize) with hstep
      have hstep' : step = min (stop - start) (512 - start % 512) := hstep
      obtain ⟨rfl, hhas, hbuf⟩ := read_chunk step dest hE hm hm0 hoff (by omega)
      simp only [List.erase_cons_head, hbuf] at hr
      obtain ⟨rfl, rfl, hrest⟩ := ih (by omega) (by omega) hr
      refine ⟨rfl, readTo_readTo (by omega) (by omega), fun i hi hi' => ?_⟩
      by_cases hmid : start + step ≤ i
      · exact hrest i hmid hi'
      · have hdiv : i / blockSize = start / blockSize := by
          show i / 512 = start / 512
          omega
        unfold HasByte at hhas ⊢
        rwa [hdiv]

/-! ### Reads that return -/

/-- A block that the file has is found without a change of the state. -/
theorem inodeMap_returns {ctx : Bool} {off : Nat} (hE : E n = (s.mem p).entry) (hn : InUse E n)
    (hheld : s.held = []) (hb : HasByte E s.disk n off) :
    Runs (inodeMap sblock ctx p off) s (ref E s.disk (n, place (off / blockSize)), false) s := by
  unfold HasByte at hb
  unfold inodeMap
  by_cases hi : off / blockSize < inodeNumDirect
  · have hpl : place (off / blockSize) = .direct (off / blockSize) := if_pos hi
    have href : ref E s.disk (n, place (off / blockSize)) =
        ((s.mem p).entry.addr (off / blockSize)).toNat := by
      rw [hpl, ref_of_inUse hn, hE]
      rfl
    rw [href] at hb ⊢
    simp only [if_pos hi, mapDirect, runs_bind, runs_get]
    refine ⟨s, s, ⟨rfl, rfl⟩, ?_⟩
    rw [if_neg fun h0 => hb (toNat_eq_zero.mpr h0)]
    exact runs_pure.mpr ⟨rfl, rfl⟩
  · have hpl : place (off / blockSize) = .slot (off / blockSize - inodeNumDirect) := if_neg hi
    have hblock : ref E s.disk (n, place (off / blockSize)) =
        blockOf (s.mem p).entry s.disk (.slot (off / blockSize - inodeNumDirect)) := by
      rw [hpl, ref_of_inUse hn, hE]
    rw [hblock] at hb ⊢
    have h0 : (s.mem p).entry.indirect ≠ 0 := fun h0 => hb (by simp [blockOf, h0])
    simp only [blockOf, h0, if_false] at hb ⊢
    have hk : off / blockSize - inodeNumDirect < inodeNumIndirect := by
      by_contra hk
      rw [getAddr_of_le (Nat.not_lt.mp hk)] at hb
      exact hb rfl
    simp only [if_neg hi, mapTable, mapSlot, runs_bind, runs_require, runs_get, runs_cacheAcquire]
    refine ⟨(), s, ⟨hk, rfl⟩, false, s, ⟨s, s, ⟨rfl, rfl⟩, ?_⟩, s, s, ⟨rfl, rfl⟩, _, _,
      ⟨by simp [hheld], rfl, rfl⟩, ?_⟩
    · rw [if_neg h0]
      exact runs_pure.mpr ⟨rfl, rfl⟩
    · rw [if_neg fun hz => hb (toNat_eq_zero.mpr hz)]
      refine runs_bind.mpr ⟨(), _, runs_cacheRelease.mpr rfl, ?_⟩
      rw [List.erase_cons_head]
      exact runs_pure.mpr ⟨rfl, rfl⟩

theorem readLoop_returns {offset stop fuel start : Nat} {dest : Nat → UInt8}
    (hE : E n = (s.mem p).entry) (hn : InUse E n) (hheld : s.held = [])
    (hb : ∀ i, start ≤ i → i < stop → HasByte E s.disk n i) :
    ∃ dest', Runs (readLoop sblock p offset stop fuel start dest) s dest' s := by
  induction fuel generalizing start dest with
  | zero => exact ⟨dest, runs_pure.mpr ⟨rfl, rfl⟩⟩
  | succ fuel ih =>
    unfold readLoop
    split
    case isFalse => exact ⟨dest, runs_pure.mpr ⟨rfl, rfl⟩⟩
    case isTrue hlt =>
      have hmap : Runs (inodeMap sblock false p start) s _ s :=
        inodeMap_returns hE hn hheld (hb start (Nat.le_refl _) hlt)
      have hrest := fun dest => @ih (start + min (stop - start) (blockSize - start % blockSize)) dest
        fun i hi hi' => hb i (by omega) hi'
      obtain ⟨dest', hrest⟩ := hrest fun i =>
        if start - offset ≤ i ∧ i < start - offset +
            min (stop - start) (blockSize - start % blockSize) then
          (s.disk (ref E s.disk (n, place (start / blockSize)))).get
            (start % blockSize + (i - (start - offset)))
        else dest i
      refine ⟨dest', runs_bind.mpr ⟨_, s, hmap, ?_⟩⟩
      simp only [runs_bind, runs_require, runs_cacheAcquire, runs_cacheRelease]
      refine ⟨(), s, ⟨trivial, rfl⟩, _, _, ⟨by simp [hheld], rfl, rfl⟩, (), _, rfl, ?_⟩
      rw [List.erase_cons_head]
      exact hrest

/-- The number of bytes that a read of `count` bytes at `off` gets. -/
def readCount (size off count : Nat) : Nat := min count (size - off)

theorem inodeRead_spec {dest : Nat → UInt8} {off count : Nat} {r : Nat × (Nat → UInt8)}
    (hE : E n = (s.mem p).entry) (hn : InUse E n) (ho : BlocksOwned E s.disk)
    (hr : Runs (inodeRead sblock p dest off count) s r s') :
    s' = s ∧ off ≤ (E n).numBytes.toNat ∧ r.1 = readCount (E n).numBytes.toNat off count ∧
      r.2 = readTo (fileByte E s.disk n) off off (off + r.1) dest ∧
      ∀ i, off ≤ i → i < off + r.1 → HasByte E s.disk n i := by
  simp only [inodeRead, runs_bind, runs_get] at hr
  obtain ⟨_, _, ⟨rfl, rfl⟩, hr⟩ := hr
  rw [← hE] at hr
  split at hr
  case isTrue =>
    simp only [runs_bind, runs_throw, and_false, exists_false] at hr
  case isFalse =>
    simp only [runs_bind, runs_require, runs_pure] at hr
    obtain ⟨_, _, ⟨hoff, rfl⟩, dest', t, hloop, rfl, rfl⟩ := hr
    obtain ⟨rfl, rfl, hhas⟩ := readLoop_spec hE hn ho (Nat.le_refl off) (Nat.le_refl _) hloop
    refine ⟨rfl, hoff, ?_, rfl, hhas⟩
    unfold readCount
    split <;> omega

theorem inodeRead_returns {dest : Nat → UInt8} {off count : Nat}
    (hE : E n = (s.mem p).entry) (hn : InUse E n) (hheld : s.held = [])
    (hdev : (E n).type ≠ inodeDevice) (hoff : off ≤ (E n).numBytes.toNat)
    (hb : ∀ i, off ≤ i → i < off + readCount (E n).numBytes.toNat off count →
      HasByte E s.disk n i) :
    ∃ r, Runs (inodeRead sblock p dest off count) s r s := by
  have hcount : (if count + off > (E n).numBytes.toNat then (E n).numBytes.toNat - off else count) =
      readCount (E n).numBytes.toNat off count := by
    unfold readCount
    split <;> omega
  obtain ⟨dest', hloop⟩ : ∃ dest', Runs (readLoop sblock p off
      (off + readCount (E n).numBytes.toNat off count)
      (readCount (E n).numBytes.toNat off count) off dest) s dest' s :=
    readLoop_returns hE hn hheld hb
  refine ⟨(readCount (E n).numBytes.toNat off count, dest'), ?_⟩
  simp only [inodeRead, runs_bind, runs_get]
  refine ⟨s, s, ⟨rfl, rfl⟩, ?_⟩
  rw [← hE, if_neg hdev]
  simp only [runs_bind, runs_require, hcount]
  exact ⟨(), s, ⟨hoff, rfl⟩, dest', s, hloop, runs_pure.mpr ⟨rfl, rfl⟩⟩

/-! ### Directories -/

/-- Entry `k` of a directory with bytes `f`. -/
def dirEntry (f : Nat → UInt8) (k : Nat) : DirEntry := DirEntry.ofBytes fun i => f (16 * k + i)

/-- The entries of a directory after a write of entry `j`. -/
theorem dirEntry_write {f f' : Nat → UInt8} {j k : Nat} {e : DirEntry}
    (h : ∀ i, f' i = if 16 * j ≤ i ∧ i < 16 * j + 16 then e.byte (i - 16 * j) else f i) :
    dirEntry f' k = if k = j then e else dirEntry f k := by
  split
  case isTrue hk =>
    subst hk
    refine (DirEntry.ofBytes_congr fun i hi => ?_).trans (DirEntry.ofBytes_byte e)
    rw [h, if_pos (by omega), Nat.add_sub_cancel_left]
  case isFalse hk =>
    refine DirEntry.ofBytes_congr fun i hi => ?_
    rw [h, if_neg (by omega)]

theorem dirEntry_zero {f : Nat → UInt8} {k : Nat} (h : ∀ i < 16, f (16 * k + i) = 0) :
    dirEntry f k = DirEntry.zero := by
  refine (DirEntry.ofBytes_congr fun i hi => ?_).trans (DirEntry.ofBytes_byte DirEntry.zero)
  rw [h i hi]
  simp [DirEntry.byte, DirEntry.zero, Bytes.byteOf]

/-- What the searches of directories find in a directory with bytes `f` and size `size`: a read past
the end keeps the rest of the entry before. -/
def scanBytes (f : Nat → UInt8) (size : Nat) (hit : DirEntry → Bool) :
    Nat → Nat → DirEntry → Option (Nat × DirEntry)
  | 0, _, _ => none
  | n + 1, off, dentry =>
    let dentry := DirEntry.ofBytes (readTo f off off (off + readCount size off 16) dentry.byte)
    if hit dentry then some (off, dentry) else scanBytes f size hit n (off + 16) dentry

theorem scan_spec {whole : Bool} {hit : DirEntry → Bool} {k off : Nat} {dentry : DirEntry}
    {r : Option (Nat × DirEntry)} (hE : E n = (s.mem p).entry) (hn : InUse E n)
    (ho : BlocksOwned E s.disk) (hr : Runs (scan sblock p whole hit k off dentry) s r s') :
    s' = s ∧ r = scanBytes (fileByte E s.disk n) (E n).numBytes.toNat hit k off dentry := by
  induction k generalizing off dentry with
  | zero =>
    obtain ⟨rfl, rfl⟩ := runs_pure.mp hr
    exact ⟨rfl, rfl⟩
  | succ k ih =>
    simp only [scan, runs_bind, runs_require] at hr
    obtain ⟨⟨count, buf⟩, t, hread, _, _, ⟨-, rfl⟩, hr⟩ := hr
    obtain ⟨rfl, -, hcount, hbuf, -⟩ := inodeRead_spec hE hn ho hread
    simp only at hcount hbuf
    subst hcount hbuf
    unfold scanBytes
    split at hr
    case isTrue hhit =>
      obtain ⟨rfl, rfl⟩ := runs_pure.mp hr
      simp only [hhit, if_true, and_self]
    case isFalse hhit =>
      obtain ⟨rfl, hrest⟩ := ih hr
      refine ⟨rfl, ?_⟩
      rw [hrest]
      simp only [hhit]
      rfl

/-- The search of a directory without holes returns, if there are no short reads or they do not
matter. -/
theorem scan_returns {whole : Bool} {hit : DirEntry → Bool} {k off : Nat} {dentry : DirEntry}
    (hE : E n = (s.mem p).entry) (hn : InUse E n) (ho : BlocksOwned E s.disk) (hheld : s.held = [])
    (hdev : (E n).type ≠ inodeDevice) (hf : Filled n 0 (E n).numBytes.toNat E s.disk)
    (hoff : 0 < k → off + 16 * (k - 1) ≤ (E n).numBytes.toNat)
    (hwhole : whole = true → off + 16 * k ≤ (E n).numBytes.toNat ∨ k = 0) :
    ∃ r, Runs (scan sblock p whole hit k off dentry) s r s := by
  induction k generalizing off dentry with
  | zero => exact ⟨none, runs_pure.mpr ⟨rfl, rfl⟩⟩
  | succ k ih =>
    obtain ⟨⟨count, buf⟩, hread⟩ : ∃ r, Runs (inodeRead sblock p dentry.byte off 16) s r s := by
      refine inodeRead_returns hE hn hheld hdev (by omega) fun i _ hi => ?_
      unfold readCount at hi
      exact hf i (Nat.zero_le _) (by omega)
    have hcount : whole = true → count = 16 := by
      intro hw
      obtain ⟨-, -, hc, -⟩ := inodeRead_spec hE hn ho hread
      have hc' : count = readCount (E n).numBytes.toNat off 16 := hc
      have hlen := (hwhole hw).resolve_right (Nat.succ_ne_zero k)
      rw [hc', readCount]
      omega
    by_cases hhit : hit (DirEntry.ofBytes buf) = true
    · refine ⟨some (off, DirEntry.ofBytes buf), ?_⟩
      simp only [scan, runs_bind, runs_require]
      refine ⟨_, s, hread, ⟨⟩, s, ⟨hcount, rfl⟩, ?_⟩
      rw [if_pos hhit]
      exact runs_pure.mpr ⟨rfl, rfl⟩
    · obtain ⟨r, hr⟩ := @ih (off + 16) (DirEntry.ofBytes buf) (by omega) fun hw => by
        have hlen := (hwhole hw).resolve_right (Nat.succ_ne_zero k)
        omega
      refine ⟨r, ?_⟩
      simp only [scan, runs_bind, runs_require]
      refine ⟨_, s, hread, ⟨⟩, s, ⟨hcount, rfl⟩, ?_⟩
      rw [if_neg hhit]
      exact hr

/-- The search of a directory finds the first entry that meets `hit` if the bytes up to its end have
blocks. -/
theorem scan_finds {hit : DirEntry → Bool} {k a j : Nat} {dentry : DirEntry}
    (hE : E n = (s.mem p).entry) (hn : InUse E n) (ho : BlocksOwned E s.disk) (hheld : s.held = [])
    (hdev : (E n).type ≠ inodeDevice) (hsize : 16 * (j + 1) ≤ (E n).numBytes.toNat)
    (hf : Filled n 0 (16 * (j + 1)) E s.disk) (haj : a ≤ j) (hjk : j < a + k)
    (hmiss : ∀ i, a ≤ i → i < j → hit (dirEntry (fileByte E s.disk n) i) = false)
    (hhit : hit (dirEntry (fileByte E s.disk n) j) = true) :
    Runs (scan sblock p false hit k (16 * a) dentry) s
      (some (16 * j, dirEntry (fileByte E s.disk n) j)) s := by
  induction k generalizing a dentry with
  | zero => omega
  | succ k ih =>
    have hcount : readCount (E n).numBytes.toNat (16 * a) 16 = 16 := by
      unfold readCount
      omega
    obtain ⟨⟨count, buf⟩, hread⟩ : ∃ r, Runs (inodeRead sblock p dentry.byte (16 * a) 16) s r s := by
      refine inodeRead_returns hE hn hheld hdev (by omega) fun i _ hi => ?_
      rw [hcount] at hi
      exact hf i (Nat.zero_le _) (by omega)
    obtain ⟨-, -, hc, hbuf, -⟩ := inodeRead_spec hE hn ho hread
    simp only [hcount] at hc hbuf
    subst hc
    have hentry : DirEntry.ofBytes buf = dirEntry (fileByte E s.disk n) a := by
      refine DirEntry.ofBytes_congr fun i hi => ?_
      rw [hbuf, readTo, if_pos (by omega)]
    simp only [scan, runs_bind, runs_require]
    refine ⟨_, s, hread, ⟨⟩, s, ⟨by simp, rfl⟩, ?_⟩
    rw [hentry]
    by_cases hja : a = j
    · subst hja
      rw [if_pos hhit]
      exact runs_pure.mpr ⟨rfl, rfl⟩
    · rw [if_neg (by rw [hmiss a (Nat.le_refl a) (by omega)]; exact Bool.false_ne_true)]
      exact @ih (a + 1) _ (by omega) (by omega) fun i hi => hmiss i (by omega)

end FtosFfs.Fs
