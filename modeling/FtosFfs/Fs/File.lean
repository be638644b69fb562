import FtosFfs.Fs.Grow
import FtosFfs.Fs.ReadBack

/-! Files as byte arrays: what writes and reads of a loaded inode do to the contents of the files. -/

namespace FtosFfs.Fs

open Lib Lib.Exec Cache

variable {s s' : State} {p : Ptr} {n m : Nat}

/-- The bytes of the file of inode `n`. -/
def State.content (s : State) (n : Nat) : List UInt8 :=
  (List.range (s.entryOf n).numBytes.toNat).map (fileByte s.entryOf s.disk n)

/-- The bytes of the file of inode `n` on a disk. -/
def fileContent (d : Nat → BlockData) (n : Nat) : List UInt8 :=
  (List.range (diskEntry d n).numBytes.toNat).map (fileByte (diskEntry d) d n)

@[simp] theorem length_content (s : State) (n : Nat) :
    (s.content n).length = (s.entryOf n).numBytes.toNat := by
  simp [State.content]

/-- The content of a file with the bytes `l` at offset `off`. -/
def overwrite (content : List UInt8) (off : Nat) (l : List UInt8) : List UInt8 :=
  content.take off ++ l ++ content.drop (off + l.length)

theorem overwrite_get {content l : List UInt8} {off : Nat} (hoff : off ≤ content.length) (i : Nat)
    (hi : i < max content.length (off + l.length)) :
    (overwrite content off l)[i]? =
      some (if off ≤ i ∧ i < off + l.length then l.getD (i - off) 0 else content.getD i 0) := by
  have htake : (content.take off).length = off := by
    rw [List.length_take]
    omega
  unfold overwrite
  by_cases h1 : i < off
  · rw [if_neg (by omega), List.append_assoc, List.getElem?_append_left (by omega),
      List.getElem?_take_of_lt h1]
    simp [show i < content.length by omega]
  · rw [List.append_assoc, List.getElem?_append_right (by omega), htake]
    by_cases h2 : i < off + l.length
    · rw [if_pos (by omega), List.getElem?_append_left (by omega)]
      simp [show i - off < l.length by omega]
    · rw [if_neg (by omega), List.getElem?_append_right (by omega), List.getElem?_drop,
        show off + l.length + (i - off - l.length) = i by omega]
      simp [show i < content.length by omega]

theorem overwrite_nil (content : List UInt8) (off : Nat) : overwrite content off [] = content := by
  simp [overwrite]

/-- A write right behind another one. -/
theorem overwrite_append {content l l' : List UInt8} {off : Nat} (hoff : off ≤ content.length) :
    overwrite (overwrite content off l) (off + l.length) l' = overwrite content off (l ++ l') := by
  have htake : (content.take off ++ l).length = off + l.length := by
    rw [List.length_append, List.length_take, Nat.min_eq_left hoff]
  unfold overwrite
  rw [List.take_append_of_le_length htake.ge, List.take_of_length_le htake.le, List.drop_append, htake,
    List.drop_of_length_le (by omega), List.nil_append, List.drop_drop, List.length_append,
    List.append_assoc (content.take off)]
  congr 2
  omega

/-- The other inodes keep their entries when only the inode at `p` and the disk change. -/
theorem State.entryOf_other (hlist : s'.list = s.list)
    (hmem : ∀ q, q ≠ p → s'.mem q = s.mem q) (hno : (s'.mem p).inodeNo = (s.mem p).inodeNo)
    (hm : m ≠ (s.mem p).inodeNo) (hd : diskEntry s'.disk m = diskEntry s.disk m) :
    s'.entryOf m = s.entryOf m := by
  have hfind : (s'.list.find? fun q => (s'.mem q).valid && decide ((s'.mem q).inodeNo = m)) =
      s.list.find? fun q => (s.mem q).valid && decide ((s.mem q).inodeNo = m) := by
    rw [hlist]
    refine congrArg (s.list.find? ·) (funext fun q => ?_)
    by_cases hqp : q = p
    · subst hqp
      rw [hno]
      simp [hm.symm]
    · rw [hmem q hqp]
  unfold State.entryOf
  rw [hfind]
  split
  case h_1 q hf =>
    have hqm := List.find?_some hf
    simp only [Bool.and_eq_true, decide_eq_true_eq] at hqm
    have hqp : q ≠ p := by
      rintro rfl
      exact hm hqm.2.symm
    rw [hmem q hqp]
  case h_2 => exact hd

namespace Whole

/-- The bytes of files, by the entries that the inode at `p` is seen with. -/
theorem fileByte_view (h : Whole s) (hp : p ∈ s.list) (hv : (s.mem p).valid = true) :
    fileByte s.entryOf s.disk = fileByte (s.view p) s.disk := by
  have href : ref s.entryOf s.disk = ref (s.view p) s.disk := by
    rw [ref_sameBlocks fun m _ => h.cached.sameBlocks_entryOf m, h.ref_view hp hv]
  funext m i
  rw [fileByte, href, fileByte]

/-- The contents are those on disk. -/
theorem content_eq (h : Whole s) (n : Nat) : s.content n = fileContent s.disk n := by
  have href : ref s.entryOf s.disk = ref (diskEntry s.disk) s.disk :=
    ref_sameBlocks fun m _ => h.cached.sameBlocks_entryOf m
  unfold State.content fileContent
  rw [h.numBytes_entryOf]
  refine List.map_congr_left fun i _ => ?_
  rw [fileByte, href, fileByte]

/-- The bytes of the files after a write. -/
theorem fileByte_writeDone (h : Whole s) (hp : p ∈ s.list) (hv : (s.mem p).valid = true)
    {src : Nat → UInt8} {off count : Nat} {e' : InodeEntry}
    (hw : WriteDone p (s.mem p).inodeNo src off count (s.view p) s s' e') (hw' : Whole s')
    (m i : Nat) : fileByte s'.entryOf s'.disk m i =
      if m = (s.mem p).inodeNo ∧ off ≤ i ∧ i < off + count then src (i - off)
      else fileByte s.entryOf s.disk m i := by
  have href : ref s'.entryOf s'.disk =
      ref (Function.update (s.view p) (s.mem p).inodeNo e') s'.disk := by
    rw [ref_sameBlocks fun m _ => hw'.cached.sameBlocks_entryOf m,
      ref_sameBlocks fun m hm => h.cached.sameBlocks_write hp hv hw hm]
  rw [fileByte, href, ← fileByte, hw.wrote.bytes, ← h.fileByte_view hp hv]
  refine if_congr ?_ rfl rfl
  constructor
  · exact fun hc => ⟨hc.1, hc.2.1, hc.2.2.1⟩
  · exact fun hc => ⟨hc.1, hc.2.1, hc.2.2, hw.filled h.used i hc.2.1 hc.2.2⟩

/-- A write replaces the bytes of the file from its offset on, and leaves the other files as they
are. -/
theorem content_writeDone (h : Whole s) (hp : p ∈ s.list) (hv : (s.mem p).valid = true)
    {l : List UInt8} {off : Nat} {e' : InodeEntry}
    (hw : WriteDone p (s.mem p).inodeNo (fun i => l.getD i 0) off l.length (s.view p) s s' e')
    (hw' : Whole s') :
    s'.content (s.mem p).inodeNo = overwrite (s.content (s.mem p).inodeNo) off l ∧
      (s'.entryOf (s.mem p).inodeNo).numBytes.toNat =
        max (s.entryOf (s.mem p).inodeNo).numBytes.toNat (off + l.length) ∧
      ∀ m, IsInode m → m ≠ (s.mem p).inodeNo →
        s'.entryOf m = s.entryOf m ∧ s'.content m = s.content m := by
  have hinode := hw.frame.inode
  have hp' : p ∈ s'.list := by
    rw [hw.frame.list]
    exact hp
  have hno : (s'.mem p).inodeNo = (s.mem p).inodeNo := by rw [hinode]
  have hv' : (s'.mem p).valid = true := by
    rw [hinode]
    exact hv
  have hent := h.cached.entryOf_loaded hp hv
  have hent' := hw'.cached.entryOf_loaded hp' hv'
  rw [hno, hinode] at hent'
  have hbytes := h.fileByte_writeDone hp hv hw hw'
  have hmax : off + l.length ≤ 71680 := hw.bound.2
  have hsize : (s'.entryOf (s.mem p).inodeNo).numBytes.toNat =
      max (s.entryOf (s.mem p).inodeNo).numBytes.toNat (off + l.length) := by
    rw [hent', hent]
    show e'.numBytes.toNat = _
    rw [hw.fields.numBytes]
    show (grownSize (s.mem p).entry off l.length).toNat = _
    unfold grownSize
    split
    · rw [UInt32.toNat_ofNat', Nat.mod_eq_of_lt (by omega)]
      omega
    · omega
  refine ⟨?_, hsize, fun m hm hmn => ?_⟩
  · have hoff : off ≤ (s.content (s.mem p).inodeNo).length := by
      rw [length_content, hent]
      exact hw.bound.1
    refine List.ext_getElem? fun i => ?_
    by_cases hi : i < max (s.entryOf (s.mem p).inodeNo).numBytes.toNat (off + l.length)
    · rw [overwrite_get hoff i (by rwa [length_content]), State.content, List.getElem?_map, hsize,
        List.getElem?_range hi, Option.map_some, hbytes]
      simp only [true_and]
      split
      case isTrue => rfl
      case isFalse hout =>
        have hlt : i < (s.entryOf (s.mem p).inodeNo).numBytes.toNat := by
          rw [hent] at hi ⊢
          have hb := hw.bound.1
          omega
        rw [State.content, List.getD_eq_getElem?_getD, List.getElem?_map, List.getElem?_range hlt]
        rfl
    · rw [List.getElem?_eq_none (by rw [length_content, hsize]; omega), List.getElem?_eq_none]
      simp only [overwrite, List.length_append, List.length_take, List.length_drop, length_content]
      omega
  · have hother : s'.entryOf m = s.entryOf m := by
      refine State.entryOf_other hw.frame.list (fun q hq => ?_) hno hmn (hw.entries m hm hmn)
      rw [hw.frame.mem, State.mem_setInode_ne _ hq]
    refine ⟨hother, ?_⟩
    rw [State.content, hother, State.content]
    refine List.map_congr_left fun i _ => ?_
    rw [hbytes, if_neg fun hc => hmn hc.1]

end Whole

/-- A read gets the bytes of the file from its offset on, and changes nothing. -/
theorem Whole.inodeRead_content {off count : Nat} (dest : Nat → UInt8) (h : Whole s) (hp : p ∈ s.list)
    (hv : (s.mem p).valid = true) (hn : (s.mem p).inodeNo = n) (hdev : (s.mem p).entry.type ≠ inodeDevice)
    (hoff : off ≤ (s.content n).length) :
    ∃ dest', Runs (inodeRead sblock p dest off count) s (min count ((s.content n).length - off), dest') s ∧
      (List.range (min count ((s.content n).length - off))).map dest' =
        ((s.content n).drop off).take count := by
  subst hn
  have hlen : (s.content (s.mem p).inodeNo).length = (s.mem p).entry.numBytes.toNat := by
    rw [length_content, h.cached.entryOf_loaded hp hv]
  rw [hlen] at hoff
  obtain ⟨⟨r, dest'⟩, hr⟩ : ∃ r, Runs (inodeRead sblock p dest off count) s r s :=
    h.inodeRead_returns hp hv hdev hoff
  obtain ⟨-, -, hc, hbuf, -⟩ := inodeRead_spec State.view_self (h.cached.inUse_view hp hv)
    (h.cached.owned_view hp hv) hr
  rw [State.view_self, readCount, ← hlen] at hc
  simp only at hc hbuf
  subst hc
  refine ⟨dest', hr, ?_⟩
  refine List.ext_getElem (by simp) fun i hi _ => ?_
  rw [List.length_map, List.length_range] at hi
  rw [List.getElem_map, List.getElem_range, hbuf, readTo, if_pos (by omega), ← h.fileByte_view hp hv,
    List.getElem_take, List.getElem_drop]
  simp [State.content]

end FtosFfs.Fs
