import FtosFfs.Core.Pid
import FtosFfs.Core.Stack
import FtosFfs.Fs.Load
import FtosFfs.Fs.Holes

/-! `execve` of `core/exec.c` on the bytes of a file: the headers as they are read, the segments that
they ask for, and when a call comes to an assertion or to memory that is not mapped.  The arenas of the
file system are left out, and where no read is cut short, this is `execve` of the headers. -/

namespace FtosFfs.Core

open Lib Lib.Exec Fs

/-- A call of `execve` for a regular file. -/
structure ExecFile where
  /-- The bytes of the file. -/
  content : List UInt8
  /-- What the buffers `elf` and `ph` hold before the reads. -/
  elf : Nat → UInt8
  ph : Nat → UInt8
  /-- The lengths of the strings of `argv`, up to one that is not a string of the process. -/
  argv : List (Option Nat)
  envp : List (Option Nat)
  /-- What the page of an address holds after a write of user data. -/
  data : Nat → Nat → Nat

/-- `inode_read` of `count` bytes from `offset` on, in 64-bit arithmetic: the number of bytes read. -/
def readBytes (content : List UInt8) (offset count : Nat) : Sys.M Nat := do
  let numBytes := content.length
  let count := if (count + offset) % 2 ^ 64 > numBytes then sub64 numBytes offset else count
  let stop := (offset + count) % 2 ^ 64
  require .panic (offset ≤ numBytes)
  require .panic (stop ≤ numBytes)
  require .panic (offset ≤ stop)
  pure count

/-- A buffer after the first `count` bytes have been read to it from `offset` on. -/
def readInto (content : List UInt8) (offset count : Nat) (buf : Nat → UInt8) : Nat → UInt8 :=
  fun i => if i < count then content.getD (offset + i) 0 else buf i

/-- A program header, as 64-bit words. -/
structure Elf64Phdr where
  type : Nat
  offset : Nat
  vaddr : Nat
  filesz : Nat
  memsz : Nat
deriving DecidableEq

def phdrOf (ph : Nat → UInt8) : Elf64Phdr where
  type := bufWord ph 0 4
  offset := bufWord ph 8 8
  vaddr := bufWord ph 16 8
  filesz := bufWord ph 32 8
  memsz := bufWord ph 40 8

/-- The memory of a segment, and its bytes: the new size. -/
def loadSegment (pgdir : Nat) (f : ExecFile) (ph : Elf64Phdr) (base sz : Nat) : Sys.M (Option Nat) := do
  let sz ← uvmAlloc pgdir base 0 sz (ph.vaddr + ph.memsz)
  if sz = 0 then pure none
  else do
    let count ← readBytes f.content ph.offset ph.filesz
    userWrite pgdir ph.vaddr count f.data
    userWrite pgdir (ph.vaddr + ph.filesz) (ph.memsz - ph.filesz) f.data
    pure (some sz)

/-- The loop of `execve` over `n` more program headers from offset `off`: whether all segments were
loaded. -/
def loadFile (pgdir : Nat) (f : ExecFile) :
    Nat → Nat → (Nat → UInt8) → Bool → Nat → Nat → Sys.M Bool
  | 0, _, _, _, _, _ => pure true
  | n + 1, off, buf, first, sz, base => do
    let count ← readBytes f.content off phdrSize
    let buf := readInto f.content off count buf
    let ph := phdrOf buf
    let next := (off + phdrSize) % 2 ^ 64
    if ph.type ≠ 1 then loadFile pgdir f n next buf first sz base
    else if ph.memsz < ph.filesz then pure false
    else if (ph.vaddr + ph.memsz) % 2 ^ 64 < ph.vaddr then pure false
    else if first ∧ ph.vaddr % pageSize ≠ 0 then pure false
    else do
      let base := if first then ph.vaddr else base
      match ← loadSegment pgdir f ph base (if first then ph.vaddr else sz) with
      | none => pure false
      | some sz => loadFile pgdir f n next buf false sz base

/-- The buffer `elf` after the read of the ELF header. -/
def ExecFile.header (f : ExecFile) : Nat → UInt8 :=
  readInto f.content 0 (min ehdrSize f.content.length) f.elf

/-- Program header `i`, where it is whole in the file. -/
def ExecFile.phdr (f : ExecFile) (i : Nat) : Elf64Phdr :=
  phdrOf (readInto f.content (bufWord f.header 32 8 + phdrSize * i) phdrSize f.ph)

/-- The call with what its reads find, if none of them is cut short by the end of the file. -/
def ExecFile.call (f : ExecFile) : ExecCall where
  path := true
  found := true
  ident i := (f.header i).toNat
  phnum := bufWord f.header 56 2
  ph i := ⟨(f.phdr i).type, (f.phdr i).vaddr, (f.phdr i).filesz, (f.phdr i).memsz⟩
  argv := f.argv
  envp := f.envp
  data := f.data
  ops _ := []

/-- The new address space of `execve`: whether it is complete. -/
def execFileLoad (c : Nat) (j : Slot) (pgdir : Nat) (f : ExecFile) : Sys.M Bool := do
  let count ← readBytes f.content 0 ehdrSize
  let elf := readInto f.content 0 count f.elf
  if ¬isElf elf then pure false
  else do
    modify fun s => s.setPgdir c j (some pgdir)
    if ← loadFile pgdir f (bufWord elf 56 2) (bufWord elf 32 8) f.ph true 0 0 then pushStack pgdir f.call
    else pure false

/-- `execve` in the process of slot `j`: whether the process has a new program. -/
def execFile (c : Nat) (j : Slot) (f : ExecFile) : Sys.M Bool := do
  let s ← get
  let oldpgdir := s.pgdir c j
  match ← pgdirInit with
  | none => do
    modify fun s => s.setPgdir c j oldpgdir
    pure false
  | some pgdir =>
    if ← execFileLoad c j pgdir f then do
      modify fun s => s.setPgdir c j (some pgdir)
      pure true
    else do
      vmFree pgdir
      modify fun s => s.setPgdir c j oldpgdir
      pure false

/-! ### The call with its headers -/

/-- The ELF header, the program headers and the bytes of the segments are all in the file. -/
structure ExecFile.ReadsWhole (f : ExecFile) : Prop where
  length : f.content.length < 2 ^ 32
  elf : ehdrSize ≤ f.content.length
  headers : bufWord f.header 32 8 + phdrSize * bufWord f.header 56 2 ≤ f.content.length
  segments : ∀ i < bufWord f.header 56 2, (f.phdr i).type = 1 →
    (f.phdr i).offset + (f.phdr i).filesz ≤ f.content.length

theorem readBytes_whole {content : List UInt8} {off count : Nat} (hlen : content.length < 2 ^ 32)
    (hin : off + count ≤ content.length) : readBytes content off count = pure count := by
  have hwrap : (count + off) % 2 ^ 64 = count + off := Nat.mod_eq_of_lt (by omega)
  have hwrap' : (off + count) % 2 ^ 64 = off + count := Nat.mod_eq_of_lt (by omega)
  unfold readBytes
  dsimp only
  rw [hwrap, if_neg (by omega), hwrap']
  unfold require
  rw [if_pos (by omega), if_pos hin, if_pos (by omega)]
  rfl

/-- A header that is read whole does not depend on the buffer before. -/
theorem phdrOf_whole (content : List UInt8) (off : Nat) (buf buf' : Nat → UInt8) :
    phdrOf (readInto content off phdrSize buf) = phdrOf (readInto content off phdrSize buf') := rfl

/-- The loops over the headers from the `i`-th on. -/
theorem ExecFile.ReadsWhole.loadFile {f : ExecFile} (h : f.ReadsWhole) (pgdir : Nat) {n i : Nat}
    (buf : Nat → UInt8) (first : Bool) (sz base : Nat) (hi : i + n = bufWord f.header 56 2) :
    Core.loadFile pgdir f n (bufWord f.header 32 8 + phdrSize * i) buf first sz base =
      loadSegments pgdir f.call (List.range' i n) first sz base := by
  induction n generalizing i buf first sz base with
  | zero => rfl
  | succ n ih =>
    have hheaders : bufWord f.header 32 8 + 56 * bufWord f.header 56 2 ≤ f.content.length := h.headers
    have hlen := h.length
    have hread : readBytes f.content (bufWord f.header 32 8 + phdrSize * i) phdrSize = pure phdrSize :=
      readBytes_whole hlen (show bufWord f.header 32 8 + 56 * i + 56 ≤ _ by omega)
    have hph : phdrOf (readInto f.content (bufWord f.header 32 8 + phdrSize * i) phdrSize buf) = f.phdr i :=
      phdrOf_whole _ _ _ _
    have hnext : (bufWord f.header 32 8 + phdrSize * i + phdrSize) % 2 ^ 64 =
        bufWord f.header 32 8 + phdrSize * (i + 1) := by
      rw [Nat.mul_add, Nat.mul_one, ← Nat.add_assoc, Nat.mod_eq_of_lt]
      show bufWord f.header 32 8 + 56 * i + 56 < _
      omega
    have hops (k : Nat) : fileSystem (f.call.ops k) = (pure ⟨⟩ : Sys.M Unit) := rfl
    have hcall : f.call.ph i = ⟨(f.phdr i).type, (f.phdr i).vaddr, (f.phdr i).filesz, (f.phdr i).memsz⟩ := rfl
    rw [Core.loadFile, List.range'_succ, loadSegments, hread, pure_bind]
    dsimp only
    rw [hph, hnext, hops, pure_bind, hops, hcall]
    dsimp only
    refine ite_congr rfl (fun _ => ih _ _ _ _ (by omega)) fun htype => ?_
    refine ite_congr rfl (fun _ => rfl) fun _ => ite_congr rfl (fun _ => rfl) fun _ =>
      ite_congr rfl (fun _ => rfl) fun _ => ?_
    have hsegment : readBytes f.content (f.phdr i).offset (f.phdr i).filesz = pure (f.phdr i).filesz :=
      readBytes_whole hlen (h.segments i (by omega) (not_not.mp htype))
    unfold loadSegment
    rw [bind_assoc]
    refine bind_congr fun k => ?_
    by_cases hk : k = 0
    · rw [if_pos hk, if_pos hk, pure_bind]
    · rw [if_neg hk, if_neg hk, hsegment, pure_bind]
      simp only [bind_assoc, pure_bind]
      refine bind_congr fun _ => bind_congr fun _ => ih _ _ _ _ (by omega)

theorem ExecFile.isElf_call (f : ExecFile) : f.call.isElf ↔ isElf f.header := by
  have hbyte (i : Nat) (b : UInt8) : f.call.ident i = b.toNat ↔ f.header i = b := UInt8.toNat_inj
  exact and_congr (hbyte 0 0x7f) (and_congr (hbyte 1 0x45) (and_congr (hbyte 2 0x4c)
    (and_congr (hbyte 3 0x46) (hbyte 4 2))))

theorem ExecFile.ReadsWhole.execFileLoad {f : ExecFile} (h : f.ReadsWhole) (c : Nat) (j : Slot) (pgdir : Nat) :
    Core.execFileLoad c j pgdir f = Prod.fst <$> execLoad c j pgdir f.call := by
  have hread : readBytes f.content 0 ehdrSize = pure ehdrSize :=
    readBytes_whole h.length (by rw [Nat.zero_add]; exact h.elf)
  have hheader : readInto f.content 0 ehdrSize f.elf = f.header := by
    unfold ExecFile.header
    rw [Nat.min_eq_left h.elf]
  have hops (k : Nat) : fileSystem (f.call.ops k) = (pure ⟨⟩ : Sys.M Unit) := rfl
  unfold Core.execFileLoad execLoad execSegments
  rw [hread, pure_bind, hheader, hops, pure_bind, if_neg (show ¬¬f.call.found = true from not_not.mpr rfl)]
  by_cases helf : isElf f.header
  · have hloop := h.loadFile pgdir f.ph true 0 0 (Nat.zero_add (bufWord f.header 56 2))
    rw [Nat.mul_zero, Nat.add_zero, ← List.range_eq_range'] at hloop
    rw [if_neg (not_not.mpr helf), if_neg (not_not.mpr ((ExecFile.isElf_call f).mpr helf)), hloop]
    simp only [bind_assoc, map_bind]
    refine bind_congr fun _ => bind_congr fun loaded => ?_
    cases loaded with
    | false => rfl
    | true =>
      rw [if_pos rfl, if_pos rfl, hops, pure_bind, pure_bind]
      dsimp only
      rw [if_pos rfl, map_bind]
      exact (bind_pure _).symm
  · rw [if_pos helf, if_pos (mt (ExecFile.isElf_call f).mp helf)]
    rfl

/-- The call on the bytes of a file is the call on its headers. -/
theorem ExecFile.ReadsWhole.execFile {f : ExecFile} (h : f.ReadsWhole) (c : Nat) (j : Slot) :
    Core.execFile c j f = execve c j f.call := by
  unfold Core.execFile execve
  rw [if_neg (show ¬¬f.call.path = true from not_not.mpr rfl)]
  refine bind_congr fun s => bind_congr fun new => ?_
  cases new with
  | none => rfl
  | some pgdir =>
    dsimp only
    rw [h.execFileLoad, bind_map_left]
    refine bind_congr fun x => ?_
    obtain ⟨loaded, opened⟩ := x
    dsimp only
    refine ite_congr rfl (fun _ => rfl) fun _ => bind_congr fun _ => ?_
    cases opened with
    | false => rfl
    | true => rfl

/-! ### The rounds of the loop -/

/-- A segment that the loop asks `uvm_alloc` for, with the first address and the size before it. -/
structure Segment where
  ph : Elf64Phdr
  base : Nat
  oldsz : Nat

def Segment.newsz (g : Segment) : Nat := g.ph.vaddr + g.ph.memsz

/-- What a round of the loop makes of the header at offset `off`. -/
inductive Round
  | skipped (off : Nat)
  | rejected (off : Nat)
  | segment (off : Nat) (g : Segment)

/-- The tests of a `PT_LOAD` header. -/
def Elf64Phdr.Rejected (ph : Elf64Phdr) (first : Bool) : Prop :=
  ph.memsz < ph.filesz ∨ (ph.vaddr + ph.memsz) % 2 ^ 64 < ph.vaddr ∨
    (first = true ∧ ph.vaddr % pageSize ≠ 0)

instance (ph : Elf64Phdr) (first : Bool) : Decidable (ph.Rejected first) :=
  inferInstanceAs (Decidable (_ ∨ _ ∨ _))

/-- The segment that a header asks for. -/
def Elf64Phdr.segment (ph : Elf64Phdr) (first : Bool) (sz base : Nat) : Segment where
  ph := ph
  base := if first then ph.vaddr else base
  oldsz := if first then ph.vaddr else sz

/-- The buffer `ph` after the read of a header. -/
def headerAt (content : List UInt8) (off : Nat) (buf : Nat → UInt8) : Nat → UInt8 :=
  readInto content off (min phdrSize (content.length - off)) buf

/-- The rounds of the loop, up to the first that ends it with an error. -/
def rounds (content : List UInt8) : Nat → Nat → (Nat → UInt8) → Bool → Nat → Nat → List Round
  | 0, _, _, _, _, _ => []
  | n + 1, off, buf, first, sz, base =>
    let buf := headerAt content off buf
    let ph := phdrOf buf
    let next := (off + phdrSize) % 2 ^ 64
    if ph.type ≠ 1 then .skipped off :: rounds content n next buf first sz base
    else if ph.Rejected first then [.rejected off]
    else
      let g := ph.segment first sz base
      .segment off g ::
        if throughInt g.newsz = 0 then [] else rounds content n next buf false (throughInt g.newsz) g.base

/-- `uvm_alloc` accepts the segment. -/
def Segment.Accepted (g : Segment) : Prop :=
  g.base ≤ g.oldsz ∧ g.oldsz ≤ g.newsz ∧ g.newsz < uspaceTop

instance (g : Segment) : Decidable g.Accepted := inferInstanceAs (Decidable (_ ∧ _))

/-- The segment begins within a file of `size` bytes, and what is written to its memory lies at or
above the first segment. -/
def Segment.Loads (size : Nat) (g : Segment) : Prop :=
  g.ph.offset ≤ size ∧
    (min g.ph.filesz (size - g.ph.offset) = 0 ∨ g.base ≤ g.ph.vaddr) ∧
    (g.ph.memsz - g.ph.filesz = 0 ∨ g.base ≤ g.ph.vaddr + g.ph.filesz)

instance (size : Nat) (g : Segment) : Decidable (g.Loads size) :=
  inferInstanceAs (Decidable (_ ∧ _))

/-- The memory of the segment comes to no assertion, for a file of `size` bytes. -/
def Segment.Safe (size : Nat) (g : Segment) : Prop :=
  g.Accepted ∧ (throughInt g.newsz ≠ 0 → g.Loads size)

instance (size : Nat) (g : Segment) : Decidable (g.Safe size) := inferInstanceAs (Decidable (_ ∧ _))

/-- The free pages that `uvm_alloc` can take for the segment. -/
def Segment.pages (g : Segment) : Nat :=
  if g.Accepted then 4 * (pagesFrom (roundUp g.oldsz pageSize) g.newsz).length else 0

/-- The round comes to no assertion, for a file of `size` bytes. -/
def Round.Safe (size : Nat) : Round → Prop
  | skipped off => off ≤ size
  | rejected off => off ≤ size
  | segment off g => off ≤ size ∧ g.Safe size

instance (size : Nat) (r : Round) : Decidable (r.Safe size) := by
  cases r <;> unfold Round.Safe <;> infer_instance

/-- The round ends the loop with an error. -/
def Round.Fails : Round → Prop
  | skipped _ => False
  | rejected _ => True
  | segment _ g => throughInt g.newsz = 0

instance (r : Round) : Decidable r.Fails := by
  cases r <;> unfold Round.Fails <;> infer_instance

/-- The free pages that a round can take. -/
def Round.pages (size : Nat) : Round → Nat
  | skipped _ => 0
  | rejected _ => 0
  | segment off g => if off ≤ size then g.pages else 0

/-- The free pages that the rounds can take, up to the first that comes to an assertion. -/
def roundsPages (size : Nat) : List Round → Nat
  | [] => 0
  | r :: rs => r.pages size + if r.Safe size then roundsPages size rs else 0

/-- The rounds of the loop for the program headers of the file. -/
def ExecFile.rounds (f : ExecFile) : List Round :=
  Core.rounds f.content (bufWord f.header 56 2) (bufWord f.header 32 8) f.ph true 0 0

/-- The file and the strings lead to no assertion: it is not an ELF file, or no round comes to an
assertion, and if all segments are loaded, the size of the stack is not a multiple of the steps in
which it grows. -/
def ExecFile.Safe (f : ExecFile) : Prop :=
  isElf f.header → (∀ r ∈ f.rounds, r.Safe f.content.length) ∧
    ((∀ r ∈ f.rounds, ¬r.Fails) → stackBytes f.argv f.envp % (10 * pageSize) ≠ 0)

/-- The free pages that the call can take. -/
def ExecFile.pages (f : ExecFile) : Nat :=
  1 + (roundsPages f.content.length f.rounds + stackPages f.argv f.envp)

variable {s s' : Sys} {pgdir n off sz base m size : Nat} {first : Bool} {content : List UInt8}
  {buf : Nat → UInt8} {f : ExecFile} {c : Nat} {j : Slot}

/-- A read that begins within the file reads up to its end. -/
theorem runs_readBytes {count k : Nat} (hlen : content.length < 2 ^ 32) (hcount : count < 2 ^ 63) :
    Runs (readBytes content off count) s k s' ↔
      off ≤ content.length ∧ k = min count (content.length - off) ∧ s = s' := by
  have hread (hoff : off ≤ content.length) :
      (if (count + off) % 2 ^ 64 > content.length then sub64 content.length off else count) =
        min count (content.length - off) := by
    unfold sub64
    split <;> omega
  unfold readBytes
  simp only [runs_bind, runs_require, runs_pure]
  constructor
  · rintro ⟨_, _, ⟨hoff, rfl⟩, _, _, ⟨-, rfl⟩, _, _, ⟨-, rfl⟩, rfl, rfl⟩
    exact ⟨hoff, hread hoff, rfl⟩
  · rintro ⟨hoff, rfl, rfl⟩
    rw [hread hoff]
    exact ⟨(), s, ⟨hoff, rfl⟩, (), s, ⟨by omega, rfl⟩, (), s, ⟨by omega, rfl⟩, rfl, rfl⟩

/-- The bytes of the file of an inode in memory. -/
def contentOf (t : State) (p : Ptr) : List UInt8 :=
  (List.range (t.size p)).map (fileByte (t.view p) t.disk (t.mem p).inodeNo)

/-- What the file system reads from a file is what is read from its bytes. -/
theorem runs_inodeRead {t t' : State} {p : Ptr} {dest : Nat → UInt8} {count : Nat}
    {r : Nat × (Nat → UInt8)} (h : Whole t) (hp : p ∈ t.list) (hv : (t.mem p).valid = true)
    (hdev : (t.mem p).entry.type ≠ inodeDevice) (hcount : count < 2 ^ 63) :
    Runs (inodeRead sblock p dest off count) t r t' ↔
      Runs (readBytes (contentOf t p) off count) s r.1 s ∧
        r.2 = readInto (contentOf t p) off r.1 dest ∧ t = t' := by
  have hlength : (contentOf t p).length = t.size p := by simp [contentOf]
  have hsize : t.size p < 2 ^ 32 := (t.mem p).entry.numBytes.toNat_lt
  have hspec {r : Nat × (Nat → UInt8)} {t' : State}
      (hr : Runs (inodeRead sblock p dest off count) t r t') :
      t = t' ∧ off ≤ t.size p ∧ r.1 = min count (t.size p - off) ∧
        r.2 = readInto (contentOf t p) off r.1 dest := by
    obtain ⟨heq, hoff, hk, hbytes, -⟩ :=
      inodeRead_spec State.view_self (h.cached.inUse_view hp hv) (h.cached.owned_view hp hv) hr
    rw [State.view_self] at hoff hk
    refine ⟨heq.symm, hoff, hk, hbytes.trans ?_⟩
    funext i
    unfold readTo readInto
    by_cases hi : i < r.1
    · have hin : off + i < t.size p := by
        change r.1 = min count (t.size p - off) at hk
        omega
      rw [if_pos (by omega), if_pos hi]
      simp [contentOf, hin]
    · rw [if_neg (by omega), if_neg hi]
  rw [runs_readBytes (hlength ▸ hsize) hcount, hlength]
  constructor
  · intro hr
    obtain ⟨rfl, hoff, hk, hbytes⟩ := hspec hr
    exact ⟨⟨hoff, hk, rfl⟩, hbytes, rfl⟩
  · rintro ⟨⟨hoff, hk, -⟩, hbytes, rfl⟩
    obtain ⟨r', hr⟩ : ∃ r', Runs (inodeRead sblock p dest off count) t r' t :=
      h.inodeRead_returns hp hv hdev hoff
    obtain ⟨-, -, hk', hbytes'⟩ := hspec hr
    obtain rfl : r' = r := Prod.ext (hk'.trans hk.symm) (by rw [hbytes', hbytes, hk', hk])
    exact hr

/-! ### The memory of the segments -/

/-- Exactly the addresses from `base` to the end of the page of `m` are mapped. -/
structure Loaded (s : Sys) (pgdir base m : Nat) : Prop where
  space : AddressSpace s pgdir
  aligned : base % pageSize = 0
  below : m < uspaceTop
  maps : ∀ va < uspaceTop, Maps s pgdir va ↔ base ≤ va ∧ va < roundUp m pageSize

/-- What holds before a round: nothing is mapped before the first segment, and afterwards the size is
that of the memory, or too large for any further segment. -/
structure LoadingFile (s : Sys) (pgdir : Nat) (first : Bool) (sz base : Nat) : Prop where
  space : AddressSpace s pgdir
  fresh : first = true → ∀ va < uspaceTop, ¬Maps s pgdir va
  loaded : first = false → ∃ m, Loaded s pgdir base m ∧ (sz ≤ m ∨ uspaceTop ≤ sz)

/-- `uvm_alloc` returns if it accepts its arguments and finds the pages. -/
theorem AddressSpace.uvmAlloc_returns {oldsz newsz : Nat} (h : AddressSpace s pgdir)
    (hargs : base ≤ oldsz ∧ oldsz ≤ newsz ∧ newsz < uspaceTop)
    (hfree : 4 * (pagesFrom (roundUp oldsz pageSize) newsz).length ≤ s.free.length) :
    ∃ s', Runs (Core.uvmAlloc pgdir base 0 oldsz newsz) s (throughInt newsz) s' ∧ s'.short = false ∧
      s.free.length ≤ s'.free.length + 4 * (pagesFrom (roundUp oldsz pageSize) newsz).length := by
  obtain ⟨b, s', hr, hs, hle⟩ := affords_uvmAllocLoop pgdir base oldsz
    (pagesFrom_aligned (roundUp_mod oldsz)) s h.enough hfree
  obtain ⟨rfl, -⟩ := h.uvmAllocLoop (pagesFrom_aligned (roundUp_mod oldsz)) hr hs
  refine ⟨s', runs_bind.mpr ⟨(), s, runs_require.mpr ⟨⟨by decide, hargs.1, hargs.2.1, ?_⟩, rfl⟩,
    runs_bind.mpr ⟨true, s', hr, ?_⟩⟩, hs, hle⟩
  · exact hargs.2.2
  · rw [if_pos rfl]
    exact runs_pure.mpr ⟨rfl, rfl⟩

theorem throughInt_le (n : Nat) : throughInt n ≤ n ∨ uspaceTop ≤ throughInt n := by
  unfold throughInt
  split
  case isTrue => exact .inl (Nat.mod_le _ _)
  case isFalse =>
    right
    show 2 ^ 48 ≤ _
    omega

/-- A segment that `uvm_alloc` accepts leaves no hole. -/
theorem LoadingFile.allocated {g : Segment} (h : LoadingFile s pgdir first sz base)
    (hg : g = g.ph.segment first sz base)
    (haligned : first = true → g.ph.vaddr % pageSize = 0) (hacc : g.Accepted)
    (hr : Runs (uvmAlloc pgdir g.base 0 g.oldsz g.newsz) s n s') (hs : s'.short = false) :
    ∃ m, Loaded s' pgdir g.base m ∧ g.newsz ≤ m := by
  obtain ⟨-, -, hspace, hmaps⟩ := h.space.uvmAlloc hr hs
  obtain ⟨hle, hle', htop⟩ := hacc
  cases first with
  | true =>
    have hbase : g.base = g.ph.vaddr := congrArg Segment.base hg
    have holdsz : g.oldsz = g.ph.vaddr := congrArg Segment.oldsz hg
    refine ⟨g.newsz, ⟨hspace, hbase ▸ haligned rfl, htop, fun va hva => ?_⟩, Nat.le_refl _⟩
    have hround : roundUp g.oldsz pageSize = g.base := by
      have hmod : g.ph.vaddr % 4096 = 0 := haligned rfl
      rw [roundUp_eq, hbase, holdsz]
      omega
    rw [hmaps va hva, hround]
    simp only [h.fresh rfl va hva, false_or]
  | false =>
    have hbase : g.base = base := congrArg Segment.base hg
    have holdsz : g.oldsz = sz := congrArg Segment.oldsz hg
    obtain ⟨m, hm, hsz⟩ := h.loaded rfl
    refine ⟨max m g.newsz, ⟨hspace, hbase ▸ hm.aligned, Nat.max_lt.mpr ⟨hm.below, htop⟩,
      fun va hva => ?_⟩, Nat.le_max_right ..⟩
    rw [hmaps va hva, hm.maps va hva]
    have hsz' : g.oldsz ≤ m := by
      rcases hsz with hsz | hsz <;> omega
    rw [roundUp_eq, roundUp_eq, roundUp_eq, roundUp_eq, hbase]
    omega

/-- A write to the memory of a segment goes to mapped pages if it begins at or above the first
segment. -/
theorem Loaded.touched {va len : Nat} (h : Loaded s pgdir base m) (hend : va + len ≤ m) :
    (∀ a ∈ touchedPages va len, Maps s pgdir a) ↔ len = 0 ∨ base ≤ va := by
  have htop := h.below
  have haligned : base % 4096 = 0 := h.aligned
  have hdown : roundDown va pageSize = va / 4096 * 4096 := by
    show va - va % 4096 = _
    omega
  have hmaps (a : Nat) (ha : a < va + len) : Maps s pgdir a ↔ base ≤ a := by
    rw [h.maps a (by omega), roundUp_eq]
    omega
  unfold touchedPages
  by_cases hlen : len = 0
  · rw [if_pos hlen]
    exact iff_of_true (fun a ha => nomatch ha) (.inl hlen)
  · rw [if_neg hlen, hdown]
    constructor
    · intro hall
      have hfirst : va / 4096 * 4096 ∈ pagesFrom (va / 4096 * 4096) (va + len) :=
        mem_pagesFrom.mpr ⟨0, by rw [Nat.zero_mul, Nat.add_zero], by omega⟩
      have hle := (hmaps _ (by omega)).mp (hall _ hfirst)
      exact .inr (by omega)
    · intro hle a ha
      obtain ⟨k, rfl, hlt⟩ := mem_pagesFrom.mp ha
      refine (hmaps _ hlt).mpr ?_
      have hle' := hle.resolve_left hlen
      omega


theorem LoadingFile.alloc {g : Segment} (h : LoadingFile s pgdir first sz base)
    (hg : g = g.ph.segment first sz base) (haligned : first = true → g.ph.vaddr % pageSize = 0)
    (hacc : g.Accepted) (hfree : g.pages ≤ s.free.length) :
    ∃ t m, Runs (uvmAlloc pgdir g.base 0 g.oldsz g.newsz) s (throughInt g.newsz) t ∧
      Loaded t pgdir g.base m ∧ g.newsz ≤ m ∧ s.free.length ≤ t.free.length + g.pages := by
  unfold Segment.pages at hfree ⊢
  rw [if_pos hacc] at hfree ⊢
  obtain ⟨t, hr, hs, hle⟩ := h.space.uvmAlloc_returns hacc hfree
  obtain ⟨m, hm, hend⟩ := h.allocated hg haligned hacc hr hs
  exact ⟨t, m, hr, hm, hend, hle⟩

/-- A write that begins at or above the first segment. -/
theorem Loaded.write {va len : Nat} (h : Loaded s pgdir base m) (data : Nat → Nat → Nat)
    (hend : va + len ≤ m) (hle : len = 0 ∨ base ≤ va) :
    ∃ t, Runs (userWrite pgdir va len data) s ⟨⟩ t ∧ Loaded t pgdir base m ∧
      t.free.length = s.free.length := by
  obtain ⟨t, hr, hw⟩ := h.space.userWrite_returns data ((h.touched hend).mpr hle)
  refine ⟨t, hr, ⟨hw.space, h.aligned, h.below, fun va hva => ?_⟩, congrArg List.length hw.free⟩
  rw [Maps, hw.maps _ rfl]
  exact h.maps va hva

/-- A segment that the loop accepts: what holds of its addresses. -/
structure Segment.Sound (g : Segment) (first : Bool) (sz base : Nat) : Prop where
  eq : g = g.ph.segment first sz base
  aligned : first = true → g.ph.vaddr % pageSize = 0
  size : g.ph.filesz ≤ g.ph.memsz

theorem LoadingFile.segment_returns {g : Segment} (h : LoadingFile s pgdir first sz base)
    (hg : g.Sound first sz base) (hlen : f.content.length < 2 ^ 32)
    (hsafe : g.Safe f.content.length) (hfree : g.pages ≤ s.free.length) :
    ∃ t, Runs (loadSegment pgdir f g.ph g.base g.oldsz) s
        (if throughInt g.newsz = 0 then none else some (throughInt g.newsz)) t ∧
      LoadingFile t pgdir false (throughInt g.newsz) g.base ∧
      s.free.length ≤ t.free.length + g.pages := by
  obtain ⟨hacc, hloads⟩ := hsafe
  obtain ⟨s₁, m, hr₁, hm₁, hend, hle₁⟩ := h.alloc hg.eq hg.aligned hacc hfree
  have hsz : throughInt g.newsz ≤ m ∨ uspaceTop ≤ throughInt g.newsz :=
    (throughInt_le g.newsz).imp_left fun hle => Nat.le_trans hle hend
  have hnewsz : g.ph.vaddr + g.ph.memsz = g.newsz := rfl
  have hfilesz := hg.size
  by_cases hzero : throughInt g.newsz = 0
  · rw [if_pos hzero]
    refine ⟨s₁, runs_bind.mpr ⟨_, s₁, hr₁, ?_⟩, ⟨hm₁.space, nofun, fun _ => ⟨m, hm₁, hsz⟩⟩, hle₁⟩
    rw [if_pos hzero]
    exact runs_pure.mpr ⟨rfl, rfl⟩
  · rw [if_neg hzero]
    obtain ⟨hoff, hfile, hbss⟩ := hloads hzero
    have htop : g.newsz < 2 ^ 48 := hacc.2.2
    obtain ⟨s₂, hr₂, hm₂, hle₂⟩ := hm₁.write f.data (by omega) hfile
    obtain ⟨s₃, hr₃, hm₃, hle₃⟩ := hm₂.write f.data (by omega) hbss
    refine ⟨s₃, runs_bind.mpr ⟨_, s₁, hr₁, ?_⟩, ⟨hm₃.space, nofun, fun _ => ⟨m, hm₃, hsz⟩⟩, by omega⟩
    rw [if_neg hzero]
    exact runs_bind.mpr ⟨_, s₁, (runs_readBytes hlen (by omega)).mpr ⟨hoff, rfl, rfl⟩,
      runs_bind.mpr ⟨_, s₂, hr₂, runs_bind.mpr ⟨_, s₃, hr₃, runs_pure.mpr ⟨rfl, rfl⟩⟩⟩⟩

theorem LoadingFile.segment_safe {g : Segment} {o : Option Nat} (h : LoadingFile s pgdir first sz base)
    (hg : g.Sound first sz base) (hlen : f.content.length < 2 ^ 32) (hfree : g.pages ≤ s.free.length)
    (hr : Runs (loadSegment pgdir f g.ph g.base g.oldsz) s o s') : g.Safe f.content.length := by
  obtain ⟨k, s₁, halloc, hr⟩ := runs_bind.mp hr
  have hacc : g.Accepted := by
    obtain ⟨_, _, hrequire, -⟩ := runs_bind.mp halloc
    obtain ⟨⟨-, hargs⟩, -⟩ := runs_require.mp hrequire
    exact hargs
  obtain ⟨t, m, hr₁, hm₁, hend, -⟩ := h.alloc hg.eq hg.aligned hacc hfree
  obtain ⟨rfl, rfl⟩ := hr₁.unique halloc
  refine ⟨hacc, fun hzero => ?_⟩
  rw [if_neg hzero] at hr
  have hnewsz : g.ph.vaddr + g.ph.memsz = g.newsz := rfl
  have hfilesz := hg.size
  have htop : g.newsz < 2 ^ 48 := hacc.2.2
  obtain ⟨count, _, hread, hr⟩ := runs_bind.mp hr
  obtain ⟨hoff, rfl, rfl⟩ := (runs_readBytes hlen (by omega)).mp hread
  obtain ⟨_, s₂, hwrite, hr⟩ := runs_bind.mp hr
  have hfile := (hm₁.touched (by omega)).mp (hm₁.space.userWrite hwrite)
  obtain ⟨t₂, hr₂, hm₂, -⟩ := hm₁.write f.data (by omega) hfile
  obtain ⟨-, rfl⟩ := hr₂.unique hwrite
  obtain ⟨_, s₃, hwrite', -⟩ := runs_bind.mp hr
  exact ⟨hoff, hfile, (hm₂.touched (by omega)).mp (hm₂.space.userWrite hwrite')⟩

/-! ### The loop -/

/-- A round begins with a header within the file. -/
theorem runs_loadFile {b : Bool} (hlen : f.content.length < 2 ^ 32) :
    Runs (loadFile pgdir f (n + 1) off buf first sz base) s b s' ↔
      off ≤ f.content.length ∧ Runs (
        let buf := headerAt f.content off buf
        let ph := phdrOf buf
        let next := (off + phdrSize) % 2 ^ 64
        if ph.type ≠ 1 then loadFile pgdir f n next buf first sz base
        else if ph.Rejected first then pure false
        else do
          let g := ph.segment first sz base
          match ← loadSegment pgdir f g.ph g.base g.oldsz with
          | none => pure false
          | some sz => loadFile pgdir f n next buf false sz g.base) s b s' := by
  have htests (ph : Elf64Phdr) (x : Sys.M Bool) :
      (if ph.memsz < ph.filesz then pure false
        else if (ph.vaddr + ph.memsz) % 2 ^ 64 < ph.vaddr then pure false
        else if first ∧ ph.vaddr % pageSize ≠ 0 then pure false else x : Sys.M Bool) =
          if ph.Rejected first then pure false else x := by
    by_cases hsize : ph.memsz < ph.filesz
    · rw [if_pos hsize, if_pos (.inl hsize)]
    by_cases hend : (ph.vaddr + ph.memsz) % 2 ^ 64 < ph.vaddr
    · rw [if_neg hsize, if_pos hend, if_pos (.inr (.inl hend))]
    by_cases halign : first ∧ ph.vaddr % pageSize ≠ 0
    · rw [if_neg hsize, if_neg hend, if_pos halign, if_pos (.inr (.inr halign))]
    · rw [if_neg hsize, if_neg hend, if_neg halign, if_neg]
      intro hrej
      exact hrej.elim hsize (·.elim hend halign)
  rw [loadFile, runs_bind]
  simp only [htests, runs_readBytes hlen (by decide : phdrSize < 2 ^ 63)]
  constructor
  · rintro ⟨_, _, ⟨hoff, rfl, rfl⟩, hr⟩
    exact ⟨hoff, hr⟩
  · rintro ⟨hoff, hr⟩
    exact ⟨_, s, ⟨hoff, rfl, rfl⟩, hr⟩

theorem Elf64Phdr.sound {ph : Elf64Phdr} (h : ¬ph.Rejected first) (sz base : Nat) :
    (ph.segment first sz base).Sound first sz base := by
  unfold Elf64Phdr.Rejected at h
  refine ⟨rfl, fun hfirst => ?_, ?_⟩
  · by_contra hne
    exact h (.inr (.inr ⟨hfirst, hne⟩))
  · exact Nat.le_of_not_lt fun hlt => h (.inl hlt)

/-- With enough pages the loop ends if its rounds come to no assertion. -/
theorem LoadingFile.returns (h : LoadingFile s pgdir first sz base) (hlen : f.content.length < 2 ^ 32)
    (hsafe : ∀ r ∈ rounds f.content n off buf first sz base, r.Safe f.content.length)
    (hfree : roundsPages f.content.length (rounds f.content n off buf first sz base) ≤ s.free.length) :
    ∃ b s', Runs (loadFile pgdir f n off buf first sz base) s b s' ∧ AddressSpace s' pgdir ∧
      s.free.length ≤ s'.free.length +
        roundsPages f.content.length (rounds f.content n off buf first sz base) ∧
      (b = true ↔ ∀ r ∈ rounds f.content n off buf first sz base, ¬r.Fails) := by
  induction n generalizing s off buf first sz base with
  | zero => exact ⟨true, s, runs_pure.mpr ⟨rfl, rfl⟩, h.space, Nat.le_refl _, iff_of_true rfl nofun⟩
  | succ n ih =>
    rw [rounds] at hsafe hfree ⊢
    simp only [runs_loadFile hlen]
    generalize headerAt f.content off buf = buf at hsafe hfree ⊢
    by_cases htype : (phdrOf buf).type ≠ 1
    · simp only [if_pos htype] at hsafe hfree ⊢
      have hround := hsafe _ List.mem_cons_self
      rw [roundsPages, if_pos hround, Round.pages, Nat.zero_add] at hfree ⊢
      obtain ⟨b, s', hr, hspace, hle, hb⟩ := ih h (fun r hr => hsafe r (List.mem_cons_of_mem _ hr)) hfree
      refine ⟨b, s', ⟨hround, hr⟩, hspace, hle, hb.trans ?_⟩
      rw [List.forall_mem_cons]
      exact (and_iff_right id).symm
    simp only [if_neg htype] at hsafe hfree ⊢
    by_cases hrej : (phdrOf buf).Rejected first
    · simp only [if_pos hrej] at hsafe hfree ⊢
      refine ⟨false, s, ⟨hsafe _ List.mem_cons_self, runs_pure.mpr ⟨rfl, rfl⟩⟩, h.space,
        Nat.le_add_right _ _, iff_of_false Bool.false_ne_true fun hall => ?_⟩
      exact hall _ List.mem_cons_self trivial
    simp only [if_neg hrej] at hsafe hfree ⊢
    have hround := hsafe _ List.mem_cons_self
    have hsound := Elf64Phdr.sound hrej sz base
    generalize (phdrOf buf).segment first sz base = g at hsafe hfree hround hsound ⊢
    obtain ⟨hoff, hg⟩ := hround
    rw [roundsPages, if_pos (show (Round.segment off g).Safe _ from ⟨hoff, hg⟩), Round.pages,
      if_pos hoff] at hfree ⊢
    obtain ⟨t, hr, ht, hle⟩ := h.segment_returns hsound hlen hg (by omega)
    simp only [runs_after hr]
    by_cases hzero : throughInt g.newsz = 0
    · simp only [if_pos hzero]
      refine ⟨false, t, ⟨hoff, runs_pure.mpr ⟨rfl, rfl⟩⟩, ht.space, by omega,
        iff_of_false Bool.false_ne_true fun hall => ?_⟩
      exact hall _ List.mem_cons_self hzero
    · simp only [if_neg hzero] at hsafe hfree ⊢
      obtain ⟨b, s', hr', hspace, hle', hb⟩ :=
        ih ht (fun r hr => hsafe r (List.mem_cons_of_mem _ hr)) (by omega)
      refine ⟨b, s', ⟨hoff, hr'⟩, hspace, by omega, hb.trans ?_⟩
      rw [List.forall_mem_cons]
      exact (and_iff_right hzero).symm

/-- With enough pages the rounds of a loop that ends come to no assertion. -/
theorem LoadingFile.safe {b : Bool} (h : LoadingFile s pgdir first sz base)
    (hlen : f.content.length < 2 ^ 32)
    (hfree : roundsPages f.content.length (rounds f.content n off buf first sz base) ≤ s.free.length)
    (hr : Runs (loadFile pgdir f n off buf first sz base) s b s') :
    ∀ r ∈ rounds f.content n off buf first sz base, r.Safe f.content.length := by
  induction n generalizing s off buf first sz base with
  | zero => exact nofun
  | succ n ih =>
    obtain ⟨hoff, hr⟩ := (runs_loadFile hlen).mp hr
    rw [rounds] at hfree ⊢
    generalize headerAt f.content off buf = buf at hfree hr ⊢
    by_cases htype : (phdrOf buf).type ≠ 1
    · simp only [if_pos htype] at hfree hr ⊢
      rw [roundsPages, if_pos (show (Round.skipped off).Safe _ from hoff), Round.pages,
        Nat.zero_add] at hfree
      exact List.forall_mem_cons.mpr ⟨hoff, ih h hfree hr⟩
    simp only [if_neg htype] at hfree hr ⊢
    by_cases hrej : (phdrOf buf).Rejected first
    · simp only [if_pos hrej]
      exact List.forall_mem_cons.mpr ⟨hoff, nofun⟩
    simp only [if_neg hrej] at hfree hr ⊢
    have hsound := Elf64Phdr.sound hrej sz base
    generalize (phdrOf buf).segment first sz base = g at hfree hr hsound ⊢
    rw [roundsPages, Round.pages, if_pos hoff] at hfree
    obtain ⟨o, s₁, hload, hr⟩ := runs_bind.mp hr
    have hg := h.segment_safe hsound hlen (by omega) hload
    rw [if_pos (show (Round.segment off g).Safe _ from ⟨hoff, hg⟩)] at hfree
    obtain ⟨t, hr₁, ht, hle⟩ := h.segment_returns hsound hlen hg (by omega)
    obtain ⟨rfl, rfl⟩ := hr₁.unique hload
    refine List.forall_mem_cons.mpr ⟨⟨hoff, hg⟩, ?_⟩
    by_cases hzero : throughInt g.newsz = 0
    · rw [if_pos hzero]
      exact nofun
    · rw [if_neg hzero] at hfree hr ⊢
      exact ih ht (by omega) hr

/-! ### The call -/

theorem AddressSpace.setPgdir (h : AddressSpace s pgdir) (c : Nat) (j : Slot) (o : Option Nat) :
    AddressSpace (s.setPgdir c j o) pgdir := by
  obtain ⟨r, hspace, hroot⟩ := h.tables
  exact ⟨⟨h.pages.free, h.pages.arena, h.pages.disjoint, h.pages.below⟩,
    ⟨r, hspace.of_words (fun _ _ _ _ => rfl) hspace.apart, hroot⟩, h.enough⟩

theorem maps_setPgdir (s : Sys) (c : Nat) (j : Slot) (o : Option Nat) (pgdir va : Nat) :
    Maps (s.setPgdir c j o) pgdir va ↔ Maps s pgdir va := by
  unfold Maps
  rw [follow_word (by rfl : (s.setPgdir c j o).word = s.word)]

/-- With a new table and enough pages, the address space is made exactly if the file is safe. -/
theorem AddressSpace.execFileLoad (h : AddressSpace s pgdir)
    (hfresh : ∀ va, ¬Maps s pgdir va) (hvalid : ∀ o ∈ f.argv ++ f.envp, o ≠ none)
    (hlen : f.content.length < 2 ^ 32)
    (hfree : roundsPages f.content.length f.rounds + stackPages f.argv f.envp ≤ s.free.length) :
    (∃ b s', Runs (execFileLoad c j pgdir f) s b s') ↔ f.Safe := by
  have hread : Runs (readBytes f.content 0 ehdrSize) s (min ehdrSize f.content.length) s :=
    (runs_readBytes hlen (by decide)).mpr ⟨Nat.zero_le _, rfl, rfl⟩
  have hheader : readInto f.content 0 (min ehdrSize f.content.length) f.elf = f.header := rfl
  unfold Core.execFileLoad ExecFile.Safe
  simp only [runs_after hread, hheader]
  by_cases helf : isElf f.header
  case neg =>
    rw [if_pos helf]
    exact iff_of_true ⟨false, s, runs_pure.mpr ⟨rfl, rfl⟩⟩ fun hyes => absurd hyes helf
  rw [if_neg (not_not_intro helf), imp_iff_right helf]
  have hset : Runs (modify fun s => s.setPgdir c j (some pgdir) : Sys.M PUnit) s ⟨⟩
      (s.setPgdir c j (some pgdir)) := runs_modify.mpr rfl
  simp only [runs_after hset]
  -- nothing is mapped before the first segment
  have hstart : LoadingFile (s.setPgdir c j (some pgdir)) pgdir true 0 0 :=
    ⟨h.setPgdir c j _, fun _ va _ hmaps => hfresh va ((maps_setPgdir s c j _ pgdir va).mp hmaps), nofun⟩
  have hpages : roundsPages f.content.length f.rounds ≤ (s.setPgdir c j (some pgdir)).free.length :=
    Nat.le_trans (Nat.le_add_right _ _) hfree
  constructor
  · rintro ⟨b, s', hr⟩
    obtain ⟨b₁, s₁, hload, hr⟩ := runs_bind.mp hr
    have hsafe := hstart.safe hlen hpages hload
    refine ⟨hsafe, fun hok => ?_⟩
    obtain ⟨b₂, s₂, hr₂, hspace, hle, hb⟩ := hstart.returns hlen hsafe hpages
    obtain ⟨rfl, rfl⟩ := hr₂.unique hload
    rw [if_pos (hb.mpr hok)] at hr
    exact (hspace.pushStack_returns (e := f.call) hvalid (by
      change s.free.length ≤ _ at hle
      show stackPages f.argv f.envp ≤ _
      change _ ≤ s₂.free.length + roundsPages f.content.length f.rounds at hle
      omega)).mp ⟨b, s', hr⟩
  · rintro ⟨hsafe, hstack⟩
    obtain ⟨b₁, s₁, hr₁, hspace, hle, hb⟩ := hstart.returns hlen hsafe hpages
    simp only [runs_after hr₁]
    by_cases hok : ∀ r ∈ f.rounds, ¬r.Fails
    · rw [if_pos (hb.mpr hok)]
      refine (hspace.pushStack_returns (e := f.call) hvalid ?_).mpr (hstack hok)
      change s.free.length ≤ s₁.free.length + roundsPages f.content.length f.rounds at hle
      show stackPages f.argv f.envp ≤ _
      omega
    · rw [if_neg fun hb₁ => hok (hb.mp hb₁)]
      exact ⟨false, s₁, runs_pure.mpr ⟨rfl, rfl⟩⟩

/-- With enough pages `execve` of a safe file comes back. -/
theorem execFile_returns (c : Nat) (j : Slot) (hp : Pages s) (hs : s.short = false)
    (hvalid : ∀ o ∈ f.argv ++ f.envp, o ≠ none) (hlen : f.content.length < 2 ^ 32)
    (hfree : f.pages ≤ s.free.length) (hf : f.Safe) : ∃ b s', Runs (execFile c j f) s b s' := by
  unfold ExecFile.pages at hfree
  obtain ⟨o, s₁, hinit, hs₁, -⟩ := affords_pgdirInit s hs (by omega)
  obtain ⟨p, free, rfl, hcons, rfl⟩ := pgdirInit_takes hinit hs₁
  obtain ⟨hspace, hfresh⟩ := AddressSpace.fresh hp hs hcons
  have hleft : s.free.length = free.length + 1 := congrArg List.length hcons
  obtain ⟨b₁, s₂, hload⟩ := (hspace.execFileLoad (c := c) (j := j) hfresh hvalid hlen
    (show _ ≤ free.length by omega)).mpr hf
  unfold execFile
  simp only [runs_after (runs_get.mpr ⟨rfl, rfl⟩), runs_after hinit, runs_after hload]
  cases b₁ with
  | true => exact ⟨true, _, runs_bind.mpr ⟨⟨⟩, _, runs_modify.mpr rfl, runs_pure.mpr ⟨rfl, rfl⟩⟩⟩
  | false =>
    obtain ⟨s₃, hr⟩ := vmFree_returns p s₂
    exact ⟨false, _, runs_bind.mpr ⟨(), s₃, hr,
      runs_bind.mpr ⟨⟨⟩, _, runs_modify.mpr rfl, runs_pure.mpr ⟨rfl, rfl⟩⟩⟩⟩

end FtosFfs.Core
