import FtosFfs.Fs.Path

/-! Reads that may come from the console, `console_read` of `core/console.c`, and the part of
`execve` in `core/exec.c` that reads the program. -/

namespace FtosFfs.Fs

open Lib Lib.Exec Cache

/-- `C('D')`, the end of the input. -/
def ctrlD : UInt8 := 4

def newline : UInt8 := 10

/-- The loop of `console_read` for `n` more bytes: what it has stored, or nothing when the process is
killed while it waits for more than `input`. -/
def consoleBytes : List UInt8 → Nat → Option (List UInt8)
  | _, 0 => some []
  | [], _ + 1 => none
  | c :: input, n + 1 =>
    if c = ctrlD then some []
    else if c = newline then some [c]
    else (consoleBytes input n).map (c :: ·)

/-- `console_read` of `n` bytes, with the lock of the inode released meanwhile. -/
def consoleRead (sb : SuperBlock) (p : Ptr) (input : List UInt8) (dest : Nat → UInt8) (n : Nat) :
    M (Int × (Nat → UInt8)) := do
  inodeUnlock p
  inodeLock sb p
  match consoleBytes input n with
  | none => pure (-1, dest)
  | some bytes => pure (bytes.length, fun i => bytes.getD i (dest i))

/-- `inode_read` of a file or a device, with what comes from the console. -/
def inodeReadFrom (sb : SuperBlock) (p : Ptr) (input : List UInt8) (dest : Nat → UInt8)
    (offset count : Nat) : M (Int × (Nat → UInt8)) := do
  let entry := ((← get).mem p).entry
  if entry.type = inodeDevice then
    assert (entry.major = 1)
    consoleRead sb p input dest count
  else
    let (count, dest) ← inodeRead sb p dest offset count
    pure (count, dest)

/-! ### Programs -/

/-- The little-endian number in the `w` bytes from offset `o` of a buffer. -/
def bufWord (buf : Nat → UInt8) (o : Nat) : Nat → Nat
  | 0 => 0
  | w + 1 => (buf o).toNat + 256 * bufWord buf (o + 1) w

/-- `sizeof(Elf64_Ehdr)`. -/
def ehdrSize : Nat := 64

/-- `sizeof(Elf64_Phdr)`. -/
def phdrSize : Nat := 56

/-- The first bytes of an ELF file: `ELFMAG0` to `ELFMAG3` and `ELFCLASS64`. -/
def isElf (elf : Nat → UInt8) : Prop :=
  elf 0 = 0x7f ∧ elf 1 = 0x45 ∧ elf 2 = 0x4c ∧ elf 3 = 0x46 ∧ elf 4 = 2

instance (elf : Nat → UInt8) : Decidable (isElf elf) := inferInstanceAs (Decidable (_ ∧ _))

/-- What `execve` finds outside the file system. -/
structure ExecEnv where
  /-- `pgdir_init` finds a page. -/
  pgdir : Bool
  /-- `uvm_alloc` finds the pages of segment `i`. -/
  uvmAlloc : Nat → Bool
  /-- The arguments and the stack are copied. -/
  stack : Bool
  /-- What the buffers hold before the reads. -/
  memory : Nat → UInt8
  /-- What comes from the console at a read from some offset. -/
  input : Nat → List UInt8

/-- The loop of `execve` over `n` more program headers from offset `off`: whether all segments were
loaded. -/
def loadProgram (sb : SuperBlock) (env : ExecEnv) (p : Ptr) :
    Nat → Nat → Nat → (Nat → UInt8) → Bool → M Bool
  | 0, _, _, _, _ => pure true
  | n + 1, i, off, ph, first => do
    let (_, ph) ← inodeReadFrom sb p (env.input off) ph off phdrSize
    let offset := bufWord ph 8 8
    let vaddr := bufWord ph 16 8
    let filesz := bufWord ph 32 8
    let memsz := bufWord ph 40 8
    if bufWord ph 0 4 ≠ 1 then loadProgram sb env p n (i + 1) ((off + phdrSize) % 2 ^ 64) ph first
    else if memsz < filesz then pure false
    else if (vaddr + memsz) % 2 ^ 64 < vaddr then pure false
    else if first ∧ vaddr % 4096 ≠ 0 then pure false
    else if ¬env.uvmAlloc i then pure false
    else
      let _ ← inodeReadFrom sb p (env.input offset) env.memory offset filesz
      loadProgram sb env p n (i + 1) ((off + phdrSize) % 2 ^ 64) ph false

/-- The reads of `execve` from the locked file `p`: whether the program was loaded. -/
def execRead (sb : SuperBlock) (env : ExecEnv) (p : Ptr) : M Bool := do
  let (_, elf) ← inodeReadFrom sb p (env.input 0) env.memory 0 ehdrSize
  if isElf elf then loadProgram sb env p (bufWord elf 56 2) 0 (bufWord elf 32 8) env.memory true
  else pure false

end FtosFfs.Fs
