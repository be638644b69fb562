import FtosFfs.Core.Memory

/-! The memory of a process from its fork to its end: what `fork`, `execve`, `exit` and `wait` take
from the free pages and give back. -/

namespace FtosFfs.Core

open Lib Lib.Exec

/-- What a call of the file system does to the pages: its arenas take pages, write to them, and
give them back. -/
inductive ArenaOp
  | take
  | write (p : Nat) (data : Nat → Nat)
  | give (p : Nat)

def arenaOp : ArenaOp → Sys.M Unit
  | .take => do
    match ← kalloc with
    | none => throw .panic
    | some p => modify fun s => { s with arena := p :: s.arena }
  | .write p data => do
    let s ← get
    require .panic (p ∈ s.arena)
    modify fun s => s.fill p data
  | .give p => do
    let s ← get
    require .panic (p ∈ s.arena)
    modify fun s => { s with arena := s.arena.erase p }
    kfree p

/-- The calls of the file system between two steps of a system call. -/
def fileSystem (ops : List ArenaOp) : Sys.M Unit := ops.forM arenaOp

def Sys.setPgdir (s : Sys) (c : Nat) (i : Slot) (p : Option Nat) : Sys :=
  { s with pgdir := fun d j => if d = c ∧ j = i then p else s.pgdir d j }

def Sys.setKstack (s : Sys) (c : Nat) (i : Slot) (p : Option Nat) : Sys :=
  { s with kstack := fun d j => if d = c ∧ j = i then p else s.kstack d j }

def Sys.setKernel (s : Sys) (kernel : Kernel) : Sys := { s with kernel }

structure Phdr where
  type : Nat
  vaddr : Nat
  filesz : Nat
  memsz : Nat

/-- A call of `execve`: what its file and its arguments are found to be. -/
structure ExecCall where
  /-- The path is a string of the process. -/
  path : Bool
  /-- The path leads to a file. -/
  found : Bool
  ident : Nat → Nat
  phnum : Nat
  ph : Nat → Phdr
  /-- The lengths of the strings of `argv`, up to one that is not a string of the process. -/
  argv : List (Option Nat)
  envp : List (Option Nat)
  /-- What the page of an address holds after a write of user data. -/
  data : Nat → Nat → Nat
  /-- The calls of the file system, by the place of the call. -/
  ops : Nat → List ArenaOp

/-- The first bytes of an ELF file: `ELFMAG0` to `ELFMAG3` and `ELFCLASS64`. -/
def ExecCall.isElf (e : ExecCall) : Prop :=
  e.ident 0 = 0x7f ∧ e.ident 1 = 0x45 ∧ e.ident 2 = 0x4c ∧ e.ident 3 = 0x46 ∧ e.ident 4 = 2

instance (e : ExecCall) : Decidable e.isElf := inferInstanceAs (Decidable (_ ∧ _))

/-- `a - b` as `u64`. -/
def sub64 (a b : Nat) : Nat := (a + 2 ^ 64 - b % 2 ^ 64) % 2 ^ 64

/-- The loop of `execve` over the program headers: whether all segments were loaded. -/
def loadSegments (pgdir : Nat) (e : ExecCall) : List Nat → Bool → Nat → Nat → Sys.M Bool
  | [], _, _, _ => pure true
  | i :: is, first, sz, base => do
    let ph := e.ph i
    fileSystem (e.ops (2 * i + 1))
    if ph.type ≠ 1 then loadSegments pgdir e is first sz base
    else if ph.memsz < ph.filesz then pure false
    else if (ph.vaddr + ph.memsz) % 2 ^ 64 < ph.vaddr then pure false
    else if first ∧ ph.vaddr % pageSize ≠ 0 then pure false
    else do
      let base := if first then ph.vaddr else base
      let sz ← uvmAlloc pgdir base 0 (if first then ph.vaddr else sz) (ph.vaddr + ph.memsz)
      if sz = 0 then pure false
      else do
        fileSystem (e.ops (2 * i + 2))
        userWrite pgdir ph.vaddr ph.filesz e.data
        userWrite pgdir (ph.vaddr + ph.filesz) (ph.memsz - ph.filesz) e.data
        loadSegments pgdir e is false sz base

/-- The strings of `argv` or `envp`, from `sp` down: the address of the last one. -/
def pushStrings (pgdir : Nat) (data : Nat → Nat → Nat) : List (Option Nat) → Nat → Sys.M (Option Nat)
  | [], sp => pure (some sp)
  | none :: _, _ => pure none
  | some len :: rest, sp => do
    let sp := sub64 sp (len + 1)
    if ← copyout pgdir sp (len + 1) data then pushStrings pgdir data rest sp else pure none

/-- The stack of the new program: whether all of it was found. -/
def pushStack (pgdir : Nat) (e : ExecCall) : Sys.M Bool := do
  match ← pushStrings pgdir e.data e.argv uspaceTop with
  | none => pure false
  | some sp =>
    match ← pushStrings pgdir e.data e.envp sp with
    | none => pure false
    | some sp => do
      let newsp := roundDown (sub64 (sub64 sp 16) ((e.envp.length + e.argv.length + 4) * 8)) 16
      if ← copyout pgdir newsp (sub64 sp newsp) e.data then do
        userWrite pgdir newsp (sub64 sp newsp) e.data
        let stksz := roundUp (sub64 uspaceTop newsp) (10 * pageSize)
        if ← copyout pgdir (sub64 uspaceTop stksz) (sub64 stksz (sub64 uspaceTop newsp)) e.data then do
          require .panic (sub64 uspaceTop stksz < newsp)
          pure true
        else pure false
      else pure false

/-- The segments of the new program: whether all of them were loaded, and whether the file is still open. -/
def execSegments (c : Nat) (j : Slot) (pgdir : Nat) (e : ExecCall) : Sys.M (Bool × Bool) := do
  fileSystem (e.ops 0)
  if ¬e.found then pure (false, false)
  else if ¬e.isElf then pure (false, true)
  else do
    modify fun s => s.setPgdir c j (some pgdir)
    if ← loadSegments pgdir e (List.range e.phnum) true 0 0 then do
      fileSystem (e.ops (2 * e.phnum + 1))
      pure (true, false)
    else pure (false, true)

/-- The new address space of `execve`: whether it is complete, and whether the file is still
open. -/
def execLoad (c : Nat) (j : Slot) (pgdir : Nat) (e : ExecCall) : Sys.M (Bool × Bool) := do
  let (loaded, opened) ← execSegments c j pgdir e
  if loaded then pure (← pushStack pgdir e, opened) else pure (false, opened)

/-- `execve` in the process of slot `j`: whether the process has a new program. -/
def execve (c : Nat) (j : Slot) (e : ExecCall) : Sys.M Bool := do
  if ¬e.path then pure false
  else do
    let s ← get
    let oldpgdir := s.pgdir c j
    match ← pgdirInit with
    | none => do
      modify fun s => s.setPgdir c j oldpgdir
      pure false
    | some pgdir => do
      let (loaded, opened) ← execLoad c j pgdir e
      if loaded then do
        modify fun s => s.setPgdir c j (some pgdir)
        pure true
      else do
        vmFree pgdir
        when opened (fileSystem (e.ops (2 * e.phnum + 1)))
        modify fun s => s.setPgdir c j oldpgdir
        pure false

/-- `alloc_proc`: the slot and the kernel stack. -/
def allocProcPages (T : Tree) (c : Nat) : Sys.M (Slot × Nat) := do
  let s ← get
  match allocProc T s.kernel c with
  | none => throw .panic
  | some (j, kernel) => do
    modify fun s => s.setKernel kernel
    let pgdir ← pgdirInit
    modify fun s => s.setPgdir c j pgdir
    match ← kalloc with
    | none => throw .panic
    | some stack => do
      modify fun s => s.setKstack c j (some stack)
      pure (j, stack)

/-- `fork` in the process of slot `i`: the slot of the child. -/
def fork (T : Tree) (c : Nat) (i : Slot) : Sys.M (Option Slot) := do
  let (j, stack) ← allocProcPages T c
  let s ← get
  match s.pgdir c i with
  | none => throw .null
  | some parent => do
    let copy ← uvmCopy parent
    modify fun s => s.setPgdir c j copy
    match copy with
    | none => do
      kfree stack
      modify fun s => (s.setKstack c j none).setKernel
        (s.kernel.setProc c j { (s.kernel c).ptable j with state := .unused })
      pure none
    | some _ => do
      modify fun s => s.setKernel
        (s.kernel.setProc c j { (s.kernel c).ptable j with parent := some i, state := .runnable })
      pure (some j)

/-- `exit` in the process of slot `j`. -/
def exit (c : Nat) (j : Slot) (ops : List ArenaOp) : Sys.M Unit := do
  fileSystem ops
  modify fun s => s.setKernel (s.kernel.onCont c (·.exit j))

/-- A pass of `wait` in the process of slot `i`: the slot of the child whose exit it returns. -/
def wait (c : Nat) (i : Slot) : Sys.M (Option Slot) := do
  let s ← get
  modify fun s => s.setKernel (s.kernel.onCont c (·.wait i))
  match (s.kernel c).scan i with
  | .zombie j =>
    match s.pgdir c j, s.kstack c j with
    | some pgdir, some stack => do
      vmFree pgdir
      kfree stack
      pure (some j)
    | _, _ => throw .null
  | _ => pure none

/-- A process forks a child; the child makes the calls of `execve` and exits; and the process waits
for it. -/
def Cycle (T : Tree) (c : Nat) (i : Slot) (calls : List ExecCall) (ops : List ArenaOp)
    (s s' : Sys) : Prop :=
  ∃ j s1 s2 s3, Runs (fork T c i) s (some j) s1 ∧
    Runs (calls.forM fun e => do let _ ← execve c j e) s1 ⟨⟩ s2 ∧
    Runs (exit c j ops) s2 () s3 ∧ Runs (wait c i) s3 (some j) s'

end FtosFfs.Core
