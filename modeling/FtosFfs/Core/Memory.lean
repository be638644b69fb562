import FtosFfs.Core.Table
import FtosFfs.Lib.Exec

/-! Pages and page tables: the free list, and the tables of four levels that map the addresses of
a process to its pages. -/

namespace FtosFfs.Core

open Lib Lib.Exec

def pageSize : Nat := 4096

/-- The pages below `phystop`. -/
def physPages : Nat := 0x3F000

def uspaceTop : Nat := 0x0001000000000000

/-- `PTE_VALID`. -/
def pteValid (e : Nat) : Prop := e % 2 = 1

instance (e : Nat) : Decidable (pteValid e) := inferInstanceAs (Decidable (_ = _))

/-- The page of `PTE_ADDRESS`, whose mask `~0xFFFu` is 32 bits wide. -/
def pteFrame (e : Nat) : Nat := e % 2 ^ 32 / pageSize

/-- `PTE_FLAGS`. -/
def pteFlags (e : Nat) : Nat := e % pageSize

/-- `K2P(p) | flags`. -/
def pte (p flags : Nat) : Nat := pageSize * p + flags

/-- `K2P(p) | flags` for a pointer that may be NULL. -/
def pteOf : Option Nat → Nat → Nat
  | some p, flags => pte p flags
  | none, flags => 2 ^ 48 + flags

def pteTable : Nat := 0x3

def pteUserData : Nat := 0x647

inductive Fault
  | null | panic | abort | lock
deriving DecidableEq, Repr

/-- Physical memory, with pages as arrays of 512 words, and what the process table says about it. -/
structure Sys where
  kernel : Kernel
  pgdir : Nat → Slot → Option Nat
  kstack : Nat → Slot → Option Nat
  free : List Nat
  word : Nat → Nat → Nat
  /-- The pages of the arenas from which the file system takes its objects. -/
  arena : List Nat
  /-- Some `kalloc` has found no free page. -/
  short : Bool

abbrev Sys.M (α : Type) : Type := Exec Fault Sys α

def Sys.store (s : Sys) (p i v : Nat) : Sys :=
  { s with word := Function.update s.word p (Function.update (s.word p) i v) }

/-- Page `p` holds `f`: after a `memset` or `memmove`, or after a write of user data. -/
def Sys.fill (s : Sys) (p : Nat) (f : Nat → Nat) : Sys :=
  { s with word := Function.update s.word p f }

def kalloc : Sys.M (Option Nat) := do
  let s ← get
  match s.free with
  | [] => do
    set { s with short := true }
    pure none
  | p :: free => do
    set { s with free }
    pure (some p)

/-- The kernel address of the first free page, or NULL. -/
def nextFree : List Nat → Nat
  | [] => 0
  | p :: _ => 0xffff000000000000 + pageSize * p

/-- A free page begins with the address of the next one. -/
def kfree (p : Nat) : Sys.M Unit :=
  modify fun s => { s.store p 0 (nextFree s.free) with free := p :: s.free }

def pgdirInit : Sys.M (Option Nat) := do
  match ← kalloc with
  | none => pure none
  | some p => do
    modify fun s => s.fill p fun _ => 0
    pure (some p)

/-- The index of the address in a table, `k` levels above the pages. -/
def pteIndex (va k : Nat) : Nat := va / pageSize / 2 ^ (9 * k) % 512

/-- One level of `pgdir_walk`: the table below `table`. -/
def walkStep (va : Nat) (alloc : Bool) (table k : Nat) : Sys.M Nat := do
  let s ← get
  when (¬pteValid (s.word table (pteIndex va k)) ∧ alloc) do
    match ← pgdirInit with
    | some p => modify fun s => s.store table (pteIndex va k) (pte p pteTable)
    | none => pure ()
  let s ← get
  pure (pteFrame (s.word table (pteIndex va k)))

/-- The table and the index of the entry for the address. -/
def pgdirWalk (pgdir va : Nat) (alloc : Bool) : Sys.M (Nat × Nat) := do
  let table ← [3, 2, 1].foldlM (walkStep va alloc) pgdir
  pure (table, pteIndex va 0)

/-- The copy of a table, with `copy` for what its entries lead to. -/
def copyTable (copy : Nat → Sys.M (Option Nat)) (pgdir : Nat) : Sys.M (Option Nat) := do
  let newpgdir ← pgdirInit
  (List.range 512).forM fun i => do
    let s ← get
    when (pteValid (s.word pgdir i)) do
      let page ← copy (pteFrame (s.word pgdir i))
      match newpgdir with
      | none => throw .null
      | some new => modify fun t => t.store new i (pteOf page (pteFlags (s.word pgdir i)))
  pure newpgdir

/-- The copy of a page. -/
def copyPage (page : Nat) : Sys.M (Option Nat) := do
  match ← kalloc with
  | none => throw .null
  | some new => do
    modify fun s => s.fill new (s.word page)
    pure (some new)

/-- `recur_uvm_copy`, for a table `depth` levels above the last. -/
def recurUvmCopy : Nat → Nat → Sys.M (Option Nat)
  | 0 => copyTable copyPage
  | depth + 1 => copyTable (recurUvmCopy depth)

def uvmCopy : Nat → Sys.M (Option Nat) := recurUvmCopy 3

/-- The end of a table, with `free` for what its entries lead to. -/
def freeTable (free : Nat → Sys.M Unit) (pgdir : Nat) : Sys.M Unit := do
  (List.range 512).forM fun i => do
    let s ← get
    when (pteValid (s.word pgdir i)) (free (pteFrame (s.word pgdir i)))
  kfree pgdir

/-- `recur_vm_free`, for a table `depth` levels above the last. -/
def recurVmFree : Nat → Nat → Sys.M Unit
  | 0 => freeTable kfree
  | depth + 1 => freeTable (recurVmFree depth)

def vmFree : Nat → Sys.M Unit := recurVmFree 3

def roundDown (a b : Nat) : Nat := a - a % b

def roundUp (a b : Nat) : Nat := roundDown (a + b - 1) b

/-- The addresses from `a` on, in steps of a page, below `b`. -/
def pagesFrom (a b : Nat) : List Nat :=
  (List.range ((b - a + pageSize - 1) / pageSize)).map fun k => a + k * pageSize

/-- The pages from `pa` on, for the addresses from `va` on. -/
def uvmMap (pgdir va sz pa : Nat) : Sys.M Unit :=
  (pagesFrom (roundDown va pageSize) (va + sz)).forM fun ptr => do
    let (table, i) ← pgdirWalk pgdir ptr true
    let page := pa + (ptr - roundDown va pageSize) / pageSize
    modify fun s => s.store table i (pte page pteUserData)

/-- The value of a `usize` after a conversion to `int` and back. -/
def throughInt (n : Nat) : Nat :=
  if n % 2 ^ 32 < 2 ^ 31 then n % 2 ^ 32 else n % 2 ^ 32 + (2 ^ 64 - 2 ^ 32)

def uvmDealloc (pgdir base oldsz newsz : Nat) : Sys.M Nat := do
  if newsz ≥ oldsz ∨ newsz < base then pure (throughInt oldsz)
  else do
    (pagesFrom (roundUp newsz pageSize) oldsz).forM fun a => do
      let (table, i) ← pgdirWalk pgdir a false
      let s ← get
      when (pteValid (s.word table i)) do
        kfree (pteFrame (s.word table i))
        modify fun s => s.store table i 0
    pure (throughInt newsz)

/-- The loop of `uvm_alloc` over the addresses of the new pages: whether it found all of them. -/
def uvmAllocLoop (pgdir base oldsz : Nat) : List Nat → Sys.M Bool
  | [] => pure true
  | a :: as => do
    match ← kalloc with
    | none => do
      let _ ← uvmDealloc pgdir base ((a + 2 ^ 64 - pageSize) % 2 ^ 64) oldsz
      pure false
    | some page => do
      uvmMap pgdir a pageSize page
      uvmAllocLoop pgdir base oldsz as

def uvmAlloc (pgdir base stksz oldsz newsz : Nat) : Sys.M Nat := do
  require .panic (stksz < uspaceTop ∧ base ≤ oldsz ∧ oldsz ≤ newsz ∧ newsz < uspaceTop - stksz)
  if ← uvmAllocLoop pgdir base oldsz (pagesFrom (roundUp oldsz pageSize) newsz) then
    pure (throughInt newsz)
  else pure 0

/-- The page of the address, which `copyout` takes from the free pages if there is none. -/
def copyoutPage (pgdir va : Nat) : Sys.M (Option Nat) := do
  let (table, i) ← pgdirWalk pgdir va true
  let s ← get
  if pteValid (s.word table i) then pure (some (pteFrame (s.word table i)))
  else do
    match ← kalloc with
    | none => pure none
    | some page => do
      modify fun s => s.store table i (pte page pteUserData)
      pure (some page)

/-- The loop of `copyout`; `data` is what the page of an address holds after the copy, and each
round copies at least one byte, so `fuel` is the length. -/
def copyoutLoop (pgdir : Nat) (data : Nat → Nat → Nat) : Nat → Nat → Nat → Sys.M Bool
  | 0, _, _ => pure true
  | fuel + 1, va, len =>
    if len = 0 then pure true
    else do
      match ← copyoutPage pgdir va with
      | none => pure false
      | some page => do
        modify fun s => s.fill page (data va)
        let n := min (pageSize - va % pageSize) len
        copyoutLoop pgdir data fuel (va + n) (len - n)

def copyout (pgdir va len : Nat) (data : Nat → Nat → Nat) : Sys.M Bool :=
  if uspaceTop < (va + len) % 2 ^ 64 then pure false else copyoutLoop pgdir data len va len

/-- The page to which the processor maps the address. -/
def translate (s : Sys) (pgdir va : Nat) : Option Nat :=
  [3, 2, 1, 0].foldlM (fun table k =>
    if pteValid (s.word table (pteIndex va k)) then some (pteFrame (s.word table (pteIndex va k)))
    else none) pgdir

/-- A write of the kernel to the user addresses from `va` on, under the table `pgdir`. -/
def userWrite (pgdir va len : Nat) (data : Nat → Nat → Nat) : Sys.M Unit :=
  (if len = 0 then [] else pagesFrom (roundDown va pageSize) (va + len)).forM fun a => do
    let s ← get
    match translate s pgdir a with
    | none => throw .abort
    | some page => modify fun s => s.fill page (data a)

end FtosFfs.Core
