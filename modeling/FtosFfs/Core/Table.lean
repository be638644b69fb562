import FtosFfs.Lib.Machine
import Mathlib.Algebra.GroupWithZero.Nat
import Mathlib.Data.Fintype.Basic
import Mathlib.Logic.Function.Basic

/-! Processes: the process tables of a tree of containers, the allocation of slots and of process
ids, and what the locked regions of fork, exit and wait do to a table. -/

namespace FtosFfs.Core

open Lib

def nproc : Nat := 14

def npid : Nat := 64

instance : NeZero nproc := ⟨by decide⟩

inductive ProcState
  | unused | embryo | sleeping | runnable | running | zombie
deriving DecidableEq, Repr

/-- A slot of a process table. A `struct proc *` is a slot of its container's table. -/
abbrev Slot : Type := Fin nproc

/-- What a process sleeps on: a process, or an address that is none. -/
inductive Chan
  | proc (i : Slot)
  | other (a : Nat)
deriving DecidableEq, Repr

/-- Where a process stands: in `fork` after `alloc_pcb` gave it a slot, in `wait` after a scan that
found children but no zombie, or anywhere else. -/
inductive Pc
  | user
  | forking (child : Slot)
  | waiting
deriving DecidableEq, Repr

structure Proc where
  state : ProcState
  pid : Nat
  parent : Option Slot
  chan : Option Chan
  pc : Pc
deriving DecidableEq, Repr

structure PidMapping where
  valid : Bool
  pidLocal : Nat
  p : Option (Nat × Slot)

/-- A container and its scheduler. The entries of `pmap` from `npid` on stand for the memory behind
the array. -/
structure Container where
  locked : Bool
  pid : Nat
  pmap : Nat → PidMapping
  ptable : Slot → Proc

/-- The containers by number. -/
abbrev Kernel : Type := Nat → Container

/-- Containers are numbered as they are spawned: the root is 0, and every other container comes
after its parent. -/
structure Tree where
  parent : Nat → Nat
  parent_lt : ∀ c, c ≠ 0 → parent c < c

/-- `alloc_resource` for a process id, up to `fuel` containers: the kernel after it and the entries
of the `pmap`s it wrote, or `none` when it waits for a lock that is held. -/
def allocResource (T : Tree) (p : Nat × Slot) : Nat → Nat → Kernel →
    Option (Kernel × List (Nat × Nat))
  | 0, _, _ => none
  | fuel + 1, this, k =>
    if (k this).locked then none
    else if (k this).pid = npid then
      -- the early return keeps the lock
      some (Function.update k this { k this with locked := true }, [])
    else
      let pid := (k this).pid + 1
      let c : Container :=
        { k this with pid, pmap := Function.update (k this).pmap pid ⟨true, pid, some p⟩ }
      let k := Function.update k this c
      if this = 0 then some (k, [(this, pid)])
      else (allocResource T p fuel (T.parent this) k).map fun r => (r.1, (this, pid) :: r.2)

def Container.setProc (c : Container) (i : Slot) (p : Proc) : Container :=
  { c with ptable := Function.update c.ptable i p }

def Kernel.setProc (k : Kernel) (c : Nat) (i : Slot) (p : Proc) : Kernel :=
  Function.update k c ((k c).setProc i p)

/-- The first slot that is not in use. -/
def Container.freeSlot (c : Container) : Option Slot :=
  (List.finRange nproc).find? fun i => (c.ptable i).state = .unused

/-- The result of `alloc_pcb`: the slot or NULL, the kernel after it, and the entries of the `pmap`s
that were written. -/
structure Alloc where
  slot : Option Slot
  kernel : Kernel
  writes : List (Nat × Nat)

/-- `alloc_pcb` in container `c`, or `none` when it does not return. -/
def allocPcb (T : Tree) (k : Kernel) (c : Nat) : Option Alloc :=
  match (k c).freeSlot with
  | none => some ⟨none, k, []⟩
  | some i => (allocResource T (c, i) (c + 1) c k).map fun r =>
    ⟨some i, r.1.setProc c i { (r.1 c).ptable i with pid := (r.1 c).pid, state := .embryo }, r.2⟩

/-- `alloc_proc`: it panics when no slot is free, and the new process starts outside `fork` and
`wait`. -/
def allocProc (T : Tree) (k : Kernel) (c : Nat) : Option (Slot × Kernel) :=
  match allocPcb T k c with
  | some ⟨some i, k, _⟩ => some (i, k.setProc c i { (k c).ptable i with pc := .user })
  | _ => none

/-- `wakeup` and `wakeup_withlock`. -/
def Container.wakeup (c : Container) (chan : Option Chan) : Container :=
  { c with
    ptable := fun i =>
      if (c.ptable i).state = .sleeping ∧ (c.ptable i).chan = chan then
        { c.ptable i with state := .runnable }
      else c.ptable i }

/-- The locked region of `exit` in the process of slot `i`. -/
def Container.exit (c : Container) (i : Slot) : Container :=
  let c := c.wakeup ((c.ptable i).parent.map .proc)
  let c := (List.finRange nproc).foldl (fun (c : Container) k =>
    if (c.ptable k).parent = some i ∧ (c.ptable k).state = .zombie then c.wakeup (some (.proc i))
    else c) c
  c.setProc i { c.ptable i with state := .zombie }

/-- What one pass of `wait` over the table finds. -/
inductive Scan
  | zombie (k : Slot)
  | noKids
  | kids
deriving DecidableEq, Repr

/-- One pass of `wait` over the table, in the process of slot `i`. -/
def Container.scan (c : Container) (i : Slot) : Scan :=
  match (List.finRange nproc).find? fun k =>
      (c.ptable k).parent = some i ∧ (c.ptable k).state = .zombie with
  | some k => .zombie k
  | none => if ∃ k, (c.ptable k).parent = some i then .kids else .noKids

/-- One pass of `wait` in the process of slot `i`, up to its return or to the sleep. -/
def Container.wait (c : Container) (i : Slot) : Container :=
  match c.scan i with
  | .zombie k =>
    let c := c.setProc k { c.ptable k with state := .unused, pid := 0, parent := none }
    c.setProc i { c.ptable i with pc := .user }
  | .noKids => c.setProc i { c.ptable i with pc := .user }
  | .kids =>
    c.setProc i { c.ptable i with pc := .waiting, state := .sleeping, chan := some (.proc i) }

inductive Label
  /-- The kernel makes a process itself, as `spawn_init_process` and `idle_init` do. -/
  | create (c : Nat)
  /-- The process of slot `i` calls `fork`, up to the new slot. -/
  | fork (c : Nat) (i : Slot)
  /-- `fork` goes on to its end; `mem` says whether `uvm_copy` finds its pages. -/
  | forked (c : Nat) (i : Slot) (mem : Bool)
  | exit (c : Nat) (i : Slot)
  | wait (c : Nat) (i : Slot)
  /-- The scheduler switches to the process of slot `i`. -/
  | run (c : Nat) (i : Slot)
  | yield (c : Nat) (i : Slot)
  /-- The process of slot `i` sleeps outside `wait`. -/
  | sleep (c : Nat) (i : Slot) (a : Nat)
  | wakeup (c : Nat) (a : Nat)

/-- Container `c` after a change of its own. -/
def Kernel.onCont (k : Kernel) (c : Nat) (f : Container → Container) : Kernel :=
  Function.update k c (f (k c))

/-- The end of `fork` in the process of slot `i`, with the child in slot `j`. -/
def Container.forked (c : Container) (i j : Slot) (mem : Bool) : Container :=
  let c := c.setProc j (if mem then { c.ptable j with parent := some i, state := .runnable }
    else { c.ptable j with state := .unused })
  c.setProc i { c.ptable i with pc := .user }

/-- The processes of the tree `T` of containers, from a boot with no process. -/
def kernel (T : Tree) : Machine Kernel Label where
  init k := ∀ c, (k c).locked = false ∧ (k c).pid = 0 ∧
    ∀ i, (k c).ptable i = ⟨.unused, 0, none, none, .user⟩
  next k
    | .create c => (allocProc T k c).map fun (i, k) =>
        k.setProc c i { (k c).ptable i with state := .runnable }
    | .fork c i =>
      if ((k c).ptable i).state = .running ∧ ((k c).ptable i).pc = .user then
        (allocProc T k c).map fun (j, k) =>
          k.setProc c i { (k c).ptable i with pc := .forking j }
      else none
    | .forked c i mem =>
      match ((k c).ptable i).pc with
      | .forking j =>
        if ((k c).ptable i).state = .running then some (k.onCont c (·.forked i j mem)) else none
      | _ => none
    | .exit c i =>
      if ((k c).ptable i).state = .running ∧ ((k c).ptable i).pc = .user then
        some (k.onCont c (·.exit i))
      else none
    | .wait c i =>
      if ((k c).ptable i).state = .running ∧
          (((k c).ptable i).pc = .user ∨ ((k c).ptable i).pc = .waiting) then
        some (k.onCont c (·.wait i))
      else none
    | .run c i =>
      if ((k c).ptable i).state = .runnable then
        some (k.setProc c i { (k c).ptable i with state := .running, chan := none })
      else none
    | .yield c i =>
      if ((k c).ptable i).state = .running then
        some (k.setProc c i { (k c).ptable i with state := .runnable })
      else none
    | .sleep c i a =>
      if ((k c).ptable i).state = .running ∧ ((k c).ptable i).pc = .user then
        some (k.setProc c i { (k c).ptable i with state := .sleeping, chan := some (.other a) })
      else none
    | .wakeup c a => some (k.onCont c (·.wakeup (some (.other a))))

end FtosFfs.Core
