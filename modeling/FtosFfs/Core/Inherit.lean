import FtosFfs.Core.Pointers
import FtosFfs.Fs.Calls

/-! What a child inherits in `fork` of `core/proc.c`: the fields that `fork` copies to the slot, and what
the slot still holds of the process that had it before. -/

namespace FtosFfs.Core

open Lib Lib.Exec

/-- `Trapframe` without its padding. -/
structure Trapframe where
  spsr : UInt64
  elr : UInt64
  sp : UInt64
  tpidr : UInt64
  x : Fin 31 → UInt64
  q0 : Fin 2 → UInt64

def Trapframe.zero : Trapframe := ⟨0, 0, 0, 0, fun _ => 0, fun _ => 0⟩

/-- The fields of a `struct proc` that `alloc_proc` and `fork` write, and those that the checks of user
pointers read. -/
structure Task where
  space : UserSpace
  pgdir : Option Nat
  kstack : Option Nat
  state : ProcState
  pid : Nat
  parent : Option Slot
  tf : Trapframe
  files : Fs.Proc

namespace Task

/-- `alloc_proc` in a slot, after `alloc_pcb`: the rest of the slot stays. -/
def allocProc (slot : Task) (pid kstack : Nat) (pgdir : Option Nat) : Task :=
  { slot with pid, state := .embryo, pgdir, kstack := some kstack, tf := Trapframe.zero }

/-- The descriptors and the directory after the loop of `fork` and `inodes.share`. -/
def inherit (slot parent : Fs.Proc) : Fs.Proc where
  ofile fd := if fd < Fs.nofile then (parent.ofile fd).or (slot.ofile fd) else slot.ofile fd
  cwd := parent.cwd

theorem ofile_inherit {slot parent : Fs.Proc} {fd : Nat} (hfd : fd < Fs.nofile) :
    (inherit slot parent).ofile fd = (parent.ofile fd).or (slot.ofile fd) := if_pos hfd

/-- `fork` of process `parent`, which is in slot `self`: its result, and the child's slot after it.
`pgdir` is the table of `pgdir_init`, and `copy` what `uvm_copy` returns. -/
def fork (slot parent : Task) (self : Slot) (pid kstack : Nat) (pgdir copy : Option Nat) : Int × Task :=
  let p := slot.allocProc pid kstack pgdir
  match copy with
  | none => (-1, { p with pgdir := none, kstack := none, state := .unused })
  | some copy => (pid, { p with
      pgdir := some copy
      space := { p.space with sz := parent.space.sz }
      tf := { parent.tf with x := Function.update parent.tf.x 0 0 }
      parent := some self
      files := inherit p.files parent.files
      state := .runnable })

end Task

variable {s s' t : Fs.State} {i child fd : Nat} {u : PUnit}

/-! ### The files -/

/-- The processes in the loop of `fork` before the rounds for the descriptors in `l`. -/
structure Copying (s t : Fs.State) (i child : Nat) (l : List Nat) : Prop where
  ofile : ∀ fd, (t.proc child).ofile fd = if fd < Fs.nofile ∧ fd ∉ l then
    ((s.proc i).ofile fd).or ((s.proc child).ofile fd) else (s.proc child).ofile fd
  others : ∀ j, j ≠ child → t.proc j = s.proc j

theorem Copying.forkFile {l : List Nat} (h : Copying s t i child (fd :: l)) (hne : i ≠ child)
    (hl : fd ∉ l) (hfd : fd < Fs.nofile) (hr : Runs (Fs.forkFile i child fd) t u s') :
    Copying s s' i child l := by
  have hparent : (t.proc i).ofile fd = (s.proc i).ofile fd := by rw [h.others i hne]
  have hslot : (t.proc child).ofile fd = (s.proc child).ofile fd := by
    rw [h.ofile fd, if_neg fun hnot => hnot.2 List.mem_cons_self]
  have hrest (k : Nat) (hk : k ≠ fd) : k < Fs.nofile ∧ k ∉ fd :: l ↔ k < Fs.nofile ∧ k ∉ l := by
    simp [hk]
  obtain ⟨_, _, hget, hr⟩ := runs_bind.mp hr
  obtain ⟨rfl, rfl⟩ := runs_get.mp hget
  split at hr
  case h_1 hnone =>
    obtain ⟨-, rfl⟩ := runs_pure.mp hr
    refine ⟨fun k => ?_, h.others⟩
    by_cases hk : k = fd
    · subst hk
      rw [hslot, if_pos ⟨hfd, hl⟩, ← hparent, hnone, Option.none_or]
    · rw [h.ofile k]
      exact if_congr (hrest k hk) rfl rfl
  case h_2 f hsome =>
    obtain ⟨_, t₁, hdup, hr⟩ := runs_bind.mp hr
    obtain rfl := Fs.filedup_spec hdup
    obtain rfl := Fs.runs_modifyProc.mp hr
    refine ⟨fun k => ?_, fun j hj => ?_⟩
    · simp only [Function.update_self]
      by_cases hk : k = fd
      · subst hk
        rw [Function.update_self, if_pos ⟨hfd, hl⟩, ← hparent, hsome, Option.some_or]
      · rw [Function.update_of_ne hk, h.ofile k]
        exact if_congr (hrest k hk) rfl rfl
    · simp only [Function.update_of_ne hj]
      exact h.others j hj

/-- The file system's `fork` leaves what the child inherits in its slot. -/
theorem inherit_sysFork {r : Int} (hne : i ≠ child) (hr : Runs (Fs.sysFork i child) s r s') :
    s'.proc child = Task.inherit (s.proc child) (s.proc i) := by
  obtain ⟨_, _, hget, hr⟩ := runs_bind.mp hr
  obtain ⟨rfl, rfl⟩ := runs_get.mp hget
  obtain ⟨_, _, hassert, hr⟩ := runs_bind.mp hr
  obtain ⟨-, rfl⟩ := runs_require.mp hassert
  obtain ⟨_, t, hloop, hr⟩ := runs_bind.mp hr
  have hstart : Copying s s i child (List.range Fs.nofile) := by
    refine ⟨fun k => ?_, fun _ _ => rfl⟩
    rw [if_neg fun h => h.2 (List.mem_range.mpr h.1)]
  obtain ⟨-, -, hcopied⟩ := hloop.forM (I := fun l t => l.Nodup ∧ (∀ k ∈ l, k < Fs.nofile) ∧
    Copying s t i child l) ⟨List.nodup_range, fun k => List.mem_range.mp, hstart⟩
    fun fd l t t' ⟨hnodup, hlt, ht⟩ hround => by
      obtain ⟨hfd, hnodup⟩ := List.nodup_cons.mp hnodup
      exact ⟨hnodup, fun k hk => hlt k (List.mem_cons_of_mem _ hk),
        ht.forkFile hne hfd (hlt fd List.mem_cons_self) hround⟩
  obtain ⟨cwd, _, hget', hr⟩ := runs_bind.mp hr
  obtain ⟨hcwd, rfl⟩ := Fs.runs_getCwd.mp hget'
  obtain ⟨p, t₁, hshare, hr⟩ := runs_bind.mp hr
  simp only [Fs.inodeShare, Fs.incrementRc, runs_bind, Fs.runs_modifyInode, runs_pure] at hshare
  obtain ⟨_, _, rfl, rfl, rfl⟩ := hshare
  obtain ⟨_, t₂, hproc, hr⟩ := runs_bind.mp hr
  obtain ⟨-, rfl⟩ := runs_pure.mp hr
  obtain rfl := Fs.runs_modifyProc.mp hproc
  have hcwd' : some cwd = (s.proc i).cwd := by rw [← hcopied.others i hne, hcwd]
  have hofile : (t.proc child).ofile = (Task.inherit (s.proc child) (s.proc i)).ofile := by
    funext k
    rw [hcopied.ofile k]
    exact if_congr (and_iff_left List.not_mem_nil) rfl rfl
  simp only [Function.update_self]
  rw [Task.inherit, hcwd']
  exact congrArg (Fs.Proc.mk · _) hofile

/-- A free slot has no open files, so the child's descriptors and directory are those of the parent. -/
theorem files_sysFork {r : Int} (h : Fs.Accounted s) (hne : i ≠ child)
    (hr : Runs (Fs.sysFork i child) s r s') :
    (s'.proc child).cwd = (s.proc i).cwd ∧
      ∀ fd < Fs.nofile, (s'.proc child).ofile fd = (s.proc i).ofile fd := by
  have hfree : (s.proc child).cwd = none := by
    obtain ⟨_, _, hget, hr⟩ := runs_bind.mp hr
    obtain ⟨rfl, rfl⟩ := runs_get.mp hget
    obtain ⟨_, _, hassert, -⟩ := runs_bind.mp hr
    exact (runs_require.mp hassert).1
  rw [inherit_sysFork hne hr]
  refine ⟨rfl, fun fd hfd => ?_⟩
  rw [Task.ofile_inherit hfd, h.procs.idle child hfree fd, Option.or_none]

/-! ### The checks of user pointers -/

/-- The checks of user pointers come out for the child as they do for its parent, and it has the
descriptors and the directory of its parent. -/
structure SameView (child parent : Task) : Prop where
  space : child.space.sz = parent.space.sz ∧ child.space.base = parent.space.base ∧
    child.space.stksz = parent.space.stksz
  inUser : ∀ a n, InUser child.space a n ↔ InUser parent.space a n
  fetchstr : ∀ mem addr, fetchstr child.space mem addr = fetchstr parent.space mem addr
  ofile : ∀ fd < Fs.nofile, child.files.ofile fd = parent.files.ofile fd
  cwd : child.files.cwd = parent.files.cwd

theorem userSpace_ext {p q : UserSpace} (hsz : p.sz = q.sz) (hbase : p.base = q.base)
    (hstksz : p.stksz = q.stksz) : p = q := by
  cases p
  cases q
  cases hsz
  cases hbase
  cases hstksz
  rfl

/-- What `fork` puts in the child's slot when `uvm_copy` succeeds. -/
theorem fork_sameView_iff (slot parent : Task) (self : Slot) (pid kstack copy : Nat)
    (pgdir : Option Nat) :
    SameView (slot.fork parent self pid kstack pgdir (some copy)).2 parent ↔
      slot.space.base = parent.space.base ∧ slot.space.stksz = parent.space.stksz ∧
        ∀ fd < Fs.nofile, parent.files.ofile fd = none → slot.files.ofile fd = none := by
  have hofile (fd : Nat) (hfd : fd < Fs.nofile) :
      (slot.fork parent self pid kstack pgdir (some copy)).2.files.ofile fd =
        (parent.files.ofile fd).or (slot.files.ofile fd) := Task.ofile_inherit hfd
  constructor
  · intro h
    refine ⟨h.space.2.1, h.space.2.2, fun fd hfd hnone => ?_⟩
    have hsame := h.ofile fd hfd
    rwa [hofile fd hfd, hnone, Option.none_or] at hsame
  · rintro ⟨hbase, hstksz, hfree⟩
    have hspace : (slot.fork parent self pid kstack pgdir (some copy)).2.space = parent.space :=
      userSpace_ext rfl hbase hstksz
    refine ⟨⟨rfl, hbase, hstksz⟩, fun a n => ?_, fun mem addr => ?_, fun fd hfd => ?_, rfl⟩
    · rw [hspace]
    · rw [hspace]
    · rw [hofile fd hfd]
      cases hparent : parent.files.ofile fd with
      | none => rw [Option.none_or, hfree fd hfd hparent]
      | some f => rfl

/-- A slot that no process had before. -/
def unusedSlot : Task where
  space := ⟨0, 0, 0, by decide⟩
  pgdir := none
  kstack := none
  state := .unused
  pid := 0
  parent := none
  tf := Trapframe.zero
  files := ⟨fun _ => none, none⟩

/-- A process after `execve`, with a program of two pages and the least stack. -/
def shell : Task where
  space := ⟨0x400000, 0x402000, 0xa000, by decide⟩
  pgdir := some 1
  kstack := some 2
  state := .running
  pid := 1
  parent := none
  tf := Trapframe.zero
  files := ⟨fun fd => if fd < 3 then some 0 else none, some 0⟩

/-- The child of the shell in a new slot: it cannot pass a pointer to its stack. -/
theorem fork_loses_stack :
    let child := (unusedSlot.fork shell 0 2 3 (some 4) (some 5)).2
    InUser shell.space (uspaceTop64 - 16) 16 ∧ ¬InUser child.space (uspaceTop64 - 16) 16 ∧
      ¬SameView child shell := by
  have hshell : InUser shell.space (uspaceTop64 - 16) 16 := by decide
  have hchild : ¬InUser (unusedSlot.fork shell 0 2 3 (some 4) (some 5)).2.space (uspaceTop64 - 16) 16 := by
    decide
  exact ⟨hshell, hchild, fun h => hchild ((h.inUser _ _).mpr hshell)⟩

end FtosFfs.Core
