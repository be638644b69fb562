import FtosFfs.Fs.Load
import FtosFfs.Lib.Machine

/-! Open files, `fs/file.c`, the system calls on files, `core/sysfile.c`, the file system's part of
`fork` and `exit`, `core/proc.c`, and of `execve`, `core/exec.c`, and the machine of the system
calls. -/

namespace FtosFfs.Fs

open Lib Cache

def nfile : Nat := 100
def nofile : Nat := 8

def oWronly : Nat := 1
def oRdwr : Nat := 2
def oCreat : Nat := 64

/-! ### Open files -/

def modifyFile (f : Nat) (g : File → File) : M Unit :=
  modify fun s => { s with file := Function.update s.file f (g (s.file f)) }

def modifyProc (i : Nat) (g : Proc → Proc) : M Unit :=
  modify fun s => { s with proc := Function.update s.proc i (g (s.proc i)) }

def filealloc : M (Option Nat) := do
  let s ← get
  match (List.range nfile).find? fun f => (s.file f).ref = 0 with
  | some f =>
    modifyFile f fun file => { file with ref := 1 }
    pure (some f)
  | none => pure none

def filedup (f : Nat) : M Nat := do
  let s ← get
  assert (¬(s.file f).ref < 1)
  modifyFile f fun file => { file with ref := file.ref + 1 }
  pure f

/-- `bcache.begin_op`, `x`, `bcache.end_op`. -/
def inOp {α : Type} (x : M α) : M α := do
  cacheBeginOp
  let a ← x
  cacheEndOp
  pure a

def fileclose (sb : SuperBlock) (f : Nat) : M Unit := do
  let ff := (← get).file f
  assert (¬ff.ref < 1)
  if ff.ref - 1 > 0 then modifyFile f fun file => { file with ref := file.ref - 1 }
  else
    modifyFile f fun file => { file with ref := 0, type := .none }
    Exec.when (ff.type = .inode) (inOp (inodePut sb true ff.ip))

/-- The bytes that `filewrite` writes in one operation. -/
def filewriteMax : Nat := (inodeMaxBlocks - 1 - 1 - 2) / 2 * 512

/-- The loop of `filewrite` from byte `i` of `addr` on.  `inode_write` returns the count that it is
given, so the tests of its result do nothing. -/
def filewriteLoop (sb : SuperBlock) (f : Nat) (addr : Nat → UInt8) (n : Nat) : Nat → Nat → M Unit
  | 0, _ => pure ()
  | fuel + 1, i =>
    if i < n then do
      let n1 := min (n - i) filewriteMax
      let r ← inOp do
        let file := (← get).file f
        inodeLock sb file.ip
        let r ← inodeWrite sb true file.ip (fun k => addr (i + k)) file.off n1
        modifyFile f fun file => { file with off := file.off + r }
        inodeUnlock file.ip
        pure r
      assert (r = n1)
      filewriteLoop sb f addr n fuel (i + r)
    else pure ()

/-- `filewrite` of `n ≥ 0` bytes. -/
def filewrite (sb : SuperBlock) (f : Nat) (addr : Nat → UInt8) (n : Nat) : M Int := do
  let file := (← get).file f
  if file.writable then
    assert (file.type = .inode)
    filewriteLoop sb f addr n n 0
    pure n
  else pure (-1)

/-- `fileread` of `n` bytes, with what comes from the console; `memory` is what the destination held
before. -/
def fileread (sb : SuperBlock) (f : Nat) (input : List UInt8) (memory : Nat → UInt8) (n : Nat) :
    M (Int × (Nat → UInt8)) := do
  let file := (← get).file f
  if file.readable then
    assert (file.type = .inode)
    inodeLock sb file.ip
    let (r, dest) ← inodeReadFrom sb file.ip input memory file.off n
    modifyFile f fun file => { file with off := ((file.off + r) % 2 ^ 64).toNat }
    inodeUnlock file.ip
    pure (r, dest)
  else pure (-1, memory)

/-- The fields of `struct stat` that `stati` sets. -/
structure Stat where
  dev : Nat
  ino : Nat
  mode : Nat
  nlink : UInt16
  size : UInt32

def sIfreg : Nat := 0o100000
def sIfdir : Nat := 0o040000

/-- `stati`. -/
def stati (p : Ptr) : M Stat := do
  let ip := (← get).mem p
  let stat (mode : Nat) : Stat := ⟨1, ip.inodeNo, mode, ip.entry.numLinks, ip.entry.numBytes⟩
  if ip.entry.type = inodeRegular then pure (stat sIfreg)
  else if ip.entry.type = inodeDirectory then pure (stat sIfdir)
  else if ip.entry.type = inodeDevice then pure (stat 0)
  else throw .panic

/-! ### System calls -/

/-- The string that `argstr` finds: the bytes before the first `'\0'`. -/
def argstr (bytes : List UInt8) : List UInt8 := bytes.takeWhile (· ≠ 0)

/-- The current directory of process `i`, which every running process has. -/
def getCwd (i : Nat) : M Ptr := do
  match ((← get).proc i).cwd with
  | some p => pure p
  | none => throw .panic

/-- `argfd`. -/
def argfd (i fd : Nat) : M (Option Nat) := do
  let s ← get
  pure (if fd < nofile then (s.proc i).ofile fd else none)

def fdalloc (i f : Nat) : M (Option Nat) := do
  let s ← get
  match (List.range nofile).find? fun fd => (s.proc i).ofile fd = none with
  | some fd =>
    modifyProc i fun pr => { pr with ofile := Function.update pr.ofile fd (some f) }
    pure (some fd)
  | none => pure none

/-- The end of `create` and of `sys_unlink` for a directory entry's owner. -/
def unlockPut (sb : SuperBlock) (p : Ptr) : M Unit := do
  inodeUnlock p
  inodePut sb true p

/-- The inode number that `create` allocates, near the directory `dp` if possible. -/
def createNo (sb : SuperBlock) (dp : Ptr) (type : UInt16) : M Nat := do
  let ino ← inodeAllocGroup sb true type (inodeGroup ((← get).mem dp).inodeNo)
  if ino = 0 then inodeAlloc sb true type else pure ino

/-- The inode that `create` allocates, with `num_links` 1, referenced and locked. -/
def createInode (sb : SuperBlock) (dp : Ptr) (type major minor : UInt16) : M Ptr := do
  let ino ← createNo sb dp type
  assert (ino ≠ 0)
  let ip ← inodeGet sb ino
  inodeLock sb ip
  modifyEntry ip fun e => { e with major, minor, numLinks := 1 }
  inodeSync sb true ip true
  pure ip

/-- The entries `.` and `..` of a directory that `create` makes.  The new link count of the parent
is not written to disk. -/
def createDots (sb : SuperBlock) (dp ip : Ptr) : M Unit := do
  modifyEntry dp fun e => { e with numLinks := e.numLinks + 1 }
  inodeSync sb true dp false
  let _ ← inodeInsert sb true ip [dot] ((← get).mem ip).inodeNo
  let _ ← inodeInsert sb true ip [dot, dot] ((← get).mem dp).inodeNo

def create (sb : SuperBlock) (cwd : Ptr) (path : List UInt8) (type major minor : UInt16) :
    M (Option Ptr) := do
  match ← nameiparent sb cwd path with
  | none => pure none
  | some (dp, name) =>
    inodeLock sb dp
    match ← inodeLookup sb dp name with
    | some (ino, _) =>
      let ip ← inodeGet sb ino
      unlockPut sb dp
      inodeLock sb ip
      if type = inodeRegular ∧ ((← get).mem ip).entry.type = inodeRegular then pure (some ip)
      else
        unlockPut sb ip
        pure none
    | none =>
      let ip ← createInode sb dp type major minor
      Exec.when (type = inodeDirectory) (createDots sb dp ip)
      let _ ← inodeInsert sb true dp name ((← get).mem ip).inodeNo
      unlockPut sb dp
      pure (some ip)

/-- The part of `sys_unlink` that removes entry `off` of `dp`, which names `ip`. -/
def unlinkEntry (sb : SuperBlock) (dp ip : Ptr) (off : Nat) : M Unit := do
  let _ ← inodeWrite sb true dp DirEntry.zero.byte (off * 16) 16
  Exec.when (((← get).mem ip).entry.type = inodeDirectory) do
    modifyEntry dp fun e => { e with numLinks := e.numLinks - 1 }
    inodeSync sb true dp true
  unlockPut sb dp
  modifyEntry ip fun e => { e with numLinks := e.numLinks - 1 }
  inodeSync sb true ip true
  unlockPut sb ip

/-- Whether `sys_unlink` refuses to remove the locked inode `ip`: a directory with entries. -/
def unlinkRefused (sb : SuperBlock) (ip : Ptr) : M Bool := do
  if ((← get).mem ip).entry.type = inodeDirectory then
    let empty ← inodeEmpty sb ip
    pure !empty
  else pure false

/-- `sys_unlink` inside its operation. -/
def unlink (sb : SuperBlock) (cwd : Ptr) (path : List UInt8) : M Int := do
  match ← nameiparent sb cwd path with
  | none => pure (-1)
  | some (dp, name) =>
    inodeLock sb dp
    if name = [dot] ∨ name = [dot, dot] then
      unlockPut sb dp
      pure (-1)
    else
      let found ← inodeLookup sb dp name
      let ip ← inodeGet sb (found.elim 0 (·.1))
      inodeLock sb ip
      assert (¬((← get).mem ip).entry.numLinks < 1)
      let refused ← unlinkRefused sb ip
      if refused then
        unlockPut sb ip
        unlockPut sb dp
        pure (-1)
      else
        unlinkEntry sb dp ip (found.elim 0 (·.2))
        pure 0

def sysUnlink (sb : SuperBlock) (i : Nat) (path : List UInt8) : M Int := do
  let cwd ← getCwd i
  inOp (unlink sb cwd (argstr path))

/-- `sys_openat` up to the inode, referenced and locked. -/
def openInode (sb : SuperBlock) (cwd : Ptr) (path : List UInt8) (omode : Nat) :
    M (Option Ptr) := do
  if omode &&& oCreat ≠ 0 then create sb cwd path inodeRegular 0 0
  else
    match ← namei sb cwd path with
    | none => pure none
    | some ip =>
      inodeLock sb ip
      pure (some ip)

/-- `filealloc` and `fdalloc` in `sys_openat`: the file and its descriptor. -/
def openFile (sb : SuperBlock) (i : Nat) : M (Option (Nat × Nat)) := do
  match ← filealloc with
  | none => pure none
  | some f =>
    match ← fdalloc i f with
    | some fd => pure (some (f, fd))
    | none =>
      fileclose sb f
      pure none

/-- `sys_openat` inside its operation: the inode, the file, and its descriptor. -/
def openAt (sb : SuperBlock) (i : Nat) (cwd : Ptr) (path : List UInt8) (omode : Nat) :
    M (Option (Ptr × Nat × Nat)) := do
  match ← openInode sb cwd path omode with
  | none => pure none
  | some ip =>
    match ← openFile sb i with
    | none =>
      unlockPut sb ip
      pure none
    | some (f, fd) =>
      inodeUnlock ip
      pure (some (ip, f, fd))

/-- `sys_openat` with `AT_FDCWD`. -/
def sysOpenat (sb : SuperBlock) (i : Nat) (path : List UInt8) (omode : Nat) : M Int := do
  let cwd ← getCwd i
  match ← inOp (openAt sb i cwd (argstr path) omode) with
  | none => pure (-1)
  | some (ip, f, fd) =>
    modifyFile f fun file => { file with
      type := .inode
      ip
      off := 0
      readable := omode &&& oWronly = 0
      writable := omode &&& oWronly ≠ 0 ∨ omode &&& oRdwr ≠ 0 }
    pure fd

/-- `sys_mkdirat` and `sys_mknodat` inside their operation. -/
def makeAt (sb : SuperBlock) (cwd : Ptr) (path : List UInt8) (type major minor : UInt16) :
    M Int := do
  match ← create sb cwd path type major minor with
  | none => pure (-1)
  | some ip =>
    unlockPut sb ip
    pure 0

/-- `sys_mkdirat` with `AT_FDCWD`. -/
def sysMkdirat (sb : SuperBlock) (i : Nat) (path : List UInt8) (mode : Int) : M Int := do
  if mode ≠ 0 then pure (-1)
  else
    let cwd ← getCwd i
    inOp (makeAt sb cwd (argstr path) inodeDirectory 0 0)

/-- `sys_mknodat` with `AT_FDCWD`. -/
def sysMknodat (sb : SuperBlock) (i : Nat) (path : List UInt8) (major minor : UInt16) :
    M Int := do
  let cwd ← getCwd i
  inOp (makeAt sb cwd (argstr path) inodeDevice major minor)

/-- `sys_chdir` inside its operation: the new current directory. -/
def chdir (sb : SuperBlock) (cwd : Ptr) (path : List UInt8) : M (Option Ptr) := do
  match ← namei sb cwd path with
  | none => pure none
  | some ip =>
    inodeLock sb ip
    if ((← get).mem ip).entry.type ≠ inodeDirectory then
      unlockPut sb ip
      pure none
    else
      inodeUnlock ip
      inodePut sb true cwd
      pure (some ip)

def sysChdir (sb : SuperBlock) (i : Nat) (path : List UInt8) : M Int := do
  let cwd ← getCwd i
  match ← inOp (chdir sb cwd (argstr path)) with
  | none => pure (-1)
  | some ip =>
    modifyProc i fun pr => { pr with cwd := some ip }
    pure 0

def sysWrite (sb : SuperBlock) (i fd : Nat) (addr : Nat → UInt8) (n : Nat) : M Int := do
  match ← argfd i fd with
  | none => pure (-1)
  | some f => filewrite sb f addr n

def sysRead (sb : SuperBlock) (i fd : Nat) (input : List UInt8) (memory : Nat → UInt8) (n : Nat) :
    M Int := do
  match ← argfd i fd with
  | none => pure (-1)
  | some f =>
    let (r, _) ← fileread sb f input memory n
    pure r

/-- `sys_fstatat` inside its operation. -/
def fstatat (sb : SuperBlock) (cwd : Ptr) (path : List UInt8) : M (Option Stat) := do
  match ← namei sb cwd path with
  | none => pure none
  | some ip =>
    inodeLock sb ip
    let stat ← stati ip
    unlockPut sb ip
    pure (some stat)

/-- `sys_fstatat` with `AT_FDCWD`. -/
def sysFstatat (sb : SuperBlock) (i : Nat) (path : List UInt8) (flags : Int) : M Int := do
  if flags ≠ 0 then pure (-1)
  else
    let cwd ← getCwd i
    match ← inOp (fstatat sb cwd (argstr path)) with
    | none => pure (-1)
    | some _ => pure 0

/-- `execve` inside its operation: whether the program was loaded. -/
def execProgram (sb : SuperBlock) (env : ExecEnv) (cwd : Ptr) (path : List UInt8) : M Bool := do
  match ← namei sb cwd path with
  | none => pure false
  | some ip =>
    inodeLock sb ip
    let loaded ← execRead sb env ip
    unlockPut sb ip
    pure loaded

/-- `execve`, as far as files are concerned. -/
def sysExecve (sb : SuperBlock) (i : Nat) (path : List UInt8) (env : ExecEnv) : M Int := do
  if env.pgdir then
    let cwd ← getCwd i
    let loaded ← inOp (execProgram sb env cwd (argstr path))
    pure (if loaded ∧ env.stack then 0 else -1)
  else pure (-1)

def sysClose (sb : SuperBlock) (i fd : Nat) : M Int := do
  match ← argfd i fd with
  | none => pure (-1)
  | some f =>
    modifyProc i fun pr => { pr with ofile := Function.update pr.ofile fd none }
    fileclose sb f
    pure 0

def sysDup (i fd : Nat) : M Int := do
  match ← argfd i fd with
  | none => pure (-1)
  | some f =>
    match ← fdalloc i f with
    | none => pure (-1)
    | some fd =>
      let _ ← filedup f
      pure fd

/-- The round of `exit` for descriptor `fd`. -/
def exitFile (sb : SuperBlock) (i fd : Nat) : M Unit := do
  match ((← get).proc i).ofile fd with
  | none => pure ()
  | some f =>
    fileclose sb f
    modifyProc i fun pr => { pr with ofile := Function.update pr.ofile fd none }

/-- `exit`, as far as files are concerned. -/
def sysExit (sb : SuperBlock) (i : Nat) : M Int := do
  (List.range nofile).forM (exitFile sb i)
  let cwd ← getCwd i
  inOp (inodePut sb true cwd)
  modifyProc i fun pr => { pr with cwd := none }
  pure 0

/-- The round of `fork` for descriptor `fd`. -/
def forkFile (i child fd : Nat) : M Unit := do
  match ((← get).proc i).ofile fd with
  | none => pure ()
  | some f =>
    let _ ← filedup f
    modifyProc child fun pr => { pr with ofile := Function.update pr.ofile fd (some f) }

/-- `fork` to the free process `child`, as far as files are concerned. -/
def sysFork (i child : Nat) : M Int := do
  assert (((← get).proc child).cwd = none)
  (List.range nofile).forM (forkFile i child)
  let cwd ← getCwd i
  let p ← inodeShare cwd
  modifyProc child fun pr => { pr with cwd := some p }
  pure child

/-! ### The machine of the system calls -/

/-- The system calls on files, with the process that makes the call. -/
inductive Syscall
  | openat (i : Nat) (path : List UInt8) (omode : Nat)
  | mkdirat (i : Nat) (path : List UInt8) (mode : Int)
  | mknodat (i : Nat) (path : List UInt8) (major minor : UInt16)
  | unlink (i : Nat) (path : List UInt8)
  | chdir (i : Nat) (path : List UInt8)
  | write (i fd : Nat) (addr : Nat → UInt8) (n : Nat)
  | read (i fd : Nat) (input : List UInt8) (memory : Nat → UInt8) (n : Nat)
  | fstatat (i : Nat) (path : List UInt8) (flags : Int)
  | execve (i : Nat) (path : List UInt8) (env : ExecEnv)
  | close (i fd : Nat)
  | dup (i fd : Nat)
  | fork (i child : Nat)
  | exit (i : Nat)

def Syscall.exec (sb : SuperBlock) : Syscall → M Int
  | openat i path omode => sysOpenat sb i path omode
  | mkdirat i path mode => sysMkdirat sb i path mode
  | mknodat i path major minor => sysMknodat sb i path major minor
  | unlink i path => sysUnlink sb i path
  | chdir i path => sysChdir sb i path
  | write i fd addr n => sysWrite sb i fd addr n
  | read i fd input memory n => sysRead sb i fd input memory n
  | fstatat i path flags => sysFstatat sb i path flags
  | execve i path env => sysExecve sb i path env
  | close i fd => sysClose sb i fd
  | dup i fd => sysDup i fd
  | fork i child => sysFork i child
  | exit i => sysExit sb i

/-- The state after a call that returns. -/
def after {α : Type} (x : M α) (s : State) : Option State :=
  match x s with
  | .ok (_, s') => some s'
  | .error _ => none

theorem after_eq_some {α : Type} {x : M α} {s s' : State} :
    after x s = some s' ↔ ∃ a, x.Runs s a s' := by
  unfold after Exec.Runs
  cases hx : x s with
  | error e => simp
  | ok r =>
    obtain ⟨a, t⟩ := r
    simp

/-- The entries of `used_block`, as `init_filesystem` counts them. -/
def countUsed (sb : SuperBlock) (disk : Nat → BlockData) (h : Nat) : UInt32 :=
  if h < ngroups then
    UInt32.ofNat ((bitmapStarts sb).map fun i =>
      (List.range' sb.dataStartPerGroup (sb.blocksPerGroup - sb.dataStartPerGroup)).countP fun j =>
        decide (i + j < bitPerBlock) && bitmapGet (disk (bitmapBlock sb h i)) j).sum
  else 0

/-- The state before `init_inodes`, with the arena over memory that holds `mem`. -/
def mount (sb : SuperBlock) (disk : Nat → BlockData) (mem : Ptr → Inode) : State where
  disk := disk
  held := []
  log := Log.initLog sb (LogHeader.decode (disk sb.logStart))
  ctx := ⟨0, []⟩
  usedBlock := countUsed sb disk
  list := []
  mem := mem
  fresh := 0
  file _ := ⟨.none, 0, false, false, 0, 0⟩
  proc _ := ⟨fun _ => none, none⟩

/-- `init_inodes`, and `forkret` for the first process. -/
def boot (sb : SuperBlock) : M Unit := do
  let root ← inodeGet sb 1
  let cwd ← inOp (namei sb root [slash])
  modifyProc 0 fun pr => { pr with cwd }

/-- The kernel on a disk image with property `image`. -/
def kernel (sb : SuperBlock) (image : (Nat → BlockData) → Prop) : Machine State Syscall where
  init s := ∃ disk mem, image disk ∧ (boot sb).Runs (mount sb disk mem) () s
  next s call := after (call.exec sb) s

end FtosFfs.Fs
