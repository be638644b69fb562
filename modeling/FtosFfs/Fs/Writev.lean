import FtosFfs.Core.Pointers
import FtosFfs.Fs.Errors
import FtosFfs.Fs.Shape

/-! `sys_writev` of `core/sysfile.c`: when it refuses what is not memory of the process, and when it
returns the number of the bytes that it has written. -/

namespace FtosFfs.Fs

open Lib Lib.Exec Cache FtosFfs.Core

variable {p : UserSpace} {mem : UInt64 → UInt8} {x : Nat → UInt64} {s t : State} {f i : Nat}

/-! ### The call -/

/-- `struct iovec`. -/
structure Iovec where
  iovBase : UInt64
  iovLen : UInt64
  deriving DecidableEq

/-- The number in the `w` bytes from address `a` on. -/
def memWord (mem : UInt64 → UInt8) (a : UInt64) : Nat → Nat
  | 0 => 0
  | w + 1 => (mem a).toNat + 256 * memWord mem (a + 1) w

def loadIovec (mem : UInt64 → UInt8) (a : UInt64) : Iovec :=
  ⟨.ofNat (memWord mem a 8), .ofNat (memWord mem (a + 8) 8)⟩

/-- `filewrite` of the `n` bytes of user memory from `addr` on, with `n` as `isize`: a negative `n`
writes nothing and is an error. -/
def filewriteFrom (sb : SuperBlock) (mem : UInt64 → UInt8) (f : Nat) (addr n : UInt64) : M Int :=
  if n.toNat < 2 ^ 63 then filewrite sb f (fun k => mem (addr + .ofNat k)) n.toNat
  else do
    let file := (← get).file f
    if file.writable then
      assert (file.type = .inode)
      pure (-1)
    else pure (-1)

/-- The loop of `sys_writev` from element `q` on, with `write` for `filewrite`. -/
def writevLoop (write : UInt64 → UInt64 → M Int) (mem : UInt64 → UInt8) (stop : UInt64) :
    Nat → UInt64 → UInt64 → M UInt64
  | 0, _, tot => pure tot
  | fuel + 1, q, tot =>
    if q < stop then do
      let iov := loadIovec mem q
      let r ← write iov.iovBase iov.iovLen
      writevLoop write mem stop fuel (q + 16) (tot + .ofInt r)
    else pure tot

/-- The argument `n` of a system call as an `int`. -/
def argint (x : Nat → UInt64) (n : Nat) : Int := (x n).toUInt32.toInt32.toInt

/-- `argfd` of argument `n`. -/
def argfdOf (i : Nat) (x : Nat → UInt64) (n : Nat) : M (Option Nat) :=
  if argint x n < 0 then pure none else argfd i (argint x n).toNat

/-- `sys_writev` of process `i` with the registers `x`, with `write` for `filewrite`. -/
def sysWritevWith (write : Nat → UInt64 → UInt64 → M Int) (p : UserSpace) (mem : UInt64 → UInt8) (i : Nat)
    (x : Nat → UInt64) : M Int := do
  match ← argfdOf i x 0 with
  | none => pure (-1)
  | some f =>
    let iovcnt : UInt64 := .ofInt (argint x 2)
    match argptr p x 1 (iovcnt * 16) with
    | none => pure (-1)
    | some iov =>
      let tot ← writevLoop (write f) mem (iov + iovcnt * 16) ((iovcnt * 16).toNat / 16 + 1) iov 0
      pure tot.toInt64.toInt

def sysWritev (sb : SuperBlock) (p : UserSpace) (mem : UInt64 → UInt8) (i : Nat) (x : Nat → UInt64) : M Int :=
  sysWritevWith (filewriteFrom sb mem) p mem i x

/-! ### The elements in turn -/

/-- The `count` elements of the array at `iov`. -/
def iovecs (mem : UInt64 → UInt8) (iov : UInt64) (count : Nat) : List Iovec :=
  (List.range count).map fun k => loadIovec mem (iov + .ofNat (16 * k))

theorem iovecs_succ (mem : UInt64 → UInt8) (iov : UInt64) (count : Nat) :
    iovecs mem iov (count + 1) = loadIovec mem iov :: iovecs mem (iov + 16) count := by
  unfold iovecs
  rw [List.range_succ_eq_map, List.map_cons, List.map_map]
  have hnext (k : Nat) : iov + .ofNat (16 * (k + 1)) = iov + 16 + .ofNat (16 * k) := by
    rw [Nat.mul_add, Nat.add_comm, UInt64.ofNat_add, UInt64.add_assoc]
    rfl
  rw [Nat.mul_zero, show UInt64.ofNat 0 = 0 from rfl, UInt64.add_zero]
  exact congrArg (_ :: ·) (List.map_congr_left fun k _ => congrArg (loadIovec mem) (hnext k))

/-- The sum of the results of the writes of a list of elements. -/
def writeAll (write : UInt64 → UInt64 → M Int) : List Iovec → M Int
  | [] => pure 0
  | e :: l => do
    let r ← write e.iovBase e.iovLen
    let rest ← writeAll write l
    pure (r + rest)

/-- The loop of `sys_writev` goes through the elements of the array. -/
theorem runs_writevLoop {write : UInt64 → UInt64 → M Int} {stop q tot tot' : UInt64} {count fuel : Nat}
    (hq : q.toNat + 16 * count < 2 ^ 64) (hstop : stop.toNat = q.toNat + 16 * count) (hfuel : count < fuel) :
    Runs (writevLoop write mem stop fuel q tot) s tot' t ↔
      ∃ sum, Runs (writeAll write (iovecs mem q count)) s sum t ∧ tot' = tot + .ofInt sum := by
  induction count generalizing q fuel tot s with
  | zero =>
    have hlast : ¬q < stop := by
      rw [UInt64.lt_iff_toNat_lt]
      omega
    obtain ⟨fuel, rfl⟩ := Nat.exists_eq_succ_of_ne_zero (Nat.ne_zero_of_lt hfuel)
    rw [writevLoop, if_neg hlast, show iovecs mem q 0 = [] from rfl, writeAll]
    simp only [runs_pure]
    constructor
    · rintro ⟨rfl, rfl⟩
      exact ⟨0, ⟨rfl, rfl⟩, (UInt64.add_zero _).symm⟩
    · rintro ⟨_, ⟨rfl, rfl⟩, rfl⟩
      exact ⟨(UInt64.add_zero _).symm, rfl⟩
  | succ count ih =>
    have hlt : q < stop := by
      rw [UInt64.lt_iff_toNat_lt]
      omega
    have hnext : (q + 16).toNat = q.toNat + 16 := by
      rw [UInt64.toNat_add]
      exact Nat.mod_eq_of_lt (show q.toNat + 16 < 2 ^ 64 by omega)
    obtain ⟨fuel, rfl⟩ := Nat.exists_eq_succ_of_ne_zero (Nat.ne_zero_of_lt hfuel)
    rw [writevLoop, if_pos hlt, iovecs_succ, writeAll]
    simp only [runs_bind, runs_pure]
    constructor
    · rintro ⟨r, s₁, hr, hloop⟩
      obtain ⟨sum, hrest, rfl⟩ := (ih (by omega) (by omega) (by omega)).mp hloop
      refine ⟨r + sum, ⟨r, s₁, hr, sum, t, hrest, rfl, rfl⟩, ?_⟩
      rw [UInt64.ofInt_add, UInt64.add_assoc]
    · rintro ⟨_, ⟨r, s₁, hr, sum, _, hrest, rfl, rfl⟩, rfl⟩
      refine ⟨r, s₁, hr, (ih (by omega) (by omega) (by omega)).mpr ⟨sum, hrest, ?_⟩⟩
      rw [UInt64.ofInt_add, UInt64.add_assoc]

/-- A call of `sys_writev` for the open file `f` and an array of `count` elements at `iov`. -/
structure WritevCall (p : UserSpace) (x : Nat → UInt64) (i : Nat) (s : State) (f : Nat) (iov : UInt64)
    (count : Nat) : Prop where
  nonneg : 0 ≤ argint x 0
  fd : (argint x 0).toNat < nofile
  ofile : (s.proc i).ofile (argint x 0).toNat = some f
  iovcnt : argint x 2 = count
  array : argptr p x 1 (.ofNat (16 * count)) = some iov
  unwrapped : iov.toNat + 16 * count < 2 ^ 64

theorem argint_lt (x : Nat → UInt64) (n : Nat) : argint x n < 2 ^ 31 := Int32.toInt_lt _

theorem toInt_ofInt64 (z : Int) : (UInt64.ofInt z).toInt64.toInt = z.bmod (2 ^ 64) := by
  show (BitVec.ofNat 64 (z % 2 ^ 64).toNat).toInt = _
  rw [BitVec.toInt_ofNat', Int.toNat_of_nonneg (Int.emod_nonneg _ (by decide))]
  exact_mod_cast Int.emod_bmod z (2 ^ 64)

theorem runs_sysWritevWith {write : Nat → UInt64 → UInt64 → M Int} {iov : UInt64} {count : Nat} {r : Int}
    (h : WritevCall p x i s f iov count) :
    Runs (sysWritevWith write p mem i x) s r t ↔
      ∃ sum : Int, Runs (writeAll (write f) (iovecs mem iov count)) s sum t ∧ r = sum.bmod (2 ^ 64) := by
  have hfd : Runs (argfdOf i x 0) s (some f) s := by
    rw [argfdOf, if_neg (Int.not_lt.mpr h.nonneg)]
    refine runs_bind.mpr ⟨s, s, runs_get.mpr ⟨rfl, rfl⟩, runs_pure.mpr ⟨?_, rfl⟩⟩
    rw [if_pos h.fd, h.ofile]
  have hlt : count < 2 ^ 31 := by
    have := argint_lt x 2
    rw [h.iovcnt] at this
    exact_mod_cast this
  have hcount : UInt64.ofInt (argint x 2) * 16 = .ofNat (16 * count) := by
    have hcast : UInt64.ofInt (count : Int) = .ofNat count := by
      unfold UInt64.ofInt
      rw [Int.emod_eq_of_lt (Int.natCast_nonneg _) (by omega), Int.toNat_natCast]
    rw [h.iovcnt, hcast, Nat.mul_comm, UInt64.ofNat_mul]
    rfl
  have hsize : (UInt64.ofNat (16 * count)).toNat = 16 * count := by
    rw [UInt64.toNat_ofNat']
    exact Nat.mod_eq_of_lt (show 16 * count < 2 ^ 64 by omega)
  have hstop : (iov + .ofNat (16 * count)).toNat = iov.toNat + 16 * count := by
    rw [UInt64.toNat_add, hsize]
    exact Nat.mod_eq_of_lt h.unwrapped
  have hloop {tot : UInt64} {t : State} : Runs (writevLoop (write f) mem (iov + .ofNat (16 * count))
      (16 * count / 16 + 1) iov 0) s tot t ↔ _ :=
    runs_writevLoop h.unwrapped hstop (show count < 16 * count / 16 + 1 by omega)
  unfold sysWritevWith
  rw [runs_bind]
  constructor
  · rintro ⟨_, _, hr, hrest⟩
    obtain ⟨rfl, rfl⟩ := hfd.unique hr
    dsimp only at hrest
    rw [hcount, h.array, hsize] at hrest
    obtain ⟨tot, _, hr, hpure⟩ := runs_bind.mp hrest
    obtain ⟨rfl, rfl⟩ := runs_pure.mp hpure
    obtain ⟨sum, hsum, rfl⟩ := hloop.mp hr
    exact ⟨sum, hsum, by rw [UInt64.zero_add, toInt_ofInt64]⟩
  · rintro ⟨sum, hsum, rfl⟩
    refine ⟨some f, s, hfd, ?_⟩
    dsimp only
    rw [hcount, h.array, hsize]
    refine runs_bind.mpr ⟨_, t, hloop.mpr ⟨sum, hsum, rfl⟩, runs_pure.mpr ⟨?_, rfl⟩⟩
    rw [UInt64.zero_add, toInt_ofInt64]

/-- A `write` that returns has been called for every element. -/
theorem writeAll_uses {write : UInt64 → UInt64 → M Int} {l : List Iovec} {sum : Int}
    (hr : Runs (writeAll write l) s sum t) {e : Iovec} (he : e ∈ l) :
    ∃ s₁ r s₂, Runs (write e.iovBase e.iovLen) s₁ r s₂ := by
  induction l generalizing s sum t with
  | nil => cases he
  | cons e' l ih =>
    obtain ⟨r, s₁, hwrite, hr⟩ := runs_bind.mp hr
    obtain ⟨rest, s₂, hrest, -⟩ := runs_bind.mp hr
    rcases List.mem_cons.mp he with rfl | he
    · exact ⟨s, r, s₁, hwrite⟩
    · exact ih hrest he

/-! ### The results of `filewrite` -/

/-- The bytes of an element that `filewrite` writes. -/
def Iovec.written (e : Iovec) : Nat := if e.iovLen.toNat < 2 ^ 63 then e.iovLen.toNat else 0

def Iovec.bytes (mem : UInt64 → UInt8) (e : Iovec) : List UInt8 :=
  (List.range e.written).map fun k => mem (e.iovBase + .ofNat k)

theorem filewriteLoop_writable {addr : Nat → UInt8} {count fuel k : Nat} {u : Unit}
    (hr : Runs (filewriteLoop sblock f addr count fuel k) s u t) :
    (t.file f).writable = (s.file f).writable := by
  induction fuel generalizing s k with
  | zero =>
    obtain ⟨-, rfl⟩ := runs_pure.mp hr
    rfl
  | succ fuel ih =>
    obtain ⟨-, hr⟩ | ⟨-, hr⟩ := runs_ite.mp hr
    · obtain ⟨r, t₁, hop, hr⟩ := runs_bind.mp hr
      obtain ⟨_, _, hassert, hr⟩ := runs_bind.mp hr
      obtain ⟨-, rfl⟩ := runs_require.mp hassert
      rw [ih hr]
      obtain ⟨s₀, s₅, hbegin, hx, hend⟩ := runs_inOp hop
      obtain ⟨_, _, hget, hx⟩ := runs_bind.mp hx
      obtain ⟨rfl, rfl⟩ := runs_get.mp hget
      obtain ⟨_, s₁, hlock, hx⟩ := runs_bind.mp hx
      obtain ⟨_, s₂, hwrite, hx⟩ := runs_bind.mp hx
      obtain ⟨_, s₃, hmove, hx⟩ := runs_bind.mp hx
      obtain ⟨_, s₄, hunlock, hx⟩ := runs_bind.mp hx
      obtain ⟨-, rfl⟩ := runs_pure.mp hx
      obtain ⟨-, -, -, -, rfl⟩ := runs_inodeLock.mp hlock
      obtain ⟨-, -, rfl⟩ := runs_inodeUnlock.mp hunlock
      obtain rfl := runs_modifyFile.mp hmove
      have hsame := same_inodeWrite hwrite
      rw [hend.file, ← hbegin.file]
      show (Function.update s₂.file f _ f).writable = _
      rw [Function.update_self, hsame.file]
      rfl
    · obtain ⟨-, rfl⟩ := runs_pure.mp hr
      rfl

theorem filewriteFrom_writable {a n : UInt64} {r : Int} (hw : (s.file f).writable = true)
    (hr : Runs (filewriteFrom sblock mem f a n) s r t) :
    r = (if n.toNat < 2 ^ 63 then (n.toNat : Int) else -1) ∧ (t.file f).writable = true := by
  unfold filewriteFrom at hr
  split at hr
  case isTrue hn =>
    obtain ⟨_, _, hget, hr⟩ := runs_bind.mp hr
    obtain ⟨rfl, rfl⟩ := runs_get.mp hget
    rw [if_pos hw] at hr
    obtain ⟨_, _, hassert, hr⟩ := runs_bind.mp hr
    obtain ⟨-, rfl⟩ := runs_require.mp hassert
    obtain ⟨_, t₁, hloop, hr⟩ := runs_bind.mp hr
    obtain ⟨rfl, rfl⟩ := runs_pure.mp hr
    rw [if_pos hn, filewriteLoop_writable hloop]
    exact ⟨rfl, hw⟩
  case isFalse hn =>
    obtain ⟨_, _, hget, hr⟩ := runs_bind.mp hr
    obtain ⟨rfl, rfl⟩ := runs_get.mp hget
    rw [if_pos hw] at hr
    obtain ⟨_, _, hassert, hr⟩ := runs_bind.mp hr
    obtain ⟨-, rfl⟩ := runs_require.mp hassert
    obtain ⟨rfl, rfl⟩ := runs_pure.mp hr
    rw [if_neg hn]
    exact ⟨rfl, hw⟩

theorem runs_filewriteFrom_unwritable {a n : UInt64} {r : Int} (hw : (s.file f).writable = false) :
    Runs (filewriteFrom sblock mem f a n) s r t ↔ r = -1 ∧ s = t := by
  unfold filewriteFrom filewrite
  split <;>
  · simp only [runs_bind, runs_get]
    constructor
    · rintro ⟨_, _, ⟨rfl, rfl⟩, hr⟩
      rw [hw] at hr
      obtain ⟨rfl, rfl⟩ := runs_pure.mp hr
      exact ⟨rfl, rfl⟩
    · rintro ⟨rfl, rfl⟩
      refine ⟨s, s, ⟨rfl, rfl⟩, ?_⟩
      rw [hw]
      exact runs_pure.mpr ⟨rfl, rfl⟩

/-- The results for a writable file: an element of negative length counts as -1. -/
theorem writeAll_writable {l : List Iovec} {sum : Int} (hw : (s.file f).writable = true)
    (hr : Runs (writeAll (filewriteFrom sblock mem f) l) s sum t) :
    sum = (l.map Iovec.written).sum - (l.countP fun e => decide (2 ^ 63 ≤ e.iovLen.toNat) : Nat) := by
  induction l generalizing s sum with
  | nil =>
    obtain ⟨rfl, -⟩ := runs_pure.mp hr
    rfl
  | cons e l ih =>
    obtain ⟨r, s₁, hwrite, hr⟩ := runs_bind.mp hr
    obtain ⟨rest, s₂, htail, hpure⟩ := runs_bind.mp hr
    obtain ⟨rfl, rfl⟩ := runs_pure.mp hpure
    obtain ⟨hres, hw₁⟩ := filewriteFrom_writable hw hwrite
    rw [hres, ih hw₁ htail, List.map_cons, List.sum_cons, List.countP_cons, Iovec.written]
    by_cases hlen : e.iovLen.toNat < 2 ^ 63
    · rw [if_pos hlen, if_pos hlen, decide_eq_false (Nat.not_le.mpr hlen), if_neg Bool.false_ne_true]
      omega
    · rw [if_neg hlen, if_neg hlen, decide_eq_true (Nat.not_lt.mp hlen), if_pos rfl]
      omega

/-- Each element of an unwritable file counts as -1. -/
theorem writeAll_unwritable (hw : (s.file f).writable = false) (l : List Iovec) :
    Runs (writeAll (filewriteFrom sblock mem f) l) s (-(l.length : Int)) s := by
  induction l with
  | nil => exact runs_pure.mpr ⟨rfl, rfl⟩
  | cons e l ih =>
    refine runs_bind.mpr ⟨-1, s, (runs_filewriteFrom_unwritable hw).mpr ⟨rfl, rfl⟩,
      runs_bind.mpr ⟨_, s, ih, runs_pure.mpr ⟨?_, rfl⟩⟩⟩
    rw [List.length_cons]
    omega

/-- An element of which nothing is written leaves the state as it is. -/
theorem runs_filewriteFrom_nothing (mem : UInt64 → UInt8) {e : Iovec} (hw : (s.file f).writable = true)
    (htype : (s.file f).type = .inode) (hzero : e.written = 0) :
    ∃ r, ∀ {r' : Int} {t : State},
      Runs (filewriteFrom sblock mem f e.iovBase e.iovLen) s r' t ↔ r' = r ∧ t = s := by
  unfold Iovec.written at hzero
  unfold filewriteFrom
  split at hzero
  case isTrue hlen =>
    refine ⟨0, fun {r' t} => ?_⟩
    rw [if_pos hlen, hzero]
    constructor
    · intro hr
      obtain ⟨_, _, hget, hr⟩ := runs_bind.mp hr
      obtain ⟨rfl, rfl⟩ := runs_get.mp hget
      rw [if_pos hw] at hr
      obtain ⟨_, _, hassert, hr⟩ := runs_bind.mp hr
      obtain ⟨-, rfl⟩ := runs_require.mp hassert
      obtain ⟨_, _, hloop, hr⟩ := runs_bind.mp hr
      obtain ⟨-, rfl⟩ := runs_pure.mp hloop
      obtain ⟨rfl, rfl⟩ := runs_pure.mp hr
      exact ⟨rfl, rfl⟩
    · rintro ⟨rfl, rfl⟩
      refine runs_bind.mpr ⟨t, t, runs_get.mpr ⟨rfl, rfl⟩, ?_⟩
      rw [if_pos hw]
      exact runs_bind.mpr ⟨(), t, runs_require.mpr ⟨htype, rfl⟩, runs_bind.mpr ⟨(), t,
        runs_pure.mpr ⟨rfl, rfl⟩, runs_pure.mpr ⟨rfl, rfl⟩⟩⟩
  case isFalse hlen =>
    refine ⟨-1, fun {r' t} => ?_⟩
    rw [if_neg hlen]
    constructor
    · intro hr
      obtain ⟨_, _, hget, hr⟩ := runs_bind.mp hr
      obtain ⟨rfl, rfl⟩ := runs_get.mp hget
      rw [if_pos hw] at hr
      obtain ⟨_, _, hassert, hr⟩ := runs_bind.mp hr
      obtain ⟨-, rfl⟩ := runs_require.mp hassert
      obtain ⟨rfl, rfl⟩ := runs_pure.mp hr
      exact ⟨rfl, rfl⟩
    · rintro ⟨rfl, rfl⟩
      refine runs_bind.mpr ⟨t, t, runs_get.mpr ⟨rfl, rfl⟩, ?_⟩
      rw [if_pos hw]
      exact runs_bind.mpr ⟨(), t, runs_require.mpr ⟨htype, rfl⟩, runs_pure.mpr ⟨rfl, rfl⟩⟩

/-- The writes of the elements pass all assertions exactly if their lengths fit. -/
theorem writeAll_returns_iff (h : BetweenCalls s f) (hw : (s.file f).writable = true) (l : List Iovec) :
    (∃ sum t, Runs (writeAll (filewriteFrom sblock mem f) l) s sum t) ↔
      WritesFit s f (l.map Iovec.written) := by
  have hstep {s : State} {e : Iovec} {l : List Iovec} :
      (∃ sum t, Runs (writeAll (filewriteFrom sblock mem f) (e :: l)) s sum t) ↔
        ∃ r s₁, Runs (filewriteFrom sblock mem f e.iovBase e.iovLen) s r s₁ ∧
          ∃ sum t, Runs (writeAll (filewriteFrom sblock mem f) l) s₁ sum t := by
    constructor
    · rintro ⟨sum, t, hr⟩
      obtain ⟨r, s₁, hwrite, hr⟩ := runs_bind.mp hr
      obtain ⟨rest, s₂, htail, -⟩ := runs_bind.mp hr
      exact ⟨r, s₁, hwrite, rest, s₂, htail⟩
    · rintro ⟨r, s₁, hwrite, rest, s₂, htail⟩
      exact ⟨r + rest, s₂, runs_bind.mpr ⟨r, s₁, hwrite,
        runs_bind.mpr ⟨rest, s₂, htail, runs_pure.mpr ⟨rfl, rfl⟩⟩⟩⟩
  induction l generalizing s with
  | nil => exact iff_of_true ⟨0, s, runs_pure.mpr ⟨rfl, rfl⟩⟩ writesFit_nil
  | cons e l ih =>
    rw [hstep, List.map_cons]
    obtain hzero | hpos := Nat.eq_zero_or_pos e.written
    · obtain ⟨r₀, hnothing⟩ := runs_filewriteFrom_nothing mem hw h.inode hzero
      rw [hzero, writesFit_zero]
      refine Iff.trans ?_ (ih h hw)
      constructor
      · rintro ⟨r, s₁, hwrite, hrest⟩
        obtain ⟨-, rfl⟩ := hnothing.mp hwrite
        exact hrest
      · exact fun hrest => ⟨r₀, s, hnothing.mpr ⟨rfl, rfl⟩, hrest⟩
    · have hlen : e.iovLen.toNat < 2 ^ 63 := by
        by_contra hge
        rw [Iovec.written, if_neg hge] at hpos
        exact Nat.lt_irrefl 0 hpos
      have hwritten : e.written = e.iovLen.toNat := if_pos hlen
      have hwrites : filewriteFrom sblock mem f e.iovBase e.iovLen =
          filewrite sblock f (fun k => mem (e.iovBase + .ofNat k)) e.written := by
        rw [hwritten]
        exact if_pos hlen
      rw [h.writesFit_cons hw (fun k => mem (e.iovBase + .ofNat k)) hpos, hwrites]
      refine exists_congr fun r => exists_congr fun s₁ => and_congr_right fun hwrite => ?_
      have hop := h.filewrite_after hw hpos hwrite
      exact ih hop.ready (by rw [hop.file, hw])

/-- The elements of an open regular file are written one behind the other. -/
theorem OpenFile.writeAll_spec {l : List Iovec} {sum : Int} (h : OpenFile s f)
    (hlen : ∀ e ∈ l, e.iovLen.toNat < 2 ^ 63)
    (hr : Runs (writeAll (filewriteFrom sblock mem f) l) s sum t) :
    (t.file f).off = (s.file f).off + (l.map Iovec.written).sum ∧
      fileContent t.disk (s.mem (s.file f).ip).inodeNo =
        overwrite (fileContent s.disk (s.mem (s.file f).ip).inodeNo) (s.file f).off
          (l.flatMap (Iovec.bytes mem)) := by
  induction l generalizing s sum with
  | nil =>
    obtain ⟨-, rfl⟩ := runs_pure.mp hr
    exact ⟨rfl, (overwrite_nil _ _).symm⟩
  | cons e l ih =>
    obtain ⟨r, s₁, hwrite, hr⟩ := runs_bind.mp hr
    obtain ⟨rest, _, htail, hpure⟩ := runs_bind.mp hr
    obtain ⟨-, rfl⟩ := runs_pure.mp hpure
    have hn := hlen e List.mem_cons_self
    have hwritten : e.written = e.iovLen.toNat := if_pos hn
    rw [filewriteFrom, if_pos hn] at hwrite
    obtain ⟨-, hbound, hfirst⟩ := h.filewrite_spec hwrite
    obtain ⟨hoff, hcontent⟩ := ih hfirst.openFile (fun e he => hlen e (List.mem_cons_of_mem _ he)) htail
    have hip : (s₁.file f).ip = (s.file f).ip := by rw [hfirst.file]
    have hoff₁ : (s₁.file f).off = (s.file f).off + (e.bytes mem).length := by
      rw [hfirst.file, Iovec.bytes, List.length_map, List.length_range, hwritten]
    have hbytes : (List.range e.iovLen.toNat).map (fun k => mem (e.iovBase + .ofNat k)) = e.bytes mem := by
      rw [Iovec.bytes, hwritten]
    rw [hip, hfirst.inodeNo, hfirst.content, hbytes, hoff₁] at hcontent
    constructor
    · rw [hoff, hfirst.file, List.map_cons, List.sum_cons, hwritten, ← Nat.add_assoc]
    · rw [hcontent, List.flatMap_cons]
      cases Nat.eq_zero_or_pos e.iovLen.toNat with
      | inl hzero =>
        have hnil : e.bytes mem = [] := by
          rw [Iovec.bytes, hwritten, hzero]
          rfl
        rw [hnil, overwrite_nil]
        rfl
      | inr hpos => exact overwrite_append (hbound hpos).2

/-! ### When the call does what it is to do -/

/-- What the call is to do.  An element is used when `filewrite` is called for it, so a call that does
not use the elements outside user memory has the same result with any other function there. -/
structure WritevRight (p : UserSpace) (mem : UInt64 → UInt8) (i : Nat) (x : Nat → UInt64) (s : State)
    (f : Nat) (l : List Iovec) : Prop where
  refused : (∃ e ∈ l, ¬InUser p e.iovBase e.iovLen) →
    ∀ write : Nat → UInt64 → UInt64 → M Int,
      (∀ g a n, InUser p a n → write g a n = filewriteFrom sblock mem g a n) →
      ∃ t, Runs (sysWritevWith write p mem i x) s (-1) t
  unwritable : (s.file f).writable = false → ∃ t, Runs (sysWritev sblock p mem i x) s (-1) t
  additive : (∀ e ∈ l, InUser p e.iovBase e.iovLen) → (s.file f).writable = true →
    ∃ t, Runs (sysWritev sblock p mem i x) s (l.map Iovec.written).sum t ∧
      ((s.loaded (s.file f).ip).type = inodeRegular →
        (t.file f).off = (s.file f).off + (l.map Iovec.written).sum ∧
          fileContent t.disk (s.mem (s.file f).ip).inodeNo =
            overwrite (fileContent s.disk (s.mem (s.file f).ip).inodeNo) (s.file f).off
              (l.flatMap (Iovec.bytes mem)))

/-- All elements are user memory, an unwritable file comes with one element, and for a writable file
no length is negative, the sum is an `isize`, and the writes fit. -/
structure WritevSafe (p : UserSpace) (mem : UInt64 → UInt8) (s : State) (f : Nat) (l : List Iovec) :
    Prop where
  inUser : ∀ e ∈ l, InUser p e.iovBase e.iovLen
  single : (s.file f).writable = false → l.length = 1
  lengths : (s.file f).writable = true → ∀ e ∈ l, e.iovLen.toNat < 2 ^ 63
  total : (s.file f).writable = true → (l.map Iovec.written).sum < 2 ^ 63
  writes : (s.file f).writable = true → WritesFit s f (l.map Iovec.written)

theorem length_iovecs (mem : UInt64 → UInt8) (iov : UInt64) (count : Nat) :
    (iovecs mem iov count).length = count := by
  rw [iovecs, List.length_map, List.length_range]

theorem WritevCall.count_lt {iov : UInt64} {count : Nat} (h : WritevCall p x i s f iov count) :
    count < 2 ^ 31 := by
  have hlt := argint_lt x 2
  rw [h.iovcnt] at hlt
  exact_mod_cast hlt

section

variable {iov : UInt64} {count : Nat} (h : WritevCall p x i s f iov count)

include h

/-- Every element is given to `filewrite`. -/
theorem WritevRight.inUser (hright : WritevRight p mem i x s f (iovecs mem iov count)) :
    ∀ e ∈ iovecs mem iov count, InUser p e.iovBase e.iovLen := by
  by_contra hbad
  push Not at hbad
  let write (g : Nat) (a n : UInt64) : M Int :=
    if InUser p a n then filewriteFrom sblock mem g a n else do
      assert False
      pure 0
  obtain ⟨t, hr⟩ := hright.refused hbad write fun g a n hin => if_pos hin
  obtain ⟨sum, hsum, -⟩ := (runs_sysWritevWith h).mp hr
  obtain ⟨e, he, hout⟩ := hbad
  obtain ⟨s₁, r, s₂, hwrite⟩ := writeAll_uses hsum he
  rw [show write f e.iovBase e.iovLen = _ from if_neg hout] at hwrite
  obtain ⟨_, _, hassert, -⟩ := runs_bind.mp hwrite
  exact (runs_require.mp hassert).1

theorem runs_sysWritev_unwritable {r : Int} (hw : (s.file f).writable = false) :
    Runs (sysWritev sblock p mem i x) s r t ↔ r = -(count : Int) ∧ s = t := by
  have hlt := h.count_lt
  have hbmod : (-(count : Int)).bmod (2 ^ 64) = -(count : Int) := Int.bmod_eq_of_le (by omega) (by omega)
  have hall : Runs (writeAll (filewriteFrom sblock mem f) (iovecs mem iov count)) s _ s :=
    writeAll_unwritable hw _
  rw [length_iovecs] at hall
  unfold sysWritev
  rw [runs_sysWritevWith h]
  constructor
  · rintro ⟨sum, hsum, rfl⟩
    obtain ⟨rfl, rfl⟩ := hall.unique hsum
    exact ⟨hbmod, rfl⟩
  · rintro ⟨rfl, rfl⟩
    exact ⟨_, hall, hbmod.symm⟩

theorem WritevRight.safe (hbetween : BetweenCalls s f)
    (hright : WritevRight p mem i x s f (iovecs mem iov count)) :
    WritevSafe p mem s f (iovecs mem iov count) := by
  have hin := hright.inUser h
  have hlt := h.count_lt
  have hwrites (hw : (s.file f).writable = true) : ∃ sum t,
      Runs (writeAll (filewriteFrom sblock mem f) (iovecs mem iov count)) s sum t ∧
        (((iovecs mem iov count).map Iovec.written).sum : Int) = sum.bmod (2 ^ 64) := by
    obtain ⟨t, hr, -⟩ := hright.additive hin hw
    obtain ⟨sum, hsum, heq⟩ := (runs_sysWritevWith h).mp hr
    exact ⟨sum, t, hsum, heq⟩
  constructor
  case inUser => exact hin
  case single =>
    intro hw
    obtain ⟨t, hr⟩ := hright.unwritable hw
    have hres := ((runs_sysWritev_unwritable h hw).mp hr).1
    rw [length_iovecs]
    omega
  case lengths =>
    intro hw
    obtain ⟨sum, t, hsum, heq⟩ := hwrites hw
    -- the elements of negative length are fewer than 2 ^ 64, and their number is 0 modulo 2 ^ 64
    have hneg : (iovecs mem iov count).countP (fun e => decide (2 ^ 63 ≤ e.iovLen.toNat)) ≤ _ :=
      List.countP_le_length
    rw [length_iovecs] at hneg
    have hdvd : ((2 ^ 64 : Nat) : Int) ∣ _ := ((Int.bmod_eq_iff (by decide)).mp heq.symm).2.2
    rw [writeAll_writable hw hsum] at hdvd
    have hzero : (iovecs mem iov count).countP (fun e => decide (2 ^ 63 ≤ e.iovLen.toNat)) = 0 := by
      omega
    intro e he
    have hnot := List.countP_eq_zero.mp hzero e he
    rw [decide_eq_true_eq] at hnot
    exact Nat.not_le.mp hnot
  case total =>
    intro hw
    obtain ⟨sum, t, -, heq⟩ := hwrites hw
    have hbound : sum.bmod (2 ^ 64) < _ := Int.bmod_lt (by decide)
    omega
  case writes =>
    intro hw
    obtain ⟨sum, t, hsum, -⟩ := hwrites hw
    exact (writeAll_returns_iff hbetween hw _).mp ⟨sum, t, hsum⟩

theorem WritevSafe.right (hbetween : BetweenCalls s f) (hsafe : WritevSafe p mem s f (iovecs mem iov count)) :
    WritevRight p mem i x s f (iovecs mem iov count) := by
  constructor
  case refused =>
    rintro ⟨e, he, hout⟩
    exact absurd (hsafe.inUser e he) hout
  case unwritable =>
    intro hw
    have hone := hsafe.single hw
    rw [length_iovecs] at hone
    exact ⟨s, (runs_sysWritev_unwritable h hw).mpr ⟨by rw [hone]; rfl, rfl⟩⟩
  case additive =>
    intro _ hw
    have hlengths := hsafe.lengths hw
    have htotal := hsafe.total hw
    obtain ⟨sum, t, hsum⟩ := (writeAll_returns_iff hbetween hw _).mpr (hsafe.writes hw)
    have hzero : (iovecs mem iov count).countP (fun e => decide (2 ^ 63 ≤ e.iovLen.toNat)) = 0 := by
      refine List.countP_eq_zero.mpr fun e he => ?_
      rw [decide_eq_true_eq]
      exact Nat.not_le.mpr (hlengths e he)
    have hvalue := writeAll_writable hw hsum
    rw [hzero, Int.natCast_zero, Int.sub_zero] at hvalue
    have hbmod : ((((iovecs mem iov count).map Iovec.written).sum : Nat) : Int) = sum.bmod (2 ^ 64) := by
      rw [hvalue]
      exact (Int.bmod_eq_of_le (by omega) (by omega)).symm
    refine ⟨t, (runs_sysWritevWith h).mpr ⟨sum, hsum, hbmod⟩, fun hregular => ?_⟩
    have hopen : OpenFile s f := ⟨hbetween.whole, hw, hbetween.inode, hbetween.listed, hregular⟩
    exact hopen.writeAll_spec hlengths hsum

/-- For an open file and an array of elements, `sys_writev` does what it is to do if and only if it is
given nothing that it would have to refuse, and the writes fit. -/
theorem sysWritev_right_iff (hbetween : BetweenCalls s f) :
    WritevRight p mem i x s f (iovecs mem iov count) ↔ WritevSafe p mem s f (iovecs mem iov count) :=
  ⟨WritevRight.safe h hbetween, WritevSafe.right h hbetween⟩

end

/-- Every file descriptor of every process is file 0, with inode `n`, and the log is empty. -/
def allOpened (disk : Nat → BlockData) (n : Nat) : State := {
  opened disk n with
  log := Log.initLog sblock ⟨0, fun _ => 0⟩
  proc := fun _ => ⟨fun _ => some 0, some 0⟩ }

theorem Whole.allOpened {disk : Nat → BlockData} {n : Nat} (h : Whole (opened disk n)) :
    Whole (allOpened disk n) :=
  h.sameDisk (h.cached.congr rfl rfl rfl rfl rfl) rfl rfl h.size

theorem betweenCalls_allOpened {disk : Nat → BlockData} {n : Nat} (h : WriteReady (opened disk n) 0) :
    BetweenCalls (allOpened disk n) 0 where
  whole := h.whole.allOpened
  inode := h.inode
  listed := h.listed
  unlocked := h.unlocked
  inUse := by
    have hregular : (diskEntry disk n).type = inodeRegular := h.regular
    show (diskEntry disk n).type ≠ inodeInvalid
    rw [hregular]
    decide
  opCount := rfl
  empty := rfl
  unused := rfl
  logSize := show 10 ≤ Log.initLogSize sblock by decide

/-- A program of one page. -/
def onePage : UserSpace := ⟨0, 4096, 0, Nat.zero_le _⟩

/-- `writev(0, 64, count)`. -/
def writevArgs (count : Nat) : Nat → UInt64 := fun n => if n = 1 then 64 else if n = 2 then .ofNat count else 0

theorem writevCall_one (disk : Nat → BlockData) (n : Nat) :
    WritevCall onePage (writevArgs 1) 0 (allOpened disk n) 0 64 1 :=
  ⟨by decide, by decide, rfl, by decide, by decide, by decide⟩

theorem writevCall_two (disk : Nat → BlockData) (n : Nat) :
    WritevCall onePage (writevArgs 2) 0 (allOpened disk n) 0 64 2 :=
  ⟨by decide, by decide, rfl, by decide, by decide, by decide⟩

/-- Elements of 3 bytes at address 128 and 600 bytes at address 256. -/
def twoElements : UInt64 → UInt8 := fun a =>
  if a = 64 then 128 else if a = 72 then 3 else if a = 81 then 1 else if a = 88 then 88 else
  if a = 89 then 2 else if a < 128 then 0 else 7

/-- Both are written to the file of eleven blocks, from its first byte on. -/
theorem sysWritev_right_iff_two : ∃ img, Runs (Mkfs.main [elevenBlocks]) Mkfs.blank () img ∧
    iovecs twoElements 64 2 = [⟨128, 3⟩, ⟨256, 600⟩] ∧
    WritevRight onePage twoElements 0 (writevArgs 2) (allOpened img.disk 2) 0 (iovecs twoElements 64 2) := by
  obtain ⟨img, hr, hready, hsize, hfilled⟩ := elevenBlocks_image
  have helements : iovecs twoElements 64 2 = [⟨128, 3⟩, ⟨256, 600⟩] := by decide +kernel
  refine ⟨img, hr, helements, (sysWritev_right_iff (writevCall_two _ _) (betweenCalls_allOpened hready)).mpr ?_⟩
  rw [helements]
  constructor
  case inUser => decide
  case single =>
    intro hw
    cases hw
  case lengths =>
    intro _
    decide
  case total =>
    intro _
    decide
  case writes =>
    intro _
    have hregular : (diskEntry img.disk 2).type = inodeRegular := hready.regular
    have hsize' : ((allOpened img.disk 2).shape 2).size = 5632 := hsize
    have hfit : ((allOpened img.disk 2).shape 2).Fits (inodeGroup 2) 0 [3, 600] := by
      refine Shape.fits_mapped _ (fun i hi => ?_) (by rw [hsize']; decide) (by decide) (by rw [hsize']; decide)
      exact decide_eq_true (hfilled i (Nat.zero_le i) hi)
    have hdev : (diskEntry img.disk 2).type ≠ inodeDevice := by
      rw [hregular]
      decide
    have hno : ((allOpened img.disk 2).mem ((allOpened img.disk 2).file 0).ip).inodeNo = 2 := rfl
    have hlens : [(⟨128, 3⟩ : Iovec), ⟨256, 600⟩].map Iovec.written = [3, 600] := by decide
    rw [writesFit_file (by rw [hno]; exact hdev), hno, hlens]
    exact hfit

/-- An element of one byte at an address of the kernel. -/
def kernelByte : UInt64 → UInt8 := fun a => if a = 71 then 128 else if a = 72 then 1 else 0

/-- `filewrite` is called with the address of the kernel. -/
theorem sysWritev_uses_kernel_byte : ∃ img, Runs (Mkfs.main [elevenBlocks]) Mkfs.blank () img ∧
    WritevCall onePage (writevArgs 1) 0 (allOpened img.disk 2) 0 64 1 ∧
    iovecs kernelByte 64 1 = [⟨0x8000000000000000, 1⟩] ∧ ¬InUser onePage 0x8000000000000000 1 ∧
    (∀ write r t, Runs (sysWritevWith write onePage kernelByte 0 (writevArgs 1)) (allOpened img.disk 2) r t →
      ∃ s₁ r s₂, Runs (write 0 0x8000000000000000 1) s₁ r s₂) ∧
    ¬WritevRight onePage kernelByte 0 (writevArgs 1) (allOpened img.disk 2) 0 (iovecs kernelByte 64 1) := by
  obtain ⟨img, hr, hready, -, -⟩ := elevenBlocks_image
  have hcall := writevCall_one img.disk 2
  have helements : iovecs kernelByte 64 1 = [⟨0x8000000000000000, 1⟩] := by decide +kernel
  have hout : ¬InUser onePage 0x8000000000000000 1 := by decide
  refine ⟨img, hr, hcall, helements, hout, fun write r t hrun => ?_, fun hright => ?_⟩
  · obtain ⟨sum, hsum, -⟩ := (runs_sysWritevWith hcall).mp hrun
    rw [helements] at hsum
    exact writeAll_uses hsum (List.mem_singleton_self _)
  · have hin := hright.inUser hcall
    rw [helements] at hin
    exact hout (hin _ (List.mem_singleton_self _))

end FtosFfs.Fs
