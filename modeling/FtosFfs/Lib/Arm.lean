import Mathlib.Algebra.GroupWithZero.Nat
import Mathlib.Data.List.Basic
import Mathlib.Logic.Function.Basic

/-! The instructions of A64 that save and restore registers on the stack, and what pushes and pops of
registers do to the registers and to memory. -/

namespace FtosFfs.Lib.Arm

abbrev Word : Type := BitVec 64

/-- There are the registers `x0` to `x30`. -/
scoped instance neZeroRegs : NeZero 31 := ⟨by decide⟩

/-- A register: `xzr` reads as zero and ignores what is written to it. -/
inductive Reg
  | x (i : Fin 31)
  | xzr
  deriving DecidableEq

inductive SysReg
  | spsrEl1 | elrEl1 | spEl0 | tpidrEl0
  deriving DecidableEq

/-- The registers that the code saves, restores or uses.  `q1` to `q31`, `FPCR` and `FPSR` are not among them. -/
structure Cpu where
  x : Fin 31 → Word
  sp : Word
  pc : Word
  q0 : Word × Word
  sys : SysReg → Word

/-- Memory: the word at each address. -/
abbrev Mem : Type := Word → Word

structure State where
  cpu : Cpu
  mem : Mem

/-- The registers that one instruction saves or restores, 16 bytes of them. -/
inductive Pair
  | regs (a b : Reg)
  | q0
  deriving DecidableEq

inductive Instr
  /-- `stp a, b, [sp, #-16]!` and `str q0, [sp, #-16]!` -/
  | push (p : Pair)
  /-- `ldp a, b, [sp], #16` and `ldr q0, [sp], #16` -/
  | pop (p : Pair)
  /-- `mov xd, sp` -/
  | movFromSp (d : Fin 31)
  /-- `mov sp, xs` -/
  | movToSp (s : Fin 31)
  /-- `str xa, [xb]` -/
  | str (a b : Fin 31)
  | mrs (d : Fin 31) (r : SysReg)
  | msr (r : SysReg) (s : Fin 31)
  /-- `dsb`, `isb` and `ic`. -/
  | barrier
  | ret (s : Fin 31)
  | eret
  deriving DecidableEq

namespace Cpu

def reg (c : Cpu) : Reg → Word
  | .x i => c.x i
  | .xzr => 0

def setReg (c : Cpu) : Reg → Word → Cpu
  | .x i, v => { c with x := Function.update c.x i v }
  | .xzr, _ => c

def read (c : Cpu) : Pair → Word × Word
  | .regs a b => (c.reg a, c.reg b)
  | .q0 => c.q0

def write (c : Cpu) : Pair → Word × Word → Cpu
  | .regs a b, w => (c.setReg a w.1).setReg b w.2
  | .q0, w => { c with q0 := w }

def setSp (c : Cpu) (v : Word) : Cpu := { c with sp := v }

@[simp] theorem setSp_sp (c : Cpu) (v : Word) : (c.setSp v).sp = v := rfl

@[simp] theorem setSp_self (c : Cpu) : c.setSp c.sp = c := rfl

@[simp] theorem setSp_setSp (c : Cpu) (v w : Word) : (c.setSp v).setSp w = c.setSp w := rfl

@[simp] theorem read_setSp (c : Cpu) (v : Word) (p : Pair) : (c.setSp v).read p = c.read p := by
  cases p with
  | regs a b => cases a <;> cases b <;> rfl
  | q0 => rfl

theorem write_setSp (c : Cpu) (v : Word) (p : Pair) (w : Word × Word) :
    (c.setSp v).write p w = (c.write p w).setSp v := by
  cases p with
  | regs a b => cases a <;> cases b <;> rfl
  | q0 => rfl

@[simp] theorem write_sp (c : Cpu) (p : Pair) (w : Word × Word) : (c.write p w).sp = c.sp := by
  cases p with
  | regs a b => cases a <;> cases b <;> rfl
  | q0 => rfl

end Cpu

/-- `m` with the words `w` at `p` and `p + 8`. -/
def Mem.setPair (m : Mem) (p : Word) (w : Word × Word) : Mem :=
  Function.update (Function.update m p w.1) (p + 8) w.2

/-- The stack pointer is aligned, as every access through it requires. -/
def Aligned (p : Word) : Prop := p.toNat % 16 = 0

instance (p : Word) : Decidable (Aligned p) := inferInstanceAs (Decidable (_ = _))

/-- An instruction, without a result when it faults. -/
def exec (s : State) : Instr → Option State
  | .push p =>
    if Aligned s.cpu.sp then
      some ⟨s.cpu.setSp (s.cpu.sp - 16), s.mem.setPair (s.cpu.sp - 16) (s.cpu.read p)⟩
    else none
  | .pop p =>
    if Aligned s.cpu.sp then
      some ⟨(s.cpu.write p (s.mem s.cpu.sp, s.mem (s.cpu.sp + 8))).setSp (s.cpu.sp + 16), s.mem⟩
    else none
  | .movFromSp d => some ⟨s.cpu.setReg (.x d) s.cpu.sp, s.mem⟩
  | .movToSp r => some ⟨s.cpu.setSp (s.cpu.x r), s.mem⟩
  | .str a b =>
    if (s.cpu.x b).toNat % 8 = 0 then some ⟨s.cpu, Function.update s.mem (s.cpu.x b) (s.cpu.x a)⟩ else none
  | .mrs d r => some ⟨s.cpu.setReg (.x d) (s.cpu.sys r), s.mem⟩
  | .msr r v => some ⟨{ s.cpu with sys := Function.update s.cpu.sys r (s.cpu.x v) }, s.mem⟩
  | .barrier => some s
  | .ret r => some ⟨{ s.cpu with pc := s.cpu.x r }, s.mem⟩
  | .eret => some ⟨{ s.cpu with pc := s.cpu.sys .elrEl1 }, s.mem⟩

/-- Instructions one after the other. -/
def run (is : List Instr) (s : State) : Option State := is.foldlM exec s

@[simp] theorem run_nil (s : State) : run [] s = some s := rfl

@[simp] theorem run_cons (i : Instr) (is : List Instr) (s : State) :
    run (i :: is) s = (exec s i).bind (run is) := rfl

theorem run_append (is js : List Instr) (s : State) : run (is ++ js) s = (run is s).bind (run js) := by
  induction is generalizing s with
  | nil => rfl
  | cons i is ih =>
    rw [List.cons_append, run_cons, run_cons]
    cases exec s i with
    | none => rfl
    | some t => exact ih t

/-! ### Words in memory -/

/-- The pairs of words from `p` on. -/
def Holds (m : Mem) : Word → List (Word × Word) → Prop
  | _, [] => True
  | p, w :: ws => m p = w.1 ∧ m (p + 8) = w.2 ∧ Holds m (p + 16) ws

/-- The address is one of the `n` pairs of words from `p` on. -/
def Inside (p : Word) (n : Nat) (a : Word) : Prop := (a - p).toNat < 16 * n

/-- The address `n` pairs of words above `p`. -/
def above (p : Word) (n : Nat) : Word := p + BitVec.ofNat 64 (16 * n)

/-- The address `n` pairs of words below `p`. -/
def below (p : Word) (n : Nat) : Word := p - BitVec.ofNat 64 (16 * n)

@[simp] theorem above_zero (p : Word) : above p 0 = p := by
  unfold above
  bv_omega

@[simp] theorem below_zero (p : Word) : below p 0 = p := by
  unfold below
  bv_omega

theorem above_succ (p : Word) (n : Nat) : above (p + 16) n = above p (n + 1) := by
  unfold above
  bv_omega

theorem below_succ (p : Word) (n : Nat) : below (p - 16) n = below p (n + 1) := by
  unfold below
  bv_omega

theorem above_below (p : Word) (n : Nat) : above (below p n) n = p := by
  unfold above below
  bv_omega

theorem Inside.mono {p a : Word} {m n : Nat} (h : Inside p m a) (hmn : m ≤ n) : Inside p n a := by
  unfold Inside at *
  omega

/-- The words stay where no address of theirs is written. -/
theorem Holds.congr {m m' : Mem} {p : Word} {ws : List (Word × Word)} (h : Holds m p ws)
    (hn : 16 * ws.length < 2 ^ 64) (hm : ∀ a, Inside p ws.length a → m' a = m a) : Holds m' p ws := by
  induction ws generalizing p with
  | nil => trivial
  | cons w ws ih =>
    obtain ⟨ha, hb, hrest⟩ := h
    rw [List.length_cons] at hn hm
    refine ⟨?_, ?_, ih hrest (by omega) fun c hc => hm c ?_⟩
    · rw [hm p ?_, ha]
      unfold Inside
      bv_omega
    · rw [hm (p + 8) ?_, hb]
      unfold Inside
      bv_omega
    · unfold Inside at hc ⊢
      bv_omega

theorem holds_append {m : Mem} {p : Word} {us ws : List (Word × Word)} :
    Holds m p (us ++ ws) ↔ Holds m p us ∧ Holds m (above p us.length) ws := by
  induction us generalizing p with
  | nil => simp [Holds]
  | cons u us ih =>
    rw [List.cons_append]
    show m p = u.1 ∧ m (p + 8) = u.2 ∧ Holds m (p + 16) (us ++ ws) ↔
      (m p = u.1 ∧ m (p + 8) = u.2 ∧ Holds m (p + 16) us) ∧ Holds m (above p (us.length + 1)) ws
    rw [ih, above_succ, and_assoc, and_assoc]

theorem setPair_ne (m : Mem) {p a : Word} (w : Word × Word) (h : ¬Inside p 1 a) : m.setPair p w a = m a := by
  unfold Mem.setPair
  unfold Inside at h
  have ha : a ≠ p + 8 := by bv_omega
  have hb : a ≠ p := by bv_omega
  rw [Function.update_of_ne ha, Function.update_of_ne hb]

theorem setPair_holds (m : Mem) (p : Word) (w : Word × Word) : Holds (m.setPair p w) p [w] := by
  have hne : p ≠ p + 8 := by bv_omega
  refine ⟨?_, Function.update_self .., trivial⟩
  unfold Mem.setPair
  rw [Function.update_of_ne hne, Function.update_self]

/-- The `n` pairs of words from `p` on. -/
def Mem.pairs (m : Mem) : Word → Nat → List (Word × Word)
  | _, 0 => []
  | p, n + 1 => (m p, m (p + 8)) :: m.pairs (p + 16) n

/-- `m` with the pairs of words from `p` on. -/
def Mem.fill (m : Mem) : Word → List (Word × Word) → Mem
  | _, [] => m
  | p, w :: ws => (m.fill (p + 16) ws).setPair p w

theorem Holds.pairs {m : Mem} {p : Word} {ws : List (Word × Word)} (h : Holds m p ws) :
    m.pairs p ws.length = ws := by
  induction ws generalizing p with
  | nil => rfl
  | cons w ws ih =>
    obtain ⟨ha, hb, hrest⟩ := h
    rw [List.length_cons, Mem.pairs, ha, hb, ih hrest]

theorem fill_frame {m : Mem} {p a : Word} {ws : List (Word × Word)} (hn : 16 * ws.length < 2 ^ 64)
    (h : ¬Inside p ws.length a) : m.fill p ws a = m a := by
  induction ws generalizing p with
  | nil => rfl
  | cons w ws ih =>
    rw [List.length_cons] at hn h
    have hone : ¬Inside p 1 a := fun h' => h (h'.mono (by omega))
    have hrest : ¬Inside (p + 16) ws.length a := by
      unfold Inside at *
      bv_omega
    rw [Mem.fill, setPair_ne _ w hone, ih (by omega) hrest]

theorem fill_holds (m : Mem) (p : Word) {ws : List (Word × Word)} (hn : 16 * ws.length < 2 ^ 64) :
    Holds (m.fill p ws) p ws := by
  induction ws generalizing p with
  | nil => trivial
  | cons w ws ih =>
    rw [List.length_cons] at hn
    obtain ⟨ha, hb, -⟩ := setPair_holds (m.fill (p + 16) ws) p w
    refine ⟨ha, hb, (ih (p + 16) (by omega)).congr (by omega) fun a hin => setPair_ne _ w ?_⟩
    unfold Inside at *
    bv_omega

/-! ### Pushes and pops -/

theorem Aligned.sub {p : Word} (h : Aligned p) : Aligned (p - 16) := by
  unfold Aligned at *
  bv_omega

theorem Aligned.add {p : Word} (h : Aligned p) : Aligned (p + 16) := by
  unfold Aligned at *
  bv_omega

theorem Aligned.below {p : Word} (h : Aligned p) (n : Nat) : Aligned (below p n) := by
  unfold Aligned Arm.below at *
  bv_omega

/-- What pushes of `ps` leave in memory: the last of them is the lowest. -/
structure Pushed (c : Cpu) (ps : List Pair) (m m' : Mem) : Prop where
  holds : Holds m' (below c.sp ps.length) (ps.reverse.map c.read)
  frame : ∀ a, ¬Inside (below c.sp ps.length) ps.length a → m' a = m a

theorem run_pushes {c : Cpu} (m : Mem) (ps : List Pair) (ha : Aligned c.sp) (hn : 16 * ps.length < 2 ^ 64) :
    ∃ m', run (ps.map .push) ⟨c, m⟩ = some ⟨c.setSp (below c.sp ps.length), m'⟩ ∧ Pushed c ps m m' := by
  induction ps generalizing c m with
  | nil =>
    refine ⟨m, ?_, trivial, fun _ _ => rfl⟩
    rw [List.length_nil, below_zero, Cpu.setSp_self]
    rfl
  | cons p ps ih =>
    rw [List.length_cons] at hn ⊢
    obtain ⟨m', hrun, hholds, hframe⟩ := ih (c := c.setSp (c.sp - 16)) (m.setPair (c.sp - 16) (c.read p))
      ha.sub (by omega)
    rw [Cpu.setSp_sp, below_succ] at hrun hholds hframe
    refine ⟨m', ?_, ?_, fun a hout => ?_⟩
    · rw [List.map_cons, run_cons, exec, if_pos ha]
      exact hrun
    · rw [List.reverse_cons, List.map_append, List.length_cons, holds_append, List.length_map,
        List.length_reverse]
      have hread : (ps.reverse.map (c.setSp (c.sp - 16)).read) = ps.reverse.map c.read :=
        List.map_congr_left fun q _ => c.read_setSp (c.sp - 16) q
      have hplace : above (below c.sp (ps.length + 1)) ps.length = c.sp - 16 := by
        unfold above below
        bv_omega
      rw [← hread, hplace]
      -- The other pushes are below this one.
      have hone : 16 * [c.read p].length < 2 ^ 64 := show 16 * 1 < 2 ^ 64 by decide
      refine ⟨hholds, (setPair_holds m (c.sp - 16) (c.read p)).congr hone fun a hin => hframe a ?_⟩
      have hin : (a - (c.sp - 16)).toNat < 16 * 1 := hin
      unfold Inside below
      bv_omega
    · rw [List.length_cons] at hout
      have hlow : ¬Inside (below c.sp (ps.length + 1)) ps.length a := fun h => hout (h.mono (by omega))
      have htop : ¬Inside (c.sp - 16) 1 a := by
        unfold Inside below at *
        bv_omega
      rw [hframe a hlow, setPair_ne m _ htop]

/-- The registers after pops of the words. -/
def Cpu.load (c : Cpu) : List Pair → List (Word × Word) → Cpu
  | p :: ps, w :: ws => (c.write p w).load ps ws
  | _, _ => c

theorem Cpu.load_setSp (c : Cpu) (v : Word) (ps : List Pair) (ws : List (Word × Word)) :
    (c.setSp v).load ps ws = (c.load ps ws).setSp v := by
  induction ps generalizing c ws with
  | nil => cases ws <;> rfl
  | cons p ps ih =>
    cases ws with
    | nil => rfl
    | cons w ws =>
      show ((c.setSp v).write p w).load ps ws = ((c.write p w).load ps ws).setSp v
      rw [write_setSp, ih]

theorem run_pops {c : Cpu} {m : Mem} (ps : List Pair) {ws : List (Word × Word)} (ha : Aligned c.sp)
    (hlen : ps.length = ws.length) (hws : Holds m c.sp ws) :
    run (ps.map .pop) ⟨c, m⟩ = some ⟨(c.load ps ws).setSp (above c.sp ps.length), m⟩ := by
  induction ps generalizing c ws with
  | nil =>
    cases ws with
    | nil => rw [List.length_nil, above_zero]; rfl
    | cons w ws => cases hlen
  | cons p ps ih =>
    cases ws with
    | nil => cases hlen
    | cons w ws =>
      obtain ⟨hfst, hsnd, hrest⟩ := hws
      have hlen : ps.length = ws.length := by simpa using hlen
      have hpair : (m c.sp, m (c.sp + 8)) = w := Prod.ext hfst hsnd
      rw [List.map_cons, run_cons, exec, if_pos ha, hpair]
      have h := ih (c := (c.write p w).setSp (c.sp + 16)) ha.add hlen hrest
      rw [Cpu.setSp_sp, above_succ, Cpu.load_setSp, Cpu.setSp_setSp] at h
      exact h

end FtosFfs.Lib.Arm
