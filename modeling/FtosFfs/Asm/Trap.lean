import FtosFfs.Asm.Switch

/-! The entry to the kernel and the return to user mode, `asm/trap.S`: the trap frame of a system call
and the frame that `fork` makes for the child. -/

namespace FtosFfs.Asm

open Lib Lib.Arm

/-! ### Entry and return -/

/-- `Trapframe`. -/
structure Trapframe where
  spsr : Word
  elr : Word
  sp : Word
  tpidr : Word
  x : Fin 31 → Word
  padding : Word
  q0 : Word × Word

/-- The number of pairs of words of a trap frame. -/
abbrev framePairs : Nat := 19

/-- The words of a trap frame. -/
def Trapframe.words (f : Trapframe) : List (Word × Word) :=
  [(f.spsr, f.elr), (f.sp, f.tpidr), (f.x 0, f.x 1), (f.x 2, f.x 3), (f.x 4, f.x 5), (f.x 6, f.x 7),
    (f.x 8, f.x 9), (f.x 10, f.x 11), (f.x 12, f.x 13), (f.x 14, f.x 15), (f.x 16, f.x 17), (f.x 18, f.x 19),
    (f.x 20, f.x 21), (f.x 22, f.x 23), (f.x 24, f.x 25), (f.x 26, f.x 27), (f.x 28, f.x 29),
    (f.x 30, f.padding), f.q0]

/-- What `trap_entry` pushes first. -/
def trapSaves : List Pair :=
  [.q0, .regs (x 30) .xzr, .regs (x 28) (x 29), .regs (x 26) (x 27), .regs (x 24) (x 25), .regs (x 22) (x 23),
    .regs (x 20) (x 21), .regs (x 18) (x 19), .regs (x 16) (x 17), .regs (x 14) (x 15), .regs (x 12) (x 13),
    .regs (x 10) (x 11), .regs (x 8) (x 9), .regs (x 6) (x 7), .regs (x 4) (x 5), .regs (x 2) (x 3),
    .regs (x 0) (x 1)]

/-- `trap_entry`, up to the call of `trap_global_handler`. -/
def trapEntry : List Instr :=
  trapSaves.map .push ++ ([.mrs 12 .tpidrEl0, .mrs 11 .spEl0, .mrs 10 .elrEl1, .mrs 9 .spsrEl1] ++
    ([.regs (x 11) (x 12), .regs (x 9) (x 10)].map .push ++ [.movFromSp 0]))

/-- What `trap_return` pops last. -/
def trapLoads : List Pair :=
  [.regs (x 0) (x 1), .regs (x 2) (x 3), .regs (x 4) (x 5), .regs (x 6) (x 7), .regs (x 8) (x 9),
    .regs (x 10) (x 11), .regs (x 12) (x 13), .regs (x 14) (x 15), .regs (x 16) (x 17), .regs (x 18) (x 19),
    .regs (x 20) (x 21), .regs (x 22) (x 23), .regs (x 24) (x 25), .regs (x 26) (x 27), .regs (x 28) (x 29),
    .regs (x 30) .xzr, .q0]

/-- `trap_return`. -/
def trapReturn : List Instr :=
  [.regs (x 9) (x 10), .regs (x 11) (x 12)].map .pop ++
    ([.msr .spsrEl1 9, .msr .elrEl1 10, .msr .spEl0 11, .msr .tpidrEl0 12] ++
      (trapLoads.map .pop ++ [.barrier, .barrier, .barrier, .eret]))

/-- The frame that a trap saves. -/
def trapframe (c : Cpu) : Trapframe where
  spsr := c.sys .spsrEl1
  elr := c.sys .elrEl1
  sp := c.sys .spEl0
  tpidr := c.sys .tpidrEl0
  x := c.x
  padding := 0
  q0 := c.q0

/-- The registers that the frame has are as in the frame, and the stack pointer of the kernel is `sp`. -/
structure Restored (f : Trapframe) (sp : Word) (c : Cpu) : Prop where
  pc : c.pc = f.elr
  x : c.x = f.x
  q0 : c.q0 = f.q0
  userSp : c.sys .spEl0 = f.sp
  tpidr : c.sys .tpidrEl0 = f.tpidr
  spsr : c.sys .spsrEl1 = f.spsr
  sp : c.sp = sp

/-- The registers after the moves from the system registers. -/
def loadSys (c : Cpu) : Cpu :=
  (((c.setReg (x 12) (c.sys .tpidrEl0)).setReg (x 11) (c.sys .spEl0)).setReg (x 10) (c.sys .elrEl1)).setReg
    (x 9)
    (c.sys .spsrEl1)

theorem read_trapSaves (c : Cpu) :
    ([.regs (x 11) (x 12), .regs (x 9) (x 10)] : List Pair).reverse.map (loadSys c).read ++
      trapSaves.reverse.map c.read = (trapframe c).words := rfl

theorem run_trapEntry {c : Cpu} (m : Mem) (hsp : Aligned c.sp) :
    ∃ c' m', run trapEntry ⟨c, m⟩ = some ⟨c', m'⟩ ∧ c'.sp = below c.sp framePairs ∧
      c'.x 0 = below c.sp framePairs ∧
      Holds m' (below c.sp framePairs) (trapframe c).words ∧
      ∀ a, ¬Inside (below c.sp framePairs) framePairs a → m' a = m a := by
  obtain ⟨m₁, hpush₁, hsaved₁, hframe₁⟩ := run_pushes m trapSaves hsp (by decide)
  have hlen : trapSaves.length = 17 := rfl
  rw [hlen] at hpush₁ hsaved₁ hframe₁
  let c₁ := c.setSp (below c.sp 17)
  have hmrs : run [.mrs 12 .tpidrEl0, .mrs 11 .spEl0, .mrs 10 .elrEl1, .mrs 9 .spsrEl1] ⟨c₁, m₁⟩ =
      some ⟨loadSys c₁, m₁⟩ := rfl
  obtain ⟨m₂, hpush₂, hsaved₂, hframe₂⟩ := run_pushes
    (c := loadSys c₁) m₁ [.regs (x 11) (x 12), .regs (x 9) (x 10)]
    (hsp.below 17) (by decide)
  have hbelow : below (loadSys c₁).sp 2 = below c.sp framePairs := by
    show below (below c.sp 17) 2 = below c.sp 19
    unfold below
    bv_omega
  have habove : above (below c.sp framePairs) 2 = below c.sp 17 := by
    unfold above below framePairs
    bv_omega
  rw [show [Pair.regs (x 11) (x 12), .regs (x 9) (x 10)].length = 2 from rfl, hbelow] at hpush₂ hsaved₂ hframe₂
  let c₂ := (loadSys c₁).setSp (below c.sp framePairs)
  have hmov : run [.movFromSp 0] ⟨c₂, m₂⟩ = some ⟨c₂.setReg (x 0) c₂.sp, m₂⟩ := rfl
  refine ⟨c₂.setReg (x 0) c₂.sp, m₂, ?_, rfl, rfl, ?_, fun a hout => ?_⟩
  · rw [trapEntry, run_append, hpush₁, Option.bind_some, run_append, hmrs, Option.bind_some, run_append, hpush₂,
      Option.bind_some, hmov]
  · rw [← read_trapSaves, holds_append, List.length_map, List.length_reverse]
    refine ⟨hsaved₂, ?_⟩
    show Holds m₂ (above (below c.sp framePairs) 2) _
    rw [habove]
    refine hsaved₁.congr (by decide : 16 * 17 < 2 ^ 64) fun a hin => hframe₂ a ?_
    have hin : Inside (below c.sp 17) 17 a := hin
    unfold Inside below framePairs at *
    bv_omega
  · have hhigh : ¬Inside (below c.sp 17) 17 a := by
      unfold Inside below framePairs at *
      bv_omega
    rw [hframe₂ a (fun h => hout (h.mono (by decide))), hframe₁ a hhigh]

theorem load_trapLoads (c : Cpu) (f : Trapframe) :
    (c.load trapLoads (f.words.drop 2)).x = f.x ∧ (c.load trapLoads (f.words.drop 2)).q0 = f.q0 ∧
      (c.load trapLoads (f.words.drop 2)).sys = c.sys := by
  refine ⟨funext fun i => ?_, rfl, rfl⟩
  fin_cases i <;> rfl

/-- The registers after the moves to the system registers. -/
def storeSys (c : Cpu) : Cpu where
  x := c.x
  sp := c.sp
  pc := c.pc
  q0 := c.q0
  sys
    | .spsrEl1 => c.x 9
    | .elrEl1 => c.x 10
    | .spEl0 => c.x 11
    | .tpidrEl0 => c.x 12

theorem run_storeSys (c : Cpu) (m : Mem) :
    run [.msr .spsrEl1 9, .msr .elrEl1 10, .msr .spEl0 11, .msr .tpidrEl0 12] ⟨c, m⟩ = some
      ⟨storeSys c, m⟩ := by
  have hsys : Function.update (Function.update (Function.update (Function.update c.sys .spsrEl1 (c.x 9)) .elrEl1
      (c.x 10)) .spEl0 (c.x 11)) .tpidrEl0 (c.x 12) = (storeSys c).sys := by
    funext r
    cases r <;> rfl
  show some (State.mk { c with sys := _ } m) = _
  rw [hsys]
  rfl

theorem storeSys_load (c : Cpu) (f : Trapframe) (v : Word) :
    let c' := storeSys ((c.load [.regs (x 9) (x 10), .regs (x 11) (x 12)] (f.words.take 2)).setSp v)
    c'.sp = v ∧ c'.sys .spsrEl1 = f.spsr ∧ c'.sys .elrEl1 = f.elr ∧ c'.sys .spEl0 = f.sp ∧
      c'.sys .tpidrEl0 = f.tpidr :=
  ⟨rfl, rfl, rfl, rfl, rfl⟩

theorem run_trapReturn {c : Cpu} {m : Mem} {f : Trapframe} (hsp : Aligned c.sp) (hf : Holds m c.sp f.words) :
    ∃ c', run trapReturn ⟨c, m⟩ = some ⟨c', m⟩ ∧ Restored f (above c.sp framePairs) c' := by
  have hsplit : f.words = f.words.take 2 ++ f.words.drop 2 := (List.take_append_drop 2 f.words).symm
  rw [hsplit, holds_append] at hf
  obtain ⟨hlow, hhigh⟩ := hf
  have hhigh : Holds m (above c.sp 2) (f.words.drop 2) := hhigh
  have hpop₁ := run_pops (c := c) [.regs (x 9) (x 10), .regs (x 11) (x 12)] hsp
    (show 2 = (f.words.take 2).length from rfl) hlow
  have hpop₁ : run ([.regs (x 9) (x 10), .regs (x 11) (x 12)].map .pop) ⟨c, m⟩ =
      some ⟨(c.load [.regs (x 9) (x 10), .regs (x 11) (x 12)] (f.words.take 2)).setSp (above c.sp 2), m⟩ :=
        hpop₁
  obtain ⟨hsp₁, hspsr, helr, huser, htpidr⟩ := storeSys_load c f (above c.sp 2)
  generalize (c.load [.regs (x 9) (x 10), .regs (x 11) (x 12)] (f.words.take 2)).setSp (above c.sp 2) = c₁ at *
  have habove : Aligned (above c.sp 2) := by
    unfold Aligned above at *
    bv_omega
  rw [← hsp₁] at hhigh habove
  have hpop₂ := run_pops trapLoads habove (show 17 = (f.words.drop 2).length from rfl) hhigh
  obtain ⟨hx, hq0, hsys⟩ := load_trapLoads (storeSys c₁) f
  generalize (storeSys c₁).load trapLoads (f.words.drop 2) = l at *
  have htop : above (storeSys c₁).sp trapLoads.length = above c.sp framePairs := by
    rw [hsp₁]
    show above (above c.sp 2) 17 = above c.sp 19
    unfold above
    bv_omega
  rw [htop] at hpop₂
  have heret : run [.barrier, .barrier, .barrier, .eret] ⟨l.setSp (above c.sp framePairs), m⟩ =
      some ⟨{ l.setSp (above c.sp framePairs) with pc := l.sys .elrEl1 }, m⟩ := rfl
  rw [← hsys] at hspsr helr huser htpidr
  refine ⟨{ l.setSp (above c.sp framePairs) with pc := l.sys .elrEl1 }, ?_, helr, hx, hq0, huser, htpidr,
    hspsr, rfl⟩
  rw [trapReturn, run_append, hpop₁, Option.bind_some, run_append, run_storeSys, Option.bind_some,
    run_append, hpop₂,
    Option.bind_some, heret]

/-- The frame with the result of a system call. -/
def Trapframe.returning (f : Trapframe) (r : Word) : Trapframe := { f with x := Function.update f.x 0 r }

/-- The address of `x[0]` in the frame at `p`. -/
def resultAt (p : Word) : Word := p + 32

/-- A frame in memory of which but `x[0]` changes. -/
theorem holds_returning {m m' : Mem} {p : Word} {f : Trapframe} (h : Holds m p f.words)
    (hm : ∀ a, Inside p framePairs a → a ≠ resultAt p → m' a = m a) :
    Holds m' p (f.returning (m' (resultAt p))).words := by
  have hsplit : f.words = f.words.take 2 ++ (f.x 0, f.x 1) :: f.words.drop 3 := rfl
  rw [hsplit, holds_append] at h
  obtain ⟨hlow, -, hx1, hhigh⟩ := h
  show Holds m' p (f.words.take 2 ++ (m' (resultAt p), f.x 1) :: f.words.drop 3)
  rw [holds_append]
  refine ⟨hlow.congr (by decide : 16 * 2 < 2 ^ 64) fun a hin => hm a ?_ ?_, rfl, ?_,
    hhigh.congr (by decide : 16 * 16 < 2 ^ 64) fun a hin => hm a ?_ ?_⟩
  · exact hin.mono (show 2 ≤ 19 by decide)
  · have hin : Inside p 2 a := hin
    unfold resultAt Inside at *
    bv_omega
  · have hat : m' (above p 2 + 8) = m (above p 2 + 8) := by
      apply hm
      · unfold Inside above framePairs
        bv_omega
      · unfold resultAt above
        bv_omega
    exact hat.trans hx1
  · have hin : Inside (above p 2 + 16) 16 a := hin
    unfold Inside above framePairs at *
    bv_omega
  · have hin : Inside (above p 2 + 16) 16 a := hin
    unfold resultAt Inside above at *
    bv_omega

/-- A system call: from the trap on, whatever the kernel does that leaves the stack pointer as it was and of the
frame changes but `x[0]`, the return to user mode restores the registers of the frame, with the result in `x0`. -/
theorem trap_returns {c : Cpu} (m : Mem) (hsp : Aligned c.sp) :
    ∃ c' m', run trapEntry ⟨c, m⟩ = some ⟨c', m'⟩ ∧ c'.x 0 = c'.sp ∧
      (∀ a, ¬Inside c'.sp framePairs a → m' a = m a) ∧
      ∀ c₂ m₂, c₂.sp = c'.sp → (∀ a, Inside c'.sp framePairs a → a ≠ resultAt c'.sp → m₂ a = m' a) →
        ∃ c₃, run trapReturn ⟨c₂, m₂⟩ = some ⟨c₃, m₂⟩ ∧
          Restored ((trapframe c).returning (m₂ (resultAt c'.sp))) c.sp c₃ := by
  obtain ⟨c', m', hrun, hsp', hx0, hholds, hframe⟩ := run_trapEntry m hsp
  rw [← hsp'] at hx0 hholds hframe
  refine ⟨c', m', hrun, hx0, hframe, fun c₂ m₂ hsp₂ hm => ?_⟩
  have hfound := holds_returning hholds hm
  rw [← hsp₂] at hfound
  have haligned : Aligned c₂.sp := by
    rw [hsp₂, hsp']
    exact hsp.below framePairs
  obtain ⟨c₃, hrun₃, hrestored⟩ := run_trapReturn haligned hfound
  have htop : above c₂.sp framePairs = c.sp := by
    rw [hsp₂, hsp', above_below]
  rw [htop, hsp₂] at hrestored
  exact ⟨c₃, hrun₃, hrestored⟩

/-- A call with the arguments 5 and 6 whose result is 7. -/
theorem trap_returns_call : ∃ c' m' m₂ c₃, run trapEntry ⟨calling 5 6 0x2000, fun _ => 0⟩ = some ⟨c', m'⟩ ∧
    run trapReturn ⟨c', m₂⟩ = some ⟨c₃, m₂⟩ ∧ c₃.x 0 = 7 ∧ c₃.x 1 = 6 ∧ c₃.sp = 0x2000 := by
  obtain ⟨c', m', hrun, -, -, hreturn⟩ := trap_returns (c := calling 5 6 0x2000) (fun _ => 0) (by decide)
  let m₂ : Mem := Function.update m' (resultAt c'.sp) 7
  obtain ⟨c₃, hrun₃, hrestored⟩ := hreturn c' m₂ rfl fun a _ hne => Function.update_of_ne hne _ _
  have hresult : m₂ (resultAt c'.sp) = 7 := Function.update_self ..
  rw [hresult] at hrestored
  exact ⟨c', m', m₂, c₃, hrun, hrun₃, by rw [hrestored.x]; rfl, by rw [hrestored.x]; rfl, hrestored.sp⟩

/-! ### The child of a fork -/

/-- Where `alloc_proc` puts the trap frame on the kernel stack. -/
def frameAt (kstack : Word) : Word := below (kstack + 4096) framePairs

/-- Where `alloc_proc` puts the context, below the trap frame. -/
def contextAt (kstack : Word) : Word := below (frameAt kstack) contextPairs

/-- `alloc_proc`: the kernel stack of the process, and the pointer to its context at `slot`. -/
def allocProc (m : Mem) (slot kstack forkretAt returnAt : Word) : Mem :=
  let m := m.fill (frameAt kstack) (List.replicate framePairs (0, 0))
  let m : Mem := Function.update m slot (contextAt kstack)
  let m := m.fill (contextAt kstack) (List.replicate contextPairs (0, 0))
  m.setPair (contextAt kstack) (forkretAt, returnAt)

/-- `fork`: the frame of the child is a copy of the frame of the parent at `tf`, with `x[0]` zero. -/
def forkFrame (m : Mem) (kstack tf : Word) : Mem :=
  Function.update (m.fill (frameAt kstack) (m.pairs tf framePairs)) (resultAt (frameAt kstack)) 0

/-- The context that `alloc_proc` makes. -/
def newContext (forkretAt returnAt : Word) : Context where
  lr0 := forkretAt
  lr := returnAt
  fp := 0
  x _ := 0

/-- The address is in the page of a kernel stack. -/
def InPage (kstack a : Word) : Prop := (a - kstack).toNat < 4096

/-- The kernel stack of thread `t` is a page that nothing else is in. -/
structure Fresh {κ ι : Type} (L : Stacks ι) (s : Threads κ ι) (t : ι) (kstack tf : Word) : Prop where
  unsaved : s.saved t = none
  apart : ∀ c, s.current c ≠ t
  top : L.top t = kstack + 4096
  aligned : Aligned kstack
  pointer : (L.slot t).toNat % 8 = 0
  slot : ¬InPage kstack (L.slot t)
  owned : ∀ u a, s.Owns L u a → ¬InPage kstack a ∧ a ≠ L.slot t
  parent : ∀ a, Inside tf framePairs a → ¬InPage kstack a ∧ a ≠ L.slot t

theorem inPage_frame {kstack a : Word} (h : Inside (frameAt kstack) framePairs a) : InPage kstack a := by
  unfold InPage Inside frameAt below framePairs at *
  bv_omega

theorem inPage_context {kstack a : Word} (h : Inside (contextAt kstack) contextPairs a) : InPage kstack a := by
  unfold InPage Inside contextAt frameAt below framePairs contextPairs at *
  bv_omega

theorem not_inside_frame {kstack a : Word} (h : Inside (contextAt kstack) contextPairs a) :
    ¬Inside (frameAt kstack) framePairs a := by
  unfold Inside contextAt frameAt below framePairs contextPairs at *
  bv_omega

theorem inside_one {p a : Word} {n : Nat} (hn : 0 < n) (h : Inside p 1 a) : Inside p n a := h.mono hn

theorem allocProc_frame {m : Mem} {slot kstack forkretAt returnAt a : Word} (ha : ¬InPage kstack a)
    (hne : a ≠ slot) :
    allocProc m slot kstack forkretAt returnAt a = m a := by
  have hframe : ¬Inside (frameAt kstack) framePairs a := fun h => ha (inPage_frame h)
  have hcontext : ¬Inside (contextAt kstack) contextPairs a := fun h => ha (inPage_context h)
  unfold allocProc
  rw [setPair_ne _ _ fun h => hcontext (inside_one (by decide) h), fill_frame (by decide) hcontext,
    Function.update_of_ne hne, fill_frame (by decide) hframe]

theorem allocProc_slot {m : Mem} {slot kstack forkretAt returnAt : Word} (h : ¬InPage kstack slot) :
    allocProc m slot kstack forkretAt returnAt slot = contextAt kstack := by
  have hcontext : ¬Inside (contextAt kstack) contextPairs slot := fun h' => h (inPage_context h')
  unfold allocProc
  rw [setPair_ne _ _ fun h => hcontext (inside_one (by decide) h), fill_frame (by decide) hcontext,
    Function.update_self]

theorem allocProc_context (m : Mem) (slot kstack forkretAt returnAt : Word) :
    Holds (allocProc m slot kstack forkretAt returnAt) (contextAt kstack)
      (newContext forkretAt returnAt).words := by
  let m' : Mem := Function.update (m.fill (frameAt kstack) (List.replicate framePairs (0, 0))) slot
    (contextAt kstack)
  obtain ⟨-, -, hzero⟩ := fill_holds m' (contextAt kstack)
    (show 16 * (List.replicate contextPairs ((0, 0) : Word × Word)).length < 2 ^ 64 by decide)
  obtain ⟨hlr0, hlr, -⟩ := setPair_holds (m'.fill (contextAt kstack) (List.replicate contextPairs (0, 0)))
    (contextAt kstack) (forkretAt, returnAt)
  refine ⟨hlr0, hlr, hzero.congr (by decide : 16 * 6 < 2 ^ 64) fun a hin => setPair_ne _ _ ?_⟩
  have hin : Inside (contextAt kstack + 16) 6 a := hin
  unfold Inside at *
  bv_omega

/-- The kernel stack that `alloc_proc` and `fork` leave. -/
theorem fork_holds {m : Mem} {slot kstack tf : Word} (forkretAt returnAt : Word) {f : Trapframe}
    (hf : Holds m tf f.words) (hslot : ¬InPage kstack slot)
    (hapart : ∀ a, Inside tf framePairs a → ¬InPage kstack a ∧ a ≠ slot) :
    let m' := forkFrame (allocProc m slot kstack forkretAt returnAt) kstack tf
    Holds m' (contextAt kstack) (newContext forkretAt returnAt).words ∧
      Holds m' (frameAt kstack) (f.returning 0).words ∧ m' slot = contextAt kstack ∧
      ∀ a, ¬InPage kstack a → a ≠ slot → m' a = m a := by
  intro m'
  have hlen : f.words.length = framePairs := rfl
  have hcopy : (allocProc m slot kstack forkretAt returnAt).pairs tf framePairs = f.words := by
    rw [← hlen]
    apply Holds.pairs
    exact hf.congr (by decide : 16 * 19 < 2 ^ 64) fun a hin => allocProc_frame (hapart a hin).1 (hapart a hin).2
  have hout {a : Word} (ha : ¬Inside (frameAt kstack) framePairs a) :
      m' a = allocProc m slot kstack forkretAt returnAt a := by
    have hne : a ≠ resultAt (frameAt kstack) := by
      rintro rfl
      apply ha
      unfold Inside resultAt framePairs
      bv_omega
    show Function.update _ _ _ a = _
    rw [Function.update_of_ne hne, hcopy]
    exact fill_frame (by decide : 16 * 19 < 2 ^ 64) ha
  refine ⟨?_, ?_, ?_, fun a ha hne => ?_⟩
  · exact (allocProc_context m slot kstack forkretAt returnAt).congr (by decide : 16 * 7 < 2 ^ 64) fun a hin =>
      hout (not_inside_frame hin)
  · have hfilled := fill_holds (allocProc m slot kstack forkretAt returnAt) (frameAt kstack)
      (show 16 * f.words.length < 2 ^ 64 by rw [hlen]; decide)
    have hzero : m' (resultAt (frameAt kstack)) = 0 := Function.update_self ..
    rw [← hzero]
    apply holds_returning hfilled
    intro a _ hne
    show Function.update _ _ _ a = _
    rw [Function.update_of_ne hne, hcopy]
  · rw [hout fun h => hslot (inPage_frame h), allocProc_slot hslot]
  · rw [hout fun h => ha (inPage_frame h), allocProc_frame ha hne]

section

variable {κ ι : Type} {L : Stacks ι} {s s₂ : Threads κ ι} {t : ι} {kstack tf forkretAt returnAt : Word}
  {f : Trapframe}

/-- The step in which `fork` makes thread `t`. -/
def forks (L : Stacks ι) (s : Threads κ ι) (t : ι) (kstack tf forkretAt returnAt : Word) : Label κ ι :=
  .create t (newContext forkretAt returnAt) (frameAt kstack)
    (forkFrame (allocProc s.mem (L.slot t) kstack forkretAt returnAt) kstack tf)

theorem Fresh.room (h : Fresh L s t kstack tf) : Room L s (frameAt kstack) t := by
  have htop := h.top
  constructor
  case aligned =>
    have haligned := h.aligned
    unfold Aligned frameAt below framePairs at *
    bv_omega
  case pointer => exact h.pointer
  case fits =>
    rw [htop]
    unfold frameAt below framePairs contextPairs
    bv_omega
  case outside =>
    have hslot := h.slot
    rw [htop]
    unfold InPage frameAt below framePairs contextPairs at *
    bv_omega
  case apart =>
    intro u a hu hhas
    obtain ⟨hpage, hne⟩ := h.owned u a hu
    rcases hhas with hin | heq
    · rw [htop] at hin
      unfold InPage frameAt below framePairs contextPairs at *
      bv_omega
    · exact hne heq

theorem Fresh.disciplined (h : Fresh L s t kstack tf) (hf : Holds s.mem tf f.words) :
    Disciplined L s (forks L s t kstack tf forkretAt returnAt) := by
  obtain ⟨hcontext, -, hslot, hkeep⟩ := fork_holds forkretAt returnAt hf h.slot h.parent
  exact ⟨h.unsaved, h.apart, h.room, hcontext, hslot, fun u a hu =>
    hkeep a (h.owned u a hu).1 (h.owned u a hu).2⟩

variable [DecidableEq κ] [DecidableEq ι]

/-- The first switch to the child of a fork goes to `forkret`, to return to `trap_return`; and `trap_return` with
the stack that `forkret` found goes to user mode with the registers of the system call of the parent, but zero
in `x0`. -/
theorem fork_returns {s₁ : Threads κ ι} {d : κ} (h : (threads L).ReachableUnder (Disciplined L) s)
    (hfresh : Fresh L s t kstack tf) (hf : Holds s.mem tf f.words)
    (hn : (threads L).next s (forks L s t kstack tf forkretAt returnAt) = some s₁)
    (hrun : ((threads L).startingAt s₁).ReachableUnder
      (fun s' a => Disciplined L s' a ∧ (∀ e, a ≠ .switch e t) ∧ a ≠ .reap t) s₂)
    (hcall : Calls L s₂ d t) (hd : Disciplined L s₂ (.switch d t)) :
    ∃ s₃, (threads L).next s₂ (.switch d t) = some s₃ ∧ s₃.current d = t ∧ (s₃.cpu d).pc = forkretAt ∧
      (s₃.cpu d).x 30 = returnAt ∧
      ∀ c m, c.sp = (s₃.cpu d).sp → (∀ a, Inside c.sp framePairs a → m a = s₃.mem a) →
        ∃ c', run trapReturn ⟨c, m⟩ = some ⟨c', m⟩ ∧ Restored (f.returning 0) (L.top t) c' := by
  have hsound₁ := (sound_reachable h).step (hfresh.disciplined hf) hn
  obtain ⟨-, hframe, -, -⟩ := fork_holds forkretAt returnAt hf hfresh.slot hfresh.parent
  cases hn
  obtain ⟨hsound₂, hsaved₂, hkeep₂⟩ := hsound₁.kept_run (Function.update_self ..) hrun
  obtain ⟨s₃, hn₃, -, hresumed, hcurrent, -, hkeep₃⟩ := hsound₂.switch hcall hd hsaved₂
  refine ⟨s₃, hn₃, hcurrent, hresumed.pc, hresumed.lr, fun c m hsp hm => ?_⟩
  have hat : c.sp = frameAt kstack := hsp.trans hresumed.sp
  have htop : L.top t = above (frameAt kstack) framePairs := by
    rw [hfresh.top]
    exact (above_below (kstack + 4096) framePairs).symm
  -- The frame is the part of the stack above the context.
  have hhas {a : Word} (ha : Inside (frameAt kstack) framePairs a) :
    L.Has t (below (frameAt kstack) contextPairs) a := by
    left
    rw [htop]
    unfold Inside above below framePairs contextPairs at *
    bv_omega
  have hfound : Holds m c.sp (f.returning 0).words := by
    rw [hat] at hm ⊢
    apply hframe.congr (by decide : 16 * 19 < 2 ^ 64)
    intro a ha
    have hno := hd.apart t a ⟨_, _, hsaved₂, hhas ha⟩
    rw [hm a ha, hkeep₃ a (fun hin => hno (.inl (Nat.lt_of_lt_of_le hin hd.fits))) fun heq => hno (.inr heq),
      hkeep₂ a (hhas ha)]
  have haligned : Aligned c.sp := by
    rw [hat]
    exact hfresh.room.aligned
  obtain ⟨c', hreturn, hrestored⟩ := run_trapReturn haligned hfound
  rw [hat, ← htop] at hrestored
  exact ⟨c', hreturn, hrestored⟩

end

/-- Distinct registers. -/
def parentFrame : Trapframe where
  spsr := 0
  elr := 0x80
  sp := 0x7000
  tpidr := 0
  x i := BitVec.ofNat 64 (i + 1)
  padding := 0
  q0 := (1, 2)

/-- The parent runs, with a trap frame on its stack. -/
def parentThread : Threads Unit Bool where
  cpu _ := calling 0x100 (contextAt 0x2000) 0x1e00
  mem := Mem.fill (fun _ => 0) 0x1ed0 parentFrame.words
  current _ := false
  saved _ := none

/-- The parent made the child, which waits. -/
structure Forked (s : Threads Unit Bool) : Prop where
  next : (threads twoStacks).next parentThread
    (forks twoStacks parentThread true 0x2000 0x1ed0 0x500 0x600) = some s
  fresh : Fresh twoStacks parentThread true 0x2000 0x1ed0
  holds : Holds parentThread.mem 0x1ed0 parentFrame.words
  sound : Sound twoStacks s
  saved : s.saved true = some (newContext 0x500 0x600, frameAt 0x2000)
  calls : Calls twoStacks s () true
  room : Room twoStacks s (s.cpu ()).sp (s.current ())
  sp : (s.cpu ()).sp = 0x1e00
  current : s.current () = false

theorem parentThread_init : (threads twoStacks).init parentThread := ⟨fun _ _ _ => rfl, fun _ => rfl⟩

theorem parentThread_forks : ∃ s, Forked s := by
  have hf : Holds parentThread.mem 0x1ed0 parentFrame.words := fill_holds _ _ (by decide : 16 * 19 < 2 ^ 64)
  have hfresh : Fresh twoStacks parentThread true 0x2000 0x1ed0 := by
    constructor
    case unsaved => rfl
    case apart => exact fun _ => Bool.false_ne_true
    case top => rfl
    case aligned => decide
    case pointer => decide
    case slot =>
      unfold InPage
      decide
    case owned =>
      rintro u a ⟨k, sp, hu, -⟩
      cases hu
    case parent =>
      intro a ha
      have hslot : twoStacks.slot true = 0x108 := rfl
      rw [hslot]
      unfold Inside InPage framePairs at *
      constructor <;> bv_omega
  obtain ⟨s₁, hn⟩ : ∃ s₁, (threads twoStacks).next parentThread
      (forks twoStacks parentThread true 0x2000 0x1ed0 0x500 0x600) = some s₁ := ⟨_, rfl⟩
  have hsound := (sound_reachable (.init parentThread_init)).step (hfresh.disciplined hf) hn
  have hsaved : s₁.saved = Function.update parentThread.saved true
      (some (newContext 0x500 0x600, frameAt 0x2000)) := by
    cases hn
    rfl
  have hchild : s₁.saved true = some (newContext 0x500 0x600, frameAt 0x2000) := by
    rw [hsaved, Function.update_self]
  have hcurrent : s₁.current = parentThread.current := by
    cases hn
    rfl
  have hcpu : s₁.cpu = parentThread.cpu := by
    cases hn
    rfl
  have hcall : Calls twoStacks s₁ () true := by
    refine ⟨?_, ?_, ?_⟩
    · rw [hcpu, hcurrent]
      rfl
    · rw [hcpu, hsound.pointer true _ _ hchild]
      rfl
    · rw [hchild]
      rfl
  refine ⟨s₁, hn, hfresh, hf, hsound, hchild, hcall, ?_, by rw [hcpu]; rfl, by rw [hcurrent]; rfl⟩
  rw [hcpu, hcurrent]
  show Room twoStacks s₁ 0x1e00 false
  constructor
  case aligned => decide
  case pointer => decide
  case fits => decide
  case outside => decide
  case apart =>
    intro u a ha
    obtain ⟨k, p, hu, ha⟩ := ha
    rw [hsaved] at hu
    cases u with
    | false => cases hu
    | true =>
      cases hu
      unfold Stacks.Has twoStacks frameAt below contextPairs framePairs at *
      simp at *
      bv_omega

/-- The child runs, goes back to the parent for good and is waited for. -/
theorem child_ends : ∃ r r', (threads twoStacks).ReachableUnder (Disciplined twoStacks) r ∧
    (threads twoStacks).next r (.reap true) = some r' ∧
      (threads twoStacks).next r' (.work () (parentThread.cpu ()) parentThread.mem) = some parentThread := by
  obtain ⟨s₁, h₁⟩ := parentThread_forks
  have hr₁ := Machine.ReachableUnder.step (.init parentThread_init) (h₁.fresh.disciplined h₁.holds) h₁.next
  obtain ⟨s₂, hn₂, hsound₂, -, hcurrent₂, hback, -⟩ := h₁.sound.switch h₁.calls h₁.room h₁.saved
  rw [h₁.current, h₁.sp] at hback
  let s₃ : Threads Unit Bool := { s₂ with cpu := fun _ => calling 0x108 (s₂.mem 0x100) 0x2e00 }
  have hwork : (threads twoStacks).next s₂ (.work () (s₃.cpu ()) s₂.mem) = some s₃ := by
    have hcpu : Function.update s₂.cpu () (s₃.cpu ()) = s₃.cpu := funext fun _ => rfl
    exact congrArg (fun f => some { s₂ with cpu := f }) hcpu
  have hr₂ := hr₁.step (show Disciplined twoStacks s₁ (.switch () true) from h₁.room) hn₂
  have hr₃ := hr₂.step (show Disciplined twoStacks s₂ (.work () _ s₂.mem) from fun _ _ _ => rfl) hwork
  have hroom : Room twoStacks s₃ 0x2e00 true := by
    constructor
    case aligned => decide
    case pointer => decide
    case fits => decide
    case outside => decide
    case apart =>
      intro u a ha
      obtain ⟨k, p, hu, ha⟩ := ha
      have hu : s₂.saved u = some (k, p) := hu
      cases u with
      | false =>
        rw [hback] at hu
        cases hu
        unfold Stacks.Has twoStacks below contextPairs at *
        simp at *
        bv_omega
      | true =>
        have hrunning := hsound₂.running ()
        rw [hcurrent₂, hu] at hrunning
        cases hrunning
  have hcall : Calls twoStacks s₃ () false :=
    ⟨congrArg twoStacks.slot hcurrent₂.symm, rfl, Option.isSome_iff_exists.mpr ⟨_, hback⟩⟩
  have hat : Room twoStacks s₃ (s₃.cpu ()).sp (s₃.current ()) := by
    show Room twoStacks s₃ 0x2e00 (s₂.current ())
    rw [hcurrent₂]
    exact hroom
  obtain ⟨s₄, hn₄, hsound₄, -, hcurrent₄, hchild, -⟩ := (sound_reachable hr₃).switch hcall hat hback
  have hchild : s₄.saved true = some (context (s₃.cpu ()), (s₃.cpu ()).sp) := hcurrent₂ ▸ hchild
  have hr₄ := hr₃.step (show Disciplined twoStacks s₃ (.switch () false) from hat) hn₄
  refine ⟨s₄, _, hr₄, if_pos (Option.isSome_iff_exists.mpr ⟨_, hchild⟩), ?_⟩
  have hsaved : Function.update s₄.saved true none = parentThread.saved := by
    funext u
    cases u with
    | false =>
      have hrunning := hsound₄.running ()
      rw [hcurrent₄] at hrunning
      exact hrunning
    | true => exact Function.update_self ..
  have hcurrent : s₄.current = parentThread.current := funext fun _ => hcurrent₄
  have hcpu : Function.update s₄.cpu () (parentThread.cpu ()) = parentThread.cpu := funext fun _ => rfl
  show some (Threads.mk (Function.update s₄.cpu () (parentThread.cpu ())) parentThread.mem s₄.current
    (Function.update s₄.saved true none)) = some parentThread
  rw [hsaved, hcurrent, hcpu]

/-- After its child has ended a parent forks again into the same slot and the same stack, and its CPU goes to the
child. -/
theorem fork_returns_reused : ∃ r r' s s₁ s₃ : Threads Unit Bool,
    ((threads twoStacks).ReachableUnder (Disciplined twoStacks) r ∧
      (threads twoStacks).next r (.reap true) = some r' ∧
      (threads twoStacks).next r' (.work () (parentThread.cpu ()) parentThread.mem) = some s) ∧
    (threads twoStacks).next s (forks twoStacks s true 0x2000 0x1ed0 0x500 0x600) = some s₁ ∧
    (threads twoStacks).next s₁ (.switch () true) = some s₃ ∧ (s₃.cpu ()).pc = 0x500 ∧
      (s₃.cpu ()).x 30 = 0x600 ∧
    ∃ c', run trapReturn ⟨s₃.cpu (), s₃.mem⟩ = some ⟨c', s₃.mem⟩ ∧ c'.pc = 0x80 ∧ c'.x 0 = 0 ∧ c'.x 1 = 2 ∧
      c'.sys .spEl0 = 0x7000 := by
  obtain ⟨r, r', hr, hreap, hwork⟩ := child_ends
  obtain ⟨s₁, h₁⟩ := parentThread_forks
  have hnone (u : Bool) (a : Word) (hu : r'.Owns twoStacks u a) : parentThread.mem a = r'.mem a := by
    obtain ⟨k, p, hu, -⟩ := hu
    rw [(congrArg (fun s : Threads Unit Bool => s.saved u) (Option.some.inj hwork) : r'.saved u = none)] at hu
    cases hu
  have hr' := hr.step (show Disciplined twoStacks r (.reap true) from trivial) hreap
  have hs := hr'.step (show Disciplined twoStacks r' (.work () _ _) from hnone) hwork
  obtain ⟨s₃, hn₃, -, hpc, hlr, hreturn⟩ :=
    fork_returns hs h₁.fresh h₁.holds h₁.next (.init rfl) h₁.calls h₁.room
  obtain ⟨c', hrun, hrestored⟩ := hreturn (s₃.cpu ()) s₃.mem rfl fun _ _ => rfl
  exact ⟨r, r', parentThread, s₁, s₃, ⟨hr, hreap, hwork⟩, h₁.next, hn₃, hpc, hlr, c', hrun, hrestored.pc,
    by rw [hrestored.x]; rfl, by rw [hrestored.x]; rfl, hrestored.userSp⟩

end FtosFfs.Asm
