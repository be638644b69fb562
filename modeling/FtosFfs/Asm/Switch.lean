import FtosFfs.Lib.Arm
import FtosFfs.Lib.Machine
import Mathlib.Data.Fintype.Basic
import Mathlib.Tactic.FinCases

/-! `swtch`, `asm/swtch.S`: what it saves, what it restores, and kernel threads that switch to each
other on several CPUs. -/

namespace FtosFfs.Asm

open Lib Lib.Arm

/-! ### The code -/

abbrev x (i : Fin 31) : Reg := .x i

/-- The registers that `swtch` pushes, in order. -/
def swtchSaves : List Pair :=
  [.regs (x 19) .xzr, .regs (x 21) (x 20), .regs (x 23) (x 22), .regs (x 25) (x 24), .regs (x 27) (x 26),
    .regs (x 29) (x 28), .regs (x 30) (x 30)]

/-- The registers that `swtch` pops, in order. -/
def swtchLoads : List Pair :=
  [.regs (x 15) (x 30), .regs (x 29) (x 28), .regs (x 27) (x 26), .regs (x 25) (x 24), .regs (x 23) (x 22),
    .regs (x 21) (x 20), .regs (x 19) .xzr]

/-- `swtch(old, new)`. -/
def swtch : List Instr :=
  [.barrier, .barrier] ++ (swtchSaves.map .push ++ ([.movFromSp 9, .str 9 0, .movToSp 1] ++
    (swtchLoads.map .pop ++ [.barrier, .barrier, .ret 15])))

/-- `struct context`, with `x19` to `x28` by their numbers. -/
structure Context where
  lr0 : Word
  lr : Word
  fp : Word
  x : Fin 10 → Word

/-- The words of a context, the padding included. -/
def Context.words (k : Context) : List (Word × Word) :=
  [(k.lr0, k.lr), (k.fp, k.x 9), (k.x 8, k.x 7), (k.x 6, k.x 5), (k.x 4, k.x 3), (k.x 2, k.x 1), (k.x 0, 0)]

/-- The number of pairs of words of a context. -/
abbrev contextPairs : Nat := 7

/-- The context that a call of `swtch` saves: both link registers are the return address. -/
def context (c : Cpu) : Context where
  lr0 := c.x 30
  lr := c.x 30
  fp := c.x 29
  x i := c.x ⟨19 + i, by omega⟩

/-- The registers are those of the context, and the CPU goes on where it says, at stack pointer `sp`. -/
structure Resumed (k : Context) (sp : Word) (c : Cpu) : Prop where
  pc : c.pc = k.lr0
  sp : c.sp = sp
  lr : c.x 30 = k.lr
  fp : c.x 29 = k.fp
  callee : ∀ i : Fin 10, c.x ⟨19 + i, by omega⟩ = k.x i

theorem load_swtchLoads (c : Cpu) (k : Context) :
    (c.load swtchLoads k.words).x 15 = k.lr0 ∧ (c.load swtchLoads k.words).x 30 = k.lr ∧
      (c.load swtchLoads k.words).x 29 = k.fp ∧
      ∀ i : Fin 10, (c.load swtchLoads k.words).x ⟨19 + i, by omega⟩ = k.x i := by
  refine ⟨rfl, rfl, rfl, fun i => ?_⟩
  fin_cases i <;> rfl

theorem read_swtchSaves (c : Cpu) : swtchSaves.reverse.map c.read = (context c).words := rfl

/-- The middle of `swtch`: the old stack pointer goes where `x0` says, the new one comes from `x1`. -/
theorem run_change (c : Cpu) (m : Mem) (hptr : (c.x 0).toNat % 8 = 0) :
    run [.movFromSp 9, .str 9 0, .movToSp 1] ⟨c, m⟩ =
      some ⟨(c.setReg (.x 9) c.sp).setSp (c.x 1), Function.update m (c.x 0) c.sp⟩ := by
  have hstr : exec ⟨c.setReg (.x 9) c.sp, m⟩ (.str 9 0) =
      some ⟨c.setReg (.x 9) c.sp, Function.update m (c.x 0) c.sp⟩ := if_pos hptr
  rw [run_cons, exec, Option.bind_some, run_cons, hstr]
  rfl

/-- What `swtch` does: the context of the caller is below its stack, its address at `x0`, and the
registers are those of the context at `x1`. -/
theorem run_swtch {c : Cpu} {m : Mem} {k : Context} (hsp : Aligned c.sp) (hnew : Aligned (c.x 1))
    (hptr : (c.x 0).toNat % 8 = 0) (hk : Holds m (c.x 1) k.words)
    (happart : ∀ a, Inside (c.x 1) contextPairs a → ¬Inside (below c.sp contextPairs) contextPairs a ∧
      a ≠ c.x 0)
    (hslot : ∀ a, Inside (below c.sp contextPairs) contextPairs a → a ≠ c.x 0) :
    ∃ c' m', run swtch ⟨c, m⟩ = some ⟨c', m'⟩ ∧ Resumed k (above (c.x 1) contextPairs) c' ∧
      Holds m' (below c.sp contextPairs) (context c).words ∧ m' (c.x 0) = below c.sp contextPairs ∧
      ∀ a, ¬Inside (below c.sp contextPairs) contextPairs a → a ≠ c.x 0 → m' a = m a := by
  obtain ⟨m₁, hpush, hsaved, hframe⟩ := run_pushes m swtchSaves hsp (by decide)
  have hlen : swtchSaves.length = contextPairs := rfl
  rw [hlen] at hpush hsaved hframe
  rw [read_swtchSaves] at hsaved
  have hmid := run_change (c.setSp (below c.sp contextPairs)) m₁ hptr
  let m₂ := Function.update m₁ (c.x 0) (below c.sp contextPairs)
  let c₂ := ((c.setSp (below c.sp contextPairs)).setReg (.x 9) (below c.sp contextPairs)).setSp (c.x 1)
  change run _ _ = some (State.mk c₂ m₂) at hmid
  have hk₂ : Holds m₂ (c.x 1) k.words := by
    refine hk.congr (by decide : 16 * 7 < 2 ^ 64) fun a ha => ?_
    obtain ⟨hout, hne⟩ := happart a ha
    exact (Function.update_of_ne hne _ _).trans (hframe a hout)
  have hpop := run_pops (c := c₂) swtchLoads hnew (show swtchLoads.length = k.words.length from rfl) hk₂
  obtain ⟨hpc, hlr, hfp, hx⟩ := load_swtchLoads c₂ k
  have hret : run [.barrier, .barrier, .ret 15]
    ⟨(c₂.load swtchLoads k.words).setSp (above c₂.sp swtchLoads.length), m₂⟩ =
      some ⟨{ (c₂.load swtchLoads k.words).setSp (above c₂.sp swtchLoads.length) with
        pc := (c₂.load swtchLoads k.words).x 15 }, m₂⟩ := rfl
  have hstart : run [.barrier, .barrier] ⟨c, m⟩ = some ⟨c, m⟩ := rfl
  refine ⟨{ (c₂.load swtchLoads k.words).setSp (above c₂.sp swtchLoads.length) with
      pc := (c₂.load swtchLoads k.words).x 15 }, m₂, ?_, ⟨hpc, rfl, hlr, hfp, hx⟩, ?_, Function.update_self ..,
    fun a hout hne => ?_⟩
  · rw [swtch, run_append, hstart, Option.bind_some, run_append, hpush, Option.bind_some, run_append, hmid,
      Option.bind_some, run_append, hpop, Option.bind_some, hret]
  · exact hsaved.congr (by decide : 16 * 7 < 2 ^ 64) fun a ha => Function.update_of_ne (hslot a ha) _ _
  · exact (Function.update_of_ne hne _ _).trans (hframe a hout)

/-! ### Threads -/

/-- Kernel threads on several CPUs: the processes, and the schedulers of each CPU.  `saved` has the context
and the stack pointer of each thread that waits to be switched to. -/
structure Threads (κ ι : Type) where
  cpu : κ → Cpu
  mem : Mem
  current : κ → ι
  saved : ι → Option (Context × Word)

inductive Label (κ ι : Type)
  /-- Code other than `swtch` on CPU `k`. -/
  | work (k : κ) (c : Cpu) (m : Mem)
  /-- `alloc_proc` and `alloc_container` make thread `t`. -/
  | create (t : ι) (k : Context) (sp : Word) (m : Mem)
  /-- `swtch` to thread `t` on CPU `k`. -/
  | switch (k : κ) (t : ι)
  /-- `wait` ends thread `t`, which exited: its kernel stack and its slot may be used again. -/
  | reap (t : ι)

/-- Where the pointer to the context of each thread is, and where its stack ends. -/
structure Stacks (ι : Type) where
  slot : ι → Word
  top : ι → Word

variable {κ ι : Type} {L : Stacks ι} {s s' : Threads κ ι} {t : ι} {k : Context} {sp : Word}

/-- The address is in the stack of thread `t` from `p` on, or that of the pointer to its context. -/
def Stacks.Has (L : Stacks ι) (t : ι) (p a : Word) : Prop := (a - p).toNat < (L.top t - p).toNat ∨ a = L.slot t

/-- The address is in the stack of thread `t`, which waits, or that of the pointer to its context. -/
def Threads.Owns (L : Stacks ι) (s : Threads κ ι) (t : ι) (a : Word) : Prop :=
  ∃ k sp, s.saved t = some (k, sp) ∧ L.Has t (below sp contextPairs) a

/-- There is room below `sp` for the context of thread `t`, apart from the waiting threads. -/
structure Room (L : Stacks ι) (s : Threads κ ι) (sp : Word) (t : ι) : Prop where
  aligned : Aligned sp
  pointer : (L.slot t).toNat % 8 = 0
  fits : 16 * contextPairs ≤ (L.top t - below sp contextPairs).toNat
  outside : ¬(L.slot t - below sp contextPairs).toNat < (L.top t - below sp contextPairs).toNat
  apart : ∀ u a, s.Owns L u a → ¬L.Has t (below sp contextPairs) a

/-- Code other than `swtch` leaves the memory of the waiting threads alone, a new thread starts with its
context below its stack, and `swtch` has room on the stack of the caller. -/
def Disciplined (L : Stacks ι) (s : Threads κ ι) : Label κ ι → Prop
  | .work _ _ m => ∀ t a, s.Owns L t a → m a = s.mem a
  | .create t k sp m => s.saved t = none ∧ (∀ c, s.current c ≠ t) ∧ Room L s sp t ∧
      Holds m (below sp contextPairs) k.words ∧ m (L.slot t) = below sp contextPairs ∧
      ∀ u a, s.Owns L u a → m a = s.mem a
  | .switch c _ => Room L s (s.cpu c).sp (s.current c)
  | .reap _ => True

/-- What holds of the threads: the waiting ones have their contexts in memory, apart from each other, and
no thread runs twice. -/
structure Sound (L : Stacks ι) (s : Threads κ ι) : Prop where
  running : ∀ c, s.saved (s.current c) = none
  once : Function.Injective s.current
  aligned : ∀ t k sp, s.saved t = some (k, sp) → Aligned sp
  fits : ∀ t k sp, s.saved t = some (k, sp) → 16 * contextPairs ≤ (L.top t - below sp contextPairs).toNat
  pointer : ∀ t k sp, s.saved t = some (k, sp) → s.mem (L.slot t) = below sp contextPairs
  holds : ∀ t k sp, s.saved t = some (k, sp) → Holds s.mem (below sp contextPairs) k.words
  apart : ∀ t u a, s.Owns L t a → s.Owns L u a → t = u

theorem owns_pointer (h : s.saved t = some (k, sp)) : s.Owns L t (L.slot t) := ⟨k, sp, h, .inr rfl⟩

theorem Sound.owns_context {a : Word} (h : Sound L s) (ht : s.saved t = some (k, sp))
    (ha : Inside (below sp contextPairs) contextPairs a) : s.Owns L t a :=
  ⟨k, sp, ht, .inl (Nat.lt_of_lt_of_le ha (h.fits t k sp ht))⟩

/-- The threads after a change of the registers and of memory that no waiting thread owns. -/
theorem Sound.work (h : Sound L s) (cpu : κ → Cpu) {m : Mem} (hm : ∀ t a, s.Owns L t a → m a = s.mem a) :
    Sound L { s with cpu, mem := m } where
  running := h.running
  once := h.once
  aligned := h.aligned
  fits := h.fits
  pointer t k sp ht := (hm t _ (owns_pointer ht)).trans (h.pointer t k sp ht)
  holds t k sp ht :=
    (h.holds t k sp ht).congr (by decide : 16 * 7 < 2 ^ 64) fun a ha => hm t a (h.owns_context ht ha)
  apart := h.apart

section

variable [DecidableEq ι]

/-- Thread `t` waits from now on, with its context in memory below `sp`. -/
theorem Sound.park (h : Sound L s) {m : Mem} (hfree : s.saved t = none) (hcurrent : ∀ c, s.current c ≠ t)
    (hroom : Room L s sp t) (hholds : Holds m (below sp contextPairs) k.words)
    (hpointer : m (L.slot t) = below sp contextPairs) (hm : ∀ u a, s.Owns L u a → m a = s.mem a) :
    Sound L { s with mem := m, saved := Function.update s.saved t (some (k, sp)) } := by
  have hwork := h.work s.cpu hm
  have hcases {u : ι} {k' : Context} {sp' : Word}
      (hu : Function.update s.saved t (some (k, sp)) u = some (k', sp')) :
      (u = t ∧ k' = k ∧ sp' = sp) ∨ s.saved u = some (k', sp') := by
    rw [Function.update_apply] at hu
    split at hu
    case isTrue hut =>
      cases hu
      exact .inl ⟨hut, rfl, rfl⟩
    case isFalse => exact .inr hu
  have howns {u : ι} {a : Word} (hu : Threads.Owns L { s with
      mem := m, saved := Function.update s.saved t (some (k, sp)) } u a) :
      (u = t ∧ L.Has t (below sp contextPairs) a) ∨ s.Owns L u a := by
    obtain ⟨k', sp', hu, ha⟩ := hu
    rcases hcases hu with ⟨rfl, rfl, rfl⟩ | hu
    · exact .inl ⟨rfl, ha⟩
    · exact .inr ⟨k', sp', hu, ha⟩
  constructor
  case running => exact fun c => (Function.update_of_ne (hcurrent c) _ _).trans (h.running c)
  case once => exact h.once
  case aligned =>
    intro u k' sp' hu
    rcases hcases hu with ⟨-, -, rfl⟩ | hu
    · exact hroom.aligned
    · exact h.aligned u k' sp' hu
  case fits =>
    intro u k' sp' hu
    rcases hcases hu with ⟨rfl, -, rfl⟩ | hu
    · exact hroom.fits
    · exact h.fits u k' sp' hu
  case pointer =>
    intro u k' sp' hu
    rcases hcases hu with ⟨rfl, -, rfl⟩ | hu
    · exact hpointer
    · exact hwork.pointer u k' sp' hu
  case holds =>
    intro u k' sp' hu
    rcases hcases hu with ⟨-, rfl, rfl⟩ | hu
    · exact hholds
    · exact hwork.holds u k' sp' hu
  case apart =>
    intro u v a hu hv
    rcases howns hu with ⟨hut, ha⟩ | hu'
    · rcases howns hv with ⟨hvt, -⟩ | hv'
      · rw [hut, hvt]
      · exact absurd ha (hroom.apart v a hv')
    · rcases howns hv with ⟨-, ha⟩ | hv'
      · exact absurd ha (hroom.apart u a hu')
      · exact h.apart u v a hu' hv'

variable [DecidableEq κ]

/-- A call of `swtch` on CPU `c` to a waiting thread. -/
def Calls (L : Stacks ι) (s : Threads κ ι) (c : κ) (t : ι) : Prop :=
  (s.cpu c).x 0 = L.slot (s.current c) ∧ (s.cpu c).x 1 = s.mem (L.slot t) ∧ (s.saved t).isSome

instance (c : κ) (t : ι) : Decidable (Calls L s c t) := inferInstanceAs (Decidable (_ ∧ _ ∧ _))

/-- The threads after a call of `swtch` that ends in `r`. -/
def Threads.switched (s : Threads κ ι) (c : κ) (t : ι) (r : State) : Threads κ ι where
  cpu := Function.update s.cpu c r.cpu
  mem := r.mem
  current := Function.update s.current c t
  saved := Function.update (Function.update s.saved t none) (s.current c)
    (some (context (s.cpu c), (s.cpu c).sp))

/-- The threads, with their stacks. -/
def threads (L : Stacks ι) : Machine (Threads κ ι) (Label κ ι) where
  init s := Function.Injective s.current ∧ ∀ t, s.saved t = none
  next s
    | .work c r m => some { s with cpu := Function.update s.cpu c r, mem := m }
    | .create t k sp m => some { s with mem := m, saved := Function.update s.saved t (some (k, sp)) }
    | .switch c t =>
      if Calls L s c t then (run swtch ⟨s.cpu c, s.mem⟩).map (s.switched c t) else none
    | .reap t => if (s.saved t).isSome then some { s with saved := Function.update s.saved t none } else none

theorem next_switch {c : κ} : (threads L).next s (.switch c t) = some s' ↔
    Calls L s c t ∧ ∃ r, run swtch ⟨s.cpu c, s.mem⟩ = some r ∧ s.switched c t r = s' := by
  show (if Calls L s c t then (run swtch ⟨s.cpu c, s.mem⟩).map (s.switched c t) else none) = some s' ↔ _
  rw [Option.ite_none_right_eq_some, Option.map_eq_some_iff]

omit [DecidableEq κ] in
theorem saved_of_update {u : ι} {o : Context × Word} (hu : Function.update s.saved t none u = some o) :
    u ≠ t ∧ s.saved u = some o := by
  rw [Function.update_apply] at hu
  split at hu
  case isTrue => cases hu
  case isFalse hne => exact ⟨hne, hu⟩

omit [DecidableEq κ] in
/-- The threads without thread `t`, which waits no longer. -/
theorem Sound.drop (h : Sound L s) (t : ι) : Sound L { s with saved := Function.update s.saved t none } := by
  have howns {u : ι} {a : Word}
      (hu : Threads.Owns L { s with saved := Function.update s.saved t none } u a) : s.Owns L u a := by
    obtain ⟨k, sp, hu, ha⟩ := hu
    exact ⟨k, sp, (saved_of_update hu).2, ha⟩
  constructor
  case running =>
    intro c
    show Function.update s.saved t none (s.current c) = none
    rw [Function.update_apply, h.running c, ite_self]
  case once => exact h.once
  case aligned => exact fun u k sp hu => h.aligned u k sp (saved_of_update hu).2
  case fits => exact fun u k sp hu => h.fits u k sp (saved_of_update hu).2
  case pointer => exact fun u k sp hu => h.pointer u k sp (saved_of_update hu).2
  case holds => exact fun u k sp hu => h.holds u k sp (saved_of_update hu).2
  case apart => exact fun u v a hu hv => h.apart u v a (howns hu) (howns hv)

/-- A thread that waited goes on on CPU `c`. -/
theorem Sound.resume (h : Sound L s) (ht : s.saved t = some (k, sp)) (c : κ) :
    Sound L { s with
      current := Function.update s.current c t
      saved := Function.update s.saved t none } := by
  have hne (d : κ) : s.current d ≠ t := by
    rintro rfl
    rw [h.running d] at ht
    cases ht
  obtain ⟨hrunning, -, haligned, hfits, hpointer, hholds, hapart⟩ := h.drop t
  refine ⟨fun d => ?_, fun d e hde => ?_, haligned, hfits, hpointer, hholds, hapart⟩
  · show Function.update s.saved t none (Function.update s.current c t d) = none
    by_cases hd : d = c
    · rw [hd, Function.update_self, Function.update_self]
    · rw [Function.update_of_ne hd]
      exact hrunning d
  · have hde : Function.update s.current c t d = Function.update s.current c t e := hde
    by_cases hd : d = c
    · by_cases he : e = c
      · rw [hd, he]
      · rw [hd, Function.update_self, Function.update_of_ne he] at hde
        exact absurd hde.symm (hne e)
    · by_cases he : e = c
      · rw [he, Function.update_self, Function.update_of_ne hd] at hde
        exact absurd hde (hne d)
      · rw [Function.update_of_ne hd, Function.update_of_ne he] at hde
        exact h.once hde

/-- A call of `swtch` returns in the thread it switches to, and its caller waits. -/
theorem Sound.switch (h : Sound L s) {c : κ} (hcall : Calls L s c t)
    (hroom : Room L s (s.cpu c).sp (s.current c)) (ht : s.saved t = some (k, sp)) :
    ∃ s', (threads L).next s (.switch c t) = some s' ∧ Sound L s' ∧ Resumed k sp (s'.cpu c) ∧
      s'.current c = t ∧ s'.saved (s.current c) = some (context (s.cpu c), (s.cpu c).sp) ∧
      ∀ a, ¬Inside (below (s.cpu c).sp contextPairs) contextPairs a → a ≠ L.slot (s.current c) →
        s'.mem a = s.mem a := by
  obtain ⟨hx0, hx1, hsome⟩ := hcall
  have hat : (s.cpu c).x 1 = below sp contextPairs := hx1.trans (h.pointer t k sp ht)
  have hne : t ≠ s.current c := by
    rintro rfl
    rw [h.running c] at ht
    cases ht
  have hinside {a : Word} (ha : Inside (below (s.cpu c).sp contextPairs) contextPairs a) :
      L.Has (s.current c) (below (s.cpu c).sp contextPairs) a := .inl (Nat.lt_of_lt_of_le ha hroom.fits)
  obtain ⟨r, m, hrun, hresumed, hsaved, hpointer, hframe⟩ := run_swtch (c := s.cpu c) (m := s.mem) (k := k)
    hroom.aligned (hat ▸ (h.aligned t k sp ht).below contextPairs) (hx0 ▸ hroom.pointer)
    (hat ▸ h.holds t k sp ht)
    (fun a ha => by
      have hno := hroom.apart t a (h.owns_context ht (hat ▸ ha))
      exact ⟨fun hin => hno (hinside hin), fun heq => hno (.inr (heq.trans hx0))⟩)
    (fun a ha heq => hroom.outside (Nat.lt_of_lt_of_le (hx0 ▸ heq ▸ ha) hroom.fits))
  have hkeep (a : Word) (hout : ¬Inside (below (s.cpu c).sp contextPairs) contextPairs a)
      (hne : a ≠ L.slot (s.current c)) : m a = s.mem a := hframe a hout fun heq => hne (heq.trans hx0)
  refine ⟨_, next_switch.mpr ⟨⟨hx0, hx1, hsome⟩, _, hrun, rfl⟩, ?_, ?_, Function.update_self ..,
    Function.update_self .., hkeep⟩
  · have hresume := h.resume ht c
    have hsub {u : ι} {a : Word} (hu : Threads.Owns L { s with
        current := Function.update s.current c t
        saved := Function.update s.saved t none } u a) : s.Owns L u a := by
      obtain ⟨k', sp', hu, ha⟩ := hu
      have hut : u ≠ t := by
        rintro rfl
        cases (Function.update_self u none s.saved).symm.trans hu
      exact ⟨k', sp', (Function.update_of_ne hut none s.saved).symm.trans hu, ha⟩
    have hfree : Function.update s.saved t none (s.current c) = none := by
      rw [Function.update_of_ne hne.symm]
      exact h.running c
    have hcurrent (d : κ) : Function.update s.current c t d ≠ s.current c := by
      by_cases hd : d = c
      · rw [hd, Function.update_self]
        exact hne
      · rw [Function.update_of_ne hd]
        exact fun heq => hd (h.once heq)
    have hpark := hresume.park (t := s.current c)
      hfree hcurrent ⟨hroom.aligned, hroom.pointer, hroom.fits, hroom.outside, fun u a hu =>
        hroom.apart u a (hsub hu)⟩
      hsaved (hx0 ▸ hpointer) fun u a hu => ?_
    · exact hpark.work (Function.update s.cpu c r) fun _ _ _ => rfl
    · have hno := hroom.apart u a (hsub hu)
      exact hkeep a (fun hin => hno (hinside hin)) fun heq => hno (.inr heq)
  · show Resumed k sp (Function.update s.cpu c r c)
    rw [Function.update_self]
    rwa [hat, above_below] at hresumed

theorem Sound.step (h : Sound L s) {a : Label κ ι} (hd : Disciplined L s a)
    (hn : (threads L).next s a = some s') : Sound L s' := by
  cases a with
  | work c r m =>
    cases hn
    exact h.work _ hd
  | create t k sp m =>
    cases hn
    obtain ⟨hfree, hcurrent, hroom, hholds, hpointer, hm⟩ := hd
    exact h.park hfree hcurrent hroom hholds hpointer hm
  | switch c t =>
    obtain ⟨hcall, -⟩ := next_switch.mp hn
    obtain ⟨⟨k, sp⟩, ht⟩ := Option.isSome_iff_exists.mp hcall.2.2
    obtain ⟨s'', hn', hsound, -⟩ := h.switch hcall hd ht
    obtain rfl : s'' = s' := Option.some.inj (hn'.symm.trans hn)
    exact hsound
  | reap t =>
    obtain ⟨-, hs⟩ := Option.ite_none_right_eq_some.mp hn
    cases hs
    exact h.drop t

theorem sound_reachable (h : (threads L).ReachableUnder (Disciplined L) s) : Sound L s := by
  refine h.invariant (fun s h => ?_) fun s a s' h hd hn => h.step hd hn
  obtain ⟨honce, hnone⟩ := h
  have hno {t : ι} {o : Context × Word} (ht : s.saved t = some o) : False := by
    rw [hnone t] at ht
    cases ht
  constructor
  case running => exact fun c => hnone _
  case once => exact honce
  case apart =>
    intro t u a ht _
    obtain ⟨k, sp, ht, -⟩ := ht
    exact (hno ht).elim
  all_goals exact fun t k sp ht => (hno ht).elim

/-- Until a switch to it, or its end, a waiting thread waits with the same context and the same stack. -/
theorem Sound.kept (h : Sound L s) {a : Label κ ι} (ht : s.saved t = some (k, sp)) (hd : Disciplined L s a)
    (ha : ∀ c, a ≠ .switch c t) (hlives : a ≠ .reap t) (hn : (threads L).next s a = some s') :
    s'.saved t = some (k, sp) ∧ ∀ p, L.Has t (below sp contextPairs) p → s'.mem p = s.mem p := by
  cases a with
  | work c r m =>
    cases hn
    exact ⟨ht, fun p hp => hd t p ⟨k, sp, ht, hp⟩⟩
  | create u k' sp' m =>
    cases hn
    obtain ⟨hfree, -, -, -, -, hm⟩ := hd
    have hut : t ≠ u := by
      rintro rfl
      cases hfree.symm.trans ht
    exact ⟨(Function.update_of_ne hut _ _).trans ht, fun p hp => hm t p ⟨k, sp, ht, hp⟩⟩
  | switch c u =>
    have hut : t ≠ u := by
      rintro rfl
      exact ha c rfl
    have hct : t ≠ s.current c := by
      rintro rfl
      cases (h.running c).symm.trans ht
    obtain ⟨hcall, r, hrun, rfl⟩ := next_switch.mp hn
    obtain ⟨⟨k', sp'⟩, hu⟩ := Option.isSome_iff_exists.mp hcall.2.2
    obtain ⟨s'', hn', -, -, -, -, hkeep⟩ := h.switch hcall hd hu
    obtain rfl : s'' = s.switched c u r := Option.some.inj (hn'.symm.trans hn)
    constructor
    · show Function.update (Function.update s.saved u none) (s.current c) _ t = _
      rw [Function.update_of_ne hct, Function.update_of_ne hut, ht]
    · intro p hp
      have hno := hd.apart t p ⟨k, sp, ht, hp⟩
      exact hkeep p (fun hin => hno (.inl (Nat.lt_of_lt_of_le hin hd.fits))) fun heq => hno (.inr heq)
  | reap u =>
    obtain ⟨-, hs⟩ := Option.ite_none_right_eq_some.mp hn
    cases hs
    have hut : t ≠ u := by
      rintro rfl
      exact hlives rfl
    exact ⟨(Function.update_of_ne hut _ _).trans ht, fun _ _ => rfl⟩

theorem Sound.kept_run (h : Sound L s) (ht : s.saved t = some (k, sp))
    (hrun : ((threads L).startingAt s).ReachableUnder
      (fun s' a => Disciplined L s' a ∧ (∀ c, a ≠ .switch c t) ∧ a ≠ .reap t) s') :
    Sound L s' ∧ s'.saved t = some (k, sp) ∧ ∀ p, L.Has t (below sp contextPairs) p → s'.mem p = s.mem p := by
  apply hrun.invariant
  · intro r hr
    cases hr
    exact ⟨h, ht, fun _ _ => rfl⟩
  · intro r a r' hI hC hn
    obtain ⟨hsound, hsaved, hkeep⟩ := hI
    obtain ⟨hsaved', hkeep'⟩ := hsound.kept hsaved hC.1 hC.2.1 hC.2.2 hn
    exact ⟨hsound.step hC.1 hn, hsaved', fun p hp => (hkeep' p hp).trans (hkeep p hp)⟩

/-- For a kernel thread `swtch` is a function that returns: thread `t` calls it on CPU `c`, other threads and
CPUs go on in any order, and the next switch to `t`, on any CPU `d`, continues after the call with the stack
pointer, the callee-saved registers and the stack that `t` had, if `t` has not ended. -/
theorem swtch_returns {s₁ s₂ : Threads κ ι} {c d : κ} {u : ι}
    (h : (threads L).ReachableUnder (Disciplined L) s) (hd : Disciplined L s (.switch c u))
    (hn : (threads L).next s (.switch c u) = some s₁)
    (hrun : ((threads L).startingAt s₁).ReachableUnder
      (fun s' a => Disciplined L s' a ∧ (∀ e, a ≠ .switch e (s.current c)) ∧ a ≠ .reap (s.current c)) s₂)
    (hcall : Calls L s₂ d (s.current c)) (hd₂ : Disciplined L s₂ (.switch d (s.current c))) :
    ∃ s₃, (threads L).next s₂ (.switch d (s.current c)) = some s₃ ∧ s₃.current d = s.current c ∧
      Resumed (context (s.cpu c)) (s.cpu c).sp (s₃.cpu d) ∧
      ∀ a, (a - (s.cpu c).sp).toNat < (L.top (s.current c) - (s.cpu c).sp).toNat → s₃.mem a = s.mem a := by
  have hsound := sound_reachable h
  obtain ⟨hcall₁, r, hrun₁, rfl⟩ := next_switch.mp hn
  obtain ⟨⟨k', sp'⟩, hu⟩ := Option.isSome_iff_exists.mp hcall₁.2.2
  obtain ⟨s₁, hn₁, hsound₁, -, -, hsaved₁, hkeep₁⟩ := hsound.switch hcall₁ hd hu
  obtain rfl : s₁ = s.switched c u r := Option.some.inj (hn₁.symm.trans hn)
  obtain ⟨hsound₂, hsaved₂, hkeep₂⟩ := hsound₁.kept_run hsaved₁ hrun
  obtain ⟨s₃, hn₃, -, hresumed, hcurrent, -, hkeep₃⟩ := hsound₂.switch hcall hd₂ hsaved₂
  refine ⟨s₃, hn₃, hcurrent, hresumed, fun a ha => ?_⟩
  have hfits := hd.fits
  -- The stack above the stack pointer is not where the context goes.
  have hhas : (a - below (s.cpu c).sp contextPairs).toNat <
      (L.top (s.current c) - below (s.cpu c).sp contextPairs).toNat := by
    unfold below contextPairs at *
    bv_omega
  have hout : ¬Inside (below (s.cpu c).sp contextPairs) contextPairs a := by
    unfold Inside below contextPairs at *
    bv_omega
  have hne : a ≠ L.slot (s.current c) := by
    rintro rfl
    exact hd.outside hhas
  have hno := hd₂.apart (s.current c) a ⟨_, _, hsaved₂, .inl hhas⟩
  rw [hkeep₃ a (fun hin => hno (.inl (Nat.lt_of_lt_of_le hin hd₂.fits))) fun heq => hno (.inr heq),
    hkeep₂ a (.inl hhas), hkeep₁ a hout hne]

end

/-! ### Two threads on one CPU -/

def twoStacks : Stacks Bool where
  slot t := if t then 0x108 else 0x100
  top t := if t then 0x3000 else 0x2000

/-- Registers of zeroes, with the arguments of `swtch` and a stack pointer. -/
def calling (old new sp : Word) : Cpu where
  x := Function.update (Function.update (fun _ => 0) 0 old) 1 new
  sp := sp
  pc := 0
  q0 := (0, 0)
  sys := fun _ => 0

/-- One thread runs, the other one is not made yet. -/
def oneThread : Threads Unit Bool where
  cpu _ := calling 0x100 (below 0x2f00 contextPairs) 0x1f00
  mem _ := 0
  current _ := false
  saved _ := none

theorem room_two {s : Threads Unit Bool} {t : Bool}
    (hs : ∀ u k p, s.saved u = some (k, p) → u ≠ t ∧ p = twoStacks.top u - 0x100) :
    Room twoStacks s (twoStacks.top t - 0x100) t := by
  constructor
  case aligned => cases t <;> decide
  case pointer => cases t <;> rfl
  case fits => cases t <;> decide
  case outside => cases t <;> decide
  case apart =>
    intro u a ha
    obtain ⟨k, p, hu, ha⟩ := ha
    obtain ⟨hut, rfl⟩ := hs u k p hu
    unfold Stacks.Has twoStacks below contextPairs at *
    cases u <;> cases t <;> simp at * <;> bv_omega

/-- The running thread makes the other one and switches to it, and the other one switches back. -/
theorem swtch_returns_two : ∃ s s₁ s₂ s₃ : Threads Unit Bool,
    (threads twoStacks).next s (.switch () true) = some s₁ ∧
    (threads twoStacks).next s₂ (.switch () false) = some s₃ ∧ s₃.current () = s.current () ∧
    Resumed (context (s.cpu ())) (s.cpu ()).sp (s₃.cpu ()) ∧
    ∀ a, (a - (s.cpu ()).sp).toNat < (twoStacks.top (s.current ()) - (s.cpu ()).sp).toNat →
      s₃.mem a = s.mem a := by
  have h₀ : (threads twoStacks).ReachableUnder (Disciplined twoStacks) oneThread :=
    .init ⟨fun _ _ _ => rfl, fun _ => rfl⟩
  let k : Context := ⟨0, 0, 0, fun _ => 0⟩
  let m : Mem := Function.update (fun _ => 0) 0x108 (below 0x2f00 contextPairs)
  let s : Threads Unit Bool := { oneThread with
    mem := m, saved := Function.update oneThread.saved true (some (k, 0x2f00)) }
  have hnone (u : Bool) (a : Word) : ¬oneThread.Owns twoStacks u a := by
    rintro ⟨_, _, hu, -⟩
    cases hu
  have hroom₁ : Room twoStacks oneThread 0x2f00 true := room_two (t := true) fun u _ _ hu => by cases hu
  have hcreate : Disciplined twoStacks oneThread (.create true k 0x2f00 m) := by
    refine ⟨rfl, fun c => Bool.false_ne_true, hroom₁, ?_, Function.update_self .., fun u a hu =>
      absurd hu (hnone u a)⟩
    simp [Holds, Context.words, k, m, below, contextPairs]
  have hs := h₀.step hcreate (show (threads twoStacks).next oneThread _ = some s from rfl)
  have hsaved {u : Bool} {k' : Context} {p : Word} (hu : s.saved u = some (k', p)) : u = true ∧ p = 0x2f00 := by
    cases u with
    | false => cases hu
    | true =>
      cases hu
      exact ⟨rfl, rfl⟩
  have hroom₂ : Room twoStacks s 0x1f00 false := room_two (t := false) fun u k' p hu => by
    obtain ⟨rfl, rfl⟩ := hsaved hu
    exact ⟨Bool.false_ne_true.symm, rfl⟩
  have hroom : Disciplined twoStacks s (.switch () true) := hroom₂
  obtain ⟨s₁, hn, hsound, -, hcurrent, hback, -⟩ := (sound_reachable hs).switch (c := ()) (t := true)
    (k := k) ⟨rfl, rfl, rfl⟩ hroom rfl
  let s₂ : Threads Unit Bool := { s₁ with cpu := fun _ => calling 0x108 (s₁.mem 0x100) 0x2f00 }
  have hwork : (threads twoStacks).next s₁ (.work () (s₂.cpu ()) s₁.mem) = some s₂ := by
    have hcpu : Function.update s₁.cpu () (s₂.cpu ()) = s₂.cpu := funext fun _ => rfl
    exact congrArg (fun f => some { s₁ with cpu := f }) hcpu
  have hrun : ((threads twoStacks).startingAt s₁).ReachableUnder
      (fun s' a => Disciplined twoStacks s' a ∧ (∀ e, a ≠ .switch e (s.current ())) ∧
        a ≠ .reap (s.current ())) s₂ :=
    .step (a := .work () (s₂.cpu ()) s₁.mem) (.init rfl)
      ⟨fun _ _ _ => rfl, fun _ => by simp, by simp⟩ hwork
  have hrest {u : Bool} {k' : Context} {p : Word} (hu : s₁.saved u = some (k', p)) :
      u ≠ true ∧ p = twoStacks.top u - 0x100 := by
    cases u with
    | false =>
      have hp : p = 0x1f00 := congrArg Prod.snd (Option.some.inj (hu.symm.trans hback))
      exact ⟨Bool.false_ne_true, hp⟩
    | true =>
      have hrunning := hsound.running ()
      rw [hcurrent, hu] at hrunning
      cases hrunning
  have hroom₃ : Room twoStacks s₂ 0x2f00 true := room_two (t := true) fun u k' p hu => hrest hu
  have hcall : Calls twoStacks s₂ () (s.current ()) := by
    refine ⟨?_, rfl, Option.isSome_iff_exists.mpr ⟨_, hback⟩⟩
    show _ = twoStacks.slot (s₁.current ())
    rw [hcurrent]
    rfl
  have hd₂ : Disciplined twoStacks s₂ (.switch () (s.current ())) := by
    show Room twoStacks s₂ 0x2f00 (s₁.current ())
    rw [hcurrent]
    exact hroom₃
  obtain ⟨s₃, hn₃, hcurrent₃, hresumed, hstack⟩ := swtch_returns hs hroom hn hrun hcall hd₂
  exact ⟨s, s₁, s₂, s₃, hn, hn₃, hcurrent₃, hresumed, hstack⟩

end FtosFfs.Asm
