import FtosFfs.Core.Memory

/-! The arguments of system calls that point into user memory: `in_user`, `fetchstr`, `argptr` and
`argstr` of `core/syscall.c`, in 64-bit arithmetic, and when what they accept is memory of the
process. -/

namespace FtosFfs.Core

/-- The user memory of a process: the program in `[base, sz)`, and the stack of `stksz` bytes below
`USPACE_TOP`. -/
structure UserSpace where
  base : UInt64
  sz : UInt64
  stksz : UInt64
  stack : stksz.toNat ≤ uspaceTop

def uspaceTop64 : UInt64 := .ofNat uspaceTop

/-- `in_user`. -/
def InUser (p : UserSpace) (s n : UInt64) : Prop :=
  (p.base ≤ s ∧ s + n ≤ p.sz) ∨ (uspaceTop64 - p.stksz ≤ s ∧ s + n ≤ uspaceTop64)

instance (p : UserSpace) (s n : UInt64) : Decidable (InUser p s n) :=
  inferInstanceAs (Decidable (_ ∨ _))

/-- The loops of `fetchstr`: the first address from `s` on, below `stop`, with a zero byte.  They
take at most `stop - s` rounds. -/
def findNul (mem : UInt64 → UInt8) (stop : UInt64) : Nat → UInt64 → Option UInt64
  | 0, _ => none
  | fuel + 1, s =>
    if s < stop then
      if mem s = 0 then some s else findNul mem stop fuel (s + 1)
    else none

/-- The result of `fetchstr` in the region that ends at `stop`: the length, as an `int`. -/
def fetchBelow (mem : UInt64 → UInt8) (stop addr : UInt64) : Int32 :=
  match findNul mem stop (stop - addr).toNat addr with
  | some s => (s - addr).toUInt32.toInt32
  | none => -1

def fetchstr (p : UserSpace) (mem : UInt64 → UInt8) (addr : UInt64) : Int32 :=
  if p.base ≤ addr ∧ addr < p.sz then fetchBelow mem p.sz addr
  else if uspaceTop64 - p.stksz ≤ addr ∧ addr < uspaceTop64 then fetchBelow mem uspaceTop64 addr
  else -1

/-- `argu64`, on the registers of the trap frame. -/
def argu64 (x : Nat → UInt64) (n : Nat) : Option UInt64 := if n > 5 then none else some (x n)

/-- `argptr`: the pointer, or nothing if it fails. -/
def argptr (p : UserSpace) (x : Nat → UInt64) (n : Nat) (size : UInt64) : Option UInt64 := do
  let i ← argu64 x n
  if InUser p i size then some i else none

/-- `argstr`: the length of the string, negative if it fails. -/
def argstr (p : UserSpace) (mem : UInt64 → UInt8) (x : Nat → UInt64) (n : Nat) : Int32 :=
  match argu64 x n with
  | some addr => fetchstr p mem addr
  | none => -1

/-! ### Memory of the process -/

variable {p : UserSpace} {mem : UInt64 → UInt8} {a n s stop e : UInt64}

/-- The `n` bytes from `a` on lie in the program or in the stack. -/
def Mapped (p : UserSpace) (a n : Nat) : Prop :=
  (p.base.toNat ≤ a ∧ a + n ≤ p.sz.toNat) ∨
    (uspaceTop - p.stksz.toNat ≤ a ∧ a + n ≤ uspaceTop)

theorem toNat_uspaceTop64 : uspaceTop64.toNat = uspaceTop := rfl

theorem toNat_stackBottom (p : UserSpace) :
    (uspaceTop64 - p.stksz).toNat = uspaceTop - p.stksz.toNat :=
  UInt64.toNat_sub_of_le _ _ (UInt64.le_iff_toNat_le.mpr p.stack)

/-- What `in_user` tests, on numbers. -/
theorem inUser_iff : InUser p a n ↔
    (p.base.toNat ≤ a.toNat ∧ (a.toNat + n.toNat) % 2 ^ 64 ≤ p.sz.toNat) ∨
      (uspaceTop - p.stksz.toNat ≤ a.toNat ∧ (a.toNat + n.toNat) % 2 ^ 64 ≤ uspaceTop) := by
  unfold InUser
  simp only [UInt64.le_iff_toNat_le, UInt64.toNat_add, toNat_stackBottom, toNat_uspaceTop64]

/-- The string at `a` ends with its first zero byte in the region in which it begins. -/
def StringIn (p : UserSpace) (mem : UInt64 → UInt8) (a : UInt64) : Prop :=
  ∃ e : UInt64, a ≤ e ∧ mem e = 0 ∧ (∀ c, a ≤ c → c < e → mem c ≠ 0) ∧
    Mapped p a.toNat (e.toNat - a.toNat + 1)

theorem findNul_some {fuel : Nat} (h : findNul mem stop fuel s = some e) :
    s ≤ e ∧ e < stop ∧ mem e = 0 ∧ ∀ c, s ≤ c → c < e → mem c ≠ 0 := by
  induction fuel generalizing s with
  | zero => cases h
  | succ fuel ih =>
    rw [findNul] at h
    split at h
    case isFalse => cases h
    case isTrue hs =>
      split at h
      case isTrue hnul =>
        cases h
        exact ⟨UInt64.le_refl _, hs, hnul, fun c hle hlt => absurd hlt (UInt64.not_lt.mpr hle)⟩
      case isFalse hnul =>
        obtain ⟨hle, hlt, hzero, hbefore⟩ := ih h
        have hnext : (s + 1).toNat = s.toNat + 1 := by
          have hstop := stop.toNat_lt
          rw [UInt64.lt_iff_toNat_lt] at hs
          rw [UInt64.toNat_add, Nat.mod_eq_of_lt]
          · rfl
          · show s.toNat + 1 < 2 ^ 64
            omega
        rw [UInt64.le_iff_toNat_le, hnext] at hle
        refine ⟨UInt64.le_iff_toNat_le.mpr (by omega), hlt, hzero, fun c hc hce => ?_⟩
        by_cases hcs : c = s
        · rw [hcs]
          exact hnul
        · refine hbefore c ?_ hce
          have hne : c.toNat ≠ s.toNat := fun heq => hcs (UInt64.toNat_inj.mp heq)
          rw [UInt64.le_iff_toNat_le] at hc ⊢
          omega

theorem fetchBelow_nonneg (h : 0 ≤ fetchBelow mem stop a) :
    ∃ e : UInt64, a ≤ e ∧ e < stop ∧ mem e = 0 ∧ ∀ c, a ≤ c → c < e → mem c ≠ 0 := by
  unfold fetchBelow at h
  split at h
  case h_1 e he =>
    obtain ⟨hle, hlt, hzero, hbefore⟩ := findNul_some he
    exact ⟨e, hle, hlt, hzero, hbefore⟩
  case h_2 => exact absurd h (by decide)

/-- A string that `fetchstr` finds is in user memory with its end. -/
theorem fetchstr_sound (h : 0 ≤ fetchstr p mem a) : StringIn p mem a := by
  unfold fetchstr at h
  split at h
  case isTrue hin =>
    obtain ⟨e, hle, hlt, hzero, hbefore⟩ := fetchBelow_nonneg h
    refine ⟨e, hle, hzero, hbefore, .inl ⟨UInt64.le_iff_toNat_le.mp hin.1, ?_⟩⟩
    rw [UInt64.le_iff_toNat_le] at hle
    rw [UInt64.lt_iff_toNat_lt] at hlt
    omega
  case isFalse =>
    split at h
    case isTrue hin =>
      obtain ⟨e, hle, hlt, hzero, hbefore⟩ := fetchBelow_nonneg h
      refine ⟨e, hle, hzero, hbefore, .inr ⟨?_, ?_⟩⟩
      · rw [← toNat_stackBottom]
        exact UInt64.le_iff_toNat_le.mp hin.1
      · rw [UInt64.le_iff_toNat_le] at hle
        rw [UInt64.lt_iff_toNat_lt, toNat_uspaceTop64] at hlt
        omega
    case isFalse => exact absurd h (by decide)

/-- What `argptr` accepts for `n` bytes at `a`, and what `argstr` and `fetchstr` accept at `a`, is user
memory. -/
structure PointersSound (p : UserSpace) (mem : UInt64 → UInt8) (a n : UInt64) : Prop where
  ptr : ∀ x i, argptr p x i n = some a → a.toNat + n.toNat < 2 ^ 64 ∧ Mapped p a.toNat n.toNat
  str : ∀ x i, x i = a → 0 ≤ argstr p mem x i → StringIn p mem a
  fetched : 0 ≤ fetchstr p mem a → StringIn p mem a

/-- The end `a + n` does not wrap around, or it does and still lies behind each of the two regions
that begin at or below `a`. -/
def Unwrapped (p : UserSpace) (a n : UInt64) : Prop :=
  a.toNat + n.toNat < 2 ^ 64 ∨
    ((p.base.toNat ≤ a.toNat → p.sz.toNat + 2 ^ 64 < a.toNat + n.toNat) ∧
      (uspaceTop - p.stksz.toNat ≤ a.toNat → uspaceTop + 2 ^ 64 < a.toNat + n.toNat))

theorem argptr_eq_some {x : Nat → UInt64} {i : Nat} (h : argptr p x i n = some a) : InUser p a n := by
  unfold argptr argu64 at h
  split at h
  case isTrue => cases h
  case isFalse =>
    rw [Option.bind_eq_bind, Option.bind_some] at h
    split at h
    case isTrue hin =>
      cases h
      exact hin
    case isFalse => cases h

/-- The checks of the pointers are sound if and only if the end of the memory does not wrap around to an
address that they accept. -/
theorem pointersSound_iff (p : UserSpace) (mem : UInt64 → UInt8) (a n : UInt64) :
    PointersSound p mem a n ↔ Unwrapped p a n := by
  have ha := a.toNat_lt
  have hn := n.toNat_lt
  constructor
  · intro h
    by_contra hwrap
    have hin : InUser p a n := by
      unfold Unwrapped at hwrap
      rw [inUser_iff]
      omega
    have haccept : argptr p (fun _ => a) 0 n = some a := by
      show (if InUser p a n then some a else none) = some a
      rw [if_pos hin]
    exact hwrap (.inl (h.ptr _ _ haccept).1)
  · intro hwrap
    constructor
    case ptr =>
      intro x i haccept
      have hin := inUser_iff.mp (argptr_eq_some haccept)
      unfold Unwrapped at hwrap
      unfold Mapped
      omega
    case str =>
      intro x i hx hlen
      unfold argstr argu64 at hlen
      split at hlen
      case h_1 addr haddr =>
        split at haddr
        case isTrue => cases haddr
        case isFalse =>
          obtain rfl : x i = addr := Option.some.inj haddr
          rw [← hx]
          exact fetchstr_sound hlen
      case h_2 => exact absurd hlen (by decide)
    case fetched => exact fetchstr_sound

/-- A read of -1 bytes to the start of the program is accepted. -/
theorem argptr_accepts_negative :
    let p : UserSpace := ⟨0x400000, 0x500000, 0xa000, by decide⟩
    argptr p (fun _ => 0x400000) 1 (-1) = some 0x400000 ∧
      ¬PointersSound p (fun _ => 0) 0x400000 (-1) := by
  intro p
  have haccept : argptr p (fun _ => 0x400000) 1 (-1) = some 0x400000 := by decide +kernel
  refine ⟨haccept, fun h => ?_⟩
  have hlt := (h.ptr _ _ haccept).1
  exact absurd hlt (by decide)

end FtosFfs.Core
