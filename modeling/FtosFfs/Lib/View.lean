import FtosFfs.Lib.Bytes

/-! Memories with holes: the bytes, little-endian words, strings and arrays of pointers that are read
from them, and writes that may fill holes. -/

namespace FtosFfs.Lib

/-- A memory with holes: the byte at an address, if there is one. -/
abbrev View : Type := Nat → Option UInt8

namespace View

variable {m m' : View} {a n w v fuel : Nat} {b : UInt8} {f : Nat → UInt8} {l l' : List UInt8}

/-- The little-endian number in the `w` bytes from address `a` on. -/
def word (m : View) (a : Nat) : Nat → Option Nat
  | 0 => some 0
  | w + 1 => do
    let b ← m a
    let rest ← word m (a + 1) w
    some (b.toNat + 256 * rest)

/-- The bytes from address `a` on, up to a zero byte. -/
def string (m : View) : Nat → Nat → Option (List UInt8)
  | 0, _ => none
  | fuel + 1, a => do
    let b ← m a
    if b = 0 then some [] else (b :: ·) <$> string m fuel (a + 1)

/-- The words of 8 bytes from address `a` on, up to a zero word. -/
def pointers (m : View) : Nat → Nat → Option (List Nat)
  | 0, _ => none
  | fuel + 1, a => do
    let p ← m.word a 8
    if p = 0 then some [] else (p :: ·) <$> pointers m fuel (a + 8)

/-- The bytes from address `a` on are `l`. -/
def Holds (m : View) : Nat → List UInt8 → Prop
  | _, [] => True
  | a, b :: l => m a = some b ∧ Holds m (a + 1) l

/-- The words of 8 bytes from address `a` on are `ps`. -/
def HoldsWords (m : View) : Nat → List Nat → Prop
  | _, [] => True
  | a, p :: ps => m.word a 8 = some p ∧ HoldsWords m (a + 8) ps

/-- The bytes of `m` outside the `n` from address `a` on are bytes of `m'`; holes may have been
filled. -/
def Keeps (m : View) (a n : Nat) (m' : View) : Prop :=
  ∀ x b, m x = some b → x < a ∨ a + n ≤ x → m' x = some b

theorem Keeps.refl (m : View) (a n : Nat) : Keeps m a n m := fun _ _ h _ => h

theorem Keeps.trans {m₁ : View} (h : Keeps m a n m₁) (h' : Keeps m₁ a n m') : Keeps m a n m' :=
  fun x b hx hout => h' x b (h x b hx hout) hout

theorem Keeps.mono {a' n' : Nat} (h : Keeps m a n m') (hlo : a' ≤ a) (hhi : a + n ≤ a' + n') :
    Keeps m a' n' m' := fun x b hx hout => h x b hx (by omega)

/-- The view `m'` is `m` after a write of the `n` bytes `f 0`, `f 1`, ... from address `a` on. -/
structure Writes (m : View) (a n : Nat) (f : Nat → UInt8) (m' : View) : Prop where
  inside : ∀ i < n, m' (a + i) = some (f i)
  outside : Keeps m a n m'

theorem Writes.refl (m : View) (a : Nat) (f : Nat → UInt8) : Writes m a 0 f m :=
  ⟨fun _ h => absurd h (Nat.not_lt_zero _), .refl m a 0⟩

/-- A write after a write of the bytes before it. -/
theorem Writes.append {m₁ : View} {k : Nat} (h : Writes m a n f m₁)
    (h' : Writes m₁ (a + n) k (fun i => f (n + i)) m') : Writes m a (n + k) f m' := by
  constructor
  · intro i hi
    by_cases hn : i < n
    · exact h'.outside _ _ (h.inside i hn) (.inl (by omega))
    · have hlast := h'.inside (i - n) (by omega)
      rwa [show a + n + (i - n) = a + i by omega, show n + (i - n) = i by omega] at hlast
  · intro x b hx hout
    exact h'.outside x b (h.outside x b hx (by omega)) (by omega)

theorem word_of_bytes (h : ∀ k < w, m (a + k) = some (Bytes.byteOf v k)) :
    m.word a w = some (v % 256 ^ w) := by
  induction w generalizing a v with
  | zero => simp [word, Nat.mod_one]
  | succ w ih =>
    have hfirst := h 0 (by omega)
    rw [Nat.add_zero] at hfirst
    have htail : m.word (a + 1) w = some (v / 256 % 256 ^ w) := by
      refine ih fun k hk => ?_
      rw [show a + 1 + k = a + (k + 1) by omega, h (k + 1) (by omega), Bytes.byteOf, Bytes.byteOf,
        Nat.div_div_eq_div_mul, Nat.pow_succ, Nat.mul_comm]
    rw [word, hfirst, htail, Nat.pow_succ, Nat.mul_comm (256 ^ w) 256, Nat.mod_mul]
    simp [Bytes.byteOf]

/-- A word is read from its bytes. -/
theorem word_mono (h : ∀ k < w, ∀ b, m (a + k) = some b → m' (a + k) = some b)
    (hv : m.word a w = some v) : m'.word a w = some v := by
  induction w generalizing a v with
  | zero => exact hv
  | succ w ih =>
    obtain ⟨b, hb, hv⟩ := Option.bind_eq_some_iff.mp hv
    obtain ⟨rest, hrest, hv⟩ := Option.bind_eq_some_iff.mp hv
    have htail : m'.word (a + 1) w = some rest := by
      refine ih (fun k hk b hb => ?_) hrest
      rw [show a + 1 + k = a + (k + 1) by omega] at hb ⊢
      exact h (k + 1) (by omega) b hb
    have hfirst : m' a = some b := h 0 (by omega) b hb
    rw [word, hfirst, htail]
    exact hv

theorem holds_append : m.Holds a (l ++ l') ↔ m.Holds a l ∧ m.Holds (a + l.length) l' := by
  induction l generalizing a with
  | nil => simp [Holds]
  | cons b l ih =>
    rw [List.cons_append, Holds, Holds, ih, and_assoc, List.length_cons,
      show a + 1 + l.length = a + (l.length + 1) by omega]

theorem holds_iff : m.Holds a l ↔ ∀ i (hi : i < l.length), m (a + i) = some l[i] := by
  induction l generalizing a with
  | nil => simp [Holds]
  | cons b l ih =>
    rw [Holds, ih]
    constructor
    · rintro ⟨hb, hl⟩ i hi
      cases i with
      | zero => exact hb
      | succ i =>
        have := hl i (by simpa using hi)
        rwa [show a + 1 + i = a + (i + 1) by omega] at this
    · intro h
      refine ⟨h 0 (by simp), fun i hi => ?_⟩
      have := h (i + 1) (by simpa using hi)
      rwa [show a + (i + 1) = a + 1 + i by omega] at this

theorem Holds.mono (h : m.Holds a l) (hm : ∀ x b, a ≤ x → x < a + l.length → m x = some b → m' x = some b) :
    m'.Holds a l := by
  rw [holds_iff] at h ⊢
  exact fun i hi => hm _ _ (by omega) (by omega) (h i hi)

/-- A change past the bytes leaves them. -/
theorem Holds.frame (h : m.Holds a l) {x : Nat} (hk : Keeps m x n m') (hd : a + l.length ≤ x ∨ x + n ≤ a) :
    m'.Holds a l :=
  h.mono fun y b hle hlt hy => hk y b hy (by omega)

/-- The view after a write of the bytes of a list. -/
abbrev WritesList (m : View) (a : Nat) (l : List UInt8) (m' : View) : Prop :=
  Writes m a l.length (fun i => l.getD i 0) m'

theorem Writes.holds (h : WritesList m a l m') : m'.Holds a l := by
  rw [holds_iff]
  intro i hi
  rw [h.inside i hi, List.getD_eq_getElem l 0 hi]

/-- A write after a write of the bytes past it. -/
theorem Writes.prepend {m₁ : View} (h : WritesList m (a + l.length) l' m₁) (h' : WritesList m₁ a l m') :
    WritesList m a (l ++ l') m' := by
  constructor
  · intro i hi
    rw [List.length_append] at hi
    by_cases hl : i < l.length
    · rw [h'.inside i hl, List.getD_append l l' 0 i hl]
    · have hlast := h.inside (i - l.length) (by omega)
      rw [show a + l.length + (i - l.length) = a + i by omega] at hlast
      rw [List.getD_append_right l l' 0 i (by omega)]
      exact h'.outside _ _ hlast (by omega)
  · rw [List.length_append]
    exact (h.outside.mono (by omega) (by omega)).trans (h'.outside.mono (by omega) (by omega))

/-- A string that ends with a zero byte is read back. -/
theorem string_of_holds (h : m.Holds a (l ++ [0])) (hl : 0 ∉ l) (hfuel : l.length < fuel) :
    m.string fuel a = some l := by
  induction l generalizing a fuel with
  | nil =>
    obtain ⟨fuel, rfl⟩ : ∃ k, fuel = k + 1 := ⟨fuel - 1, by simp at hfuel; omega⟩
    rw [string, h.1]
    rfl
  | cons b l ih =>
    obtain ⟨fuel, rfl⟩ : ∃ k, fuel = k + 1 := ⟨fuel - 1, by simp at hfuel; omega⟩
    have hne : b ≠ 0 := fun hb => hl (hb ▸ List.mem_cons_self)
    have hrest := ih h.2 (fun hin => hl (List.mem_cons_of_mem _ hin)) (by simpa using hfuel)
    rw [string, h.1]
    simp [hne, hrest]

theorem holdsWords_append {ps qs : List Nat} :
    m.HoldsWords a (ps ++ qs) ↔ m.HoldsWords a ps ∧ m.HoldsWords (a + 8 * ps.length) qs := by
  induction ps generalizing a with
  | nil => simp [HoldsWords]
  | cons p ps ih =>
    rw [List.cons_append, HoldsWords, HoldsWords, ih, and_assoc, List.length_cons,
      show a + 8 + 8 * ps.length = a + 8 * (ps.length + 1) by omega]

theorem HoldsWords.frame {ps : List Nat} {x : Nat} (h : m.HoldsWords a ps) (hk : Keeps m x n m')
    (hd : a + 8 * ps.length ≤ x ∨ x + n ≤ a) : m'.HoldsWords a ps := by
  induction ps generalizing a with
  | nil => trivial
  | cons p ps ih =>
    rw [List.length_cons] at hd
    exact ⟨word_mono (fun k _ b hb => hk _ b hb (by omega)) h.1, ih h.2 (by omega)⟩

/-- An array of pointers that ends with a zero word is read back. -/
theorem pointers_of_holds {ps : List Nat} (h : m.HoldsWords a (ps ++ [0])) (hps : 0 ∉ ps)
    (hfuel : ps.length < fuel) : m.pointers fuel a = some ps := by
  induction ps generalizing a fuel with
  | nil =>
    obtain ⟨fuel, rfl⟩ : ∃ k, fuel = k + 1 := ⟨fuel - 1, by simp at hfuel; omega⟩
    rw [pointers, h.1]
    rfl
  | cons p ps ih =>
    obtain ⟨fuel, rfl⟩ : ∃ k, fuel = k + 1 := ⟨fuel - 1, by simp at hfuel; omega⟩
    have hne : p ≠ 0 := fun hp => hps (hp ▸ List.mem_cons_self)
    have hrest := ih h.2 (fun hin => hps (List.mem_cons_of_mem _ hin)) (by simpa using hfuel)
    rw [pointers, h.1]
    simp [hne, hrest]

/-- Strings one after another, each with a zero byte. -/
def block (ls : List (List UInt8)) : List UInt8 := ls.flatMap (· ++ [0])

/-- The addresses of the strings that lie one after another from `a` on, and the strings. -/
def placed : Nat → List (List UInt8) → List (Nat × List UInt8)
  | _, [] => []
  | a, l :: ls => (a, l) :: placed (a + (l.length + 1)) ls

theorem block_cons (l : List UInt8) (ls : List (List UInt8)) : block (l :: ls) = (l ++ [0]) ++ block ls :=
  List.flatMap_cons

theorem length_block_cons (l : List UInt8) (ls : List (List UInt8)) :
    (block (l :: ls)).length = l.length + 1 + (block ls).length := by
  rw [block_cons, List.length_append, List.length_append, List.length_singleton]

theorem map_snd_placed (a : Nat) (ls : List (List UInt8)) : (placed a ls).map Prod.snd = ls := by
  induction ls generalizing a with
  | nil => rfl
  | cons l ls ih => rw [placed, List.map_cons, ih]

theorem placed_append (a : Nat) (ls ls' : List (List UInt8)) :
    placed a (ls ++ ls') = placed a ls ++ placed (a + (block ls).length) ls' := by
  induction ls generalizing a with
  | nil => rfl
  | cons l ls ih =>
    rw [List.cons_append, placed, placed, ih, List.cons_append, length_block_cons, Nat.add_assoc a]

/-- Each string lies at its address. -/
theorem holds_placed {ls : List (List UInt8)} {x : Nat × List UInt8} (h : m.Holds a (block ls))
    (hx : x ∈ placed a ls) :
    m.Holds x.1 (x.2 ++ [0]) ∧ x.2 ∈ ls ∧ a ≤ x.1 ∧ x.1 + (x.2.length + 1) ≤ a + (block ls).length := by
  induction ls generalizing a with
  | nil => cases hx
  | cons l ls ih =>
    rw [block_cons, holds_append] at h
    rw [length_block_cons]
    rcases List.mem_cons.mp hx with rfl | hx
    · exact ⟨h.1, List.mem_cons_self, Nat.le_refl _, show a + (l.length + 1) ≤ _ by omega⟩
    · rw [List.length_append, List.length_singleton] at h
      obtain ⟨hheld, hmem, hle, hend⟩ := ih h.2 hx
      exact ⟨hheld, List.mem_cons_of_mem _ hmem, by omega, by omega⟩

/-- Every byte of the strings is of one of them, or the zero byte after it. -/
theorem mem_placed {ls : List (List UInt8)} {y : Nat} (hlo : a ≤ y) (hhi : y < a + (block ls).length) :
    ∃ x ∈ placed a ls, x.1 ≤ y ∧ y < x.1 + (x.2.length + 1) := by
  induction ls generalizing a with
  | nil =>
    change y < a + 0 at hhi
    omega
  | cons l ls ih =>
    rw [length_block_cons] at hhi
    by_cases hy : y < a + (l.length + 1)
    · exact ⟨(a, l), List.mem_cons_self, hlo, hy⟩
    · obtain ⟨x, hx, hle, hlt⟩ := ih (a := a + (l.length + 1)) (by omega) (by omega)
      exact ⟨x, List.mem_cons_of_mem _ hx, hle, hlt⟩

end View

end FtosFfs.Lib
