import FtosFfs.User.Grammar
import Mathlib.Data.List.TakeWhile

/-! `gettoken` and `peek` against the tokens of the rest of the line. -/

namespace FtosFfs.User.Sh

open Lib Lib.Exec

variable {line text cs : List UInt8} {c : UInt8} {s s' e q : Nat} {ts : List Token} {w : List UInt8}

/-! ### Skipping characters -/

theorem drop_length_takeWhile (p : UInt8 → Bool) (l : List UInt8) :
    l.drop (l.takeWhile p).length = l.dropWhile p := by
  induction l with
  | nil => rfl
  | cons a l ih =>
    rw [List.takeWhile_cons, List.dropWhile_cons]
    split
    · simpa using ih
    · rfl

@[simp] theorem drop_skip (line : List UInt8) (p : UInt8 → Bool) (s : Nat) :
    line.drop (skip line p s) = (line.drop s).dropWhile p := by
  rw [skip, ← List.drop_drop, drop_length_takeWhile]

theorem skip_le (p : UInt8 → Bool) (h : s ≤ line.length) : skip line p s ≤ line.length := by
  have hle := (List.takeWhile_prefix p (l := line.drop s)).length_le
  rw [List.length_drop] at hle
  unfold skip
  omega

theorem charAt_of_nil (h : line.drop s = []) : charAt line s = 0 := by
  have hle := List.drop_eq_nil_iff.mp h
  simp [charAt, List.getD, hle]

theorem charAt_of_cons (h : line.drop s = c :: cs) : charAt line s = c := by
  have hhead := congrArg List.head? h
  rw [List.head?_drop, List.head?_cons] at hhead
  simp [charAt, List.getD, hhead]

theorem drop_succ_of_cons (h : line.drop s = c :: cs) : line.drop (s + 1) = cs := by
  rw [← List.drop_drop, h]
  rfl

theorem lt_of_drop_cons (h : line.drop s = c :: cs) : s < line.length := by
  by_contra hge
  rw [List.drop_eq_nil_iff.mpr (Nat.not_lt.mp hge)] at h
  cases h

/-! ### Tokens -/

theorem tokens_nil : tokens [] = [] := by rw [tokens]

theorem tokens_white (h : isWhite c = true) : tokens (c :: cs) = tokens cs := by
  rw [tokens, if_pos h]

theorem tokens_dropWhile (text : List UInt8) : tokens (text.dropWhile isWhite) = tokens text := by
  induction text with
  | nil => rfl
  | cons c cs ih =>
    rw [List.dropWhile_cons]
    split
    case isTrue h => rw [ih, tokens_white h]
    case isFalse => rfl

/-- The first character after whitespace is no whitespace. -/
theorem isWhite_head (h : text.dropWhile isWhite = c :: cs) : isWhite c = false := by
  have hne : text.dropWhile isWhite ≠ [] := by simp [h]
  have hhead := List.head_dropWhile_not isWhite hne
  simpa [h] using hhead

/-- The symbols of a text are symbols. -/
theorem mem_symbols_of_mem_tokens (h : .sym c ∈ tokens text) : c ∈ symbols := by
  induction text using tokens.induct with
  | case1 => simp [tokens_nil] at h
  | case2 a cs hw ih =>
    rw [tokens_white hw] at h
    exact ih h
  | case3 cs hg hw ih =>
    rw [tokens, if_neg hw, if_pos rfl, if_pos hg] at h
    exact ih (by simpa using h)
  | case4 cs hg hw ih =>
    rw [tokens, if_neg hw, if_pos rfl, if_neg hg] at h
    rcases List.mem_cons.mp h with h | h
    · cases h
      decide
    · exact ih h
  | case5 a cs hw hg hs ih =>
    rw [tokens, if_neg hw, if_neg hg, if_pos hs] at h
    rcases List.mem_cons.mp h with h | h
    · cases h
      simpa using hs
    · exact ih h
  | case6 a cs hw hg hs ih =>
    rw [tokens, if_neg hw, if_neg hg, if_neg hs] at h
    exact ih (by simpa using h)

/-! ### The cursor -/

/-- The tokens from offset `s` of the line on are `ts`. -/
def At (line : List UInt8) (s : Nat) (ts : List Token) : Prop :=
  s ≤ line.length ∧ tokens (line.drop s) = ts

/-- The word `w` is at offset `q` of the line and ends at `e`. -/
structure WordAt (line : List UInt8) (q e : Nat) (w : List UInt8) : Prop where
  text : (line.drop q).takeWhile isWord = w
  stop : e = q + w.length
  le : q ≤ line.length

/-- What `gettoken` returns for the first of the tokens. -/
def code : List Token → UInt8
  | [] => 0
  | .sym c :: _ => c
  | .append :: _ => plus
  | .word _ :: _ => letterA

/-- The tokens start with one of the symbols, where `>>` starts as `>` does. -/
def startsWith (toks : List UInt8) : List Token → Bool
  | .sym c :: _ => toks.contains c
  | .append :: _ => toks.contains greater
  | _ => false

theorem At.skip (h : At line s ts) : At line (skip line isWhite s) ts :=
  ⟨skip_le _ h.1, by rw [drop_skip, tokens_dropWhile, h.2]⟩

/-- The token at an offset that is no whitespace. -/
theorem tokenAt_spec (h0 : 0 ∉ line) (h : At line s ts)
    (hwhite : ∀ c cs, line.drop s = c :: cs → isWhite c = false) :
    ∃ e, tokenAt line s = (code ts, e) ∧ At line e ts.tail ∧
      ∀ w, ts.head? = some (.word w) → WordAt line s e w := by
  obtain ⟨hle, rfl⟩ := h
  cases hrest : line.drop s with
  | nil =>
    refine ⟨s, ?_, ⟨hle, ?_⟩, ?_⟩
    · simp [tokenAt, charAt_of_nil hrest, tokens_nil, code]
    · rw [hrest, tokens_nil]
      rfl
    · simp [tokens_nil]
  | cons c cs =>
    have hw : isWhite c ≠ true := by simp [hwhite c cs hrest]
    have hc := charAt_of_cons hrest
    have hlt := lt_of_drop_cons hrest
    have hcs := drop_succ_of_cons hrest
    have hc0 : c ≠ 0 := by
      rintro rfl
      exact h0 (List.mem_of_mem_drop (i := s) (by rw [hrest]; exact List.mem_cons_self))
    by_cases hg : c = greater
    · subst hg
      have hother : ¬(greater = bar ∨ greater = leftParen ∨ greater = rightParen ∨
          greater = semicolon ∨ greater = ampersand ∨ greater = less) := by decide
      by_cases hgg : cs.head? = some greater
      · obtain ⟨cs', rfl⟩ : ∃ cs', cs = greater :: cs' := by
          cases cs with
          | nil => simp at hgg
          | cons b cs' =>
            obtain rfl : b = greater := by simpa using hgg
            exact ⟨cs', rfl⟩
        refine ⟨s + 2, ?_, ⟨lt_of_drop_cons hcs, ?_⟩, ?_⟩
        · rw [tokenAt]
          simp only [hc, if_neg hc0, if_neg hother, if_true, charAt_of_cons hcs]
          rw [tokens, if_neg hw, if_pos rfl, if_pos hgg]
          rfl
        · rw [tokens, if_neg hw, if_pos rfl, if_pos hgg, drop_succ_of_cons hcs]
          rfl
        · rw [tokens, if_neg hw, if_pos rfl, if_pos hgg]
          simp
      · have hnext : charAt line (s + 1) ≠ greater := by
          cases cs with
          | nil =>
            rw [charAt_of_nil hcs]
            decide
          | cons b cs' =>
            rw [charAt_of_cons hcs]
            simpa using hgg
        refine ⟨s + 1, ?_, ⟨hlt, ?_⟩, ?_⟩
        · rw [tokenAt]
          simp only [hc, if_neg hc0, if_neg hother, if_true, if_neg hnext]
          rw [tokens, if_neg hw, if_pos rfl, if_neg hgg]
          rfl
        · rw [tokens, if_neg hw, if_pos rfl, if_neg hgg, hcs]
          rfl
        · rw [tokens, if_neg hw, if_pos rfl, if_neg hgg]
          simp
    · have hsym : symbols.contains c = true ↔ (c = bar ∨ c = leftParen ∨ c = rightParen ∨
          c = semicolon ∨ c = ampersand ∨ c = less) := by
        have hmem : symbols.contains c = true ↔ c = less ∨ c = bar ∨ c = greater ∨ c = ampersand ∨
            c = semicolon ∨ c = leftParen ∨ c = rightParen := by
          simp [symbols, less, bar, greater, ampersand, semicolon, leftParen, rightParen]
        rw [hmem]
        grind
      by_cases hs : symbols.contains c = true
      · refine ⟨s + 1, ?_, ⟨hlt, ?_⟩, ?_⟩
        · rw [tokenAt]
          simp only [hc, if_neg hc0, if_pos (hsym.mp hs)]
          rw [tokens, if_neg hw, if_neg hg, if_pos hs]
          rfl
        · rw [tokens, if_neg hw, if_neg hg, if_pos hs, hcs]
          rfl
        · rw [tokens, if_neg hw, if_neg hg, if_pos hs]
          simp
      · have hword : isWord c = true := by
          have hw' : whitespace.contains c = false := by simpa [isWhite] using hw
          have hs' : symbols.contains c = false := by simpa using hs
          rw [isWord, hw', hs']
          rfl
        refine ⟨Sh.skip line isWord s, ?_, ⟨skip_le _ hle, ?_⟩, ?_⟩
        · rw [tokenAt]
          simp only [hc, if_neg hc0, if_neg fun h => hs (hsym.mpr h), if_neg hg]
          rw [tokens, if_neg hw, if_neg hg, if_neg hs]
          rfl
        · rw [tokens, if_neg hw, if_neg hg, if_neg hs, drop_skip, hrest, List.dropWhile_cons,
            if_pos hword]
          rfl
        · rw [tokens, if_neg hw, if_neg hg, if_neg hs]
          intro w hw'
          obtain rfl : c :: cs.takeWhile isWord = w := by simpa using hw'
          have htake : (line.drop s).takeWhile isWord = c :: cs.takeWhile isWord := by
            rw [hrest, List.takeWhile_cons, if_pos hword]
          exact ⟨htake, by rw [Sh.skip, htake], hle⟩

theorem gettoken_runs (h0 : 0 ∉ line) (h : At line s ts) :
    ∃ q e s', Runs (gettoken line) s (code ts, q, e) s' ∧ At line s' ts.tail ∧
      ∀ w, ts.head? = some (.word w) → WordAt line q e w := by
  have hwhite (c : UInt8) (cs : List UInt8) (hc : line.drop (Sh.skip line isWhite s) = c :: cs) :
      isWhite c = false := by
    rw [drop_skip] at hc
    exact isWhite_head hc
  obtain ⟨e, htok, hat, hword⟩ := tokenAt_spec h0 h.skip hwhite
  refine ⟨Sh.skip line isWhite s, e, Sh.skip line isWhite e, ?_, hat.skip, hword⟩
  simp only [gettoken, runs_bind, runs_get, runs_set, runs_pure]
  exact ⟨s, s, ⟨rfl, rfl⟩, ⟨⟩, _, rfl, by rw [htok], by rw [htok]⟩

theorem peek_runs (h0 : 0 ∉ line) (h : At line s ts) {l : List UInt8} (hl : l ⊆ symbols) :
    ∃ s', Runs (peek line l) s (startsWith l ts) s' ∧ At line s' ts := by
  refine ⟨Sh.skip line isWhite s, ?_, h.skip⟩
  simp only [peek, runs_bind, runs_get, runs_set, runs_pure]
  refine ⟨s, s, ⟨rfl, rfl⟩, ⟨⟩, _, rfl, ?_, rfl⟩
  have hts := h.skip.2
  cases hrest : line.drop (Sh.skip line isWhite s) with
  | nil =>
    rw [hrest, tokens_nil] at hts
    subst hts
    simp [charAt_of_nil hrest, startsWith]
  | cons c cs =>
    have hw : isWhite c ≠ true := by
      rw [drop_skip] at hrest
      simp [isWhite_head hrest]
    have hc0 : c ≠ 0 := by
      rintro rfl
      exact h0 (List.mem_of_mem_drop (i := Sh.skip line isWhite s)
        (by rw [hrest]; exact List.mem_cons_self))
    rw [charAt_of_cons hrest]
    rw [hrest, tokens, if_neg hw] at hts
    split at hts
    case isTrue hg =>
      subst hg
      split at hts <;> subst hts <;> simp [startsWith, hc0]
    case isFalse =>
      split at hts
      case isTrue =>
        subst hts
        simp [startsWith, hc0]
      case isFalse hs =>
        subst hts
        have hno : c ∉ l := fun hmem => hs (by simpa using hl hmem)
        simp [startsWith, hno]

end FtosFfs.User.Sh
