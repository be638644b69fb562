import FtosFfs.User.Strings

/-! The parser against the grammar: what the routines of the parser accept is derived from the
grammar, and they accept what is derived. -/

namespace FtosFfs.User.Sh

open Lib Lib.Exec

variable {line : List UInt8} {s s' e q f i : Nat} {ts rest : List Token} {w : List UInt8}
  {cmd left right : Cmd} {t u : Tree} {toks toks' : List UInt8}

/-! ### The first token -/

theorem nil_of_code (h : At line s ts) (hc : code ts = 0) : ts = [] := by
  cases ts with
  | nil => rfl
  | cons tok rest =>
    cases tok with
    | sym c =>
      have hmem : c ∈ symbols := mem_symbols_of_mem_tokens (h.2 ▸ List.mem_cons_self)
      obtain rfl : c = 0 := hc
      exact absurd hmem (by decide)
    | append => exact absurd hc (by simp [code, plus])
    | word w => exact absurd hc (by simp [code, letterA])

theorem word_of_code (h : At line s ts) (hc : code ts = letterA) :
    ∃ w rest, ts = .word w :: rest := by
  cases ts with
  | nil => exact absurd hc (by decide)
  | cons tok rest =>
    cases tok with
    | sym c =>
      have hmem : c ∈ symbols := mem_symbols_of_mem_tokens (h.2 ▸ List.mem_cons_self)
      obtain rfl : c = letterA := hc
      exact absurd hmem (by decide)
    | append => exact absurd hc (by simp [code, plus, letterA])
    | word w => exact ⟨w, rest, rfl⟩

theorem sym_of_startsWith {c : UInt8} (hc : c ≠ greater) (h : startsWith [c] ts = true) :
    ∃ rest, ts = .sym c :: rest := by
  unfold startsWith at h
  split at h
  case h_1 a rest =>
    obtain rfl : a = c := by simpa using h
    exact ⟨rest, rfl⟩
  case h_2 => exact absurd (by simpa using h) hc.symm
  case h_3 => cases h

/-- A token that starts a redirection makes one with the word after it. -/
theorem redir_of_startsWith (h : startsWith [less, greater] ts = true) :
    ∃ tok rest, ts = tok :: rest ∧ ∀ q e w, WordAt line q e w →
      ∃ d : RedirTo, d.tokens = [tok, .word w] ∧ RedirMeans line (redirOf (code ts) q e) d := by
  unfold startsWith at h
  split at h
  case h_1 c rest =>
    refine ⟨.sym c, rest, rfl, fun q e w hw => ?_⟩
    rcases (show c = less ∨ c = greater by simpa using h) with rfl | rfl
    · exact ⟨.input w, rfl, .input hw⟩
    · exact ⟨.output w, rfl, .output hw⟩
  case h_2 rest => exact ⟨.append, rest, rfl, fun q e w hw => ⟨.append w, rfl, .append hw⟩⟩
  case h_3 => cases h

/-! ### What is accepted is derived -/

section

variable (h0 : 0 ∉ line)

include h0

theorem parseredirs_yields (h : At line s ts) (hf : ts.length < f) :
    Yields .panic (fun rs s' => ∃ (ds : List RedirTo) (rest : List Token),
        ts = ds.flatMap RedirTo.tokens ++ rest ∧ List.Forall₂ (RedirMeans line) rs ds ∧
          At line s' rest)
      (parseredirs line f) s := by
  induction f generalizing s ts with
  | zero => omega
  | succ n ih =>
    unfold parseredirs
    obtain ⟨s₁, hpeek, h₁⟩ := peek_runs h0 h (l := [less, greater]) (by decide)
    apply Yields.after hpeek
    split
    case isFalse => exact Yields.pure ⟨[], ts, rfl, .nil, h₁⟩
    case isTrue hstart =>
      obtain ⟨tok, rest, rfl, hredir⟩ := redir_of_startsWith hstart
      obtain ⟨_, _, s₂, hop, h₂, -⟩ := gettoken_runs h0 h₁
      apply Yields.after hop
      obtain ⟨q, e, s₃, hfile, h₃, hword⟩ := gettoken_runs h0 h₂
      apply Yields.after hfile
      apply Yields.require
      intro hcode
      obtain ⟨w, rest, rfl⟩ := word_of_code h₂ hcode
      obtain ⟨d, hd, hmeans⟩ := hredir q e w (hword w rfl)
      apply Yields.bind (ih h₃ (by simp only [List.length_cons] at hf; simp; omega))
      rintro rs s₄ ⟨ds, rest, hrest, hrs, h₄⟩
      refine Yields.pure ⟨d :: ds, rest, ?_, .cons hmeans hrs, h₄⟩
      rw [List.flatMap_cons, hd, List.append_assoc, ← hrest]
      rfl

theorem parseargs_yields (h : At line s ts) (hf : ts.length < f) :
    Yields .panic (fun r s' => ∃ (args : List (List UInt8 × List RedirTo)) (rest : List Token),
        ts = (args.flatMap fun arg => .word arg.1 :: arg.2.flatMap RedirTo.tokens) ++ rest ∧
          (i < maxArgs → i + args.length < maxArgs) ∧
          List.Forall₂ (fun arg w => WordAt line arg.1 arg.2 w) r.1 (args.map Prod.fst) ∧
          List.Forall₂ (RedirMeans line) r.2 (args.flatMap Prod.snd) ∧ At line s' rest)
      (parseargs line f i) s := by
  induction f generalizing s ts i with
  | zero => omega
  | succ n ih =>
    unfold parseargs
    obtain ⟨s₁, hpeek, h₁⟩ := peek_runs h0 h
      (l := [bar, rightParen, ampersand, semicolon]) (by decide)
    apply Yields.after hpeek
    split
    case isTrue => exact Yields.pure ⟨[], ts, rfl, id, .nil, .nil, h₁⟩
    case isFalse =>
      obtain ⟨q, e, s₂, htok, h₂, hword⟩ := gettoken_runs h0 h₁
      apply Yields.after htok
      dsimp only
      split
      case isTrue hcode =>
        obtain rfl := nil_of_code h₁ hcode
        exact Yields.pure ⟨[], [], rfl, id, .nil, .nil, h₂⟩
      case isFalse =>
        apply Yields.require
        intro hcode
        obtain ⟨w, rest, rfl⟩ := word_of_code h₁ hcode
        apply Yields.require
        intro hargc
        simp only [List.length_cons] at hf
        apply Yields.bind (parseredirs_yields h0 h₂ (by simp; omega))
        rintro rs s₃ ⟨ds, rest', hrest, hrs, h₃⟩
        obtain rfl : rest = ds.flatMap RedirTo.tokens ++ rest' := hrest
        rw [List.length_append] at hf
        apply Yields.bind (ih (i := i + 1) h₃ (by omega))
        rintro ⟨argv, rs'⟩ s₄ ⟨args, rest, rfl, hmax, hargv, hrs', h₄⟩
        refine Yields.pure ⟨(w, ds) :: args, rest, by simp, fun _ => ?_, .cons (hword w rfl) hargv, ?_,
          h₄⟩
        · have hlt := hmax (by omega)
          simp only [List.length_cons]
          omega
        · exact List.rel_append hrs hrs'

theorem parseback_yields (h : At line s ts) (hf : ts.length < f) (hm : Means line cmd t) :
    Yields .panic (fun cmd' s' => ∃ (n : Nat) (rest : List Token),
        ts = List.replicate n (.sym ampersand) ++ rest ∧ Means line cmd' (t.backs n) ∧
          At line s' rest)
      (parseback line f cmd) s := by
  induction f generalizing s ts cmd t with
  | zero => omega
  | succ n ih =>
    unfold parseback
    obtain ⟨s₁, hpeek, h₁⟩ := peek_runs h0 h (l := [ampersand]) (by decide)
    apply Yields.after hpeek
    split
    case isFalse => exact Yields.pure ⟨0, ts, rfl, hm, h₁⟩
    case isTrue hstart =>
      obtain ⟨rest, rfl⟩ := sym_of_startsWith (by decide) hstart
      obtain ⟨_, _, s₂, htok, h₂, -⟩ := gettoken_runs h0 h₁
      apply Yields.after htok
      apply (ih h₂ (by simpa using hf) hm.back).mono
      rintro cmd' s₃ ⟨m, rest', hrest, hm', h₃⟩
      refine ⟨m + 1, rest', ?_, ?_, h₃⟩
      · rw [List.replicate_succ, List.cons_append, ← hrest]
        rfl
      · rwa [← Tree.backs_back]

end

mutual

theorem parseline_yields {s f : Nat} {ts : List Token} (h0 : 0 ∉ line)
    (h : At line s ts) (hf : 4 * ts.length + 4 ≤ f) :
    Yields .panic (fun cmd s' => ∃ used rest t, ts = used ++ rest ∧ Line used t ∧
        Means line cmd t ∧ At line s' rest)
      (parseline line f) s := by
  cases f with
  | zero => omega
  | succ n =>
    unfold parseline
    apply Yields.bind (parsepipe_yields h0 h (by omega))
    rintro cmd s₁ ⟨used, rest₁, t, rfl, hpipe, hm, h₁⟩
    rw [List.length_append] at hf
    apply Yields.bind (parseback_yields h0 h₁ (by omega) hm)
    rintro cmd' s₂ ⟨k, rest₂, rfl, hm', h₂⟩
    obtain ⟨s₃, hpeek, h₃⟩ := peek_runs h0 h₂ (l := [semicolon]) (by decide)
    apply Yields.after hpeek
    split
    case isFalse =>
      exact Yields.pure ⟨_, rest₂, _, (List.append_assoc ..).symm, .last k hpipe, hm', h₃⟩
    case isTrue hstart =>
      obtain ⟨rest₃, rfl⟩ := sym_of_startsWith (by decide) hstart
      obtain ⟨_, _, s₄, htok, h₄, -⟩ := gettoken_runs h0 h₃
      apply Yields.after htok
      rw [List.length_append, List.length_cons] at hf
      apply Yields.bind (parseline_yields h0 h₄ (by rw [List.tail_cons]; omega))
      rintro right s₅ ⟨us, rest₄, u, hrest, hline, hmu, h₅⟩
      rw [List.tail_cons] at hrest
      refine Yields.pure ⟨_, rest₄, _, ?_, .seq k hpipe hline, .list hm' hmu, h₅⟩
      rw [hrest]
      simp
termination_by f

theorem parsepipe_yields {s f : Nat} {ts : List Token} (h0 : 0 ∉ line)
    (h : At line s ts) (hf : 4 * ts.length + 3 ≤ f) :
    Yields .panic (fun cmd s' => ∃ used rest t, ts = used ++ rest ∧ Pipe used t ∧
        Means line cmd t ∧ At line s' rest)
      (parsepipe line f) s := by
  cases f with
  | zero => omega
  | succ n =>
    unfold parsepipe
    apply Yields.bind (parseexec_yields h0 h (by omega))
    rintro cmd s₁ ⟨used, rest₁, t, rfl, hsimple, hm, h₁⟩
    obtain ⟨s₂, hpeek, h₂⟩ := peek_runs h0 h₁ (l := [bar]) (by decide)
    apply Yields.after hpeek
    split
    case isFalse => exact Yields.pure ⟨used, rest₁, t, rfl, .last hsimple, hm, h₂⟩
    case isTrue hstart =>
      obtain ⟨rest₂, rfl⟩ := sym_of_startsWith (by decide) hstart
      obtain ⟨_, _, s₃, htok, h₃, -⟩ := gettoken_runs h0 h₂
      apply Yields.after htok
      rw [List.length_append, List.length_cons] at hf
      apply Yields.bind (parsepipe_yields h0 h₃ (by rw [List.tail_cons]; omega))
      rintro right s₄ ⟨us, rest₃, u, hrest, hpipe, hmu, h₄⟩
      rw [List.tail_cons] at hrest
      refine Yields.pure ⟨_, rest₃, _, ?_, .pipe hsimple hpipe, .pipe hm hmu, h₄⟩
      rw [hrest]
      simp
termination_by f

theorem parseexec_yields {s f : Nat} {ts : List Token} (h0 : 0 ∉ line)
    (h : At line s ts) (hf : 4 * ts.length + 2 ≤ f) :
    Yields .panic (fun cmd s' => ∃ used rest t, ts = used ++ rest ∧ Simple used t ∧
        Means line cmd t ∧ At line s' rest)
      (parseexec line f) s := by
  cases f with
  | zero => omega
  | succ n =>
    unfold parseexec
    obtain ⟨s₁, hpeek, h₁⟩ := peek_runs h0 h (l := [leftParen]) (by decide)
    apply Yields.after hpeek
    split
    case isTrue => exact parseblock_yields h0 h₁ (by omega)
    case isFalse =>
      apply Yields.bind (parseredirs_yields h0 h₁ (by omega))
      rintro rs s₂ ⟨ds, rest₁, rfl, hrs, h₂⟩
      rw [List.length_append] at hf
      apply Yields.bind (parseargs_yields h0 (i := 0) h₂ (by omega))
      rintro ⟨argv, rs'⟩ s₃ ⟨args, rest₂, rfl, hmax, hargv, hrs', h₃⟩
      refine Yields.pure ⟨_, rest₂, _, (List.append_assoc ..).symm, .exec ds args ?_,
        Means.redirs (.exec hargv) (List.rel_append hrs hrs'), h₃⟩
      simpa using hmax (by decide)
termination_by f

theorem parseblock_yields {s f : Nat} {ts : List Token} (h0 : 0 ∉ line)
    (h : At line s ts) (hf : 4 * ts.length + 1 ≤ f) :
    Yields .panic (fun cmd s' => ∃ used rest t, ts = used ++ rest ∧ Simple used t ∧
        Means line cmd t ∧ At line s' rest)
      (parseblock line f) s := by
  cases f with
  | zero => omega
  | succ n =>
    unfold parseblock
    obtain ⟨s₁, hpeek, h₁⟩ := peek_runs h0 h (l := [leftParen]) (by decide)
    apply Yields.after hpeek
    apply Yields.require
    intro hopen
    obtain ⟨rest₁, rfl⟩ := sym_of_startsWith (by decide) hopen
    obtain ⟨_, _, s₂, htok, h₂, -⟩ := gettoken_runs h0 h₁
    apply Yields.after htok
    rw [List.length_cons] at hf
    rw [List.tail_cons] at h₂
    apply Yields.bind (parseline_yields h0 h₂ (by omega))
    rintro cmd s₃ ⟨used, rest₂, t, rfl, hline, hm, h₃⟩
    obtain ⟨s₄, hpeek', h₄⟩ := peek_runs h0 h₃ (l := [rightParen]) (by decide)
    apply Yields.after hpeek'
    apply Yields.require
    intro hclose
    obtain ⟨rest₃, rfl⟩ := sym_of_startsWith (by decide) hclose
    obtain ⟨_, _, s₅, htok', h₅, -⟩ := gettoken_runs h0 h₄
    apply Yields.after htok'
    rw [List.length_append, List.length_cons] at hf
    rw [List.tail_cons] at h₅
    apply Yields.bind (parseredirs_yields h0 h₅ (by omega))
    rintro rs s₆ ⟨ds, rest₄, rfl, hrs, h₆⟩
    exact Yields.pure ⟨_, rest₄, _, by simp, .block ds hline, hm.redirs hrs, h₆⟩
termination_by f

end

/-! ### What is derived is accepted -/

/-- The tokens end, or start with one of the symbols. -/
def Follow (toks : List UInt8) (rest : List Token) : Prop :=
  rest = [] ∨ startsWith toks rest = true

theorem Follow.mono (h : Follow toks rest) (hsub : toks ⊆ toks') : Follow toks' rest := by
  refine h.imp id fun h => ?_
  unfold startsWith at h ⊢
  split at h
  · simpa using hsub (by simpa using h)
  · simpa using hsub (by simpa using h)
  · cases h

theorem Follow.not_startsWith (h : Follow toks rest) (hdis : ∀ c ∈ toks, c ∉ toks') :
    startsWith toks' rest = false := by
  rcases h with rfl | h
  · rfl
  · unfold startsWith at h ⊢
    split at h
    · simpa using hdis _ (by simpa using h)
    · simpa using hdis _ (by simpa using h)
    · cases h

theorem follow_sym {c : UInt8} (h : c ∈ toks) : Follow toks (.sym c :: rest) :=
  .inr (by simpa [startsWith] using h)

theorem follow_backs {n : Nat} (h : Follow toks rest) (hmem : ampersand ∈ toks) :
    Follow toks (List.replicate n (.sym ampersand) ++ rest) := by
  cases n with
  | zero => exact h
  | succ n => exact follow_sym hmem

/-- A redirection is two tokens, the second its file. -/
theorem RedirTo.tokens_eq (line : List UInt8) (d : RedirTo) :
    ∃ tok w, d.tokens = [tok, .word w] ∧ ∀ rest, startsWith [less, greater] (tok :: rest) = true ∧
      ∀ q e, WordAt line q e w → RedirMeans line (redirOf (code (tok :: rest)) q e) d := by
  cases d with
  | input w => exact ⟨.sym less, w, rfl, fun _ => ⟨rfl, fun _ _ hw => .input hw⟩⟩
  | output w => exact ⟨.sym greater, w, rfl, fun _ => ⟨rfl, fun _ _ hw => .output hw⟩⟩
  | append w => exact ⟨.append, w, rfl, fun _ => ⟨rfl, fun _ _ hw => .append hw⟩⟩

theorem args_not_startsWith (args : List (List UInt8 × List RedirTo))
    (h : Follow [bar, rightParen, ampersand, semicolon] rest) :
    startsWith [less, greater]
      ((args.flatMap fun arg => .word arg.1 :: arg.2.flatMap RedirTo.tokens) ++ rest) = false := by
  cases args with
  | nil => exact h.not_startsWith (by decide +kernel)
  | cons arg args => rfl

theorem exec_not_startsWith (rs : List RedirTo) (args : List (List UInt8 × List RedirTo))
    (h : Follow [bar, rightParen, ampersand, semicolon] rest) :
    startsWith [leftParen] (rs.flatMap RedirTo.tokens ++
      (args.flatMap fun arg => .word arg.1 :: arg.2.flatMap RedirTo.tokens) ++ rest) = false := by
  cases rs with
  | nil =>
    cases args with
    | nil => exact h.not_startsWith (by decide +kernel)
    | cons arg args => rfl
  | cons d rs => cases d <;> rfl

theorem length_le_tokens (ds : List RedirTo) : ds.length ≤ (ds.flatMap RedirTo.tokens).length := by
  induction ds with
  | nil => exact Nat.le_refl 0
  | cons d ds ih =>
    obtain ⟨tok, w, hd, -⟩ := d.tokens_eq []
    rw [List.flatMap_cons, hd, List.length_append, List.length_cons, List.length_cons,
      List.length_cons]
    omega

section

variable (h0 : 0 ∉ line)

include h0

theorem parseredirs_runs {ds : List RedirTo}
    (h : At line s (ds.flatMap RedirTo.tokens ++ rest))
    (hrest : startsWith [less, greater] rest = false) (hf : ds.length < f) :
    ∃ rs s', Runs (parseredirs line f) s rs s' ∧ List.Forall₂ (RedirMeans line) rs ds ∧
      At line s' rest := by
  induction ds generalizing s f with
  | nil =>
    obtain ⟨n, rfl⟩ := Nat.exists_eq_add_of_lt hf
    obtain ⟨s₁, hpeek, h₁⟩ := peek_runs h0 h (l := [less, greater]) (by decide)
    refine ⟨[], s₁, ?_, .nil, h₁⟩
    unfold parseredirs
    refine runs_bind.mpr ⟨_, _, hpeek, ?_⟩
    rw [List.flatMap_nil, List.nil_append, hrest]
    exact runs_pure.mpr ⟨rfl, rfl⟩
  | cons d ds ih =>
    cases f with
    | zero => simp at hf
    | succ n =>
      obtain ⟨tok, w, hd, htok⟩ := d.tokens_eq line
      rw [List.flatMap_cons, hd, List.append_assoc, List.cons_append, List.cons_append,
        List.nil_append] at h
      obtain ⟨hstart, hmeans⟩ := htok (.word w :: (ds.flatMap RedirTo.tokens ++ rest))
      obtain ⟨s₁, hpeek, h₁⟩ := peek_runs h0 h (l := [less, greater]) (by decide)
      obtain ⟨q₁, e₁, s₂, hop, h₂, -⟩ := gettoken_runs h0 h₁
      obtain ⟨q, e, s₃, hfile, h₃, hword⟩ := gettoken_runs h0 h₂
      obtain ⟨rs, s₄, hrs, hall, h₄⟩ := ih h₃ (Nat.lt_of_succ_lt_succ hf)
      refine ⟨_, s₄, ?_, .cons (hmeans q e (hword w rfl)) hall, h₄⟩
      unfold parseredirs
      refine runs_bind.mpr ⟨_, _, hpeek, ?_⟩
      rw [hstart]
      refine runs_bind.mpr ⟨_, _, hop, runs_bind.mpr ⟨_, _, hfile, ?_⟩⟩
      refine runs_bind.mpr ⟨(), _, runs_require.mpr ⟨rfl, rfl⟩, ?_⟩
      exact runs_bind.mpr ⟨_, _, hrs, runs_pure.mpr ⟨rfl, rfl⟩⟩

theorem parseargs_runs {args : List (List UInt8 × List RedirTo)}
    (h : At line s ((args.flatMap fun arg => .word arg.1 :: arg.2.flatMap RedirTo.tokens) ++ rest))
    (hrest : Follow [bar, rightParen, ampersand, semicolon] rest)
    (hargs : i + args.length < maxArgs)
    (hf : (args.flatMap fun arg => Token.word arg.1 :: arg.2.flatMap RedirTo.tokens).length < f) :
    ∃ r s', Runs (parseargs line f i) s r s' ∧
      List.Forall₂ (fun arg w => WordAt line arg.1 arg.2 w) r.1 (args.map Prod.fst) ∧
      List.Forall₂ (RedirMeans line) r.2 (args.flatMap Prod.snd) ∧ At line s' rest := by
  induction args generalizing s f i with
  | nil =>
    obtain ⟨n, rfl⟩ := Nat.exists_eq_add_of_lt hf
    obtain ⟨s₁, hpeek, h₁⟩ := peek_runs h0 h
      (l := [bar, rightParen, ampersand, semicolon]) (by decide)
    unfold parseargs
    rcases hrest with rfl | hstart
    · obtain ⟨q, e, s₂, htok, h₂, -⟩ := gettoken_runs h0 h₁
      refine ⟨([], []), s₂, runs_bind.mpr ⟨_, _, hpeek, ?_⟩, .nil, .nil, h₂⟩
      exact runs_bind.mpr ⟨_, _, htok, runs_pure.mpr ⟨rfl, rfl⟩⟩
    · refine ⟨([], []), s₁, runs_bind.mpr ⟨_, _, hpeek, ?_⟩, .nil, .nil, h₁⟩
      rw [List.flatMap_nil, List.nil_append, hstart]
      exact runs_pure.mpr ⟨rfl, rfl⟩
  | cons arg args ih =>
    obtain ⟨w, ds⟩ := arg
    cases f with
    | zero => simp at hf
    | succ n =>
      rw [List.flatMap_cons, List.length_append, List.length_cons] at hf
      rw [List.flatMap_cons, List.append_assoc, List.cons_append] at h
      dsimp only at h hf
      rw [List.length_cons] at hargs
      have hds := length_le_tokens ds
      have hnext := args_not_startsWith args hrest
      obtain ⟨s₁, hpeek, h₁⟩ := peek_runs h0 h
        (l := [bar, rightParen, ampersand, semicolon]) (by decide)
      obtain ⟨q, e, s₂, htok, h₂, hword⟩ := gettoken_runs h0 h₁
      obtain ⟨rs, s₃, hrs, hall, h₃⟩ := parseredirs_runs h0 h₂ hnext (f := n) (by omega)
      obtain ⟨⟨argv, rs'⟩, s₄, hr, hargv, hall', h₄⟩ := ih (i := i + 1) (f := n) h₃ (by omega)
        (by omega)
      refine ⟨((q, e) :: argv, rs ++ rs'), s₄, ?_, .cons (hword w rfl) hargv,
        List.rel_append hall hall', h₄⟩
      unfold parseargs
      refine runs_bind.mpr ⟨_, _, hpeek, runs_bind.mpr ⟨_, _, htok, ?_⟩⟩
      refine runs_bind.mpr ⟨(), _, runs_require.mpr ⟨rfl, rfl⟩, ?_⟩
      refine runs_bind.mpr ⟨(), _, runs_require.mpr ⟨by omega, rfl⟩, ?_⟩
      exact runs_bind.mpr ⟨_, _, hrs, runs_bind.mpr ⟨_, _, hr, runs_pure.mpr ⟨rfl, rfl⟩⟩⟩

theorem parseback_runs {n : Nat} (h : At line s (List.replicate n (.sym ampersand) ++ rest))
    (hrest : startsWith [ampersand] rest = false) (hf : n < f) (hm : Means line cmd t) :
    ∃ cmd' s', Runs (parseback line f cmd) s cmd' s' ∧ Means line cmd' (t.backs n) ∧
      At line s' rest := by
  induction n generalizing s f cmd t with
  | zero =>
    obtain ⟨k, rfl⟩ := Nat.exists_eq_add_of_lt hf
    obtain ⟨s₁, hpeek, h₁⟩ := peek_runs h0 h (l := [ampersand]) (by decide)
    refine ⟨cmd, s₁, ?_, hm, h₁⟩
    unfold parseback
    refine runs_bind.mpr ⟨_, _, hpeek, ?_⟩
    rw [List.replicate_zero, List.nil_append, hrest]
    exact runs_pure.mpr ⟨rfl, rfl⟩
  | succ n ih =>
    cases f with
    | zero => omega
    | succ k =>
      obtain ⟨s₁, hpeek, h₁⟩ := peek_runs h0 h (l := [ampersand]) (by decide)
      obtain ⟨q, e, s₂, htok, h₂, -⟩ := gettoken_runs h0 h₁
      obtain ⟨cmd', s₃, hr, hm', h₃⟩ := ih (f := k) h₂ (by omega) hm.back
      refine ⟨cmd', s₃, ?_, by rwa [← Tree.backs_back], h₃⟩
      unfold parseback
      exact runs_bind.mpr ⟨_, _, hpeek, runs_bind.mpr ⟨_, _, htok, hr⟩⟩

end

mutual

theorem Line.runs {s f : Nat} {ts rest : List Token} {t : Tree} (h0 : 0 ∉ line)
    (hline : Line ts t) (h : At line s (ts ++ rest)) (hrest : Follow [rightParen] rest)
    (hf : 4 * ts.length + 4 ≤ f) :
    ∃ cmd s', Runs (parseline line f) s cmd s' ∧ Means line cmd t ∧ At line s' rest := by
  cases f with
  | zero => omega
  | succ k =>
    unfold parseline
    cases hline with
    | @last ts t n hpipe =>
      rw [List.append_assoc] at h
      rw [List.length_append, List.length_replicate] at hf
      have hback : Follow [rightParen, ampersand, semicolon]
          (List.replicate n (.sym ampersand) ++ rest) :=
        follow_backs (hrest.mono (by decide)) (by decide)
      obtain ⟨cmd, s₁, hr₁, hm, h₁⟩ := Pipe.runs h0 hpipe h hback (f := k) (by omega)
      obtain ⟨cmd', s₂, hr₂, hm', h₂⟩ := parseback_runs h0 h₁ (hrest.not_startsWith (by decide +kernel))
        (f := k) (by omega) hm
      obtain ⟨s₃, hpeek, h₃⟩ := peek_runs h0 h₂ (l := [semicolon]) (by decide)
      refine ⟨cmd', s₃, runs_bind.mpr ⟨_, _, hr₁, runs_bind.mpr ⟨_, _, hr₂, ?_⟩⟩, hm', h₃⟩
      refine runs_bind.mpr ⟨_, _, hpeek, ?_⟩
      rw [hrest.not_startsWith (by decide +kernel)]
      exact runs_pure.mpr ⟨rfl, rfl⟩
    | @seq ts us t u n hpipe hline =>
      rw [List.append_assoc, List.append_assoc, List.cons_append] at h
      rw [List.length_append, List.length_append, List.length_replicate, List.length_cons] at hf
      have hback : Follow [rightParen, ampersand, semicolon]
          (List.replicate n (.sym ampersand) ++ .sym semicolon :: (us ++ rest)) :=
        follow_backs (follow_sym (by decide)) (by decide)
      obtain ⟨cmd, s₁, hr₁, hm, h₁⟩ := Pipe.runs h0 hpipe h hback (f := k) (by omega)
      obtain ⟨cmd', s₂, hr₂, hm', h₂⟩ := parseback_runs h0 h₁ rfl (f := k) (by omega) hm
      obtain ⟨s₃, hpeek, h₃⟩ := peek_runs h0 h₂ (l := [semicolon]) (by decide)
      obtain ⟨q, e, s₄, htok, h₄, -⟩ := gettoken_runs h0 h₃
      obtain ⟨right, s₅, hr₅, hmu, h₅⟩ := Line.runs h0 hline h₄ hrest (f := k) (by omega)
      refine ⟨.list cmd' right, s₅, runs_bind.mpr ⟨_, _, hr₁, runs_bind.mpr ⟨_, _, hr₂, ?_⟩⟩,
        hm'.list hmu, h₅⟩
      refine runs_bind.mpr ⟨_, _, hpeek, runs_bind.mpr ⟨_, _, htok, ?_⟩⟩
      exact runs_bind.mpr ⟨_, _, hr₅, runs_pure.mpr ⟨rfl, rfl⟩⟩
termination_by f

theorem Pipe.runs {s f : Nat} {ts rest : List Token} {t : Tree} (h0 : 0 ∉ line)
    (hpipe : Pipe ts t) (h : At line s (ts ++ rest))
    (hrest : Follow [rightParen, ampersand, semicolon] rest) (hf : 4 * ts.length + 3 ≤ f) :
    ∃ cmd s', Runs (parsepipe line f) s cmd s' ∧ Means line cmd t ∧ At line s' rest := by
  cases f with
  | zero => omega
  | succ k =>
    unfold parsepipe
    cases hpipe with
    | last hsimple =>
      obtain ⟨cmd, s₁, hr₁, hm, h₁⟩ := Simple.runs h0 hsimple h (hrest.mono (by decide))
        (f := k) (by omega)
      obtain ⟨s₂, hpeek, h₂⟩ := peek_runs h0 h₁ (l := [bar]) (by decide)
      refine ⟨cmd, s₂, runs_bind.mpr ⟨_, _, hr₁, runs_bind.mpr ⟨_, _, hpeek, ?_⟩⟩, hm, h₂⟩
      rw [hrest.not_startsWith (by decide +kernel)]
      exact runs_pure.mpr ⟨rfl, rfl⟩
    | @pipe ts us t u hsimple hpipe =>
      rw [List.append_assoc, List.cons_append] at h
      rw [List.length_append, List.length_cons] at hf
      obtain ⟨cmd, s₁, hr₁, hm, h₁⟩ := Simple.runs h0 hsimple h (follow_sym (by decide))
        (f := k) (by omega)
      obtain ⟨s₂, hpeek, h₂⟩ := peek_runs h0 h₁ (l := [bar]) (by decide)
      obtain ⟨q, e, s₃, htok, h₃, -⟩ := gettoken_runs h0 h₂
      obtain ⟨right, s₄, hr₄, hmu, h₄⟩ := Pipe.runs h0 hpipe h₃ hrest (f := k) (by omega)
      refine ⟨.pipe cmd right, s₄, runs_bind.mpr ⟨_, _, hr₁, runs_bind.mpr ⟨_, _, hpeek, ?_⟩⟩,
        hm.pipe hmu, h₄⟩
      exact runs_bind.mpr ⟨_, _, htok, runs_bind.mpr ⟨_, _, hr₄, runs_pure.mpr ⟨rfl, rfl⟩⟩⟩
termination_by f

theorem Simple.runs {s f : Nat} {ts rest : List Token} {t : Tree} (h0 : 0 ∉ line)
    (hsimple : Simple ts t) (h : At line s (ts ++ rest))
    (hrest : Follow [bar, rightParen, ampersand, semicolon] rest)
    (hf : 4 * ts.length + 2 ≤ f) :
    ∃ cmd s', Runs (parseexec line f) s cmd s' ∧ Means line cmd t ∧ At line s' rest := by
  cases f with
  | zero => omega
  | succ k =>
    unfold parseexec
    obtain ⟨s₁, hpeek, h₁⟩ := peek_runs h0 h (l := [leftParen]) (by decide)
    cases hsimple with
    | @block ts t rs hline =>
      rw [List.cons_append, List.append_assoc, List.cons_append] at h₁
      rw [List.length_cons, List.length_append, List.length_cons] at hf
      have hlen := length_le_tokens rs
      cases k with
      | zero => omega
      | succ k =>
        obtain ⟨s₂, hpeek₂, h₂⟩ := peek_runs h0 h₁ (l := [leftParen]) (by decide)
        obtain ⟨q₃, e₃, s₃, htok₃, h₃, -⟩ := gettoken_runs h0 h₂
        obtain ⟨cmd, s₄, hr₄, hm, h₄⟩ := Line.runs h0 hline h₃ (follow_sym (by decide))
          (f := k) (by omega)
        obtain ⟨s₅, hpeek₅, h₅⟩ := peek_runs h0 h₄ (l := [rightParen]) (by decide)
        obtain ⟨q₆, e₆, s₆, htok₆, h₆, -⟩ := gettoken_runs h0 h₅
        obtain ⟨rs', s₇, hr₇, hrs, h₇⟩ := parseredirs_runs h0 h₆
          (hrest.not_startsWith (by decide +kernel)) (f := k) (by omega)
        refine ⟨redircmds cmd rs', s₇, runs_bind.mpr ⟨_, _, hpeek, ?_⟩, hm.redirs hrs, h₇⟩
        refine runs_ite.mpr (.inl ⟨rfl, ?_⟩)
        unfold parseblock
        refine runs_bind.mpr ⟨_, _, hpeek₂, runs_bind.mpr ⟨(), _, runs_require.mpr ⟨rfl, rfl⟩, ?_⟩⟩
        refine runs_bind.mpr ⟨_, _, htok₃, runs_bind.mpr ⟨_, _, hr₄, ?_⟩⟩
        refine runs_bind.mpr ⟨_, _, hpeek₅, runs_bind.mpr ⟨(), _, runs_require.mpr ⟨rfl, rfl⟩, ?_⟩⟩
        refine runs_bind.mpr ⟨_, _, htok₆, runs_bind.mpr ⟨_, _, hr₇, ?_⟩⟩
        exact runs_pure.mpr ⟨rfl, rfl⟩
    | exec rs args hargs =>
      have hopen := exec_not_startsWith rs args hrest
      have hnext := args_not_startsWith args hrest
      rw [hopen] at hpeek
      rw [List.append_assoc] at h₁
      rw [List.length_append] at hf
      have hlen := length_le_tokens rs
      obtain ⟨rs₂, s₂, hr₂, hrs₂, h₂⟩ := parseredirs_runs h0 h₁ hnext (f := k) (by omega)
      obtain ⟨⟨argv, rs₃⟩, s₃, hr₃, hargv, hrs₃, h₃⟩ := parseargs_runs h0 h₂ hrest (i := 0)
        (f := k) (by omega) (by omega)
      refine ⟨redircmds (.exec argv) (rs₂ ++ rs₃), s₃, ?_,
        Means.redirs (.exec hargv) (List.rel_append hrs₂ hrs₃), h₃⟩
      refine runs_bind.mpr ⟨_, _, hpeek, runs_bind.mpr ⟨_, _, hr₂, runs_bind.mpr ⟨_, _, hr₃, ?_⟩⟩⟩
      exact runs_pure.mpr ⟨rfl, rfl⟩
termination_by f

end

/-! ### Whole lines -/

theorem tokens_ne_nil {c : UInt8} {cs : List UInt8} (h : isWhite c = false) :
    tokens (c :: cs) ≠ [] := by
  rw [tokens, if_neg (by simp [h])]
  split
  · split <;> simp
  · split <;> simp

theorem At.skip_eq_length_iff (h : At line s ts) :
    Sh.skip line isWhite s = line.length ↔ ts = [] := by
  obtain ⟨hle, htokens⟩ := h.skip
  constructor
  · intro hend
    rw [hend, List.drop_length, tokens_nil] at htokens
    exact htokens.symm
  · rintro rfl
    cases hrest : line.drop (Sh.skip line isWhite s) with
    | nil => exact Nat.le_antisymm hle (List.drop_eq_nil_iff.mp hrest)
    | cons c cs =>
      rw [hrest] at htokens
      rw [drop_skip] at hrest
      exact absurd htokens (tokens_ne_nil (isWhite_head hrest))

theorem length_tokens_le (text : List UInt8) : (tokens text).length ≤ text.length := by
  induction text using tokens.induct with
  | case1 => simp [tokens_nil]
  | case2 a cs hw ih =>
    rw [tokens_white hw, List.length_cons]
    omega
  | case3 cs hg hw ih =>
    rw [tokens, if_neg hw, if_pos rfl, if_pos hg, List.length_cons, List.length_cons]
    rw [List.length_tail] at ih
    omega
  | case4 cs hg hw ih =>
    rw [tokens, if_neg hw, if_pos rfl, if_neg hg, List.length_cons, List.length_cons]
    omega
  | case5 a cs hw hg hs ih =>
    rw [tokens, if_neg hw, if_neg hg, if_pos hs, List.length_cons, List.length_cons]
    omega
  | case6 a cs hw hg hs ih =>
    rw [tokens, if_neg hw, if_neg hg, if_neg hs, List.length_cons, List.length_cons]
    have hle := (List.dropWhile_sublist isWord (l := cs)).length_le
    omega

/-- `parsecmd` ends, and it returns exactly for the lines of the grammar, with the tree of their
derivation once the strings are read from the buffer with the NULs. -/
theorem parsecmd_accepts (h0 : 0 ∉ line) (hf : 4 * line.length + 4 ≤ f) :
    parsecmd f line ≠ .error .endless ∧
      ∀ t, Line (tokens line) t ↔
        ∃ cmd buf, parsecmd f line = .ok (cmd, buf) ∧ cmd.read buf = t := by
  have h : At line 0 (tokens line) := ⟨Nat.zero_le _, rfl⟩
  have hlen := length_tokens_le line
  have hok {cmd : Cmd} {s : Nat} (hr : Runs (parseline line f) 0 cmd s) :
      parsecmd f line = if skip line isWhite s ≠ line.length then .error .panic
        else .ok (cmd, nulterminate cmd (line ++ [0])) := by
    unfold parsecmd
    rw [show parseline line f 0 = .ok (cmd, s) from hr]
    rfl
  constructor
  · rcases parseline_yields h0 h (f := f) (by omega) with hpanic | ⟨cmd, s, hr, -⟩
    · unfold parsecmd
      rw [hpanic]
      exact nofun
    · rw [hok hr]
      split <;> exact nofun
  · intro t
    constructor
    · intro hline
      obtain ⟨cmd, s, hr, hm, hs⟩ := hline.runs h0 (by rw [List.append_nil]; exact h) (.inl rfl)
        (f := f) (by omega)
      refine ⟨cmd, nulterminate cmd (line ++ [0]), ?_, hm.read_nulterminate h0⟩
      rw [hok hr, if_neg (not_not.mpr (hs.skip_eq_length_iff.mpr rfl))]
    · rintro ⟨cmd, buf, hparse, rfl⟩
      rcases parseline_yields h0 h (f := f) (by omega) with
        hpanic | ⟨cmd', s, hr, used, rest, t, hused, hline, hm, hs⟩
      · unfold parsecmd at hparse
        rw [hpanic] at hparse
        cases hparse
      · rw [hok hr] at hparse
        split at hparse
        · cases hparse
        case isFalse hend =>
          cases hparse
          obtain rfl := hs.skip_eq_length_iff.mp (not_not.mp hend)
          rw [hm.read_nulterminate h0, hused, List.append_nil]
          exact hline

/-- `a>b|c&`, where the NULs after `a` and `b` overwrite the symbols that end them. -/
theorem parsecmd_accepts_touching :
    Line (tokens [97, 62, 98, 124, 99, 38])
      (.back (.pipe (.redir (.exec [[97]]) [98] .wronlyCreat 1) (.exec [[99]]))) :=
  (((parsecmd_accepts (by decide) (Nat.le_refl _)).2 _).mpr
    ⟨.back (.pipe (.redir (.exec [(0, 1)]) 2 3 .wronlyCreat 1) (.exec [(4, 5)])),
      [97, 0, 98, 0, 99, 0, 0], by decide +kernel, by decide +kernel⟩)

end FtosFfs.User.Sh
