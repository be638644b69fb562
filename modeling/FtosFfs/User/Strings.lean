import FtosFfs.User.Lexing
import Mathlib.Data.List.Forall2
import Mathlib.Data.List.GetD

/-! The commands of the parser, with their offsets into the line, and the trees they stand for: the
strings outlive the stores of NUL. -/

namespace FtosFfs.User.Sh

variable {line : List UInt8} {e q : Nat} {w : List UInt8} {cmd : Cmd} {t : Tree}

/-! ### Commands and trees -/

/-- The redirection with offsets into the line stands for the redirection of the grammar. -/
inductive RedirMeans (line : List UInt8) : Redir → RedirTo → Prop
  | input {q e : Nat} {w : List UInt8} : WordAt line q e w →
      RedirMeans line ⟨q, e, .rdonly, 0⟩ (.input w)
  | output {q e : Nat} {w : List UInt8} : WordAt line q e w →
      RedirMeans line ⟨q, e, .wronlyCreat, 1⟩ (.output w)
  | append {q e : Nat} {w : List UInt8} : WordAt line q e w →
      RedirMeans line ⟨q, e, .wronlyCreat, 1⟩ (.append w)

/-- The command with offsets into the line stands for the tree. -/
inductive Means (line : List UInt8) : Cmd → Tree → Prop
  | exec {argv : List (Nat × Nat)} {args : List (List UInt8)} :
      List.Forall₂ (fun arg w => WordAt line arg.1 arg.2 w) argv args →
      Means line (.exec argv) (.exec args)
  | redir {cmd : Cmd} {t : Tree} {q e : Nat} {w : List UInt8} {mode : Mode} {fd : Nat} :
      Means line cmd t → WordAt line q e w → Means line (.redir cmd q e mode fd) (.redir t w mode fd)
  | pipe {left right : Cmd} {t u : Tree} : Means line left t → Means line right u →
      Means line (.pipe left right) (.pipe t u)
  | list {left right : Cmd} {t u : Tree} : Means line left t → Means line right u →
      Means line (.list left right) (.list t u)
  | back {cmd : Cmd} {t : Tree} : Means line cmd t → Means line (.back cmd) (.back t)

theorem Means.redirs {rs : List Redir} {ds : List RedirTo} (h : Means line cmd t)
    (hrs : List.Forall₂ (RedirMeans line) rs ds) : Means line (redircmds cmd rs) (t.redirs ds) := by
  induction hrs generalizing cmd t with
  | nil => exact h
  | cons hr _ ih =>
    apply ih
    cases hr with
    | input hw => exact h.redir hw
    | output hw => exact h.redir hw
    | append hw => exact h.redir hw

theorem Tree.backs_back (t : Tree) (n : Nat) : (Tree.back t).backs n = t.backs (n + 1) := by
  induction n with
  | zero => rfl
  | succ n ih => exact congrArg Tree.back ih

/-! ### The strings after `nulterminate` -/

/-- The ends of the strings of a command. -/
def Cmd.ends : Cmd → List Nat
  | .exec argv => argv.map Prod.snd
  | .redir cmd _ efile _ _ => cmd.ends ++ [efile]
  | .pipe left right => left.ends ++ right.ends
  | .list left right => left.ends ++ right.ends
  | .back cmd => cmd.ends

theorem nulterminate_eq (cmd : Cmd) (buf : List UInt8) :
    nulterminate cmd buf = cmd.ends.foldl (fun buf e => buf.set e 0) buf := by
  induction cmd generalizing buf with
  | exec argv => rw [nulterminate, Cmd.ends, List.foldl_map]
  | redir cmd _ efile _ _ ih => rw [nulterminate, Cmd.ends, ih, List.foldl_append]; rfl
  | pipe left right hl hr => rw [nulterminate, Cmd.ends, hl, hr, List.foldl_append]
  | list left right hl hr => rw [nulterminate, Cmd.ends, hl, hr, List.foldl_append]
  | back cmd ih => rw [nulterminate, Cmd.ends, ih]

theorem foldl_set_get (es : List Nat) (buf : List UInt8) (i : Nat) :
    (es.foldl (fun buf e => buf.set e 0) buf).getD i 0 = if i ∈ es then 0 else buf.getD i 0 := by
  induction es generalizing buf with
  | nil => simp
  | cons e es ih =>
    rw [List.foldl_cons, ih]
    by_cases hi : i ∈ es
    · simp [hi]
    · by_cases hie : i = e
      · subst hie
        simp [hi, List.getD, List.getElem?_set]
        split <;> rfl
      · simp [hi, hie, List.getD, Ne.symm hie]

/-- A string of a buffer that holds its characters and a NUL after them. -/
theorem cstring_eq {buf : List UInt8} (hw : 0 ∉ w)
    (hin : ∀ i < w.length, buf.getD (q + i) 0 = w.getD i 0) (hend : buf.getD (q + w.length) 0 = 0) :
    cstring buf q = w := by
  unfold cstring
  induction w generalizing q with
  | nil =>
    cases hrest : buf.drop q with
    | nil => rfl
    | cons c cs =>
      have hc : c = 0 := by rw [← charAt_of_cons hrest]; exact hend
      simp [hc]
  | cons c w ih =>
    have hc : charAt buf q = c := hin 0 (by simp)
    have hc0 : c ≠ 0 := fun h => hw (by simp [h])
    cases hrest : buf.drop q with
    | nil =>
      rw [charAt_of_nil hrest] at hc
      exact absurd hc.symm hc0
    | cons b cs =>
      obtain rfl : b = c := by rw [← charAt_of_cons hrest, hc]
      have htail := ih (q := q + 1) (fun h => hw (by simp [h]))
        (fun i hi => by simpa [Nat.add_assoc, Nat.add_comm 1] using hin (i + 1) (by simpa using hi))
        (by simpa [Nat.add_assoc, Nat.add_comm 1] using hend)
      rw [drop_succ_of_cons hrest] at htail
      rw [List.takeWhile_cons, if_pos (by simpa using hc0), htail]

theorem WordAt.split (h : WordAt line q e w) :
    line.drop q = w ++ (line.drop q).dropWhile isWord := by
  rw [← h.text, List.takeWhile_append_dropWhile]

theorem WordAt.get (h : WordAt line q e w) {i : Nat} (hi : i < w.length) :
    line.getD (q + i) 0 = w.getD i 0 := by
  have hget : (line.drop q)[i]? = w[i]? := by
    rw [h.split, List.getElem?_append_left hi]
  simp only [List.getD, ← List.getElem?_drop, hget]

theorem WordAt.isWord_get (h : WordAt line q e w) {i : Nat} (hi : i < w.length) :
    isWord (w.getD i 0) = true := by
  have hmem : w.getD i 0 ∈ (line.drop q).takeWhile isWord := by
    rw [h.text, List.getD_eq_getElem _ _ hi]
    exact List.getElem_mem hi
  exact List.mem_takeWhile_imp hmem

/-- A word ends at the end of the line or before a character that is in no word. -/
theorem WordAt.not_isWord_end (h : WordAt line q e w) (he : e < line.length) :
    isWord (line.getD e 0) = false := by
  have hget : (line)[e]? = ((line.drop q).dropWhile isWord).head? := by
    rw [h.stop, ← List.getElem?_drop]
    conv_lhs => rw [h.split]
    rw [List.getElem?_append_right (Nat.le_refl _), Nat.sub_self, List.head?_eq_getElem?]
  have hnot := List.head?_dropWhile_not isWord (line.drop q)
  rw [← hget, List.getElem?_eq_getElem he] at hnot
  rw [List.getD_eq_getElem _ _ he]
  exact hnot

/-- The words of the line whose ends are among the NULs stay what they are if NULs are stored at
ends of words only. -/
theorem WordAt.cstring {es : List Nat} (h0 : 0 ∉ line) (h : WordAt line q e w) (he : e ∈ es)
    (hes : ∀ e ∈ es, ∃ q w, WordAt line q e w) :
    cstring (es.foldl (fun buf e => buf.set e 0) (line ++ [0])) q = w := by
  have hlen : e ≤ line.length := by
    have hlength := congrArg List.length h.split
    rw [List.length_append, List.length_drop] at hlength
    have hle := h.le
    have hstop := h.stop
    omega
  refine cstring_eq (fun hmem => ?_) (fun i hi => ?_) ?_
  · rw [← h.text] at hmem
    exact h0 (List.mem_of_mem_drop (List.takeWhile_subset _ hmem))
  · have hlt : q + i < line.length := by
      have hstop := h.stop
      omega
    have hnot : q + i ∉ es := by
      intro hmem
      obtain ⟨q', w', h'⟩ := hes _ hmem
      have hfalse := h'.not_isWord_end hlt
      rw [h.get hi, h.isWord_get hi] at hfalse
      cases hfalse
    rw [foldl_set_get, if_neg hnot, ← h.get hi, List.getD_append _ _ _ _ hlt]
  · rw [foldl_set_get, if_pos (h.stop ▸ he)]

theorem Means.ends (h : Means line cmd t) : ∀ e ∈ cmd.ends, ∃ q w, WordAt line q e w := by
  induction h with
  | exec hargs =>
    intro e he
    obtain ⟨arg, harg, rfl⟩ := List.mem_map.mp he
    obtain ⟨i, hi, rfl⟩ := List.mem_iff_getElem.mp harg
    exact ⟨_, _, hargs.get hi (hargs.length_eq ▸ hi)⟩
  | redir _ hw ih =>
    intro e he
    rcases List.mem_append.mp he with he | he
    · exact ih e he
    · obtain rfl := List.mem_singleton.mp he
      exact ⟨_, _, hw⟩
  | pipe _ _ hl hr => exact fun e he => (List.mem_append.mp he).elim (hl e) (hr e)
  | list _ _ hl hr => exact fun e he => (List.mem_append.mp he).elim (hl e) (hr e)
  | back _ ih => exact ih

/-- A command whose strings can be read from the buffer reads as its tree. -/
theorem Means.read_eq {buf : List UInt8} (h : Means line cmd t)
    (hbuf : ∀ q e w, WordAt line q e w → e ∈ cmd.ends → cstring buf q = w) : cmd.read buf = t := by
  induction h with
  | exec hargs =>
    rw [Cmd.read]
    congr 1
    apply List.ext_getElem (by simpa using hargs.length_eq)
    intro i hi hi'
    rw [List.getElem_map]
    have hw := hargs.get (by simpa using hi) hi'
    exact hbuf _ _ _ hw (List.mem_map_of_mem (List.getElem_mem _))
  | redir _ hw ih =>
    rw [Cmd.read, ih fun q e w h he => hbuf q e w h (List.mem_append_left _ he),
      hbuf _ _ _ hw (List.mem_append_right _ (List.mem_singleton_self _))]
  | pipe _ _ hl hr =>
    rw [Cmd.read, hl fun q e w h he => hbuf q e w h (List.mem_append_left _ he),
      hr fun q e w h he => hbuf q e w h (List.mem_append_right _ he)]
  | list _ _ hl hr =>
    rw [Cmd.read, hl fun q e w h he => hbuf q e w h (List.mem_append_left _ he),
      hr fun q e w h he => hbuf q e w h (List.mem_append_right _ he)]
  | back _ ih => rw [Cmd.read, ih hbuf]

/-- The strings of a command, read from the buffer after `nulterminate`. -/
theorem Means.read_nulterminate (h0 : 0 ∉ line) (h : Means line cmd t) :
    cmd.read (nulterminate cmd (line ++ [0])) = t := by
  rw [nulterminate_eq]
  exact h.read_eq fun q e w hw he => hw.cstring h0 he h.ends

end FtosFfs.User.Sh
