import FtosFfs.Lib.Machine
import FtosFfs.Lib.Ring
import Mathlib.Data.List.TakeWhile

/-! The input of the console, `core/console.c`: the line that `console_intr` edits and commits in a
ring of `INPUT_BUF` characters, and the calls of `console_read` that take characters from it. -/

namespace FtosFfs.Core.Console

open Lib Lib.Ring

/-- `INPUT_BUF`. -/
def inputBuf : Nat := 128

/-- `C('D')`. -/
def ctrlD : UInt8 := 4

/-- `C('P')`. -/
def ctrlP : UInt8 := 16

/-- `C('U')`. -/
def ctrlU : UInt8 := 21

/-- `C('H')`. -/
def ctrlH : UInt8 := 8

/-- `'\x7f'`. -/
def delete : UInt8 := 127

/-- `'\n'`. -/
def newline : UInt8 := 10

/-- `'\r'`. -/
def carriageReturn : UInt8 := 13

/-- What `getc` returns without input. -/
def noChar : UInt8 := 255

/-- `input`, with counters that do not wrap. -/
structure Input where
  buf : Nat → UInt8
  r : Nat
  w : Nat
  e : Nat

/-! ### `console_intr` -/

/-- The loop of `console_intr` for `C('U')` with the edit index at `e`. -/
def Input.killLine (input : Input) : Nat → Nat
  | 0 => 0
  | e + 1 =>
    if e + 1 ≠ input.w ∧ input.buf (e % inputBuf) ≠ newline then input.killLine e else e + 1

/-- The branch of `console_intr` for a character that is put in the buffer. -/
def Input.putChar (input : Input) (c : UInt8) : Input :=
  let e := input.e + 1
  { input with
    buf := Function.update input.buf (input.e % inputBuf) c
    w := if c = newline ∨ c = ctrlD ∨ e = input.r + inputBuf then e else input.w
    e }

/-- The round of `console_intr` for character `c`. -/
def Input.intrChar (input : Input) (c : UInt8) : Input :=
  if c = ctrlP then input
  else if c = ctrlU then { input with e := input.killLine input.e }
  else if c = ctrlH ∨ c = delete then
    if input.e ≠ input.w then { input with e := input.e - 1 } else input
  else if c ≠ 0 ∧ input.e - input.r < inputBuf then
    input.putChar (if c = carriageReturn then newline else c)
  else input

/-- `console_intr`, with the characters that `getc` gives. -/
def consoleIntr (input : Input) (cs : List UInt8) : Input :=
  (cs.takeWhile (· ≠ noChar)).foldl Input.intrChar input

/-! ### `console_read` -/

/-- A call of `console_read`: `target` and `n`, the characters in `dst`, and what it returned, if it
does not sleep. -/
structure Read where
  target : Nat
  n : Nat
  bytes : List UInt8
  result : Option Int

/-- The loop of `console_read` up to its next sleep or its return. -/
def readLoop (killed : Bool) (target : Nat) : Nat → Input → List UInt8 → Input × Read
  | 0, input, bytes => (input, ⟨target, 0, bytes, some target⟩)
  | n + 1, input, bytes =>
    if input.r = input.w then
      (input, ⟨target, n + 1, bytes, if killed then some (-1) else none⟩)
    else
      let c := input.buf (input.r % inputBuf)
      if c = ctrlD then
        (if n + 1 < target then input else { input with r := input.r + 1 },
          ⟨target, n + 1, bytes, some (target - (n + 1 : Nat))⟩)
      else if c = newline then
        ({ input with r := input.r + 1 }, ⟨target, n, bytes ++ [c], some (target - n)⟩)
      else readLoop killed target n { input with r := input.r + 1 } (bytes ++ [c])

/-! ### Interrupts and calls in any order -/

/-- The console.  `committed` are the characters that the write index went over, `taken` those that
the read index went over, each with the call that took it. -/
structure State where
  input : Input
  reads : List Read
  committed : List UInt8
  taken : List (Nat × UInt8)

/-- The part of call `i` up to its next sleep or its return. -/
def State.resume (s : State) (i : Nat) (rd : Read) (killed : Bool) : State :=
  let out := readLoop killed rd.target rd.n s.input rd.bytes
  { s with
    input := out.1
    reads := s.reads.set i out.2
    taken := s.taken ++ (window inputBuf s.input.buf s.input.r out.1.r).map (i, ·) }

/-- The steps: an interrupt, a call of `console_read`, and the end of the sleep of call `i`.  `killed`
tells whether the calling process is killed by then. -/
inductive Label
  | intr (cs : List UInt8)
  | read (n : Nat) (killed : Bool)
  | wake (i : Nat) (killed : Bool)

def next (s : State) : Label → Option State
  | .intr cs =>
    let input := consoleIntr s.input cs
    some { s with
      input
      committed := s.committed ++ window inputBuf input.buf s.input.w input.w }
  | .read n killed =>
    if 0 < n then
      let rd : Read := ⟨n, n, [], none⟩
      some ({ s with reads := s.reads ++ [rd] }.resume s.reads.length rd killed)
    else none
  | .wake i killed =>
    match s.reads[i]? with
    | some rd => if rd.result = none then some (s.resume i rd killed) else none
    | none => none

/-- The console from an empty buffer on. -/
def console : Machine State Label where
  init s := ∃ buf, s = ⟨⟨buf, 0, 0, 0⟩, [], [], []⟩
  next := next

/-- The characters that are committed and not yet taken. -/
def State.pending (s : State) : List UInt8 := window inputBuf s.input.buf s.input.r s.input.w

/-- The characters that call `i` took. -/
def State.takenBy (s : State) (i : Nat) : List UInt8 := (s.taken.filter (·.1 = i)).map Prod.snd

/-! ### Editing and committing -/

variable {input input' : Input} {c : UInt8} {s s' : State}

/-- The indices are in order, at most `INPUT_BUF` apart, and a full buffer is committed. -/
structure Input.Ok (input : Input) : Prop where
  read : input.r ≤ input.w
  write : input.w ≤ input.e
  room : input.e ≤ input.r + inputBuf
  full : input.e = input.r + inputBuf → input.w = input.e

/-- Committed characters stay where they are, and more may follow them. -/
structure Extends (input input' : Input) : Prop where
  r : input'.r = input.r
  w : input.w ≤ input'.w
  same : ∀ i, input.r ≤ i → i < input.w →
    input'.buf (i % inputBuf) = input.buf (i % inputBuf)

theorem Extends.refl (input : Input) : Extends input input := ⟨rfl, le_rfl, fun _ _ _ => rfl⟩

theorem Extends.trans {input'' : Input} (h : Extends input input') (h' : Extends input' input'') :
    Extends input input'' := by
  refine ⟨h'.r.trans h.r, h.w.trans h'.w, fun i hr hw => ?_⟩
  rw [h'.same i (by rw [h.r]; exact hr) (Nat.lt_of_lt_of_le hw h.w), h.same i hr hw]

theorem killLine_mem {e : Nat} (h : input.w ≤ e) :
    input.w ≤ input.killLine e ∧ input.killLine e ≤ e := by
  induction e with
  | zero => exact ⟨h, le_rfl⟩
  | succ e ih =>
    unfold Input.killLine
    split
    case isTrue hc =>
      obtain ⟨h1, h2⟩ := ih (by omega)
      exact ⟨h1, by omega⟩
    case isFalse => exact ⟨h, le_rfl⟩

theorem putChar_ok (h : input.Ok) (hroom : input.e - input.r < inputBuf) :
    (input.putChar c).Ok ∧ Extends input (input.putChar c) := by
  have hr := h.read
  have hw := h.write
  have hstore (i : Nat) (hi : input.r ≤ i) (hiw : i < input.w) :
      (input.putChar c).buf (i % inputBuf) = input.buf (i % inputBuf) :=
    Function.update_of_ne (mod_ne_mod (by omega) (by omega)) ..
  by_cases hcommit : c = newline ∨ c = ctrlD ∨ input.e + 1 = input.r + inputBuf
  · have hwe : (input.putChar c).w = input.e + 1 := if_pos hcommit
    refine ⟨⟨?_, le_of_eq hwe, ?_, fun _ => hwe⟩, rfl, ?_, hstore⟩
    · rw [hwe]
      show input.r ≤ _
      omega
    · show input.e + 1 ≤ input.r + inputBuf
      omega
    · rw [hwe]
      omega
  · have hwe : (input.putChar c).w = input.w := if_neg hcommit
    refine ⟨⟨by rw [hwe]; exact hr, ?_, ?_, fun hfull => ?_⟩, rfl, le_of_eq hwe.symm, hstore⟩
    · rw [hwe]
      show _ ≤ input.e + 1
      omega
    · show input.e + 1 ≤ input.r + inputBuf
      omega
    · exact absurd (.inr (.inr hfull)) hcommit

/-- The characters that only edit the line. -/
def IsEdit (c : UInt8) : Prop := c = ctrlU ∨ c = ctrlH ∨ c = delete

/-- A change of the edit index down to the write index at most. -/
theorem Input.Ok.setEdit (h : input.Ok) {e : Nat} (hw : input.w ≤ e) (he : e ≤ input.e) :
    ({ input with e } : Input).Ok ∧ Extends input { input with e } := by
  have hroom := h.room
  have hfull := h.full
  refine ⟨⟨h.read, hw, ?_, fun heq => ?_⟩, rfl, le_rfl, fun _ _ _ => rfl⟩
  · show e ≤ input.r + inputBuf
    omega
  · show input.w = e
    replace heq : e = input.r + inputBuf := heq
    omega

theorem intrChar_ok (h : input.Ok) (c : UInt8) :
    (input.intrChar c).Ok ∧ Extends input (input.intrChar c) ∧
      (IsEdit c → (input.intrChar c).w = input.w) := by
  unfold Input.intrChar
  split
  case isTrue => exact ⟨h, .refl _, fun _ => rfl⟩
  case isFalse =>
    split
    case isTrue =>
      obtain ⟨hw, he⟩ := killLine_mem h.write
      obtain ⟨hok, hext⟩ := h.setEdit hw he
      exact ⟨hok, hext, fun _ => rfl⟩
    case isFalse hu =>
      split
      case isTrue =>
        split
        case isTrue hne =>
          obtain ⟨hok, hext⟩ := h.setEdit (e := input.e - 1) (by have := h.write; omega)
            (Nat.sub_le ..)
          exact ⟨hok, hext, fun _ => rfl⟩
        case isFalse => exact ⟨h, .refl _, fun _ => rfl⟩
      case isFalse hh =>
        have hedit : ¬IsEdit c := by
          rintro (hc | hc)
          · exact hu hc
          · exact hh hc
        split
        case isTrue hput =>
          obtain ⟨hok, hext⟩ := putChar_ok (c := if c = carriageReturn then newline else c) h hput.2
          exact ⟨hok, hext, fun hc => absurd hc hedit⟩
        case isFalse => exact ⟨h, .refl _, fun _ => rfl⟩

/-- An interrupt keeps the order of the indices and the committed characters, and commits none when
it only edits. -/
theorem consoleIntr_ok (h : input.Ok) (cs : List UInt8) :
    (consoleIntr input cs).Ok ∧ Extends input (consoleIntr input cs) ∧
      ((∀ c ∈ cs, IsEdit c) → (consoleIntr input cs).w = input.w) := by
  have hfold (l : List UInt8) : ∀ input : Input, input.Ok →
      (l.foldl Input.intrChar input).Ok ∧ Extends input (l.foldl Input.intrChar input) ∧
        ((∀ c ∈ l, IsEdit c) → (l.foldl Input.intrChar input).w = input.w) := by
    induction l with
    | nil => exact fun input h => ⟨h, .refl _, fun _ => rfl⟩
    | cons c l ih =>
      intro input h
      obtain ⟨hok, hext, hedit⟩ := intrChar_ok h c
      obtain ⟨hok', hext', hedit'⟩ := ih _ hok
      refine ⟨hok', hext.trans hext', fun hl => ?_⟩
      rw [List.foldl_cons, hedit' fun c hc => hl c (by simp [hc]), hedit (hl c (by simp))]
  obtain ⟨hok, hext, hedit⟩ := hfold (cs.takeWhile (· ≠ noChar)) input h
  exact ⟨hok, hext, fun hcs => hedit fun c hc => hcs c ((List.takeWhile_prefix _).subset hc)⟩

/-! ### Taking characters -/

/-- What a part of a call that starts with `bytes` in `dst` takes and leaves. -/
structure Took (input : Input) (target : Nat) (bytes : List UInt8) (out : Input × Read) : Prop where
  buf : out.1.buf = input.buf
  w : out.1.w = input.w
  e : out.1.e = input.e
  le : input.r ≤ out.1.r
  le_w : out.1.r ≤ input.w
  goal : out.2.target = target
  count : out.2.n + out.2.bytes.length = target
  took : (out.2.bytes = bytes ++ window inputBuf input.buf input.r out.1.r ∧
      ctrlD ∉ window inputBuf input.buf input.r out.1.r) ∨
    (bytes = [] ∧ out.2.bytes = [] ∧ window inputBuf input.buf input.r out.1.r = [ctrlD] ∧
      out.2.result = some 0)
  value : ∀ v, out.2.result = some v → v = -1 ∨ v = out.2.bytes.length

theorem readLoop_took (killed : Bool) {target n : Nat} {bytes : List UInt8} (h : input.r ≤ input.w)
    (hn : n + bytes.length = target) :
    Took input target bytes (readLoop killed target n input bytes) := by
  induction n generalizing input bytes with
  | zero =>
    unfold readLoop
    refine ⟨rfl, rfl, rfl, le_rfl, h, rfl, hn, .inl (by simp), fun v hv => .inr ?_⟩
    obtain rfl := Option.some.inj hv
    simp only
    omega
  | succ n ih =>
    unfold readLoop
    split
    case isTrue =>
      refine ⟨rfl, rfl, rfl, le_rfl, h, rfl, hn, .inl (by simp), fun v hv => .inl ?_⟩
      cases killed <;> simp at hv
      exact hv.symm
    case isFalse hne =>
      have hlt : input.r < input.w := by omega
      have hfirst : window inputBuf input.buf input.r (input.r + 1) =
          [input.buf (input.r % inputBuf)] := by
        rw [window_cons (Nat.lt_succ_self _), window_self]
      dsimp only
      split
      case isTrue hd =>
        split
        case isTrue hback =>
          refine ⟨rfl, rfl, rfl, le_rfl, h, rfl, hn, .inl (by simp), fun v hv => .inr ?_⟩
          obtain rfl := Option.some.inj hv
          simp only
          omega
        case isFalse hzero =>
          have hbytes : bytes = [] := List.length_eq_zero_iff.mp (by omega)
          subst hbytes
          refine ⟨rfl, rfl, rfl, Nat.le_succ _, hlt, rfl, hn, .inr ⟨rfl, rfl, ?_, ?_⟩, fun v hv => .inr ?_⟩
          · rw [hfirst, hd]
          · simp only [List.length_nil, Nat.add_zero] at hn
            simp [hn]
          · obtain rfl := Option.some.inj hv
            simp only [List.length_nil] at hn ⊢
            omega
      case isFalse hd =>
        split
        case isTrue hnl =>
          refine ⟨rfl, rfl, rfl, Nat.le_succ _, hlt, rfl, ?_, .inl ⟨?_, ?_⟩, fun v hv => .inr ?_⟩
          · simp only [List.length_append, List.length_singleton]
            omega
          · rw [hfirst]
          · rw [hfirst]
            simpa using Ne.symm hd
          · obtain rfl := Option.some.inj hv
            simp only [List.length_append, List.length_singleton]
            omega
        case isFalse =>
          set bytes' := bytes ++ [input.buf (input.r % inputBuf)] with hbytes
          have hrec : Took { input with r := input.r + 1 } target bytes'
              (readLoop killed target n { input with r := input.r + 1 } bytes') := by
            refine ih hlt ?_
            rw [hbytes, List.length_append, List.length_singleton]
            omega
          set out := readLoop killed target n { input with r := input.r + 1 } bytes'
          have hle : input.r + 1 ≤ out.1.r := hrec.le
          have hwin : window inputBuf input.buf input.r out.1.r =
              input.buf (input.r % inputBuf) :: window inputBuf input.buf (input.r + 1) out.1.r :=
            window_cons (Nat.lt_of_succ_le hle)
          refine ⟨hrec.buf, hrec.w, hrec.e, Nat.le_of_succ_le hle, hrec.le_w, hrec.goal, hrec.count, ?_,
            hrec.value⟩
          rcases hrec.took with ⟨hb, hmem⟩ | ⟨hb, -⟩
          · refine .inl ⟨?_, ?_⟩
            · rw [hwin, hb, hbytes, List.append_assoc, List.singleton_append]
            · rw [hwin, List.mem_cons, not_or]
              exact ⟨Ne.symm hd, hmem⟩
          · simp [hbytes] at hb

/-- A call that meets `C('D')` after the characters `xs` returns what it has; it takes the `C('D')`
if it has nothing, and leaves it otherwise. -/
theorem readLoop_eof (killed : Bool) {target n : Nat} {bytes xs ys : List UInt8}
    (hn : n + bytes.length = target) (hlen : xs.length < n)
    (hxs : ∀ x ∈ xs, x ≠ ctrlD ∧ x ≠ newline)
    (hw : window inputBuf input.buf input.r input.w = xs ++ ctrlD :: ys) :
    (readLoop killed target n input bytes).2.bytes = bytes ++ xs ∧
      (readLoop killed target n input bytes).2.result = some ((bytes ++ xs).length : Int) ∧
      window inputBuf input.buf (readLoop killed target n input bytes).1.r input.w =
        if bytes ++ xs = [] then ys else ctrlD :: ys := by
  induction xs generalizing n input bytes with
  | nil =>
    have hlt : input.r < input.w := lt_of_window_ne_nil (by rw [hw]; simp)
    rw [window_cons hlt] at hw
    obtain ⟨hd, hys⟩ := List.cons.inj hw
    obtain ⟨n, rfl⟩ := Nat.exists_eq_add_one.mpr (Nat.lt_of_le_of_lt (Nat.zero_le _) hlen)
    have hout : readLoop killed target (n + 1) input bytes =
        (if n + 1 < target then input else { input with r := input.r + 1 },
          ⟨target, n + 1, bytes, some (target - (n + 1 : Nat))⟩) := by
      rw [readLoop, if_neg (Nat.ne_of_lt hlt)]
      simp only [hd, if_true]
    rw [hout, List.append_nil]
    refine ⟨rfl, congrArg some (by omega), ?_⟩
    by_cases hb : bytes = []
    · subst hb
      rw [List.length_nil] at hn
      rw [if_pos rfl, if_neg (by omega)]
      exact hys
    · have hpos : 0 < bytes.length := List.length_pos_iff.mpr hb
      rw [if_neg hb, if_pos (by omega), window_cons hlt, hd, hys]
  | cons x xs ih =>
    have hlt : input.r < input.w := lt_of_window_ne_nil (by rw [hw]; simp)
    rw [window_cons hlt, List.cons_append] at hw
    obtain ⟨hx, hrest⟩ := List.cons.inj hw
    obtain ⟨n, rfl⟩ := Nat.exists_eq_add_one.mpr (Nat.lt_of_le_of_lt (Nat.zero_le _) hlen)
    obtain ⟨hxd, hxn⟩ := hxs x (by simp)
    have hout : readLoop killed target (n + 1) input bytes =
        readLoop killed target n { input with r := input.r + 1 } (bytes ++ [x]) := by
      rw [readLoop, if_neg (Nat.ne_of_lt hlt)]
      simp only [hx, hxd, hxn, if_false]
    have hn' : n + (bytes ++ [x]).length = target := by
      rw [List.length_append, List.length_singleton]
      omega
    have hrest' : window inputBuf ({ input with r := input.r + 1 } : Input).buf
        ({ input with r := input.r + 1 } : Input).r ({ input with r := input.r + 1 } : Input).w =
          xs ++ ctrlD :: ys := hrest
    rw [hout, show bytes ++ x :: xs = bytes ++ [x] ++ xs by simp]
    exact ih hn' (by simpa using hlen) (fun y hy => hxs y (by simp [hy])) hrest'

/-! ### Every order of steps -/

/-- A call holds the characters `took`, in order, or took a `C('D')` and returned 0. -/
structure Read.Served (rd : Read) (took : List UInt8) : Prop where
  count : rd.n + rd.bytes.length = rd.target
  took : (took = rd.bytes ∧ ctrlD ∉ rd.bytes) ∨
    (took = [ctrlD] ∧ rd.bytes = [] ∧ rd.result = some 0)
  value : ∀ v, rd.result = some v → v = -1 ∨ v = rd.bytes.length

/-- The indices are in order; the characters taken, in order, and the pending ones are those committed;
and every call holds what it took. -/
structure Delivered (s : State) : Prop where
  input : s.input.Ok
  all : s.taken.map Prod.snd ++ s.pending = s.committed
  calls : ∀ t ∈ s.taken, t.1 < s.reads.length
  reads : ∀ (i : Nat) (rd : Read), s.reads[i]? = some rd → rd.Served (s.takenBy i)

theorem takenBy_append {i j : Nat} {cs : List UInt8} {reads : List Read} {input : Input} :
    ({ s with input, reads, taken := s.taken ++ cs.map (i, ·) } : State).takenBy j =
      s.takenBy j ++ if i = j then cs else [] := by
  unfold State.takenBy
  rw [List.filter_append, List.map_append]
  congr 1
  split
  case isTrue h => simp [h, List.filter_map, Function.comp_def]
  case isFalse h => simp [h, List.filter_map, Function.comp_def]

/-- A part of a call that sleeps, or just started. -/
theorem Delivered.resume (h : Delivered s) {i : Nat} {rd : Read} (hrd : s.reads[i]? = some rd)
    (hsleeps : rd.result = none) (killed : Bool) : Delivered (s.resume i rd killed) := by
  have hserved := h.reads i rd hrd
  have htook : s.takenBy i = rd.bytes ∧ ctrlD ∉ rd.bytes := by
    refine hserved.took.resolve_right fun hno => ?_
    rw [hsleeps] at hno
    exact nomatch hno.2.2
  have hrun := readLoop_took killed h.input.read hserved.count
  set out := readLoop killed rd.target rd.n s.input rd.bytes with hout
  have hin := h.input
  have hlen : i < s.reads.length := (List.getElem?_eq_some_iff.mp hrd).1
  constructor
  case input =>
    show out.1.Ok
    have hle := hrun.le
    refine ⟨?_, ?_, ?_, fun hfull => ?_⟩
    · rw [hrun.w]
      exact hrun.le_w
    · rw [hrun.w, hrun.e]
      exact hin.write
    · rw [hrun.e]
      exact hin.room.trans (Nat.add_le_add_right hle _)
    · rw [hrun.e] at hfull ⊢
      rw [hrun.w]
      exact hin.full (le_antisymm hin.room (by omega))
  case all =>
    show (s.taken ++ (window inputBuf s.input.buf s.input.r out.1.r).map (i, ·)).map Prod.snd ++
      window inputBuf out.1.buf out.1.r out.1.w = s.committed
    rw [hrun.buf, hrun.w, List.map_append, List.map_map, List.append_assoc, ← h.all]
    congr 1
    simp only [Function.comp_def, List.map_id']
    exact window_append hrun.le hrun.le_w
  case calls =>
    intro t ht
    show t.1 < (s.reads.set i out.2).length
    rw [List.length_set]
    rcases List.mem_append.mp ht with ht | ht
    · exact h.calls t ht
    · obtain ⟨c, -, rfl⟩ := List.mem_map.mp ht
      exact hlen
  case reads =>
    intro j rd' hj
    replace hj : (s.reads.set i out.2)[j]? = some rd' := hj
    rw [State.resume, takenBy_append]
    by_cases hij : i = j
    · subst hij
      rw [List.getElem?_set_self hlen, Option.some.injEq] at hj
      subst hj
      rw [if_pos rfl]
      refine ⟨by rw [hrun.goal]; exact hrun.count, ?_, hrun.value⟩
      rcases hrun.took with ⟨hbytes, hmem⟩ | ⟨hnil, hbytes, hwin, hzero⟩
      · refine .inl ⟨by rw [htook.1, hbytes], ?_⟩
        rw [hbytes, List.mem_append, not_or]
        exact ⟨htook.2, hmem⟩
      · refine .inr ⟨?_, hbytes, hzero⟩
        show s.takenBy i ++ window inputBuf s.input.buf s.input.r out.1.r = [ctrlD]
        rw [hwin, htook.1, hnil, List.nil_append]
    · rw [List.getElem?_set_ne hij] at hj
      rw [if_neg hij, List.append_nil]
      exact h.reads j rd' hj

/-- A new call has taken nothing. -/
theorem Delivered.call (h : Delivered s) (n : Nat) :
    Delivered { s with reads := s.reads ++ [⟨n, n, [], none⟩] } := by
  refine ⟨h.input, h.all, fun t ht => ?_, fun i rd hi => ?_⟩
  · have := h.calls t ht
    simp only [List.length_append, List.length_singleton]
    omega
  · show rd.Served (s.takenBy i)
    by_cases hlt : i < s.reads.length
    · exact h.reads i rd (by rwa [List.getElem?_append_left hlt] at hi)
    · have hlen := (List.getElem?_eq_some_iff.mp hi).1
      rw [List.length_append, List.length_singleton] at hlen
      obtain rfl : i = s.reads.length := by omega
      rw [List.getElem?_concat_length, Option.some.injEq] at hi
      subst hi
      have hnone : s.takenBy s.reads.length = [] := by
        unfold State.takenBy
        rw [List.map_eq_nil_iff, List.filter_eq_nil_iff]
        intro t ht
        have := h.calls t ht
        simp only [decide_eq_true_eq]
        omega
      rw [hnone]
      exact ⟨rfl, .inl ⟨rfl, by simp⟩, fun v hv => nomatch hv⟩

theorem pending_extends (h : s.input.Ok) (hext : Extends s.input input') :
    window inputBuf input'.buf input'.r input'.w =
      s.pending ++ window inputBuf input'.buf s.input.w input'.w := by
  rw [hext.r, ← window_append h.read hext.w, window_congr hext.same]
  rfl

theorem Delivered.next (h : Delivered s) {a : Label} (hn : console.next s a = some s') :
    Delivered s' := by
  cases a with
  | intr cs =>
    obtain rfl := Option.some.inj hn
    obtain ⟨hok, hext, -⟩ := consoleIntr_ok h.input cs
    refine ⟨hok, ?_, h.calls, h.reads⟩
    show s.taken.map Prod.snd ++ window inputBuf _ _ _ = s.committed ++ _
    rw [pending_extends h.input hext, ← List.append_assoc, h.all]
  | read n killed =>
    simp only [console, Console.next, Option.ite_none_right_eq_some, Option.some.injEq] at hn
    obtain ⟨-, rfl⟩ := hn
    exact (h.call n).resume (by simp) rfl killed
  | wake i killed =>
    simp only [console, Console.next] at hn
    split at hn
    case h_1 rd hrd =>
      rw [Option.ite_none_right_eq_some] at hn
      obtain ⟨hsleeps, hn⟩ := hn
      obtain rfl := Option.some.inj hn
      exact h.resume hrd hsleeps killed
    case h_2 => cases hn

theorem console_delivered (hs : console.Reachable s) : Delivered s := by
  refine hs.invariant ?_ fun s a s' h hn => h.next hn
  rintro s ⟨buf, rfl⟩
  refine ⟨⟨le_rfl, le_rfl, Nat.zero_le _, fun _ => rfl⟩, ?_, ?_, ?_⟩
  · simp [State.pending]
  · exact fun t ht => absurd ht List.not_mem_nil
  · exact fun i rd hi => absurd hi (by simp)

/-- Call `i`, at `rd` before the step, when `C('D')` comes after the characters `xs`: with nothing taken
it returns 0 and takes it, and with characters taken it returns these and leaves it. -/
def MeetsEof (s : State) (i : Nat) (rd : Read) (s' : State) : Prop :=
  s'.committed = s.committed ∧ ∀ xs ys, s.pending = xs ++ ctrlD :: ys → xs.length < rd.n →
    (∀ x ∈ xs, x ≠ ctrlD ∧ x ≠ newline) →
    (∃ rd', s'.reads[i]? = some rd' ∧ rd'.bytes = rd.bytes ++ xs ∧
      rd'.result = some ((rd.bytes ++ xs).length : Int)) ∧
    s'.pending = if rd.bytes ++ xs = [] then ys else ctrlD :: ys

/-- What one step does: an interrupt commits characters after the pending ones, and none when it only
edits; a call treats `C('D')` as the end of the input. -/
def StepOk (s : State) (a : Label) (s' : State) : Prop :=
  match a with
  | .intr cs => s'.taken = s.taken ∧ s'.reads = s.reads ∧
      ∃ new, s'.pending = s.pending ++ new ∧ s'.committed = s.committed ++ new ∧
        ((∀ c ∈ cs, IsEdit c) → new = [])
  | .read n _ => MeetsEof s s.reads.length ⟨n, n, [], none⟩ s'
  | .wake i _ => ∀ rd, s.reads[i]? = some rd → MeetsEof s i rd s'

theorem Delivered.meetsEof (h : Delivered s) {i : Nat} {rd : Read} (hrd : s.reads[i]? = some rd)
    (killed : Bool) : MeetsEof s i rd (s.resume i rd killed) := by
  refine ⟨rfl, fun xs ys hw hlen hxs => ?_⟩
  have hcount := (h.reads i rd hrd).count
  obtain ⟨hbytes, hresult, hpending⟩ := readLoop_eof killed hcount hlen hxs hw
  have hrun := readLoop_took killed h.input.read hcount
  refine ⟨⟨_, List.getElem?_set_self (List.getElem?_eq_some_iff.mp hrd).1, hbytes, hresult⟩, ?_⟩
  show window inputBuf (readLoop killed rd.target rd.n s.input rd.bytes).1.buf _
    (readLoop killed rd.target rd.n s.input rd.bytes).1.w = _
  rw [hrun.buf, hrun.w]
  exact hpending

/-- In every order of interrupts and calls, the characters committed are those taken, in order and each
by one call, and then those pending; a call has in its buffer what it took, or took a `C('D')` and
returned 0; and editing removes no committed character. -/
theorem console_delivers (hs : console.Reachable s) :
    Delivered s ∧ ∀ a s', console.next s a = some s' → StepOk s a s' := by
  have h := console_delivered hs
  refine ⟨h, fun a s' hn => ?_⟩
  cases a with
  | intr cs =>
    obtain rfl := Option.some.inj hn
    obtain ⟨-, hext, hedit⟩ := consoleIntr_ok h.input cs
    refine ⟨rfl, rfl, _, pending_extends h.input hext, rfl, fun hcs => ?_⟩
    rw [hedit hcs, window_self]
  | read n killed =>
    simp only [console, Console.next, Option.ite_none_right_eq_some, Option.some.injEq] at hn
    obtain ⟨-, rfl⟩ := hn
    exact (h.call n).meetsEof (by simp) killed
  | wake i killed =>
    intro rd hrd
    simp only [console, Console.next, hrd, Option.ite_none_right_eq_some, Option.some.injEq] at hn
    obtain ⟨-, rfl⟩ := hn
    exact h.meetsEof hrd killed

/-- A line and a `C('D')` arrive while a call sleeps: it returns the line, and the next one 0. -/
theorem console_delivers_line : ∃ s, console.Reachable s ∧ Delivered s ∧
    s.committed = [104, 105, newline, ctrlD] ∧ s.takenBy 0 = [104, 105, newline] ∧
    s.takenBy 1 = [ctrlD] ∧ (s.reads.map Read.result) = [some 3, some 0] := by
  have hrun : (console.run ⟨⟨fun _ => 0, 0, 0, 0⟩, [], [], []⟩ [.read 5 false,
      .intr [104, 105, 106, delete, carriageReturn, ctrlD], .wake 0 false, .read 5 false]).map
      (fun s => decide (s.committed = [104, 105, newline, ctrlD] ∧
        s.takenBy 0 = [104, 105, newline] ∧ s.takenBy 1 = [ctrlD] ∧
        s.reads.map Read.result = [some 3, some 0])) = some true := by decide
  have hinit : console.init ⟨⟨fun _ => 0, 0, 0, 0⟩, [], [], []⟩ := ⟨_, rfl⟩
  obtain ⟨s, hs, htest⟩ := Machine.Reachable.of_run hinit hrun
  rw [decide_eq_true_eq] at htest
  exact ⟨s, hs, (console_delivers hs).1, htest⟩

end FtosFfs.Core.Console
