import FtosFfs.Lib.Machine
import Mathlib.Data.List.Basic
import Mathlib.Data.List.Nodup
import Mathlib.Logic.Function.Basic

/-! The request queue of the SD card: callers of `sdrw` that push their requests and sleep, and the
interrupts of the card that complete the requests and start the next ones. -/

namespace FtosFfs.Driver

open Lib

/-- The bits `B_VALID` and `B_DIRTY` of a buffer. -/
structure Flags where
  valid : Bool
  dirty : Bool
deriving DecidableEq, Repr

/-- The test of `sdrw` after a wakeup. -/
def Flags.done (f : Flags) : Bool := f.valid && !f.dirty

/-- Where a caller stands in `sdrw`. The answer of the test for an empty queue is kept up to the
locked region. -/
inductive Pc
  | idle
  | tested (empty : Bool)
  | pushed (empty : Bool)
  | asleep
  | woken
deriving DecidableEq, Repr

/-- A command that the card has and has not completed: the buffer that was at the front, and
whether it writes. -/
structure Start where
  buf : Nat
  write : Bool
deriving DecidableEq, Repr

/-- The buffer of a call is on the caller's stack, so callers and buffers have the same numbers. -/
structure Sd where
  sdque : List Nat
  flags : Nat → Flags
  pc : Nat → Pc
  started : List Start

def sdStart (s : Sd) (b : Nat) : Sd := { s with started := ⟨b, (s.flags b).dirty⟩ :: s.started }

def Sd.setPc (s : Sd) (p : Nat) (pc : Pc) : Sd := { s with pc := Function.update s.pc p pc }

/-- `wakeup` of the caller that sleeps on buffer `b`. -/
def Sd.wakeup (s : Sd) (b : Nat) : Sd := if s.pc b = .asleep then s.setPc b .woken else s

/-- `sd_intr` when the card has completed a command that writes, if `write`, or reads. -/
def sdIntr (s : Sd) (write : Bool) : Sd :=
  match s.sdque with
  | [] => s
  | b :: rest =>
    -- an interrupt of the other kind: the request is started again
    if (s.flags b).dirty ≠ write then sdStart s b
    else
      let s := { s with flags := Function.update s.flags b ⟨true, false⟩ }
      let s := { s.wakeup b with sdque := rest }
      match rest with
      | [] => s
      | next :: _ => sdStart s next

inductive Label
  /-- A call of `sdrw`, up to the test for an empty queue. -/
  | call (p : Nat) (flags : Flags)
  | push (p : Nat)
  /-- The locked region up to the sleep. -/
  | lock (p : Nat)
  /-- The test after a wakeup. -/
  | recheck (p : Nat)
  /-- The card completes a command. -/
  | intr (r : Start)

/-- Any number of callers of `sdrw` and the interrupts of the card. -/
def sd : Machine Sd Label where
  init s := s.sdque = [] ∧ s.started = [] ∧ ∀ p, s.pc p = .idle
  next s
    | .call p flags =>
      -- a buffer to write or to read
      if s.pc p = .idle ∧ flags.done = false then
        some ({ s with flags := Function.update s.flags p flags }.setPc p (.tested s.sdque.isEmpty))
      else none
    | .push p =>
      match s.pc p with
      | .tested empty => some ({ s with sdque := s.sdque ++ [p] }.setPc p (.pushed empty))
      | _ => none
    | .lock p =>
      match s.pc p with
      | .pushed true =>
        match s.sdque with
        | [] => none
        | b :: _ => some ((sdStart s b).setPc p .asleep)
      | .pushed false => some (s.setPc p .asleep)
      | _ => none
    | .recheck p =>
      if s.pc p = .woken then some (s.setPc p (if (s.flags p).done then .idle else .asleep))
      else none
    | .intr r =>
      if r ∈ s.started then some (sdIntr { s with started := s.started.erase r } r.write) else none

/-- Every caller of `sdrw` is asleep. -/
def AllAsleep (s : Sd) : Prop := ∀ p, s.pc p = .idle ∨ s.pc p = .asleep

/-- When every caller is asleep, the request at the front of the queue was started and is not
completed, and no caller is asleep on a buffer whose request is completed. -/
def NoStall (s : Sd) : Prop :=
  AllAsleep s → (∀ b ∈ s.sdque.head?, (∃ r ∈ s.started, r.buf = b) ∧ (s.flags b).done = false) ∧
    ∀ p, s.pc p = .asleep → (s.flags p).done = false

/-- A caller that found the queue empty and has not been in the locked region since. -/
def Starter (s : Sd) (p : Nat) : Prop := s.pc p = .tested true ∨ s.pc p = .pushed true

/-- A request is pushed without being started only behind another one or before a caller that will
start the front, and a caller sleeps only while its request is not completed. -/
def Timely (s : Sd) : Label → Prop
  | .push p => s.pc p = .tested false → s.sdque ≠ [] ∨ ∃ q, Starter s q
  | .lock p => (s.flags p).done = false
  | _ => True

/-- The queue holds requests that are not completed, of callers that pushed them and sleep or will
sleep, and its front is started or will be. -/
structure QueueOk (s : Sd) : Prop where
  nodup : s.sdque.Nodup
  waits : ∀ p ∈ s.sdque, (∃ e, s.pc p = .pushed e) ∨ s.pc p = .asleep
  undone : ∀ p ∈ s.sdque, (s.flags p).done = false
  front : ∀ b ∈ s.sdque.head?, (∃ r ∈ s.started, r.buf = b) ∨ ∃ q, Starter s q
  asleep : ∀ p, s.pc p = .asleep → (s.flags p).done = false
  called : ∀ p e, s.pc p = .tested e → (s.flags p).done = false

section Step

variable {s s' : Sd} {p b : Nat}

@[simp] theorem setPc_self {pc : Pc} : (s.setPc p pc).pc p = pc := by
  simp [Sd.setPc]

theorem setPc_other {pc : Pc} {q : Nat} (h : q ≠ p) : (s.setPc p pc).pc q = s.pc q := by
  simp [Sd.setPc, h]

/-- A caller that the step does not move is a starter as before. -/
theorem Starter.other {pc : Pc} {q : Nat} (h : Starter s q) (hne : q ≠ p) :
    Starter (s.setPc p pc) q := by
  unfold Starter at *
  rwa [setPc_other hne]

/-- A caller that has not pushed its request, or has left its sleep, is not in the queue. -/
theorem QueueOk.not_mem (h : QueueOk s) (hpushed : ∀ e, s.pc p ≠ .pushed e)
    (hasleep : s.pc p ≠ .asleep) : p ∉ s.sdque := by
  intro hp
  obtain ⟨e, he⟩ | hs := h.waits p hp
  · exact hpushed e he
  · exact hasleep hs

theorem QueueOk.call (h : QueueOk s) {f : Flags} (hp : s.pc p = .idle) (hf : f.done = false) :
    QueueOk ({ s with flags := Function.update s.flags p f }.setPc p (.tested s.sdque.isEmpty)) := by
  have hout : p ∉ s.sdque := h.not_mem (by simp [hp]) (by simp [hp])
  have hne (q : Nat) (hq : q ∈ s.sdque) : q ≠ p := fun he => hout (he ▸ hq)
  have hflags (q : Nat) (hq : q ≠ p) : Function.update s.flags p f q = s.flags q := by simp [hq]
  refine ⟨h.nodup, fun q hq => ?_, fun q hq => ?_, fun b hb => ?_, fun q hq => ?_, fun q e hq => ?_⟩
  · rw [setPc_other (hne q hq)]
    exact h.waits q hq
  · show (Function.update s.flags p f q).done = false
    rw [hflags q (hne q hq)]
    exact h.undone q hq
  · refine (h.front b hb).imp id ?_
    rintro ⟨q, hq⟩
    have hqp : q ≠ p := by
      rintro rfl
      unfold Starter at hq
      rw [hp] at hq
      simp at hq
    exact ⟨q, Starter.other (s := { s with flags := _ }) hq hqp⟩
  · show (Function.update s.flags p f q).done = false
    by_cases hqp : q = p
    · subst hqp
      rw [setPc_self] at hq
      cases hq
    · rw [setPc_other hqp] at hq
      rw [hflags q hqp]
      exact h.asleep q hq
  · show (Function.update s.flags p f q).done = false
    by_cases hqp : q = p
    · subst hqp
      rwa [Function.update_self]
    · rw [setPc_other hqp] at hq
      rw [hflags q hqp]
      exact h.called q e hq

theorem QueueOk.push (h : QueueOk s) {e : Bool} (hp : s.pc p = .tested e)
    (hC : e = false → s.sdque ≠ [] ∨ ∃ q, Starter s q) :
    QueueOk ({ s with sdque := s.sdque ++ [p] }.setPc p (.pushed e)) := by
  have hout : p ∉ s.sdque := h.not_mem (by simp [hp]) (by simp [hp])
  -- the starters are still there, and the caller remains one if it was
  have hstarter (q : Nat) (hq : Starter s q) :
      Starter ({ s with sdque := s.sdque ++ [p] }.setPc p (.pushed e)) q := by
    by_cases hqp : q = p
    · subst hqp
      obtain hq | hq := hq <;> rw [hp] at hq <;> cases hq
      exact .inr setPc_self
    · exact Starter.other (s := { s with sdque := s.sdque ++ [p] }) hq hqp
  refine ⟨?_, fun q hq => ?_, fun q hq => ?_, fun b hb => ?_, fun q hq => ?_, fun q e' hq => ?_⟩
  · show (s.sdque ++ [p]).Nodup
    exact List.nodup_append'.mpr ⟨h.nodup, List.nodup_singleton p, by simpa using hout⟩
  · by_cases hqp : q = p
    · subst hqp
      exact .inl ⟨e, setPc_self⟩
    · rw [setPc_other hqp]
      exact h.waits q (by simpa [Sd.setPc, hqp] using hq)
  · by_cases hqp : q = p
    · subst hqp
      exact h.called q e hp
    · exact h.undone q (by simpa [Sd.setPc, hqp] using hq)
  · cases hque : s.sdque with
    | nil =>
      obtain rfl : b = p := by simpa [Sd.setPc, hque, eq_comm] using hb
      cases e with
      | true => exact .inr ⟨b, .inr setPc_self⟩
      | false =>
        obtain hne | ⟨q, hq⟩ := hC rfl
        · exact absurd hque hne
        · exact .inr ⟨q, hstarter q hq⟩
    | cons a rest =>
      obtain rfl : a = b := by simpa [Sd.setPc, hque] using hb
      refine (h.front a (by simp [hque])).imp id ?_
      rintro ⟨q, hq⟩
      exact ⟨q, hstarter q hq⟩
  · by_cases hqp : q = p
    · subst hqp
      rw [setPc_self] at hq
      cases hq
    · rw [setPc_other hqp] at hq
      exact h.asleep q hq
  · by_cases hqp : q = p
    · subst hqp
      rw [setPc_self] at hq
      cases hq
    · rw [setPc_other hqp] at hq
      exact h.called q e' hq

/-- A caller falls asleep: with the front started if it was to start it. -/
theorem QueueOk.sleep (h : QueueOk s) (hdone : (s.flags p).done = false)
    (hfront : Starter s p → ∀ b ∈ s.sdque.head?, ∃ r ∈ s.started, r.buf = b) :
    QueueOk (s.setPc p .asleep) := by
  refine ⟨h.nodup, fun q hq => ?_, h.undone, fun b hb => ?_, fun q hq => ?_, fun q e hq => ?_⟩
  · by_cases hqp : q = p
    · subst hqp
      exact .inr setPc_self
    · rw [setPc_other hqp]
      exact h.waits q hq
  · obtain hr | ⟨q, hq⟩ := h.front b hb
    · exact .inl hr
    · by_cases hqp : q = p
      · subst hqp
        exact .inl (hfront hq b hb)
      · exact .inr ⟨q, hq.other hqp⟩
  · by_cases hqp : q = p
    · subst hqp
      exact hdone
    · rw [setPc_other hqp] at hq
      exact h.asleep q hq
  · by_cases hqp : q = p
    · subst hqp
      rw [setPc_self] at hq
      cases hq
    · rw [setPc_other hqp] at hq
      exact h.called q e hq

/-- Another start hurts nothing. -/
theorem QueueOk.started (h : QueueOk s) (b : Nat) : QueueOk (sdStart s b) :=
  ⟨h.nodup, h.waits, h.undone, fun a ha =>
    (h.front a ha).imp (fun ⟨r, hr, hb⟩ => ⟨r, List.mem_cons_of_mem _ hr, hb⟩) id, h.asleep, h.called⟩

/-- A caller that was woken returns. -/
theorem QueueOk.return (h : QueueOk s) (hp : s.pc p = .woken) : QueueOk (s.setPc p .idle) := by
  have hout : p ∉ s.sdque := h.not_mem (by simp [hp]) (by simp [hp])
  refine ⟨h.nodup, fun q hq => ?_, h.undone, fun b hb => ?_, fun q hq => ?_, fun q e hq => ?_⟩
  · have hqp : q ≠ p := fun he => hout (he ▸ hq)
    rw [setPc_other hqp]
    exact h.waits q hq
  · refine (h.front b hb).imp id ?_
    rintro ⟨q, hq⟩
    have hqp : q ≠ p := by
      rintro rfl
      unfold Starter at hq
      rw [hp] at hq
      simp at hq
    exact ⟨q, hq.other hqp⟩
  all_goals
    by_cases hqp : q = p
    · subst hqp
      rw [setPc_self] at hq
      cases hq
    · rw [setPc_other hqp] at hq
      first | exact h.asleep q hq | exact h.called q e hq

theorem wakeup_other {q : Nat} (hq : q ≠ b) : (s.wakeup b).pc q = s.pc q := by
  unfold Sd.wakeup
  split
  · exact setPc_other hq
  · rfl

@[simp] theorem wakeup_flags : (s.wakeup b).flags = s.flags := by
  unfold Sd.wakeup
  split <;> rfl

theorem wakeup_awake : (s.wakeup b).pc b ≠ .asleep := by
  unfold Sd.wakeup
  split
  · simp
  · assumption

/-- The request at the front is completed: its caller does not sleep on, and the next request is
started. -/
theorem QueueOk.complete (h : QueueOk s) {rest : List Nat} (hque : s.sdque = b :: rest)
    (hpc : ∀ q, q ≠ b → s'.pc q = s.pc q) (hb : s'.pc b = s.pc b ∨ s'.pc b = .woken)
    (hawake : s'.pc b ≠ .asleep) (hflags : ∀ q, q ≠ b → s'.flags q = s.flags q)
    (hque' : s'.sdque = rest) (hnext : ∀ a ∈ rest.head?, ∃ r ∈ s'.started, r.buf = a) :
    QueueOk s' := by
  obtain ⟨hbrest, hrest⟩ := List.nodup_cons.mp (hque ▸ h.nodup)
  have hmem (q : Nat) (hq : q ∈ s'.sdque) : q ∈ s.sdque ∧ q ≠ b := by
    rw [hque'] at hq
    exact ⟨hque ▸ List.mem_cons_of_mem b hq, fun he => hbrest (he ▸ hq)⟩
  refine ⟨hque' ▸ hrest, fun q hq => ?_, fun q hq => ?_, fun a ha => ?_, fun q hq => ?_,
    fun q e hq => ?_⟩
  · obtain ⟨hq, hne⟩ := hmem q hq
    rw [hpc q hne]
    exact h.waits q hq
  · obtain ⟨hq, hne⟩ := hmem q hq
    rw [hflags q hne]
    exact h.undone q hq
  · exact .inl (hnext a (hque' ▸ ha))
  · by_cases hqb : q = b
    · subst hqb
      exact absurd hq hawake
    · rw [hflags q hqb]
      exact h.asleep q (hpc q hqb ▸ hq)
  · by_cases hqb : q = b
    · subst hqb
      have hw := h.waits q (by simp [hque])
      obtain hb | hb := hb
      · rw [← hb, hq] at hw
        simp at hw
      · rw [hq] at hb
        cases hb
    · rw [hflags q hqb]
      exact h.called q e (hpc q hqb ▸ hq)

theorem QueueOk.intr (h : QueueOk s) (r : Start) :
    QueueOk (sdIntr { s with started := s.started.erase r } r.write) := by
  unfold sdIntr
  split
  · rename_i hque
    exact ⟨h.nodup, h.waits, h.undone, fun b hb => by simp_all, h.asleep, h.called⟩
  · rename_i b rest hque
    split
    · -- an interrupt of the other kind
      refine ⟨h.nodup, h.waits, h.undone, fun a ha => .inl ?_, h.asleep, h.called⟩
      obtain rfl : b = a := by simpa [sdStart, show s.sdque = b :: rest from hque] using ha
      exact ⟨_, List.mem_cons_self, rfl⟩
    · let s1 : Sd := { s with
        started := s.started.erase r
        flags := Function.update s.flags b ⟨true, false⟩ }
      have hother (q : Nat) (hq : q ≠ b) : (s1.wakeup b).pc q = s.pc q := wakeup_other (s := s1) hq
      have hwoken : (s1.wakeup b).pc b = s.pc b ∨ (s1.wakeup b).pc b = .woken := by
        unfold Sd.wakeup
        split
        · exact .inr setPc_self
        · exact .inl rfl
      have hflags (q : Nat) (hq : q ≠ b) : (s1.wakeup b).flags q = s.flags q := by
        rw [wakeup_flags]
        exact Function.update_of_ne hq _ _
      dsimp only
      split
      · exact h.complete hque hother hwoken (wakeup_awake (s := s1)) hflags rfl (by simp)
      · refine h.complete hque hother hwoken (wakeup_awake (s := s1)) hflags rfl fun a ha => ?_
        obtain rfl := Option.some.inj ha
        exact ⟨_, List.mem_cons_self, rfl⟩

theorem QueueOk.step {a : Label} (h : QueueOk s) (hC : Timely s a) (hn : sd.next s a = some s') :
    QueueOk s' := by
  cases a with
  | call p f =>
    simp only [sd, Option.ite_none_right_eq_some, Option.some.injEq] at hn
    obtain ⟨⟨hp, hf⟩, rfl⟩ := hn
    exact h.call hp hf
  | push p =>
    simp only [sd] at hn
    split at hn
    · rename_i e hp
      cases hn
      exact h.push hp fun he => hC (he ▸ hp)
    · cases hn
  | lock p =>
    simp only [sd] at hn
    split at hn
    · split at hn
      · cases hn
      · rename_i b rest hque
        cases hn
        refine (h.started b).sleep hC fun _ a ha => ?_
        obtain rfl : b = a := by simpa [sdStart, hque] using ha
        exact ⟨_, List.mem_cons_self, rfl⟩
    · rename_i hp
      cases hn
      refine h.sleep hC fun hstart => ?_
      unfold Starter at hstart
      rw [hp] at hstart
      simp at hstart
    · cases hn
  | recheck p =>
    simp only [sd, Option.ite_none_right_eq_some, Option.some.injEq] at hn
    obtain ⟨hp, rfl⟩ := hn
    split
    · exact h.return hp
    · rename_i hdone
      refine h.sleep (by simpa using hdone) fun hstart => ?_
      unfold Starter at hstart
      rw [hp] at hstart
      simp at hstart
  | intr r =>
    simp only [sd, Option.ite_none_right_eq_some, Option.some.injEq] at hn
    obtain ⟨-, rfl⟩ := hn
    exact h.intr r

theorem QueueOk.reachable (h : sd.ReachableUnder Timely s) : QueueOk s := by
  refine h.invariant (fun s hs => ?_) fun s a s' hs hC hn => hs.step hC hn
  obtain ⟨hque, -, hidle⟩ := hs
  constructor <;> simp [hque, hidle]

end Step

/-- In every run whose pushes and sleeps are all timely, the queue does not stall. -/
theorem sdque_noStall {s : Sd} (h : sd.ReachableUnder Timely s) : NoStall s := by
  have hok := QueueOk.reachable h
  intro hall
  refine ⟨fun b hb => ⟨?_, hok.undone b (List.mem_of_mem_head? hb)⟩, hok.asleep⟩
  obtain hr | ⟨q, hq⟩ := hok.front b hb
  · exact hr
  · unfold Starter at hq
    obtain hidle | hasleep := hall q
    · rw [hidle] at hq
      simp at hq
    · rw [hasleep] at hq
      simp at hq

/-- The queue before any call. -/
def sdBoot : Sd := ⟨[], fun _ => ⟨false, false⟩, fun _ => .idle, []⟩

theorem init_sdBoot : sd.init sdBoot := ⟨rfl, rfl, fun _ => rfl⟩

/-- Two readers, the second behind the first. -/
def inOrder : List Label :=
  [.call 0 ⟨false, false⟩, .push 0, .lock 0, .call 1 ⟨false, false⟩, .push 1, .lock 1,
    .intr ⟨0, false⟩, .recheck 0]

/-- A decidable case of `Timely`. -/
def Prompt (s : Sd) : Label → Bool
  | .push p => s.pc p ≠ .tested false ∨ s.sdque ≠ []
  | .lock p => !(s.flags p).done
  | _ => true

theorem Prompt.timely {s : Sd} {a : Label} (h : Prompt s a = true) : Timely s a := by
  cases a with
  | push p =>
    intro hp
    simp only [Prompt, hp, ne_eq, not_true_eq_false, false_or, decide_eq_true_eq] at h
    exact .inl h
  | lock p =>
    show (s.flags p).done = false
    simpa [Prompt] using h
  | _ => trivial

theorem sdque_noStall_inOrder : ∃ s, s.sdque = [1] ∧ AllAsleep s ∧ NoStall s := by
  have hr : ∃ s, sd.runUnder (fun s a => Prompt s a = true) sdBoot inOrder = some s ∧
      s.sdque = [1] ∧ AllAsleep s := by
    refine ⟨_, rfl, rfl, ?_⟩
    rintro (_ | _ | p)
    · exact .inl rfl
    · exact .inr rfl
    · exact .inl rfl
  obtain ⟨s, hr, hque, hall⟩ := hr
  have hreach := (Machine.ReachableUnder.init init_sdBoot).runUnder hr
  exact ⟨s, hque, hall, sdque_noStall (hreach.mono fun _ _ => Prompt.timely)⟩

/-- The first reader's request is completed between the second reader's test and its push: nobody
starts the second request. -/
def latePush : List Label :=
  [.call 0 ⟨false, false⟩, .push 0, .lock 0, .call 1 ⟨false, false⟩, .intr ⟨0, false⟩, .recheck 0,
    .push 1, .lock 1]

theorem sdque_stalls : ∃ s, sd.Reachable s ∧ AllAsleep s ∧ s.sdque = [1] ∧ s.started = [] ∧
    ¬NoStall s := by
  have hr : ∃ s, sd.run sdBoot latePush = some s ∧ AllAsleep s ∧ s.sdque = [1] ∧
      s.started = [] := by
    refine ⟨_, rfl, ?_, rfl, rfl⟩
    rintro (_ | _ | p)
    · exact .inl rfl
    · exact .inr rfl
    · exact .inl rfl
  obtain ⟨s, hr, hall, hque, hstarted⟩ := hr
  refine ⟨s, Machine.Reachable.run (.init init_sdBoot) hr, hall, hque, hstarted, fun h => ?_⟩
  obtain ⟨⟨r, hr, -⟩, -⟩ := (h hall).1 1 (by simp [hque])
  simp [hstarted] at hr

/-- Both requests are completed before the second reader sleeps: nobody wakes it. -/
def lateSleep : List Label :=
  [.call 0 ⟨false, false⟩, .push 0, .lock 0, .call 1 ⟨false, false⟩, .push 1, .intr ⟨0, false⟩,
    .recheck 0, .intr ⟨1, false⟩, .lock 1]

theorem sdrw_oversleeps : ∃ s, sd.Reachable s ∧ AllAsleep s ∧ s.pc 1 = .asleep ∧
    (s.flags 1).done = true ∧ s.sdque = [] ∧ s.started = [] := by
  have hr : ∃ s, sd.run sdBoot lateSleep = some s ∧ AllAsleep s ∧ s.pc 1 = .asleep ∧
      (s.flags 1).done = true ∧ s.sdque = [] ∧ s.started = [] := by
    refine ⟨_, rfl, ?_, rfl, rfl, rfl, rfl⟩
    rintro (_ | _ | p)
    · exact .inl rfl
    · exact .inr rfl
    · exact .inl rfl
  obtain ⟨s, hr, hs⟩ := hr
  exact ⟨s, Machine.Reachable.run (.init init_sdBoot) hr, hs⟩

end FtosFfs.Driver
