import FtosFfs.Core.Afford

/-! The stack of a new program: with enough free pages, `execve` copies all strings of the arguments
and comes to its assertion about the size of the stack. -/

namespace FtosFfs.Core

open Lib Lib.Exec

variable {s s' : Sys} {pgdir va len sp : Nat} {data : Nat → Nat → Nat}

/-- The state after the kernel has copied to an address space. -/
structure Copied (s : Sys) (pgdir : Nat) (s' : Sys) (n : Nat) : Prop where
  space : AddressSpace s' pgdir
  free : s.free.length ≤ s'.free.length + n
  maps : ∀ a, Maps s pgdir a → Maps s' pgdir a

theorem Copied.trans {s₁ : Sys} {n m : Nat} (h : Copied s pgdir s₁ n) (h' : Copied s₁ pgdir s' m) :
    Copied s pgdir s' (n + m) := by
  have hfree := h.free
  have hfree' := h'.free
  exact ⟨h'.space, by omega, fun a ha => h'.maps a (h.maps a ha)⟩

/-- `copyout` of `len` bytes takes at most four pages for each page of them. -/
def copyBound (len : Nat) : Nat := 4 * (len / pageSize + 2)

theorem copyPages_le (va len : Nat) : 4 * copyPages va len ≤ copyBound len := by
  unfold copyPages copyBound
  split
  case isTrue => omega
  case isFalse =>
    show 4 * ((va % 4096 + len + 4095) / 4096) ≤ 4 * (len / 4096 + 2)
    omega

theorem AddressSpace.copyout_returns (h : AddressSpace s pgdir) (va len : Nat)
    (data : Nat → Nat → Nat) (hend : va + len ≤ uspaceTop)
    (hfree : copyBound len ≤ s.free.length) :
    ∃ s', Runs (copyout pgdir va len data) s true s' ∧ Copied s pgdir s' (copyBound len) ∧
      ∀ a, va ≤ a → a < va + len → Maps s' pgdir a := by
  have hbound := copyPages_le va len
  obtain ⟨b, s', hr, hs, hle⟩ := affords_copyoutLoop pgdir data len va len s h.enough (by omega)
  obtain ⟨rfl, hspace, hmaps, hrange⟩ := h.copyoutLoop (Nat.le_refl len) hr hs
  refine ⟨s', ?_, ⟨hspace, by omega, hmaps⟩, hrange⟩
  unfold copyout
  rw [if_neg]
  · exact hr
  · change va + len ≤ 2 ^ 48 at hend
    show ¬2 ^ 48 < (va + len) % 2 ^ 64
    omega

/-- The bytes of the strings, with the zeros that end them. -/
def stringBytes : List (Option Nat) → Nat
  | [] => 0
  | o :: rest => o.getD 0 + 1 + stringBytes rest

/-- The free pages that the copies of the strings can take. -/
def stringPages : List (Option Nat) → Nat
  | [] => 0
  | o :: rest => copyBound (o.getD 0 + 1) + stringPages rest

theorem stringBytes_le (l : List (Option Nat)) : stringBytes l ≤ stringPages l * 1024 := by
  induction l with
  | nil => exact Nat.zero_le _
  | cons o rest ih =>
    have hone : o.getD 0 + 1 ≤ copyBound (o.getD 0 + 1) * 1024 := by
      show _ ≤ 4 * ((o.getD 0 + 1) / 4096 + 2) * 1024
      omega
    rw [stringBytes, stringPages, Nat.add_mul]
    omega

theorem length_le_stringBytes (l : List (Option Nat)) : l.length ≤ stringBytes l := by
  induction l with
  | nil => exact Nat.zero_le _
  | cons o rest ih =>
    rw [List.length_cons, stringBytes]
    omega

/-- All strings are copied, from `sp` down. -/
theorem AddressSpace.pushStrings_returns (h : AddressSpace s pgdir) (l : List (Option Nat)) (sp : Nat)
    (data : Nat → Nat → Nat)
    (hvalid : ∀ o ∈ l, o ≠ none) (hsp : sp ≤ uspaceTop) (hfit : stringBytes l ≤ sp)
    (hfree : stringPages l ≤ s.free.length) :
    ∃ s', Runs (pushStrings pgdir data l sp) s (some (sp - stringBytes l)) s' ∧
      Copied s pgdir s' (stringPages l) := by
  induction l generalizing s sp with
  | nil => exact ⟨s, runs_pure.mpr ⟨rfl, rfl⟩, h, Nat.le_refl _, fun _ ha => ha⟩
  | cons o rest ih =>
    obtain ⟨len, rfl⟩ := Option.ne_none_iff_exists'.mp (hvalid o List.mem_cons_self)
    rw [stringBytes, Option.getD_some] at hfit
    rw [stringPages, Option.getD_some] at hfree
    have hsub : sub64 sp (len + 1) = sp - (len + 1) := by
      change sp ≤ 2 ^ 48 at hsp
      unfold sub64
      omega
    obtain ⟨s₁, hr₁, hc₁, -⟩ := h.copyout_returns (sp - (len + 1)) (len + 1) data (by omega) (by omega)
    have hleft := hc₁.free
    obtain ⟨s₂, hr₂, hc₂⟩ := ih hc₁.space (sp - (len + 1))
      (fun o ho => hvalid o (List.mem_cons_of_mem _ ho)) (by omega) (by omega) (by omega)
    refine ⟨s₂, ?_, hc₁.trans hc₂⟩
    rw [pushStrings, hsub]
    refine runs_bind.mpr ⟨true, s₁, hr₁, ?_⟩
    rw [if_pos rfl, stringBytes, Option.getD_some, ← Nat.sub_sub sp (len + 1)]
    exact hr₂

/-- The bytes from the stack pointer of the new program to the top. -/
def stackBytes (argv envp : List (Option Nat)) : Nat :=
  roundUp (stringBytes argv + stringBytes envp + 16 + (envp.length + argv.length + 4) * 8) 16

/-- The free pages that the stack of the new program can take. -/
def stackPages (argv envp : List (Option Nat)) : Nat :=
  stringPages argv + stringPages envp + copyBound ((envp.length + argv.length + 4) * 8 + 32) +
    copyBound (10 * pageSize)

theorem copyBound_mono {len len' : Nat} (h : len ≤ len') : copyBound len ≤ copyBound len' := by
  show 4 * (len / 4096 + 2) ≤ 4 * (len' / 4096 + 2)
  omega

/-- There are not more free pages than pages. -/
theorem Pages.length_le (h : Pages s) : s.free.length ≤ physPages := by
  have hsub : s.free ⊆ List.range physPages := fun p hp => List.mem_range.mpr (h.below p (.inl hp))
  simpa using (List.subperm_of_subset h.free hsub).length_le

/-- The pages of a range are mapped if its addresses are. -/
theorem maps_touchedPages (h : ∀ a, va ≤ a → a < va + len → Maps s pgdir a) :
    ∀ a ∈ touchedPages va len, Maps s pgdir a := by
  have hdown : roundDown va pageSize = va / 4096 * 4096 := by
    show va - va % 4096 = _
    omega
  unfold touchedPages
  rw [hdown]
  intro a ha
  split at ha
  case isTrue => cases ha
  case isFalse hpos =>
    obtain ⟨k, rfl, hlt⟩ := mem_pagesFrom.mp ha
    by_cases hle : va ≤ va / 4096 * 4096 + k * pageSize
    · exact h _ hle hlt
    · -- the page of the first address
      have hpage : (va / 4096 * 4096 + k * pageSize) / pageSize = va / pageSize := by
        change ¬va ≤ va / 4096 * 4096 + k * 4096 at hle
        show (va / 4096 * 4096 + k * 4096) / 4096 = va / 4096
        omega
      rw [Maps, pathOf_page hpage]
      exact h va (Nat.le_refl _) (by omega)

theorem require_congr {ε σ : Type} {e : ε} {p q : Prop} [Decidable p] [Decidable q] (h : p ↔ q) :
    (require e p : Exec ε σ Unit) = require e q := by
  unfold require
  by_cases hp : p
  · rw [if_pos hp, if_pos (h.mp hp)]
  · rw [if_neg hp, if_neg fun hq => hp (h.mpr hq)]

/-- With enough pages the copies of the stack of the new program are complete, and what is left is the
assertion: the size of the stack is not a multiple of the size of the steps in which it grows. -/
theorem AddressSpace.pushStack_eq {e : ExecCall} (h : AddressSpace s pgdir)
    (hvalid : ∀ o ∈ e.argv ++ e.envp, o ≠ none)
    (hfree : stackPages e.argv e.envp ≤ s.free.length) :
    ∃ s', pushStack pgdir e s =
      (require .panic (stackBytes e.argv e.envp % (10 * pageSize) ≠ 0) >>= fun _ =>
        pure true : Sys.M Bool) s' := by
  have htop : uspaceTop = 2 ^ 48 := rfl
  have hpages : s.free.length ≤ 0x3F000 := h.pages.length_le
  have hargv := stringBytes_le e.argv
  have henvp := stringBytes_le e.envp
  have hargc := length_le_stringBytes e.argv
  have henvc := length_le_stringBytes e.envp
  unfold stackPages at hfree
  obtain ⟨s₁, hr₁, hc₁⟩ := h.pushStrings_returns e.argv uspaceTop e.data
    (fun o ho => hvalid o (List.mem_append_left _ ho)) (Nat.le_refl uspaceTop) (by omega) (by omega)
  have hleft₁ := hc₁.free
  obtain ⟨s₂, hr₂, hc₂⟩ := hc₁.space.pushStrings_returns e.envp (uspaceTop - stringBytes e.argv) e.data
    (fun o ho => hvalid o (List.mem_append_right _ ho)) (by omega) (by omega) (by omega)
  have hleft₂ := hc₂.free
  -- the stack pointer of the new program
  have hstack : stackBytes e.argv e.envp = (stringBytes e.argv + stringBytes e.envp + 16 +
      (e.envp.length + e.argv.length + 4) * 8 + 15) / 16 * 16 := by
    show _ + 16 - 1 - (_ + 16 - 1) % 16 = _
    omega
  generalize hbytes : stackBytes e.argv e.envp = bytes at hstack ⊢
  have hsp : roundDown (sub64 (sub64 (uspaceTop - stringBytes e.argv - stringBytes e.envp) 16)
      ((e.envp.length + e.argv.length + 4) * 8)) 16 = uspaceTop - bytes := by
    have hsub : sub64 (sub64 (uspaceTop - stringBytes e.argv - stringBytes e.envp) 16)
        ((e.envp.length + e.argv.length + 4) * 8) = uspaceTop - stringBytes e.argv -
          stringBytes e.envp - 16 - (e.envp.length + e.argv.length + 4) * 8 := by
      unfold sub64
      omega
    rw [hsub]
    unfold roundDown
    omega
  have hused : sub64 (uspaceTop - stringBytes e.argv - stringBytes e.envp) (uspaceTop - bytes) =
      bytes - stringBytes e.argv - stringBytes e.envp := by
    unfold sub64
    omega
  have hbytes' : sub64 uspaceTop (uspaceTop - bytes) = bytes := by
    unfold sub64
    omega
  have hmono := copyBound_mono (show bytes - stringBytes e.argv - stringBytes e.envp ≤
    (e.envp.length + e.argv.length + 4) * 8 + 32 by omega)
  obtain ⟨s₃, hr₃, hc₃, hrange⟩ := hc₂.space.copyout_returns (uspaceTop - bytes)
    (bytes - stringBytes e.argv - stringBytes e.envp) e.data (by omega) (by omega)
  have hleft₃ := hc₃.free
  obtain ⟨s₄, hr₄, hw₄⟩ := hc₃.space.userWrite_returns e.data (maps_touchedPages hrange)
  have hleft₄ := congrArg List.length hw₄.free
  -- the stack that it has grown to
  have hround : roundUp bytes (10 * pageSize) = (bytes + 40959) / 40960 * 40960 := by
    show bytes + 40960 - 1 - (bytes + 40960 - 1) % 40960 = _
    omega
  have hstksz : sub64 uspaceTop (roundUp bytes (10 * pageSize)) =
      uspaceTop - roundUp bytes (10 * pageSize) := by
    unfold sub64
    omega
  have hrest : sub64 (roundUp bytes (10 * pageSize)) bytes = roundUp bytes (10 * pageSize) - bytes := by
    unfold sub64
    omega
  have hmono' := copyBound_mono (show roundUp bytes (10 * pageSize) - bytes ≤ 10 * pageSize by
    show _ ≤ 40960
    omega)
  obtain ⟨s₅, hr₅, -⟩ := hw₄.space.copyout_returns (uspaceTop - roundUp bytes (10 * pageSize))
    (roundUp bytes (10 * pageSize) - bytes) e.data (by omega) (by omega)
  have hiff : uspaceTop - roundUp bytes (10 * pageSize) < uspaceTop - bytes ↔
      bytes % (10 * pageSize) ≠ 0 := by
    show _ ↔ bytes % 40960 ≠ 0
    omega
  refine ⟨s₅, ?_⟩
  unfold pushStack
  simp only [bind_eq_of_runs hr₁, bind_eq_of_runs hr₂, hsp, hused]
  simp only [bind_eq_of_runs hr₃, if_true, bind_eq_of_runs hr₄, hbytes', hstksz, hrest]
  simp only [bind_eq_of_runs hr₅, if_true]
  refine congrArg (fun x : Sys.M Unit => (x >>= fun _ => pure true : Sys.M Bool) s₅) (require_congr ?_)
  rw [hsp, hbytes', hstksz]
  exact hiff

theorem AddressSpace.pushStack_returns {e : ExecCall} (h : AddressSpace s pgdir)
    (hvalid : ∀ o ∈ e.argv ++ e.envp, o ≠ none)
    (hfree : stackPages e.argv e.envp ≤ s.free.length) :
    (∃ b s', Runs (pushStack pgdir e) s b s') ↔
      stackBytes e.argv e.envp % (10 * pageSize) ≠ 0 := by
  obtain ⟨t, heq⟩ := h.pushStack_eq hvalid hfree
  unfold Runs
  rw [heq]
  constructor
  · rintro ⟨b, s', hr⟩
    obtain ⟨_, _, hrequire, -⟩ := runs_bind.mp hr
    exact (runs_require.mp hrequire).1
  · intro hne
    exact ⟨true, t, runs_bind.mpr ⟨(), t, runs_require.mpr ⟨hne, rfl⟩, runs_pure.mpr ⟨rfl, rfl⟩⟩⟩

end FtosFfs.Core
