import FtosFfs.Core.ExecFile

/-! What `execve` makes of a valid file: its assertion about the stack, and the size and the base that
it records for the process. -/

namespace FtosFfs.Core

open Lib Lib.Exec Fs

variable {s s' : Sys} {pgdir n off sz base : Nat} {first : Bool} {content : List UInt8}
  {buf : Nat → UInt8} {f : ExecFile} {c : Nat} {j : Slot}

/-! ### The assertion -/

/-- The file is an ELF file all of whose segments load. -/
def ExecFile.Valid (f : ExecFile) : Prop :=
  isElf f.header ∧ ∀ r ∈ f.rounds, r.Safe f.content.length ∧ ¬r.Fails

instance (f : ExecFile) : Decidable f.Valid := inferInstanceAs (Decidable (_ ∧ _))

/-- With enough pages the segments of a valid file are loaded, and what is left is the assertion about
the stack. -/
theorem AddressSpace.execFileLoad_valid (h : AddressSpace s pgdir) (c : Nat) (j : Slot)
    (hfresh : ∀ va, ¬Maps s pgdir va) (hvalid : ∀ o ∈ f.argv ++ f.envp, o ≠ none)
    (hlen : f.content.length < 2 ^ 32)
    (hfree : roundsPages f.content.length f.rounds + stackPages f.argv f.envp ≤ s.free.length)
    (hf : f.Valid) :
    ∃ t, Core.execFileLoad c j pgdir f s =
      (require .panic (stackBytes f.argv f.envp % (10 * pageSize) ≠ 0) >>= fun _ =>
        pure true : Sys.M Bool) t := by
  obtain ⟨helf, hrounds⟩ := hf
  have hread : Runs (readBytes f.content 0 ehdrSize) s (min ehdrSize f.content.length) s :=
    (runs_readBytes hlen (by decide)).mpr ⟨Nat.zero_le _, rfl, rfl⟩
  have hset : Runs (modify fun s => s.setPgdir c j (some pgdir) : Sys.M PUnit) s ⟨⟩
      (s.setPgdir c j (some pgdir)) := runs_modify.mpr rfl
  have hstart : LoadingFile (s.setPgdir c j (some pgdir)) pgdir true 0 0 :=
    ⟨h.setPgdir c j _, fun _ va _ hmaps => hfresh va ((maps_setPgdir s c j _ pgdir va).mp hmaps), nofun⟩
  have hsafe : ∀ r ∈ rounds f.content (bufWord f.header 56 2) (bufWord f.header 32 8) f.ph true 0 0,
      r.Safe f.content.length := fun r hr => (hrounds r hr).1
  obtain ⟨b, s₁, hload, hspace, hle, hb⟩ :=
    hstart.returns hlen hsafe (Nat.le_trans (Nat.le_add_right _ _) hfree)
  obtain rfl := hb.mpr fun r hr => (hrounds r hr).2
  obtain ⟨t, hstack⟩ := hspace.pushStack_eq (e := f.call) hvalid (by
    change s.free.length ≤ s₁.free.length + roundsPages f.content.length f.rounds at hle
    show stackPages f.argv f.envp ≤ _
    omega)
  refine ⟨t, ?_⟩
  unfold Core.execFileLoad
  have hheader : readInto f.content 0 (min ehdrSize f.content.length) f.elf = f.header := rfl
  rw [bind_eq_of_runs hread, hheader, if_neg (not_not_intro helf), bind_eq_of_runs hset]
  rw [bind_eq_of_runs (show Runs (loadFile pgdir f (bufWord f.header 56 2) _ _ _ _ _) _ true s₁ from hload),
    if_pos rfl]
  exact hstack

theorem execFile_valid (c : Nat) (j : Slot) (hp : Pages s) (hs : s.short = false)
    (hvalid : ∀ o ∈ f.argv ++ f.envp, o ≠ none) (hlen : f.content.length < 2 ^ 32)
    (hfree : f.pages ≤ s.free.length) (hf : f.Valid) :
    (stackBytes f.argv f.envp % (10 * pageSize) ≠ 0 → ∃ s', Runs (execFile c j f) s true s') ∧
      (stackBytes f.argv f.envp % (10 * pageSize) = 0 → execFile c j f s = .error .panic) := by
  unfold ExecFile.pages at hfree
  obtain ⟨o, s₁, hinit, hs₁, -⟩ := affords_pgdirInit s hs (by omega)
  obtain ⟨p, free, rfl, hcons, rfl⟩ := pgdirInit_takes hinit hs₁
  obtain ⟨hspace, hfresh⟩ := AddressSpace.fresh hp hs hcons
  have hleft : s.free.length = free.length + 1 := congrArg List.length hcons
  obtain ⟨t, hload⟩ := hspace.execFileLoad_valid c j hfresh hvalid hlen (show _ ≤ free.length by omega) hf
  have hget : Runs (get : Sys.M Sys) s s s := runs_get.mpr ⟨rfl, rfl⟩
  constructor
  · intro hne
    have htrue : Runs (execFileLoad c j p f) ({ s with free }.fill p fun _ => 0) true t :=
      hload.trans (runs_bind.mpr ⟨(), t, runs_require.mpr ⟨hne, rfl⟩, runs_pure.mpr ⟨rfl, rfl⟩⟩)
    exact ⟨t.setPgdir c j (some p), runs_bind.mpr ⟨s, s, hget, runs_bind.mpr ⟨some p, _, hinit,
      runs_bind.mpr ⟨true, t, htrue, runs_bind.mpr ⟨⟨⟩, _, runs_modify.mpr rfl, runs_pure.mpr ⟨rfl, rfl⟩⟩⟩⟩⟩⟩
  · intro hzero
    have hpanic : (require .panic (stackBytes f.argv f.envp % (10 * pageSize) ≠ 0) : Sys.M Unit) t =
        .error .panic := by
      unfold require
      rw [if_neg (not_not_intro hzero)]
      rfl
    refine (bind_eq_of_runs hget).trans ((bind_eq_of_runs hinit).trans (bind_eq_error ?_))
    exact hload.trans (bind_eq_error hpanic)

/-- For a valid file, with enough pages, `execve` does not panic exactly if the size of the strings and
of the pointer area, rounded up to 16, is not a multiple of ten pages. -/
theorem execFile_assertion_iff (c : Nat) (j : Slot) (hp : Pages s) (hs : s.short = false)
    (hvalid : ∀ o ∈ f.argv ++ f.envp, o ≠ none) (hlen : f.content.length < 2 ^ 32)
    (hfree : f.pages ≤ s.free.length) (hf : f.Valid) :
    Avoids .panic (execFile c j f) s ↔ stackBytes f.argv f.envp % (10 * pageSize) ≠ 0 := by
  obtain ⟨hreturns, hpanics⟩ := execFile_valid c j hp hs hvalid hlen hfree hf
  constructor
  · exact fun havoids hzero => havoids (hpanics hzero)
  · intro hne
    obtain ⟨s', hr⟩ := hreturns hne
    exact .of_runs hr

/-- A number as `w` bytes, in little-endian order. -/
def leBytes (w v : Nat) : List UInt8 := (List.range w).map (Bytes.byteOf v)

/-- A program of one segment of `memsz` bytes at `vaddr`, called with one argument of `len` bytes. -/
def program (vaddr memsz len : Nat) : ExecFile where
  content := [0x7f, 0x45, 0x4c, 0x46, 2] ++ leBytes 27 0 ++ leBytes 24 64 ++ leBytes 8 1 ++
    (leBytes 16 1 ++ leBytes 16 vaddr ++ leBytes 8 0 ++ leBytes 16 memsz)
  elf _ := 0
  ph _ := 0
  argv := [some len]
  envp := []
  data _ _ := 0

/-- A process with 256 free pages. -/
def bootProcess : Sys where
  kernel := alone 1 fun _ => ⟨false, 0, none⟩
  pgdir _ _ := some 0
  kstack _ _ := none
  free := List.range 256
  word _ _ := 0
  arena := []
  short := false

theorem bootProcess_pages : Pages bootProcess := by
  have hfree : bootProcess.free = List.range 256 := by rw [bootProcess]
  constructor
  · rw [hfree]
    exact List.nodup_range
  · exact List.nodup_nil
  · exact nofun
  · intro p hp
    rw [hfree, List.mem_range] at hp
    have hlt := hp.resolve_right nofun
    unfold physPages
    omega

/-- A short argument. -/
theorem execFile_assertion_iff_short :
    Avoids .panic (execFile 0 0 (program 0x400000 4096 5)) bootProcess ↔
      stackBytes (program 0x400000 4096 5).argv (program 0x400000 4096 5).envp % (10 * pageSize) ≠ 0 :=
  execFile_assertion_iff 0 0 bootProcess_pages rfl (by decide) (by decide) (by decide +kernel)
    (by decide +kernel)

/-- An argument of 40903 bytes: with its zero, the pointers and the rest of the stack it takes ten
pages. -/
theorem execFile_panics_on_argument :
    (program 0x400000 4096 40903).Valid ∧
      (program 0x400000 4096 40903).pages ≤ bootProcess.free.length ∧
      execFile 0 0 (program 0x400000 4096 40903) bootProcess = .error .panic := by
  have hvalid : (program 0x400000 4096 40903).Valid := by decide +kernel
  have hpages : (program 0x400000 4096 40903).pages ≤ bootProcess.free.length := by decide +kernel
  refine ⟨hvalid, hpages, ?_⟩
  exact (execFile_valid 0 0 bootProcess_pages rfl (by decide) (by decide) hpages hvalid).2 (by decide +kernel)

/-! ### The recorded size -/

/-- The loop of `execve` over `n` more program headers, with the size and the base that it comes to. -/
def loadImage (pgdir : Nat) (f : ExecFile) :
    Nat → Nat → (Nat → UInt8) → Bool → Nat → Nat → Sys.M (Option (Nat × Nat))
  | 0, _, _, _, sz, base => pure (some (sz, base))
  | n + 1, off, buf, first, sz, base => do
    let count ← readBytes f.content off phdrSize
    let buf := readInto f.content off count buf
    let ph := phdrOf buf
    let next := (off + phdrSize) % 2 ^ 64
    if ph.type ≠ 1 then loadImage pgdir f n next buf first sz base
    else if ph.memsz < ph.filesz then pure none
    else if (ph.vaddr + ph.memsz) % 2 ^ 64 < ph.vaddr then pure none
    else if first ∧ ph.vaddr % pageSize ≠ 0 then pure none
    else do
      let base := if first then ph.vaddr else base
      match ← loadSegment pgdir f ph base (if first then ph.vaddr else sz) with
      | none => pure none
      | some sz => loadImage pgdir f n next buf false sz base

/-- What `execve` records of the new program in the process. -/
structure Recorded where
  base : Nat
  sz : Nat
deriving DecidableEq

/-- The new address space of `execve`, with the size and the base that the loop comes to. -/
def execImage (c : Nat) (j : Slot) (pgdir : Nat) (f : ExecFile) : Sys.M (Option (Nat × Nat)) := do
  let count ← readBytes f.content 0 ehdrSize
  let elf := readInto f.content 0 count f.elf
  if ¬isElf elf then pure none
  else do
    modify fun s => s.setPgdir c j (some pgdir)
    match ← loadImage pgdir f (bufWord elf 56 2) (bufWord elf 32 8) f.ph true 0 0 with
    | none => pure none
    | some image => if ← pushStack pgdir f.call then pure (some image) else pure none

/-- `execve` in the process of slot `j`, with what it records. -/
def execRecords (c : Nat) (j : Slot) (f : ExecFile) : Sys.M (Option Recorded) := do
  let s ← get
  let oldpgdir := s.pgdir c j
  match ← pgdirInit with
  | none => do
    modify fun s => s.setPgdir c j oldpgdir
    pure none
  | some pgdir =>
    match ← execImage c j pgdir f with
    | some (sz, base) => do
      modify fun s => s.setPgdir c j (some pgdir)
      pure (some ⟨base, sz⟩)
    | none => do
      vmFree pgdir
      modify fun s => s.setPgdir c j oldpgdir
      pure none

/-- The loop without its result. -/
theorem loadImage_isSome (pgdir : Nat) (f : ExecFile) (n off : Nat) (buf : Nat → UInt8) (first : Bool)
    (sz base : Nat) :
    Option.isSome <$> loadImage pgdir f n off buf first sz base = loadFile pgdir f n off buf first sz base := by
  induction n generalizing off buf first sz base with
  | zero => rfl
  | succ n ih =>
    rw [loadImage, loadFile, map_bind]
    refine bind_congr fun count => ?_
    generalize readInto f.content off count buf = buf
    by_cases htype : (phdrOf buf).type ≠ 1
    · simp only [if_pos htype]
      exact ih _ _ _ _ _
    simp only [if_neg htype]
    by_cases hsize : (phdrOf buf).memsz < (phdrOf buf).filesz
    · simp only [if_pos hsize]
      rfl
    simp only [if_neg hsize]
    by_cases hend : ((phdrOf buf).vaddr + (phdrOf buf).memsz) % 2 ^ 64 < (phdrOf buf).vaddr
    · simp only [if_pos hend]
      rfl
    simp only [if_neg hend]
    by_cases halign : first ∧ (phdrOf buf).vaddr % pageSize ≠ 0
    · simp only [if_pos halign]
      rfl
    simp only [if_neg halign, map_bind]
    refine bind_congr fun o => ?_
    cases o with
    | none => rfl
    | some sz => exact ih _ _ _ _ _

theorem execImage_isSome (c : Nat) (j : Slot) (pgdir : Nat) (f : ExecFile) :
    Option.isSome <$> execImage c j pgdir f = execFileLoad c j pgdir f := by
  unfold execImage execFileLoad
  rw [map_bind]
  refine bind_congr fun count => ?_
  generalize readInto f.content 0 count f.elf = elf
  by_cases helf : ¬isElf elf
  · rw [if_pos helf, if_pos helf]
    rfl
  rw [if_neg helf, if_neg helf, map_bind]
  refine bind_congr fun _ => ?_
  rw [map_bind, ← loadImage_isSome, bind_map_left]
  refine bind_congr fun o => ?_
  cases o with
  | none => rfl
  | some image =>
    rw [map_bind, Option.isSome_some, if_pos rfl]
    refine (bind_congr fun b => ?_).trans (bind_pure _)
    cases b with
    | false => rfl
    | true => rfl

/-- `execve` without what it records. -/
theorem execRecords_isSome (c : Nat) (j : Slot) (f : ExecFile) :
    Option.isSome <$> execRecords c j f = execFile c j f := by
  unfold execRecords execFile
  rw [map_bind]
  refine bind_congr fun s => ?_
  rw [map_bind]
  refine bind_congr fun o => ?_
  cases o with
  | none => rfl
  | some pgdir =>
    simp only [map_bind, ← execImage_isSome, bind_map_left]
    refine bind_congr fun image => ?_
    cases image with
    | none => simp only [map_bind, map_pure, Option.isSome_none, Bool.false_eq_true, if_false]
    | some image => rfl

/-- The program headers that the loop reads, with their offsets. -/
def headers (content : List UInt8) : Nat → Nat → (Nat → UInt8) → List (Nat × Elf64Phdr)
  | 0, _, _ => []
  | n + 1, off, buf =>
    let buf := headerAt content off buf
    (off, phdrOf buf) :: headers content n ((off + phdrSize) % 2 ^ 64) buf

/-- The `PT_LOAD` headers among them. -/
def segmentsOf (hs : List (Nat × Elf64Phdr)) : List Elf64Phdr := (hs.map Prod.snd).filter fun ph => ph.type = 1

def ExecFile.headers (f : ExecFile) : List (Nat × Elf64Phdr) :=
  Core.headers f.content (bufWord f.header 56 2) (bufWord f.header 32 8) f.ph

def ExecFile.segments (f : ExecFile) : List Elf64Phdr := segmentsOf f.headers

/-- The end of a segment. -/
def Elf64Phdr.stop (ph : Elf64Phdr) : Nat := ph.vaddr + ph.memsz

/-- The file is an ELF file with headers and segments within a file of its size, whose segments come in
increasing address order, start page-aligned and end below `USPACE_TOP`. -/
structure ExecFile.Ordered (f : ExecFile) : Prop where
  elf : isElf f.header
  within : ∀ h ∈ f.headers, h.1 ≤ f.content.length
  segment : ∀ ph ∈ f.segments, ph.offset ≤ f.content.length ∧ ph.filesz ≤ ph.memsz ∧
    ph.vaddr % pageSize = 0 ∧ ph.stop < uspaceTop
  order : f.segments.Pairwise fun ph ph' => ph.vaddr ≤ ph'.vaddr ∧ ph.stop ≤ ph'.stop

theorem segmentsOf_cons (off : Nat) (ph : Elf64Phdr) (hs : List (Nat × Elf64Phdr)) :
    segmentsOf ((off, ph) :: hs) = if ph.type = 1 then ph :: segmentsOf hs else segmentsOf hs := by
  unfold segmentsOf
  rw [List.map_cons, List.filter_cons]
  simp only [decide_eq_true_eq]

theorem not_runs_none {α : Type} {a : α} : ¬Runs (pure none : Sys.M (Option α)) s (some a) s' :=
  fun h => nomatch (runs_pure.mp h).1

theorem loadSegment_result {ph : Elf64Phdr} {k : Nat}
    (hr : Runs (loadSegment pgdir f ph base sz) s (some k) s') :
    k = throughInt ph.stop ∧ k ≠ 0 := by
  obtain ⟨m, s₁, halloc, hr⟩ := runs_bind.mp hr
  rw [runs_ite] at hr
  obtain ⟨-, hr⟩ | ⟨hne, hr⟩ := hr
  · cases (runs_pure.mp hr).1
  obtain ⟨_, _, -, hr⟩ := runs_bind.mp hr
  obtain ⟨_, _, -, hr⟩ := runs_bind.mp hr
  obtain ⟨_, _, -, hr⟩ := runs_bind.mp hr
  obtain rfl := Option.some.inj (runs_pure.mp hr).1
  refine ⟨?_, hne⟩
  obtain ⟨_, _, -, halloc⟩ := runs_bind.mp halloc
  obtain ⟨_, _, -, halloc⟩ := runs_bind.mp halloc
  rw [runs_ite] at halloc
  obtain ⟨-, hpure⟩ | ⟨-, hpure⟩ := halloc
  · exact (runs_pure.mp hpure).1.symm
  · exact absurd (runs_pure.mp hpure).1.symm hne

/-- The loop has gone through all segments, and records the first address and what `uvm_alloc` made of
the last end. -/
theorem loadImage_result {image : Nat × Nat} (hlen : f.content.length < 2 ^ 32)
    (hr : Runs (loadImage pgdir f n off buf first sz base) s (some image) s') :
    (∀ ph ∈ segmentsOf (headers f.content n off buf), throughInt ph.stop ≠ 0) ∧
      image.1 = ((segmentsOf (headers f.content n off buf)).getLast?.elim sz fun ph => throughInt ph.stop) ∧
      image.2 = if first then (segmentsOf (headers f.content n off buf)).head?.elim base Elf64Phdr.vaddr
        else base := by
  induction n generalizing s off buf first sz base with
  | zero =>
    obtain ⟨heq, rfl⟩ := runs_pure.mp hr
    obtain rfl := Option.some.inj heq
    exact ⟨nofun, rfl, (ite_self base).symm⟩
  | succ n ih =>
    obtain ⟨count, s₁, hread, hr⟩ := runs_bind.mp hr
    obtain ⟨-, rfl, rfl⟩ := (runs_readBytes hlen (by decide)).mp hread
    have hheader : readInto f.content off (min phdrSize (f.content.length - off)) buf =
        headerAt f.content off buf := rfl
    rw [headers, segmentsOf_cons]
    simp only [hheader] at hr ⊢
    generalize headerAt f.content off buf = buf' at hr ⊢
    by_cases htype : (phdrOf buf').type = 1
    · rw [if_neg (not_not_intro htype)] at hr
      rw [if_pos htype]
      simp only [runs_ite, not_runs_none, and_false, false_or] at hr
      obtain ⟨-, -, -, hr⟩ := hr
      obtain ⟨o, s₂, hload, hr⟩ := runs_bind.mp hr
      cases o with
      | none => exact absurd hr not_runs_none
      | some k =>
        obtain ⟨hk, hne⟩ := loadSegment_result hload
        rw [hk] at hne hr
        obtain ⟨hrest, hsz, hbase⟩ := ih hr
        have hfirst : image.2 = if first = true then (phdrOf buf').vaddr else base := hbase
        refine ⟨List.forall_mem_cons.mpr ⟨hne, hrest⟩, ?_, ?_⟩
        · rw [hsz, List.getLast?_cons]
          cases (segmentsOf (headers f.content n ((off + phdrSize) % 2 ^ 64) buf')).getLast? with
          | none => rw [Option.elim_none, Option.getD_none, Option.elim_some]
          | some ph => rw [Option.elim_some, Option.getD_some, Option.elim_some]
        · rw [hfirst, List.head?_cons, Option.elim_some]
    · rw [if_pos htype] at hr
      rw [if_neg htype]
      exact ih hr

/-- Where every end is a positive `int`, no round comes to an assertion or fails. -/
theorem rounds_ordered {hs : List (Nat × Elf64Phdr)} (hheaders : hs = headers content n off buf)
    (hwithin : ∀ h ∈ hs, h.1 ≤ content.length)
    (hsegment : ∀ ph ∈ segmentsOf hs, ph.offset ≤ content.length ∧ ph.filesz ≤ ph.memsz ∧
      ph.vaddr % pageSize = 0 ∧ ph.stop < uspaceTop)
    (horder : (segmentsOf hs).Pairwise fun ph ph' => ph.vaddr ≤ ph'.vaddr ∧ ph.stop ≤ ph'.stop)
    (hfits : ∀ ph ∈ segmentsOf hs, 0 < ph.stop ∧ ph.stop < 2 ^ 31)
    (hbefore : first = false → base ≤ sz ∧ ∀ ph ∈ segmentsOf hs, base ≤ ph.vaddr ∧ sz ≤ ph.stop) :
    ∀ r ∈ rounds content n off buf first sz base, r.Safe content.length ∧ ¬r.Fails := by
  induction n generalizing off buf first sz base hs with
  | zero => exact nofun
  | succ n ih =>
    rw [headers] at hheaders
    rw [rounds]
    generalize headerAt content off buf = buf' at hheaders ⊢
    subst hheaders
    have hoff : off ≤ content.length := hwithin _ List.mem_cons_self
    have hrest (h : Nat × Elf64Phdr) (hh : h ∈ headers content n ((off + phdrSize) % 2 ^ 64) buf') :=
      hwithin h (List.mem_cons_of_mem _ hh)
    rw [segmentsOf_cons] at hsegment horder hfits hbefore
    by_cases htype : (phdrOf buf').type = 1
    · rw [if_pos htype] at hsegment horder hfits hbefore
      rw [if_neg (not_not_intro htype)]
      generalize phdrOf buf' = ph at hsegment horder hfits hbefore ⊢
      obtain ⟨⟨hoffset, hsize, haligned, htop⟩, hsegment⟩ := List.forall_mem_cons.mp hsegment
      obtain ⟨hpos, hsmall⟩ := (List.forall_mem_cons.mp hfits).1
      obtain ⟨hlater, horder⟩ := List.pairwise_cons.mp horder
      have hnot : ¬ph.Rejected first := by
        rintro (hlt | hlt | ⟨-, hne⟩)
        · omega
        · change ph.vaddr + ph.memsz < 2 ^ 48 at htop
          omega
        · exact hne haligned
      have hnewsz : (ph.segment first sz base).newsz = ph.stop := rfl
      have hint : throughInt ph.stop = ph.stop := by
        unfold throughInt
        rw [if_pos (by omega), Nat.mod_eq_of_lt (by omega)]
      have hbase : (ph.segment first sz base).base ≤ ph.vaddr ∧
          (ph.segment first sz base).base ≤ (ph.segment first sz base).oldsz ∧
          (ph.segment first sz base).oldsz ≤ ph.stop := by
        cases first with
        | true => exact ⟨Nat.le_refl _, Nat.le_refl _, Nat.le_add_right _ _⟩
        | false =>
          obtain ⟨hle, hall⟩ := hbefore rfl
          obtain ⟨hle', hle''⟩ := hall ph List.mem_cons_self
          exact ⟨hle', hle, hle''⟩
      rw [if_neg hnot]
      simp only [hnewsz, hint, if_neg hpos.ne']
      refine List.forall_mem_cons.mpr ⟨⟨⟨hoff, ⟨hbase.2.1, hbase.2.2, htop⟩, fun _ => ?_⟩, ?_⟩, ?_⟩
      · exact ⟨hoffset, .inr hbase.1, .inr (Nat.le_trans hbase.1 (Nat.le_add_right _ _))⟩
      · show ¬throughInt ph.stop = 0
        rw [hint]
        exact hpos.ne'
      · refine ih rfl hrest hsegment horder (List.forall_mem_cons.mp hfits).2 fun _ => ⟨?_, fun ph' hph' => ?_⟩
        · exact Nat.le_trans hbase.2.1 hbase.2.2
        · obtain ⟨hle, hle'⟩ := hlater ph' hph'
          exact ⟨Nat.le_trans hbase.1 hle, hle'⟩
    · rw [if_neg htype] at hsegment horder hfits hbefore
      rw [if_pos htype]
      exact List.forall_mem_cons.mpr ⟨⟨hoff, id⟩, ih rfl hrest hsegment horder hfits hbefore⟩

/-- What a call records. -/
theorem execRecords_result {a b : Elf64Phdr} {m : Recorded} (hlen : f.content.length < 2 ^ 32)
    (hfirst : f.segments.head? = some a) (hlast : f.segments.getLast? = some b)
    (hr : Runs (execRecords c j f) s (some m) s') :
    (∀ ph ∈ f.segments, throughInt ph.stop ≠ 0) ∧ m = ⟨a.vaddr, throughInt b.stop⟩ := by
  obtain ⟨_, _, -, hr⟩ := runs_bind.mp hr
  obtain ⟨o, _, -, hr⟩ := runs_bind.mp hr
  cases o with
  | none =>
    obtain ⟨_, _, -, hr⟩ := runs_bind.mp hr
    cases (runs_pure.mp hr).1
  | some pgdir =>
    obtain ⟨image, _, himage, hr⟩ := runs_bind.mp hr
    cases image with
    | none =>
      obtain ⟨_, _, -, hr⟩ := runs_bind.mp hr
      obtain ⟨_, _, -, hr⟩ := runs_bind.mp hr
      cases (runs_pure.mp hr).1
    | some image =>
      obtain ⟨_, _, -, hr⟩ := runs_bind.mp hr
      obtain rfl := Option.some.inj (runs_pure.mp hr).1
      obtain ⟨count, _, hread, himage⟩ := runs_bind.mp himage
      obtain ⟨-, rfl, rfl⟩ := (runs_readBytes hlen (by decide)).mp hread
      simp only [runs_ite, not_runs_none, and_false, false_or] at himage
      obtain ⟨_, _, -, himage⟩ := runs_bind.mp himage.2
      obtain ⟨o, _, hload, himage⟩ := runs_bind.mp himage
      cases o with
      | none => exact absurd himage not_runs_none
      | some image' =>
        obtain ⟨done, _, -, himage⟩ := runs_bind.mp himage
        simp only [runs_ite, not_runs_none, and_false, or_false] at himage
        obtain rfl := Option.some.inj (runs_pure.mp himage.2).1
        obtain ⟨hne, hsz, hbase⟩ := loadImage_result hlen hload
        change image'.1 = f.segments.getLast?.elim _ _ at hsz
        change image'.2 = f.segments.head?.elim _ _ at hbase
        rw [hlast] at hsz
        rw [hfirst] at hbase
        exact ⟨hne, congrArg₂ Recorded.mk hbase hsz⟩

theorem execRecords_returns (hr : Runs (execFile c j f) s true s') :
    ∃ m, Runs (execRecords c j f) s (some m) s' := by
  rw [← execRecords_isSome] at hr
  obtain ⟨o, hr, ho⟩ := runs_map.mp hr
  obtain ⟨m, rfl⟩ := Option.isSome_iff_exists.mp ho
  exact ⟨m, hr⟩

/-- `execve` of an executable whose segments come in order records the address of the first segment and
the end of the last one exactly if every end is a positive `int`. -/
theorem execRecords_iff {a b : Elf64Phdr} (c : Nat) (j : Slot) (hp : Pages s) (hs : s.short = false)
    (hvalid : ∀ o ∈ f.argv ++ f.envp, o ≠ none) (hlen : f.content.length < 2 ^ 32)
    (hfree : f.pages ≤ s.free.length) (hstack : stackBytes f.argv f.envp % (10 * pageSize) ≠ 0)
    (hf : f.Ordered) (hfirst : f.segments.head? = some a) (hlast : f.segments.getLast? = some b) :
    (∃ s', Runs (execRecords c j f) s (some ⟨a.vaddr, b.stop⟩) s') ↔
      ∀ ph ∈ f.segments, 0 < ph.stop ∧ ph.stop < 2 ^ 31 := by
  have htop (ph : Elf64Phdr) (hph : ph ∈ f.segments) : ph.stop < 2 ^ 48 := (hf.segment ph hph).2.2.2
  constructor
  · rintro ⟨s', hr⟩
    obtain ⟨hne, heq⟩ := execRecords_result hlen hfirst hlast hr
    have hint : b.stop = throughInt b.stop := congrArg Recorded.sz heq
    have hsmall : b.stop < 2 ^ 31 := by
      have hb := htop b (List.mem_of_getLast? hlast)
      unfold throughInt at hint
      split at hint <;> omega
    intro ph hph
    constructor
    · refine Nat.pos_of_ne_zero fun hzero => hne ph hph ?_
      rw [hzero]
      rfl
    · refine Nat.lt_of_le_of_lt ?_ hsmall
      -- the last segment ends last
      obtain ⟨before, hsplit⟩ := List.getLast?_eq_some_iff.mp hlast
      have horder := hf.order
      rw [hsplit] at horder hph
      rcases List.mem_append.mp hph with hph | hph
      · exact ((List.pairwise_append.mp horder).2.2 ph hph b (List.mem_singleton_self b)).2
      · rw [List.mem_singleton.mp hph]
  · intro hfits
    have hrounds : ∀ r ∈ rounds f.content (bufWord f.header 56 2) (bufWord f.header 32 8) f.ph true 0 0,
        r.Safe f.content.length ∧ ¬r.Fails :=
      rounds_ordered rfl hf.within (fun ph hph => hf.segment ph hph) hf.order hfits nofun
    obtain ⟨s', hr⟩ := (execFile_valid c j hp hs hvalid hlen hfree ⟨hf.elf, hrounds⟩).1 hstack
    obtain ⟨m, hr⟩ := execRecords_returns hr
    have hb := hfits b (List.mem_of_getLast? hlast)
    have hint : throughInt b.stop = b.stop := by
      unfold throughInt
      rw [if_pos (by omega), Nat.mod_eq_of_lt (by omega)]
    obtain ⟨-, rfl⟩ := execRecords_result hlen hfirst hlast hr
    rw [hint] at hr
    exact ⟨s', hr⟩

/-- A program at the address of most programs. -/
theorem execRecords_iff_page :
    (∃ s', Runs (execRecords 0 0 (program 0x400000 4096 5)) bootProcess (some ⟨0x400000, 0x401000⟩) s') ↔
      ∀ ph ∈ (program 0x400000 4096 5).segments, 0 < ph.stop ∧ ph.stop < 2 ^ 31 :=
  execRecords_iff (a := ⟨1, 0, 0x400000, 0, 4096⟩) (b := ⟨1, 0, 0x400000, 0, 4096⟩) 0 0 bootProcess_pages rfl
    (by decide) (by decide) (by decide +kernel) (by decide +kernel)
    ⟨by decide +kernel, by decide +kernel, by decide +kernel, by decide +kernel⟩ (by decide +kernel)
    (by decide +kernel)

/-- A program whose segment ends at 2^32 is not executed; one that begins at 2^31 gets a size that is no
address of user memory. -/
theorem execRecords_misses_size :
    (program 0xfffff000 4096 5).Ordered ∧ (program 0x80000000 4096 5).Ordered ∧
      (∃ s', Runs (execRecords 0 0 (program 0xfffff000 4096 5)) bootProcess none s') ∧
      ∃ s', Runs (execRecords 0 0 (program 0x80000000 4096 5)) bootProcess
        (some ⟨0x80000000, 0xffffffff80001000⟩) s' := by
  refine ⟨⟨by decide +kernel, by decide +kernel, by decide +kernel, by decide +kernel⟩,
    ⟨by decide +kernel, by decide +kernel, by decide +kernel, by decide +kernel⟩, ?_, ?_⟩
  · obtain ⟨b, s', hr⟩ := execFile_returns (f := program 0xfffff000 4096 5) 0 0 bootProcess_pages rfl
      (by decide)
      (by decide) (by decide +kernel) fun _ => ⟨by decide +kernel, fun _ => by decide +kernel⟩
    rw [← execRecords_isSome] at hr
    obtain ⟨o, hr, -⟩ := runs_map.mp hr
    cases o with
    | none => exact ⟨s', hr⟩
    | some m =>
      -- as an `int`, the end of the segment is 0
      obtain ⟨hne, -⟩ := execRecords_result (a := ⟨1, 0, 0xfffff000, 0, 4096⟩)
        (b := ⟨1, 0, 0xfffff000, 0, 4096⟩)
        (by decide) (by decide +kernel) (by decide +kernel) hr
      exact absurd (by decide) (hne ⟨1, 0, 0xfffff000, 0, 4096⟩ (by decide +kernel))
  · have hvalid : (program 0x80000000 4096 5).Valid := by decide +kernel
    have hpages : (program 0x80000000 4096 5).pages ≤ bootProcess.free.length := by decide +kernel
    obtain ⟨s', hr⟩ := (execFile_valid 0 0 bootProcess_pages rfl (by decide) (by decide) hpages hvalid).1
      (by decide +kernel)
    obtain ⟨m, hr⟩ := execRecords_returns hr
    obtain ⟨-, rfl⟩ := execRecords_result (a := ⟨1, 0, 0x80000000, 0, 4096⟩) (b := ⟨1, 0, 0x80000000, 0, 4096⟩)
      (by decide) (by decide +kernel) (by decide +kernel) hr
    exact ⟨s', hr⟩

end FtosFfs.Core
