import FtosFfs.Fs.File
import FtosFfs.Fs.Resolve

/-! System calls on inputs for which they are to fail: `sys_unlink` of a name that is not there, and
`filewrite` past the largest size of a file. -/

namespace FtosFfs.Fs

open Lib Lib.Exec Cache

variable {s t : State} {cwd : Ptr} {i f n : Nat} {path name : List UInt8} {u : Unit}

/-! ### Unlinking a missing name -/

/-- What a system call that has failed leaves: no operation, lock, or reference of its own, the disk as
before, and in memory the entries that the inodes had in memory or, if they were not there, on disk. -/
structure Undone (s t : State) : Prop where
  op : t.log.opCount = s.log.opCount
  held : t.held = []
  unlocked : ∀ p ∈ t.list, (t.mem p).locked = false
  counts : ∀ p, t.counts p = s.counts p
  disk : t.disk = s.disk
  entries : ∀ p ∈ t.list, (t.mem p).valid = true →
    (t.mem p).entry = s.entryOf (t.mem p).inodeNo

/-- `sys_unlink` returns -1 and has changed nothing. -/
def UnlinkFails (s : State) (i : Nat) (path : List UInt8) : Prop :=
  ∃ t, Runs (sysUnlink sblock i path) s (-1) t ∧ Undone s t

/-- The end of the only operation, which has recorded nothing. -/
theorem cacheEndOp_returns (hop : s.log.opCount = 1) (hctx : s.ctx.blockNo = [])
    (hheld : s.held = []) :
    ∃ t, Runs cacheEndOp s () t ∧ t.log.opCount = 0 ∧ t.disk = s.disk ∧ t.held = s.held ∧
      t.list = s.list ∧ t.mem = s.mem := by
  let log := { s.log with logUsed := Log.usizeSub s.log.logUsed (opMaxNumBlocks - 0 + 0) }
  have hcommit : s.log.commit s.ctx = some log := by
    simp only [Log.commit, Log.commitBlocks, hctx]
    rfl
  have hcount : log.opCount - 1 = 0 := by
    show s.log.opCount - 1 = 0
    omega
  exact ⟨_, cacheEndOp_last hcommit hop hheld, hcount, rfl, rfl, rfl, rfl⟩

theorem counts_along {base : State} (ha : Along base s.counts ∅ t) (p : Ptr) :
    t.counts p = s.counts p := by
  by_cases hp : p ∈ t.list
  · rw [State.counts, if_pos hp, ha.refs.rc p hp]
    exact Int.toNat_natCast _
  · rw [State.counts, if_neg hp]
    by_contra hne
    exact hp (ha.refs.mem p (Nat.pos_of_ne_zero (Ne.symm hne)))

/-- The last steps of `sys_unlink` when it refuses to remove an entry of directory `p`. -/
theorem Idle.unlink_bad (h : Idle s) (hop : s.log.opCount = 0) {p : Ptr}
    (ha : Along s.begun (bump s.counts p) (insert p ∅) t) (hv : (t.mem p).valid = true) :
    ∃ t', Runs (do unlockPut sblock p; cacheEndOp : M Unit) t () t' ∧ Undone s t' := by
  obtain ⟨t₁, hunlock⟩ := ha.unlock_returns bump_pos
  obtain ⟨h₁, hmem, -⟩ := ha.unlock bump_pos (by simp) hunlock
  have hlast : (t₁.mem p).isLast = false := by
    refine h₁.not_last h.resolving.refs h.resolving.linked (fun q => le_bump q) lt_bump ?_
    rw [hmem]
    exact hv
  have hput : Runs (inodePut sblock true p) t₁ () (t₁.dropped p) := by
    rw [runs_inodePut, if_neg (by simp [hlast])]
  obtain ⟨h₂, -⟩ := h₁.put (by simp) hlast (fun q hq => h.counts_pos hq) hput
  obtain ⟨t', hend, hcount, hdisk, hheld, hlist, hmem'⟩ := cacheEndOp_returns (s := t₁.dropped p)
    (by rw [h₂.log]; exact congrArg (· + 1) hop) (by rw [h₂.ctx]; rfl) h₂.cached.held
  refine ⟨t', runs_bind.mpr ⟨(), _, runs_bind.mpr ⟨(), t₁, hunlock, hput⟩, hend⟩, ?_⟩
  constructor
  case op => rw [hcount, hop]
  case held => rw [hheld, h₂.cached.held]
  case unlocked =>
    intro q hq
    rw [hlist] at hq
    rw [hmem']
    simpa using (h₂.refs.locks q hq)
  case counts =>
    intro q
    rw [← counts_along h₂ q]
    unfold State.counts
    rw [hlist, hmem']
  case disk =>
    rw [hdisk, h₂.disk]
    rfl
  case entries =>
    intro q hq hvalid
    rw [hlist] at hq
    rw [hmem'] at hvalid ⊢
    have hloaded := h₂.loaded q hq
    rwa [State.loaded, if_pos hvalid] at hloaded

section

variable (h : Idle s) (hproc : (s.proc i).cwd = some cwd) (hcwd : cwd ∈ s.list)
  (hw : Walk s.disk true (startNo s cwd (argstr path)) (argstr path) [] (some (n, name)))

include h hproc hcwd hw

/-- For a name that is not there, `inode_get` is called with 0. -/
theorem unlink_missing_stops (hplain : ¬(name = [dot] ∨ name = [dot, dot]))
    (hmissing : dirLookup s.disk n name = none) {r : Int} :
    ¬Runs (sysUnlink sblock i path) s r t := by
  intro hrun
  have hn : InUse (diskEntry s.disk) n := hw.inUse h.tree (h.inUse_startNo hcwd)
  obtain ⟨p, t₁, hparent, hpno, h₁⟩ := h.nameiparent_returns hcwd hw
  obtain ⟨_, _, hget, hr⟩ := runs_bind.mp hrun
  obtain ⟨rfl, rfl⟩ := (runs_getCwd.mpr ⟨hproc, rfl⟩ : Runs (getCwd i) s cwd s).unique hget
  obtain ⟨_, _, hbegin, hr⟩ := runs_bind.mp hr
  obtain ⟨-, rfl⟩ := (cacheBeginOp_returns h.room).unique hbegin
  obtain ⟨_, _, hr, -⟩ := runs_bind.mp hr
  obtain ⟨_, _, hparent', hr⟩ := runs_bind.mp hr
  obtain ⟨rfl, rfl⟩ := hparent.unique hparent'
  obtain ⟨_, t₂, hlock, hr⟩ := runs_bind.mp hr
  obtain ⟨-, h₂, -, hno₂, hv₂, -⟩ := h₁.lock bump_pos hlock
  rw [if_neg hplain] at hr
  obtain ⟨found, _, hlook, hr⟩ := runs_bind.mp hr
  obtain ⟨rfl, rfl⟩ := h₂.lookup bump_pos hv₂ hlook
  rw [hno₂, hpno, show dirLookup s.begun.disk n name = none from hmissing] at hr
  obtain ⟨_, _, hinode, -⟩ := runs_bind.mp hr
  obtain ⟨_, _, hassert, -⟩ := runs_bind.mp hinode
  exact Nat.lt_irrefl 0 (runs_require.mp hassert).1

/-- The names `.` and `..` are refused before they are looked up. -/
theorem unlink_dots_fails (hop : s.log.opCount = 0) (hdots : name = [dot] ∨ name = [dot, dot]) :
    UnlinkFails s i path := by
  have hn : InUse (diskEntry s.disk) n := hw.inUse h.tree (h.inUse_startNo hcwd)
  have hget : Runs (getCwd i) s cwd s := runs_getCwd.mpr ⟨hproc, rfl⟩
  have hbegin : Runs cacheBeginOp s () s.begun := cacheBeginOp_returns h.room
  obtain ⟨p, t₁, hparent, hpno, h₁⟩ := h.nameiparent_returns hcwd hw
  obtain ⟨t₂, hlock⟩ := h₁.lock_returns bump_pos (by simp) (by rw [hpno]; exact hn)
  obtain ⟨-, h₂, -, -, hv₂, -⟩ := h₁.lock bump_pos hlock
  obtain ⟨t', hbad, hundone⟩ := h.unlink_bad hop h₂ hv₂
  obtain ⟨_, t₃, hput, hend⟩ := runs_bind.mp hbad
  have hunlink : Runs (unlink sblock cwd (argstr path)) s.begun (-1) t₃ := by
    refine runs_bind.mpr ⟨_, t₁, hparent, runs_bind.mpr ⟨(), t₂, hlock, ?_⟩⟩
    rw [if_pos hdots]
    exact runs_bind.mpr ⟨(), t₃, hput, runs_pure.mpr ⟨rfl, rfl⟩⟩
  have hinOp : Runs (inOp (unlink sblock cwd (argstr path))) s (-1) t' :=
    runs_bind.mpr ⟨(), s.begun, hbegin, runs_bind.mpr ⟨-1, t₃, hunlink,
      runs_bind.mpr ⟨(), t', hend, runs_pure.mpr ⟨rfl, rfl⟩⟩⟩⟩
  exact ⟨t', runs_bind.mpr ⟨cwd, s, hget, hinOp⟩, hundone⟩

/-- On a path to a name that its parent directory does not have, `sys_unlink` fails without a trace if
and only if the name is `.` or `..`. -/
theorem unlink_missing_fails (hop : s.log.opCount = 0) (hmissing : dirLookup s.disk n name = none) :
    UnlinkFails s i path ↔ name = [dot] ∨ name = [dot, dot] := by
  constructor
  · rintro ⟨t, hr, -⟩
    by_contra hplain
    exact unlink_missing_stops h hproc hcwd hw hplain hmissing hr
  · exact unlink_dots_fails h hproc hcwd hw hop

end

/-- The image with one file `f` has no `x`. -/
theorem dirLookup_elevenBlocks {img : Mkfs.Image} (hr : Runs (Mkfs.main [elevenBlocks]) Mkfs.blank () img) :
    dirLookup img.disk 1 [120] = none := by
  have h := Mkfs.main_formatted hr
  have hsize : (diskEntry img.disk 1).numBytes.toNat = 16 * 32 := h.size
  cases hfound : dirLookup img.disk 1 [120] with
  | none => rfl
  | some mk =>
    obtain ⟨-, -, hhit, -⟩ := lookupIn_some hsize hfound
    rw [h.listed] at hhit
    obtain ⟨hk, hchars⟩ := named_elevenBlocks hhit
    have hother : ∀ k < 3, List.take fileNameMaxLength [120] ≠
        nameChars ((Mkfs.rootEntries [elevenBlocks]).getD k DirEntry.zero).name := by decide +kernel
    exact absurd hchars (hother _ hk)

/-- `unlink("/x")` after a directory was made in the root. -/
theorem unlink_missing_fails_root : ∃ img, Runs (Mkfs.main [elevenBlocks]) Mkfs.blank () img ∧
    dirLookup img.disk 1 [120] = none ∧
    ¬UnlinkFails ((booted img.disk [1]).withLinks 0 2) 0 [47, 120] := by
  obtain ⟨img, hr, -, -, -⟩ := elevenBlocks_image
  obtain ⟨hidle, hcwd⟩ := idle_elevenBlocks hr
  have hnone := dirLookup_elevenBlocks hr
  have hskip : skipelem [47, 120] = some ([], [120]) := by decide
  have hw : Walk img.disk true 1 [47, 120] [] (some (1, [120])) :=
    .stop hskip (Mkfs.main_formatted hr).type (.inl ⟨rfl, rfl⟩)
  have hiff : UnlinkFails ((booted img.disk [1]).withLinks 0 2) 0 [47, 120] ↔ _ :=
    unlink_missing_fails (hidle.withLinks hcwd 2) rfl hcwd hw rfl hnone
  exact ⟨img, hr, hnone, fun hfails => absurd (hiff.mp hfails) (by decide)⟩

/-- `unlink("x")` does not return. -/
theorem unlink_missing_panics : ∃ img, Runs (Mkfs.main [elevenBlocks]) Mkfs.blank () img ∧
    Idle (booted img.disk [1]) ∧ dirLookup img.disk 1 [120] = none ∧
    ¬UnlinkFails (booted img.disk [1]) 0 [120] := by
  obtain ⟨img, hr, -, -, -⟩ := elevenBlocks_image
  obtain ⟨hidle, hcwd⟩ := idle_elevenBlocks hr
  have hnone := dirLookup_elevenBlocks hr
  have hskip : skipelem [120] = some ([], [120]) := by decide
  have hw : Walk img.disk true (startNo (booted img.disk [1]) 0 (argstr [120])) (argstr [120]) []
      (some (1, [120])) := .stop hskip (Mkfs.main_formatted hr).type (.inl ⟨rfl, rfl⟩)
  refine ⟨img, hr, hidle, hnone, fun ⟨t, hrun, _⟩ => ?_⟩
  exact unlink_missing_stops hidle rfl hcwd hw (by decide) hnone hrun

/-! ### Writing past the largest size -/

/-- `filewrite` of `n` bytes returns -1, its operation ended and the inode unlocked, after the first
operations have written `k` bytes. -/
def WriteFails (s : State) (f : Nat) (addr : Nat → UInt8) (n : Nat) : Prop :=
  let no := (s.mem (s.file f).ip).inodeNo
  ∃ t k, Runs (filewrite sblock f addr n) s (-1) t ∧ t.log.opCount = s.log.opCount ∧
    (t.mem (s.file f).ip).locked = false ∧ filewriteMax ∣ k ∧ k ≤ n ∧
    fileContent t.disk no =
      overwrite (fileContent s.disk no) (s.file f).off ((List.range k).map addr)

/-- An open regular file that can be written to. -/
structure OpenFile (s : State) (f : Nat) : Prop where
  whole : Whole s
  writable : (s.file f).writable = true
  inode : (s.file f).type = .inode
  listed : (s.file f).ip ∈ s.list
  regular : (s.loaded (s.file f).ip).type = inodeRegular

/-- `count` bytes of `src` are written to file `f` at its offset. -/
structure Written (f : Nat) (src : Nat → UInt8) (count : Nat) (s t : State) : Prop where
  openFile : OpenFile t f
  file : t.file f = { s.file f with off := (s.file f).off + count }
  inodeNo : (t.mem (s.file f).ip).inodeNo = (s.mem (s.file f).ip).inodeNo
  content : fileContent t.disk (s.mem (s.file f).ip).inodeNo =
    overwrite (fileContent s.disk (s.mem (s.file f).ip).inodeNo) (s.file f).off ((List.range count).map src)

theorem Written.nothing (h : OpenFile s f) (src : Nat → UInt8) : Written f src 0 s s :=
  ⟨h, rfl, rfl, (overwrite_nil _ _).symm⟩

/-- A write behind another one. -/
theorem Written.trans {src src' : Nat → UInt8} {k k' : Nat} {t' : State} (h : Written f src k s t)
    (h' : Written f src' k' t t')
    (hoff : (s.file f).off ≤ (fileContent s.disk (s.mem (s.file f).ip).inodeNo).length) :
    Written f (fun i => if i < k then src i else src' (i - k)) (k + k') s t' := by
  have hip : (t.file f).ip = (s.file f).ip := by rw [h.file]
  have hoff' : (t.file f).off = (s.file f).off + k := by rw [h.file]
  have hlist : (List.range (k + k')).map (fun i => if i < k then src i else src' (i - k)) =
      (List.range k).map src ++ (List.range k').map src' := by
    rw [List.range_add, List.map_append, List.map_map]
    congr 1
    · exact List.map_congr_left fun i hi => if_pos (List.mem_range.mp hi)
    · refine List.map_congr_left fun i _ => ?_
      rw [Function.comp_apply, if_neg (by omega), Nat.add_sub_cancel_left]
  refine ⟨h'.openFile, ?_, ?_, ?_⟩
  · rw [h'.file, h.file, Nat.add_assoc]
  · rw [← hip, h'.inodeNo, hip, h.inodeNo]
  · have hcontent := h'.content
    rw [hip, h.inodeNo, hoff', h.content] at hcontent
    have happ : overwrite (overwrite _ _ ((List.range k).map src)) (_ + ((List.range k).map src).length)
        ((List.range k').map src') = _ := overwrite_append hoff
    rw [List.length_map, List.length_range] at happ
    rw [hcontent, happ, hlist]

/-- One operation of `filewrite` writes within the largest size, and the file stays open. -/
theorem OpenFile.writeOp {src : Nat → UInt8} {count r : Nat} (h : OpenFile s f)
    (hop : Runs (inOp do
      let file := (← get).file f
      inodeLock sblock file.ip
      let r ← inodeWrite sblock true file.ip src file.off count
      modifyFile f fun file => { file with off := file.off + r }
      inodeUnlock file.ip
      pure r) s r t) :
    r = count ∧ (s.file f).off + count ≤ inodeMaxBytes ∧
      (s.file f).off ≤ (fileContent s.disk (s.mem (s.file f).ip).inodeNo).length ∧
      Written f src count s t := by
  obtain ⟨_, t₀, hbegin, hrest⟩ := runs_bind.mp hop
  obtain ⟨_, t₅, hx, hrest⟩ := runs_bind.mp hrest
  obtain ⟨_, t₆, hend, hpure⟩ := runs_bind.mp hrest
  obtain ⟨rfl, rfl⟩ := runs_pure.mp hpure
  have hsame := quiet_cacheBeginOp.same hbegin
  have hw₀ : Whole t₀ := InodeOp.whole h.whole (show InodeOp.beginOp.Allowed s from trivial) hbegin
  obtain ⟨hdisk₀, -, -, hmem₀, -, -⟩ := runs_cacheBeginOp hbegin
  obtain ⟨_, _, hget, hx₀⟩ := runs_bind.mp hx
  obtain ⟨rfl, rfl⟩ := runs_get.mp hget
  dsimp only at hx₀
  rw [hsame.file] at hx₀
  set p := (s.file f).ip with hp
  obtain ⟨_, t₁, hlock, hx₁⟩ := runs_bind.mp hx₀
  have hp₀ : p ∈ t₀.list := hsame.list ▸ h.listed
  have hw₁ : Whole t₁ := InodeOp.whole hw₀ (show (InodeOp.lock p).Allowed t₀ from hp₀) hlock
  obtain ⟨-, ht₁⟩ := hw₀.cached.inodeLock hp₀ hlock
  have hmem₁ : t₁.mem p = t₀.lockedInode p := by
    rw [ht₁]
    exact State.mem_setInode_same _
  have hno₁ : (t₁.mem p).inodeNo = (s.mem p).inodeNo := by
    rw [hmem₁, ← hmem₀]
    rfl
  have hdisk₁ : t₁.disk = s.disk := by
    rw [ht₁]
    exact hdisk₀
  have htype₁ : (t₁.mem p).entry.type = inodeRegular := by
    rw [hmem₁]
    show (t₀.loaded p).type = _
    unfold State.loaded
    rw [hmem₀, hdisk₀]
    exact h.regular
  have hv₁ : (t₁.mem p).valid = true := by
    rw [hmem₁]
    rfl
  obtain ⟨k, t₂, hwrite, hx₂⟩ := runs_bind.mp hx₁
  have hp₁ : p ∈ t₁.list := by
    rw [ht₁]
    exact hp₀
  have hw₂ := hw₁.inodeWrite hp₁ hv₁ hwrite
  obtain ⟨hk, -, -, e, hdone⟩ := hw₁.cached.inodeWrite hp₁ hv₁ (by rw [htype₁]; decide) hwrite
  obtain ⟨_, t₃, hmove, hx₃⟩ := runs_bind.mp hx₂
  obtain ⟨_, t₄, hunlock, hx₄⟩ := runs_bind.mp hx₃
  obtain ⟨rfl, rfl⟩ := runs_pure.mp hx₄
  have ht₃ := runs_modifyFile.mp hmove
  obtain ⟨-, -, ht₄⟩ := runs_inodeUnlock.mp hunlock
  have hfile₂ : t₂.file = s.file := by
    rw [hdone.frame.file, ht₁]
    exact hsame.file
  have hp₃ : p ∈ t₃.list := by
    rw [ht₃]
    show p ∈ t₂.list
    rw [hdone.frame.list]
    exact hp₁
  have hw₃ : Whole t₃ := by
    rw [ht₃]
    exact hw₂.sameDisk (hw₂.cached.congr rfl rfl rfl rfl rfl) rfl rfl hw₂.size
  have hmem₃ : t₃.mem p = { t₀.lockedInode p with entry := e } := by
    rw [ht₃, ← hmem₁]
    exact hdone.frame.inode
  have hw₄ : Whole t₄ := InodeOp.whole hw₃ (show (InodeOp.unlock p).Allowed t₃ from hp₃) hunlock
  have hend' := quiet_cacheEndOp.same hend
  obtain ⟨hdisk₆, -, -, hmem₆, -, -⟩ := runs_cacheEndOp hend
  have hdisk₄ : t₄.disk = t₂.disk := by
    rw [ht₄, ht₃]
    rfl
  have hfile₆ : t₆.file f = { s.file f with off := (s.file f).off + count } := by
    rw [hend'.file, ht₄]
    show t₃.file f = _
    rw [ht₃, hfile₂, ← hk]
    exact Function.update_self ..
  have hmem₄ : t₄.mem p = { t₀.lockedInode p with entry := e, locked := false } := by
    rw [ht₄, State.mem_setInode_same, hmem₃]
  have hno₆ : (t₆.mem p).inodeNo = (s.mem p).inodeNo := by
    rw [hmem₆, hmem₄, ← hmem₀]
    rfl
  have hopen : OpenFile t₆ f := by
    constructor
    case whole => exact InodeOp.whole hw₄ (show InodeOp.endOp.Allowed t₄ from trivial) hend
    case writable =>
      rw [hfile₆]
      exact h.writable
    case inode =>
      rw [hfile₆]
      exact h.inode
    case listed =>
      rw [hfile₆, hend'.list, ht₄]
      exact hp₃
    case regular =>
      rw [hfile₆]
      show (t₆.loaded p).type = _
      have hv : (t₄.mem p).valid = true := by
        rw [hmem₄]
        rfl
      rw [State.loaded, hmem₆, if_pos hv, hmem₄]
      exact hdone.fields.type.trans htype₁
  have hoff : (s.file f).off ≤ (fileContent s.disk (s.mem p).inodeNo).length := by
    have hbound := hdone.bound.1
    rw [hw₁.size p hp₁ hv₁, hno₁, hdisk₁] at hbound
    rwa [fileContent, List.length_map, List.length_range]
  refine ⟨hk, hdone.bound.2, hoff, hopen, hfile₆, hno₆, ?_⟩
  have hlen : ((List.range count).map src).length = count := by
    rw [List.length_map, List.length_range]
  have hlist : WriteDone p (t₁.mem p).inodeNo (fun i => ((List.range count).map src).getD i 0)
      (s.file f).off ((List.range count).map src).length (t₁.view p) t₁ t₂ e := by
    rw [hlen]
    refine { hdone with wrote := hdone.wrote.congr fun i hi hlt => ?_ }
    rw [List.getD_eq_getElem?_getD, List.getElem?_map, List.getElem?_range (by omega)]
    rfl
  have hcontent := (hw₁.content_writeDone hp₁ hv₁ hlist hw₂).1
  rw [hw₁.content_eq, hw₂.content_eq, hno₁, hdisk₁] at hcontent
  rw [hdisk₆, hdisk₄]
  exact hcontent

/-- A `filewrite` that returns stays within the largest size. -/
theorem OpenFile.filewriteLoop_spec {addr : Nat → UInt8} {count fuel k : Nat} (h : OpenFile s f)
    (hk : k ≤ count) (hfuel : count - k ≤ fuel)
    (hr : Runs (filewriteLoop sblock f addr count fuel k) s u t) :
    (k < count → (s.file f).off + (count - k) ≤ inodeMaxBytes ∧
      (s.file f).off ≤ (fileContent s.disk (s.mem (s.file f).ip).inodeNo).length) ∧
      Written f (fun i => addr (k + i)) (count - k) s t := by
  induction fuel generalizing s k with
  | zero =>
    obtain ⟨-, rfl⟩ := runs_pure.mp hr
    rw [Nat.le_zero.mp hfuel]
    exact ⟨fun _ => by omega, .nothing h _⟩
  | succ fuel ih =>
    rw [filewriteLoop] at hr
    split at hr
    case isFalse hlt =>
      obtain ⟨-, rfl⟩ := runs_pure.mp hr
      rw [Nat.sub_eq_zero_of_le (Nat.not_lt.mp hlt)]
      exact ⟨fun hlt' => absurd hlt' hlt, .nothing h _⟩
    case isTrue hlt =>
      obtain ⟨r, t₁, hop, hr⟩ := runs_bind.mp hr
      obtain ⟨rfl, hle, hoff, hwrote⟩ := h.writeOp hop
      obtain ⟨_, _, hassert, hr⟩ := runs_bind.mp hr
      obtain ⟨-, rfl⟩ := runs_require.mp hassert
      have hpos : 0 < filewriteMax := by decide
      set r := min (count - k) filewriteMax
      obtain ⟨hmax, hrest⟩ := ih hwrote.openFile (show k + r ≤ count by omega) (by omega) hr
      have hoff₁ : (t₁.file f).off = (s.file f).off + r := by rw [hwrote.file]
      rw [hoff₁] at hmax
      refine ⟨fun _ => ⟨?_, hoff⟩, ?_⟩
      · by_cases hlast : k + r < count
        · have hfits := (hmax hlast).1
          omega
        · omega
      have hboth := hwrote.trans hrest hoff
      rw [show r + (count - (k + r)) = count - k by omega] at hboth
      have hsrc : (fun i => if i < r then addr (k + i) else addr (k + r + (i - r))) =
          fun i => addr (k + i) := by
        funext i
        split
        · rfl
        · rw [show k + r + (i - r) = k + i by omega]
      rwa [hsrc] at hboth

/-- `filewrite` to a regular file. -/
theorem OpenFile.filewrite_spec {addr : Nat → UInt8} {count : Nat} {r : Int} (h : OpenFile s f)
    (hr : Runs (filewrite sblock f addr count) s r t) :
    r = count ∧ (0 < count → (s.file f).off + count ≤ inodeMaxBytes ∧
      (s.file f).off ≤ (fileContent s.disk (s.mem (s.file f).ip).inodeNo).length) ∧
      Written f addr count s t := by
  obtain ⟨_, _, hget, hr⟩ := runs_bind.mp hr
  obtain ⟨rfl, rfl⟩ := runs_get.mp hget
  rw [if_pos h.writable] at hr
  obtain ⟨_, _, hassert, hr⟩ := runs_bind.mp hr
  obtain ⟨-, rfl⟩ := runs_require.mp hassert
  obtain ⟨_, t₁, hloop, hr⟩ := runs_bind.mp hr
  obtain ⟨rfl, rfl⟩ := runs_pure.mp hr
  obtain ⟨hmax, hwrote⟩ := h.filewriteLoop_spec (Nat.zero_le count) (Nat.le_refl _) hloop
  simp only [Nat.sub_zero, Nat.zero_add] at hmax hwrote
  exact ⟨rfl, hmax, hwrote⟩

/-- A write past the largest size does not return, unless it writes nothing. -/
theorem OpenFile.filewrite_stops {addr : Nat → UInt8} {count : Nat} {r : Int} (h : OpenFile s f)
    (hover : inodeMaxBytes < (s.file f).off + count)
    (hr : Runs (filewrite sblock f addr count) s r t) : count = 0 ∧ r = 0 := by
  obtain ⟨rfl, hmax, -⟩ := h.filewrite_spec hr
  cases count with
  | zero => exact ⟨rfl, rfl⟩
  | succ count =>
    have hfits := (hmax (Nat.succ_pos count)).1
    omega

/-- A write past the largest size never fails with -1: it returns 0 if it writes nothing, and else it
comes to the assertion of `inode_write` if nothing stops it before. -/
theorem filewrite_never_fails (h : OpenFile s f) (addr : Nat → UInt8) (count : Nat)
    (hover : inodeMaxBytes < (s.file f).off + count) : ¬WriteFails s f addr count := by
  rintro ⟨t, k, hr, -⟩
  cases (h.filewrite_stops hover hr).2

/-- A write of more than the largest size to the file of eleven blocks. -/
theorem filewrite_never_fails_large : ∃ img, Runs (Mkfs.main [elevenBlocks]) Mkfs.blank () img ∧
    OpenFile (opened img.disk 2) 0 ∧ ¬WriteFails (opened img.disk 2) 0 (fun _ => 0) (2 * inodeMaxBytes) := by
  obtain ⟨img, hr, hready, -, -⟩ := elevenBlocks_image
  have hopen : OpenFile (opened img.disk 2) 0 :=
    ⟨hready.whole, hready.writable, hready.inode, hready.listed, hready.regular⟩
  exact ⟨img, hr, hopen, filewrite_never_fails hopen _ _
    (show inodeMaxBytes < 0 + 2 * inodeMaxBytes by decide)⟩

/-- A write of one byte more than the largest size does not return. -/
theorem filewrite_over_max_stops : ∃ img, Runs (Mkfs.main [elevenBlocks]) Mkfs.blank () img ∧
    OpenFile (opened img.disk 2) 0 ∧ inodeMaxBytes < ((opened img.disk 2).file 0).off + (inodeMaxBytes + 1) ∧
    (∀ r t, ¬Runs (filewrite sblock 0 (fun _ => 0) (inodeMaxBytes + 1)) (opened img.disk 2) r t) ∧
    ¬WriteFails (opened img.disk 2) 0 (fun _ => 0) (inodeMaxBytes + 1) := by
  obtain ⟨img, hr, hready, -, -⟩ := elevenBlocks_image
  have hopen : OpenFile (opened img.disk 2) 0 :=
    ⟨hready.whole, hready.writable, hready.inode, hready.listed, hready.regular⟩
  have hover : inodeMaxBytes < ((opened img.disk 2).file 0).off + (inodeMaxBytes + 1) :=
    show inodeMaxBytes < 0 + (inodeMaxBytes + 1) by decide
  have hstops (r : Int) (t : State) :
      ¬Runs (filewrite sblock 0 (fun _ => 0) (inodeMaxBytes + 1)) (opened img.disk 2) r t :=
    fun hrun => nomatch (hopen.filewrite_stops hover hrun).1
  exact ⟨img, hr, hopen, hover, hstops, fun ⟨t, _, hrun, _⟩ => hstops _ t hrun⟩

end FtosFfs.Fs
