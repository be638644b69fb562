import FtosFfs.Fs.Walk
import FtosFfs.Fs.Filewrite

/-! The file system between two system calls, and the resolution of a path by the first call of an
operation. -/

namespace FtosFfs.Fs

open Lib Lib.Exec Cache

variable {s t s₀ : State} {p cwd : Ptr} {base : Ptr → Nat} {d : Nat → BlockData} {parent : Bool}
  {n m : Nat} {path name : List UInt8} {r r' : Option (Nat × List UInt8)}

/-! ### Walks -/

/-- A walk ends in one way. -/
theorem Walk.unique (h : Walk d parent n path name r) (h' : Walk d parent n path name r') : r = r' := by
  induction h generalizing r' with
  | done hpath hmode =>
    cases h' with
    | done => rfl
    | stop hpath' | missing hpath' | next hpath' => cases hpath.symm.trans hpath'
  | stop hpath hdir hstop =>
    cases h' with
    | done hpath' => cases hpath.symm.trans hpath'
    | stop hpath' =>
      cases hpath.symm.trans hpath'
      rfl
    | missing hpath' _ hgoes | next hpath' _ hgoes =>
      cases hpath.symm.trans hpath'
      exact absurd hstop hgoes
  | missing hpath hdir hgoes hnone =>
    cases h' with
    | done hpath' => cases hpath.symm.trans hpath'
    | stop hpath' _ hstop =>
      cases hpath.symm.trans hpath'
      exact absurd hstop hgoes
    | missing => rfl
    | next hpath' _ _ hfound =>
      cases hpath.symm.trans hpath'
      cases hnone.symm.trans hfound
  | next hpath hdir hgoes hfound hrest ih =>
    cases h' with
    | done hpath' => cases hpath.symm.trans hpath'
    | stop hpath' _ hstop =>
      cases hpath.symm.trans hpath'
      exact absurd hstop hgoes
    | missing hpath' _ _ hnone =>
      cases hpath.symm.trans hpath'
      cases hnone.symm.trans hfound
    | next hpath' _ _ hfound' hrest' =>
      cases hpath.symm.trans hpath'
      cases hfound.symm.trans hfound'
      exact ih hrest'

/-- A walk goes through inodes in use. -/
theorem Walk.inUse (ht : TreeOk d) (h : Walk d parent n path name (some (m, elem)))
    (hu : InUse (diskEntry d) n) : InUse (diskEntry d) m := by
  generalize hr : some (m, elem) = r at h
  induction h with
  | done | stop =>
    cases hr
    exact hu
  | missing => cases hr
  | next hpath hdir hgoes hfound hrest ih => exact ih (ht.entries _ _ _ _ hu hdir hfound) hr

/-- With `nameiparent`, a walk ends in a directory. -/
theorem Walk.isDir (h : Walk d true n path name (some (m, elem))) : IsDir d m := by
  generalize hr : some (m, elem) = r at h
  induction h with
  | done _ hmode => cases hmode
  | stop hpath hdir =>
    cases hr
    exact hdir
  | missing => cases hr
  | next hpath hdir hgoes hfound hrest ih => exact ih hr

theorem Resolving.start_returns (h₀ : Resolving base s₀) (ht : TreeOk s₀.disk) :
    ∃ p t, Runs (namexStart sblock cwd path) s₀ p t := by
  unfold namexStart
  split
  case isTrue => exact h₀.along.get_returns ht.root.1
  case isFalse =>
    exact ⟨cwd, _, runs_bind.mpr ⟨(), _, runs_modifyInode.mpr rfl, runs_pure.mpr ⟨rfl, rfl⟩⟩⟩

/-- A `namex` with a walk on the disk returns what the walk finds. -/
theorem Resolving.namex_returns (h₀ : Resolving base s₀) (ht : TreeOk s₀.disk) (hcwd : 0 < base cwd)
    (hu : InUse (diskEntry s₀.disk) (startNo s₀ cwd path))
    (hw : Walk s₀.disk parent (startNo s₀ cwd path) path [] r) :
    ∃ r' t, Runs (Fs.namex sblock cwd path parent) s₀ r' t ∧ t.result r' = r ∧
      Along s₀ (Refs.taken base (r'.map (·.1))) ∅ t := by
  obtain ⟨p, t, hstart⟩ := h₀.start_returns ht
  obtain ⟨h1, hno⟩ := h₀.along.start hcwd hstart
  obtain ⟨r', u, hfrom⟩ := hw.returns ht h₀ hu h1 hno (Nat.lt_succ_self path.length)
  have hrun : Runs (Fs.namex sblock cwd path parent) s₀ r' u := runs_bind.mpr ⟨p, t, hstart, hfrom⟩
  obtain ⟨hwalk, halong⟩ := h₀.namex hcwd hrun
  exact ⟨r', u, hrun, hwalk.unique hw, halong⟩

/-! ### Between system calls -/

/-- The references to the object at `p`. -/
def State.counts (s : State) (p : Ptr) : Nat := if p ∈ s.list then (s.mem p).rc.toNat else 0

/-- A file system in good order between two system calls, in which an operation can begin. -/
structure Idle (s : State) : Prop where
  cached : Cached Set.univ s
  size : SizesAgree s
  unlocked : ∀ p ∈ s.list, (s.mem p).locked = false
  inUse : ∀ p ∈ s.list, InUse (diskEntry s.disk) (s.mem p).inodeNo
  used : UsedExact s.disk s.usedBlock
  linked : Linked s
  tree : TreeOk s.disk
  room : s.log.logUsed + opMaxNumBlocks ≤ s.log.logSize
  persisted : s.log.lastPersistedTs ≤ s.log.lastAllocatedTs

namespace Idle

theorem counts_pos (h : Idle s) (hp : p ∈ s.list) : 0 < s.counts p := by
  have hrc := h.cached.list.rc p hp
  rw [State.counts, if_pos hp]
  omega

theorem refs (h : Idle s) : Refs s s.counts ∅ s := by
  refine ⟨h.cached.list, rfl, rfl, Nat.le_refl _, fun _ _ => rfl, fun p hp => ?_, fun p hp => ?_,
    fun p hp => ?_, nofun⟩
  · by_contra hnot
    rw [State.counts, if_neg hnot] at hp
    cases hp
  · have hrc := h.cached.list.rc p hp
    rw [State.counts, if_pos hp, Int.toNat_of_nonneg (Int.le_of_lt hrc)]
  · simp [h.unlocked p hp]

/-- The operation that has just begun. -/
theorem resolving (h : Idle s) : Resolving s.counts s.begun := by
  constructor
  case refs => exact h.refs.rebase s.begun rfl rfl rfl
  case cached => exact h.cached.congr rfl rfl rfl rfl rfl
  case size => exact h.size
  case linked => exact h.linked
  case op => exact ⟨Nat.succ_pos _, Nat.le_succ_of_le h.persisted⟩

theorem inUse_startNo (h : Idle s) (hcwd : cwd ∈ s.list) :
    InUse (diskEntry s.disk) (startNo s cwd path) := by
  unfold startNo
  split
  case isTrue => exact h.tree.root
  case isFalse => exact h.inUse cwd hcwd

/-- `nameiparent` as the first call of an operation, on a path with a parent directory. -/
theorem nameiparent_returns (h : Idle s) (hcwd : cwd ∈ s.list)
    (hw : Walk s.disk true (startNo s cwd path) path [] (some (n, name))) :
    ∃ p t, Runs (nameiparent sblock cwd path) s.begun (some (p, name)) t ∧ (t.mem p).inodeNo = n ∧
      Along s.begun (bump s.counts p) ∅ t := by
  obtain ⟨r, t, hrun, hres, halong⟩ :=
    h.resolving.namex_returns h.tree (h.counts_pos hcwd) (h.inUse_startNo hcwd) hw
  cases r with
  | none => cases hres
  | some q =>
    obtain ⟨p, name'⟩ := q
    obtain ⟨hno, rfl⟩ := Prod.mk.inj (Option.some.inj hres)
    exact ⟨p, t, hrun, hno, halong⟩

end Idle

/-- Another link count of the inode at `p`, in memory only: what `create` leaves of a directory in which it
makes another one. -/
def State.withLinks (s : State) (p : Ptr) (links : UInt16) : State :=
  s.setInode p { s.mem p with entry := { (s.mem p).entry with numLinks := links } }

theorem State.mem_withLinks {q : Ptr} {links : UInt16} : (s.withLinks p links).mem q =
    { s.mem q with
      entry := { (s.mem q).entry with numLinks := if q = p then links else (s.mem q).entry.numLinks } } := by
  by_cases hq : q = p
  · rw [hq, if_pos rfl]
    exact State.mem_setInode_same _
  · rw [if_neg hq]
    exact State.mem_setInode_ne _ hq

theorem Idle.withLinks (h : Idle s) (hp : p ∈ s.list) (links : UInt16) : Idle (s.withLinks p links) := by
  constructor
  case cached => exact h.cached.setEntry hp ⟨rfl, rfl, rfl⟩ (Set.mem_univ _)
  case size =>
    intro q hq
    rw [State.mem_withLinks]
    exact h.size q hq
  case unlocked =>
    intro q hq
    rw [State.mem_withLinks]
    exact h.unlocked q hq
  case inUse =>
    intro q hq
    rw [State.mem_withLinks]
    exact h.inUse q hq
  case used => exact h.used
  case linked =>
    intro n hn
    refine (h.linked n hn).imp_right fun ⟨q, hq, hqn⟩ => ⟨q, hq, ?_⟩
    rw [State.mem_withLinks]
    exact hqn
  case tree => exact h.tree
  case room => exact h.room
  case persisted => exact h.persisted

/-! ### Fresh images -/

section

variable {inputs : List Mkfs.Input} (h : Mkfs.Formatted (Mkfs.rootEntries inputs) d)

include h

theorem inUse_formatted (hn : InUse (diskEntry d) n) :
    n = 1 ∨ 2 ≤ n ∧ n < (Mkfs.rootEntries inputs).length := by
  have hpos := hn.1.1
  by_cases hlt : n < (Mkfs.rootEntries inputs).length
  · omega
  · exact absurd (h.free n hn.1 (Nat.not_lt.mp hlt)) hn.2

/-- All inodes in use have a link. -/
theorem numLinks_formatted (hn : InUse (diskEntry d) n) : (diskEntry d n).numLinks = 1 := by
  rcases inUse_formatted h hn with rfl | ⟨h2, hlt⟩
  · exact h.numLinks
  · exact (h.file n h2 hlt).2

/-- The entries of the root directory name inodes in use. -/
theorem inUse_rootEntry {k : Nat} (hk : ((Mkfs.rootEntries inputs).getD k DirEntry.zero).inodeNo ≠ 0) :
    InUse (diskEntry d) ((Mkfs.rootEntries inputs).getD k DirEntry.zero).inodeNo.toNat := by
  have hroot : InUse (diskEntry d) 1 := ⟨Mkfs.isInode_one, by rw [h.type]; decide⟩
  have hsmall := h.small
  rw [length_rootEntries] at hsmall
  rcases k with _ | _ | i
  · exact hroot
  · exact hroot
  · cases hi : inputs[i]? with
    | some input =>
      have hlt : i < inputs.length := (List.getElem?_eq_some_iff.mp hi).1
      rw [show i + 1 + 1 = 2 + i by omega, rootEntries_get hi,
        show (Mkfs.inputEntry (2 + i) input).inodeNo.toNat = 2 + i from
        (UInt16.toNat_ofNat' ..).trans (Nat.mod_eq_of_lt (by omega))]
      have hfile := h.file (2 + i) (by omega) (by rw [length_rootEntries]; omega)
      exact ⟨isInode_iff.mpr (by omega), by rw [hfile.1]; decide⟩
    | none =>
      have hge : inputs.length ≤ i := List.getElem?_eq_none_iff.mp hi
      rw [List.getD_eq_default _ _ (by rw [length_rootEntries]; omega)] at hk
      exact absurd rfl hk

theorem treeOk_formatted (hf : FilledDisk d) : TreeOk d := by
  refine ⟨fun n hn _ => hf n hn, fun n name m k hn hdir hfound => ?_, ⟨Mkfs.isInode_one, ?_⟩⟩
  · rcases inUse_formatted h hn with rfl | ⟨h2, hlt⟩
    · obtain ⟨count, hcount⟩ : ∃ count, (diskEntry d 1).numBytes.toNat = 16 * count := by
        refine ⟨32 * (16 * (Mkfs.rootEntries inputs).length / blockSize + 1), ?_⟩
        rw [h.size]
        show _ * 512 = _
        omega
      obtain ⟨-, rfl, hnamed, -⟩ := lookupIn_some hcount hfound
      rw [h.listed] at hnamed ⊢
      have hne : ((Mkfs.rootEntries inputs).getD k DirEntry.zero).inodeNo ≠ 0 := by
        simp only [named, ne_eq, decide_eq_true_eq] at hnamed
        exact hnamed.1
      exact inUse_rootEntry h hne
    · exact absurd (hdir.symm.trans (h.file n h2 hlt).1) (by decide)
  · rw [h.type]
    decide

end

/-- A mounted disk with the inodes of `nos` in memory, each loaded, at their places in the list, with
two references; the first is the current directory of all processes, and the last is open as file 0. -/
def booted (disk : Nat → BlockData) (nos : List Nat) : State := {
  mount sblock disk fun p => ⟨false, 2, nos.getD p 0, true, diskEntry disk (nos.getD p 0)⟩ with
  list := List.range nos.length
  fresh := nos.length
  file := fun _ => ⟨.inode, 1, true, true, nos.length - 1, 0⟩
  proc := fun _ => ⟨fun _ => none, some 0⟩ }

theorem cached_booted {nos : List Nat} (ho : BlocksOwned (diskEntry d) d) (hnodup : nos.Nodup)
    (hu : ∀ n ∈ nos, InUse (diskEntry d) n) : Cached ∅ (booted d nos) := by
  have hmem (p : Ptr) (hp : p ∈ (booted d nos).list) :
      ∃ hlt : p < nos.length, ((booted d nos).mem p).inodeNo = nos.get ⟨p, hlt⟩ := by
    have hlt : p < nos.length := List.mem_range.mp hp
    refine ⟨hlt, ?_⟩
    show nos.getD p 0 = _
    simp [hlt]
  have huse (p : Ptr) (hp : p ∈ (booted d nos).list) :
      InUse (diskEntry d) ((booted d nos).mem p).inodeNo := by
    obtain ⟨hlt, hno⟩ := hmem p hp
    rw [hno]
    exact hu _ (List.get_mem ..)
  refine ⟨⟨List.nodup_range, ?_, ?_, ?_, ?_⟩, rfl, ho, ?_⟩
  · exact fun p hp => List.mem_range.mp hp
  · exact fun p _ => (by decide : (0 : Int) < 2)
  · exact fun p hp => (huse p hp).1
  · intro p hp q hq heq
    obtain ⟨hp', hpno⟩ := hmem p hp
    obtain ⟨hq', hqno⟩ := hmem q hq
    rw [hpno, hqno] at heq
    exact Fin.mk.inj_iff.mp (List.nodup_iff_injective_get.mp hnodup heq)
  · exact fun p hp => ⟨nofun, fun _ => huse p hp, fun _ => .refl _, fun _ _ => rfl⟩

theorem idle_booted {inputs : List Mkfs.Input} {nos : List Nat}
    (h : Mkfs.Formatted (Mkfs.rootEntries inputs) d) (hf : FilledDisk d) (hnodup : nos.Nodup)
    (hu : ∀ n ∈ nos, InUse (diskEntry d) n) : Idle (booted d nos) := by
  refine ⟨(cached_booted h.owned hnodup hu).mono (Set.empty_subset _), fun _ _ _ => rfl, fun _ _ => rfl,
    fun p hp => ?_, usedExact_countUsed d, ?_,
    treeOk_formatted h hf, show 0 + 10 ≤ Log.initLogSize sblock by decide, Nat.le_refl _⟩
  · exact ((cached_booted h.owned hnodup hu).inode p hp).inUse rfl
  · intro n hn
    left
    have hlinks : (diskEntry (booted d nos).disk n).numLinks = 1 := numLinks_formatted h hn
    rw [hlinks]
    decide

/-- The image with one file of eleven blocks, with its root directory in memory. -/
theorem idle_elevenBlocks {img : Mkfs.Image} (hr : Runs (Mkfs.main [elevenBlocks]) Mkfs.blank () img) :
    Idle (booted img.disk [1]) ∧ 0 ∈ (booted img.disk [1]).list := by
  have h := Mkfs.main_formatted hr
  refine ⟨idle_booted h (filledDisk_main hr (by decide)) (by decide) fun n hn => ?_, ?_⟩
  · rw [List.mem_singleton.mp hn]
    exact ⟨Mkfs.isInode_one, by rw [h.type]; decide⟩
  · show 0 ∈ List.range 1
    decide

end FtosFfs.Fs
