import FtosFfs.Fs.Grow
import FtosFfs.Fs.Handles

/-! Which inode `inode_alloc` and `inode_alloc_group` take: the searches over the inode table, the
pair of calls in `create` for a file or a device, and the group for a new directory. -/

namespace FtosFfs.Fs

open Lib Lib.Exec Cache

variable {s s' : State} {ctx : Bool} {g n : Nat} {type : UInt16} {d : Nat → BlockData} {dp : Ptr}

/-- Inode `n` is free in the inode table. -/
def FreeInode (d : Nat → BlockData) (n : Nat) : Prop :=
  IsInode n ∧ (diskEntry d n).type = inodeInvalid

/-- Inode `n` is the lowest free one. -/
structure LowestFree (d : Nat → BlockData) (n : Nat) : Prop where
  free : FreeInode d n
  lowest : ∀ m, FreeInode d m → n ≤ m

/-- Inode `n` is the lowest free one of group `g`. -/
structure LowestIn (d : Nat → BlockData) (g n : Nat) : Prop where
  free : FreeInode d n
  group : inodeGroup n = g
  lowest : ∀ m, FreeInode d m → inodeGroup m = g → n ≤ m

/-- Inode `n` is the lowest free one of the first group from `g` on that has a free inode. -/
structure FirstFree (d : Nat → BlockData) (g n : Nat) : Prop where
  start : g ≤ inodeGroup n
  first : ∀ m, FreeInode d m → g ≤ inodeGroup m → inodeGroup n ≤ inodeGroup m
  lowestIn : LowestIn d (inodeGroup n) n

/-- Inode `n` has a new entry, and every other inode its old one. -/
def Takes (type : UInt16) (n : Nat) (s s' : State) : Prop :=
  diskEntry s'.disk n = newEntry type ∧
    ∀ m, IsInode m → m ≠ n → diskEntry s'.disk m = diskEntry s.disk m

theorem Claimed.takes (h : Claimed type n s s') : Takes type n s s' := by
  constructor
  · rw [h.entries h.isInode, if_pos rfl]
  · intro m hm hmn
    rw [h.entries hm, if_neg hmn]

/-! ### The searches -/

/-- A round of the searches passes over an inode in use. -/
theorem claimInode_used (hheld : s.held = []) (hn : IsInode n) (hused : ¬FreeInode s.disk n) :
    Runs (claimInode sblock ctx type n) s none s := by
  have htype : (getEntry (s.disk (toBlockNo sblock n)) (n % inodePerBlock)).type ≠ inodeInvalid :=
    fun h => hused ⟨hn, h⟩
  simp only [claimInode, runs_bind, runs_cacheAcquire]
  refine ⟨_, _, ⟨by simp [hheld], rfl, rfl⟩, ?_⟩
  rw [if_neg htype]
  simp only [runs_bind, runs_cacheRelease, runs_pure, List.erase_cons_head]
  exact ⟨⟨⟩, s, rfl, trivial, rfl⟩

/-- A round of the searches takes a free inode. -/
theorem claimInode_free (hheld : s.held = []) (hroom : Room ctx s.ctx 1) (hfree : FreeInode s.disk n) :
    ∃ s', Runs (claimInode sblock ctx type n) s (some n) s' := by
  obtain ⟨c, hc, -⟩ := recorded_room (b := toBlockNo sblock n) hroom
  have htype : (getEntry (s.disk (toBlockNo sblock n)) (n % inodePerBlock)).type = inodeInvalid :=
    hfree.2
  simp only [claimInode, runs_bind, runs_cacheAcquire]
  refine ⟨{ s with
    disk := Function.update s.disk (toBlockNo sblock n) (setEntry (s.disk (toBlockNo sblock n))
      (n % inodePerBlock) { InodeEntry.zero with type })
    ctx := c }, _, _, ⟨by simp [hheld], rfl, rfl⟩, ?_⟩
  rw [if_pos htype]
  simp only [runs_bind, runs_writeBack, runs_pure, List.erase_cons_head]
  exact ⟨⟨⟩, _, ⟨c, hc, rfl⟩, trivial, rfl⟩

/-- `inode_alloc` takes the lowest free inode. -/
theorem inodeAlloc_takes (ht : type ≠ inodeInvalid) (hheld : s.held = []) (hroom : Room ctx s.ctx 1) :
    ((∀ m, ¬FreeInode s.disk m) ∧ Runs (inodeAlloc sblock ctx type) s 0 s) ∨
      ∃ n s', LowestFree s.disk n ∧ Runs (inodeAlloc sblock ctx type) s n s' := by
  have hmem (m : Nat) : m ∈ List.range' 1 sblock.numInodes ↔ IsInode m := by
    show m ∈ List.range' 1 200 ↔ _
    rw [List.mem_range'_1, isInode_iff]
    omega
  have hrun {r : Option Nat} {t : State} (hr : Runs (Exec.search (claimInode sblock ctx type)
      (List.range' 1 sblock.numInodes)) s r t) : Runs (inodeAlloc sblock ctx type) s (r.getD 0) t := by
    simp only [inodeAlloc, runs_bind, runs_require, runs_pure]
    exact ⟨⟨⟩, s, ⟨ht, rfl⟩, r, t, hr, rfl, rfl⟩
  rcases search_least (P := FreeInode s.disk) (List.pairwise_lt_range' ..)
      (fun m hm hused => claimInode_used hheld ((hmem m).mp hm) hused)
      (fun m _ hfree => ⟨m, claimInode_free hheld hroom hfree⟩) with
    ⟨hno, hr⟩ | ⟨n, -, hfree, hleast, a, t, hf, hr⟩
  · exact .inl ⟨fun m hm => hno m ((hmem m).mpr hm.1) hm, hrun hr⟩
  · obtain ⟨rfl, -⟩ := claimInode_spec hfree.1 hf
    exact .inr ⟨a, t, ⟨hfree, fun m hm => hleast m ((hmem m).mpr hm.1) hm⟩, hrun hr⟩

/-- The inodes of group `g` are those that `inode_alloc_group` numbers from 1 on. -/
theorem isInode_group {m : Nat} (hg : g < 10) :
    (IsInode m ∧ inodeGroup m = g) ↔ ∃ i ∈ List.range' 1 20, i + g * 20 = m := by
  rw [isInode_iff]
  show (_ ∧ (m - 1) / 20 = g) ↔ _
  constructor
  · rintro ⟨h, hgm⟩
    exact ⟨m - g * 20, by rw [List.mem_range'_1]; omega, by omega⟩
  · rintro ⟨i, hi, rfl⟩
    rw [List.mem_range'_1] at hi
    omega

/-- The rounds of `inode_alloc_group` for group `g`. -/
theorem searchInodes_least (type : UInt16) (hheld : s.held = []) (hroom : Room ctx s.ctx 1) (hg : g < 10) :
    ((∀ m, FreeInode s.disk m → inodeGroup m ≠ g) ∧ Runs (Exec.search (fun ino => do
        assert (ino + g * (ninodes / ngroups) ≤ ninodes)
        claimInode sblock ctx type (ino + g * (ninodes / ngroups)))
        (List.range' 1 (ginodes sblock))) s none s) ∨
      ∃ n t, LowestIn s.disk g n ∧ Runs (Exec.search (fun ino => do
        assert (ino + g * (ninodes / ngroups) ≤ ninodes)
        claimInode sblock ctx type (ino + g * (ninodes / ngroups)))
        (List.range' 1 (ginodes sblock))) s (some n) t := by
  have hround {i : Nat} (hi : i ∈ List.range' 1 20) : IsInode (i + g * 20) ∧ inodeGroup (i + g * 20) = g :=
    (isInode_group hg).mpr ⟨i, hi, rfl⟩
  have hrun {i : Nat} {r : Option Nat} {t : State} (hi : i ∈ List.range' 1 20)
      (hr : Runs (claimInode sblock ctx type (i + g * 20)) s r t) : Runs (do
        assert (i + g * (ninodes / ngroups) ≤ ninodes)
        claimInode sblock ctx type (i + g * (ninodes / ngroups))) s r t := by
    simp only [runs_bind, runs_require]
    exact ⟨⟨⟩, s, ⟨(isInode_iff.mp (hround hi).1).2, rfl⟩, hr⟩
  rcases search_least (P := fun i => FreeInode s.disk (i + g * 20)) (List.pairwise_lt_range' ..)
      (fun i hi hused => hrun hi (claimInode_used hheld (hround hi).1 hused))
      (fun i hi hfree => ⟨_, (claimInode_free hheld hroom hfree).imp fun _ h => hrun hi h⟩) with
    ⟨hno, hr⟩ | ⟨i, hi, hfree, hleast, a, t, hf, hr⟩
  · refine .inl ⟨fun m hm hmg => ?_, hr⟩
    obtain ⟨i, hi, rfl⟩ := (isInode_group hg).mp ⟨hm.1, hmg⟩
    exact hno i hi hm
  · simp only [runs_bind, runs_require] at hf
    obtain ⟨_, _, ⟨-, rfl⟩, hf⟩ := hf
    obtain ⟨rfl, -⟩ := claimInode_spec (hround hi).1 hf
    refine .inr ⟨_, t, ⟨hfree, (hround hi).2, fun m hm hmg => ?_⟩, hr⟩
    obtain ⟨j, hj, rfl⟩ := (isInode_group hg).mp ⟨hm.1, hmg⟩
    exact Nat.add_le_add_right (hleast j hj hm) _

/-- The loops of `inode_alloc_group` from group `g` on take the lowest free inode of the first group
that has one. -/
theorem claimFrom_takes (type : UInt16) (hheld : s.held = []) (hroom : Room ctx s.ctx 1) (g : Nat) :
    ((∀ m, FreeInode s.disk m → inodeGroup m < g) ∧ Runs (claimFrom sblock ctx type g) s 0 s) ∨
      ∃ n s', FirstFree s.disk g n ∧ Runs (claimFrom sblock ctx type g) s n s' := by
  have hmem (h : Nat) : h ∈ List.range' g (ngroups - g) ↔ g ≤ h ∧ h < 10 := by
    show h ∈ List.range' g (10 - g) ↔ _
    rw [List.mem_range'_1]
    omega
  have hrun {r : Option Nat} {t : State} (hr : Runs (Exec.search (fun g => Exec.search (fun ino => do
        assert (ino + g * (ninodes / ngroups) ≤ ninodes)
        claimInode sblock ctx type (ino + g * (ninodes / ngroups)))
        (List.range' 1 (ginodes sblock))) (List.range' g (ngroups - g))) s r t) :
      Runs (claimFrom sblock ctx type g) s (r.getD 0) t := by
    simp only [claimFrom, runs_bind, runs_pure]
    exact ⟨r, t, hr, rfl, rfl⟩
  have hgroup {h : Nat} (hh : h ∈ List.range' g (ngroups - g)) := searchInodes_least type
    hheld hroom ((hmem h).mp hh).2
  rcases search_least (P := fun h => ∃ m, FreeInode s.disk m ∧ inodeGroup m = h)
      (List.pairwise_lt_range' ..)
      (fun h hh hno => by
        rcases hgroup hh with ⟨-, hr⟩ | ⟨n, t, hn, -⟩
        · exact hr
        · exact absurd ⟨n, hn.free, hn.group⟩ hno)
      (fun h hh hex => by
        rcases hgroup hh with ⟨hno, -⟩ | ⟨n, t, -, hr⟩
        · obtain ⟨m, hm, hmh⟩ := hex
          exact absurd hmh (hno m hm)
        · exact ⟨n, t, hr⟩) with
    ⟨hno, hr⟩ | ⟨h, hh, hex, hleast, a, t, hf, hr⟩
  · refine .inl ⟨fun m hm => ?_, hrun hr⟩
    by_contra hge
    exact hno _ ((hmem _).mpr ⟨Nat.not_lt.mp hge, inodeGroup_lt hm.1⟩) ⟨m, hm, rfl⟩
  · obtain ⟨m, hm, hmh⟩ := hex
    rcases hgroup hh with ⟨hno, -⟩ | ⟨n, t', hn, hr'⟩
    · exact absurd hmh (hno m hm)
    · obtain ⟨hna, rfl⟩ := hr'.unique hf
      obtain rfl := Option.some.inj hna
      have hgn : inodeGroup n = h := hn.group
      subst hgn
      refine .inr ⟨n, t', ⟨((hmem _).mp hh).1, fun k hk hgk => ?_, hn⟩, hrun hr⟩
      exact hleast _ ((hmem _).mpr ⟨hgk, inodeGroup_lt hk.1⟩) ⟨k, hk, rfl⟩

/-! ### Files and devices -/

theorem inodeAllocGroup_file (ht : type ≠ inodeInvalid) (hdir : type ≠ inodeDirectory) :
    Runs (inodeAllocGroup sblock ctx type g) s n s' ↔ Runs (claimFrom sblock ctx type g) s n s' := by
  simp only [inodeAllocGroup, runs_bind, runs_require, if_neg hdir]
  constructor
  · rintro ⟨_, _, ⟨-, rfl⟩, hr⟩
    exact hr
  · exact fun hr => ⟨⟨⟩, s, ⟨ht, rfl⟩, hr⟩

/-- The inode that the calls of `create` for a file or a device return: 0 exactly when no inode is
free, and otherwise the lowest free one of the first group from that of the parent on that has one, or
the lowest of all if there is no such group.  Its entry is new, and the others are as they were. -/
theorem createNo_takes (ht : type ≠ inodeInvalid) (hdir : type ≠ inodeDirectory)
    (hheld : s.held = []) (hroom : s.ctx.blockNo.length < opMaxNumBlocks) :
    ∃ n s', Runs (createNo sblock dp type) s n s' ∧
      (n = 0 ↔ ∀ m, ¬FreeInode s.disk m) ∧ (n = 0 → s' = s) ∧
      (n ≠ 0 → Takes type n s s' ∧
        ((∃ m, FreeInode s.disk m ∧ inodeGroup (s.mem dp).inodeNo ≤ inodeGroup m) →
          FirstFree s.disk (inodeGroup (s.mem dp).inodeNo) n) ∧
        ((¬∃ m, FreeInode s.disk m ∧ inodeGroup (s.mem dp).inodeNo ≤ inodeGroup m) →
          LowestFree s.disk n)) := by
  have hroom' : Room true s.ctx 1 := fun _ => hroom
  have hpos {m : Nat} (hm : FreeInode s.disk m) : m ≠ 0 := Nat.ne_of_gt hm.1.1
  simp only [createNo, runs_bind, runs_get]
  rcases claimFrom_takes type hheld hroom' (inodeGroup (s.mem dp).inodeNo) with
    ⟨hno, hr⟩ | ⟨n, s', hfirst, hr⟩
  · have hno' : ¬∃ m, FreeInode s.disk m ∧ inodeGroup (s.mem dp).inodeNo ≤ inodeGroup m :=
      fun hlater => hlater.elim fun m hm => Nat.not_le.mpr (hno m hm.1) hm.2
    have hgroup := (inodeAllocGroup_file ht hdir).mpr hr
    rcases inodeAlloc_takes ht hheld hroom' with ⟨hnone, hr'⟩ | ⟨n, s', hlow, hr'⟩
    · exact ⟨0, s, ⟨s, s, ⟨rfl, rfl⟩, 0, s, hgroup, hr'⟩, ⟨fun _ => hnone, fun _ => rfl⟩, fun _ => rfl,
        fun h => absurd rfl h⟩
    · have hn := hpos hlow.free
      have hclaim := (inodeAlloc_spec hr').2.resolve_left fun h => hn h.1
      exact ⟨n, s', ⟨s, s, ⟨rfl, rfl⟩, 0, s, hgroup, hr'⟩, ⟨fun h => absurd h hn, fun h =>
        absurd hlow.free (h n)⟩, fun h => absurd h hn, fun _ => ⟨hclaim.takes, fun h => absurd h hno',
        fun _ => hlow⟩⟩
  · have hfree := hfirst.lowestIn.free
    have hn := hpos hfree
    have hclaim := (claimFrom_spec hr).resolve_left fun h => hn h.1
    refine ⟨n, s', ⟨s, s, ⟨rfl, rfl⟩, n, s', (inodeAllocGroup_file ht hdir).mpr hr, ?_⟩,
      ⟨fun h => absurd h hn, fun h => absurd hfree (h n)⟩, fun h => absurd h hn, fun _ =>
      ⟨hclaim.takes, fun _ => hfirst, fun hno => absurd ⟨n, hfree, hfirst.start⟩ hno⟩⟩
    rw [if_neg hn]
    exact runs_pure.mpr ⟨rfl, rfl⟩

/-- A file in the root directory of an empty image takes inode 2. -/
theorem createNo_takes_second : ∃ s', Runs (createNo sblock 0 inodeRegular)
    (rootHandle InodeEntry.zero) 2 s' ∧ Takes inodeRegular 2 (rootHandle InodeEntry.zero) s' := by
  have hrun : returnsWith (createNo sblock 0 inodeRegular) (rootHandle InodeEntry.zero)
      (fun n _ => n = 2) = true := by decide +kernel
  obtain ⟨a, t, hr₂, ha⟩ := runs_of_returnsWith hrun
  obtain rfl : a = 2 := by simpa using ha
  obtain ⟨n, s', hr, -, -, htakes⟩ := createNo_takes (s := rootHandle InodeEntry.zero)
    (show inodeRegular ≠ inodeInvalid by decide) (by decide) rfl (by decide)
  obtain ⟨rfl, rfl⟩ := hr.unique hr₂
  exact ⟨s', hr, (htakes (by decide)).1⟩

/-! ### Directories -/

/-- Group `g` is the first of those with the fewest used blocks. -/
def IsEmptiest (usedBlock : Nat → UInt32) (g : Nat) : Prop :=
  g < ngroups ∧ (∀ h < ngroups, usedBlock g ≤ usedBlock h) ∧ ∀ h < g, usedBlock g < usedBlock h

/-- `inode_alloc_group` for a directory takes the lowest free inode of the emptiest group `g`. -/
def TakesIn (ctx : Bool) (gno g : Nat) (s : State) : Prop :=
  ∃ n s', Runs (inodeAllocGroup sblock ctx inodeDirectory gno) s n s' ∧ LowestIn s.disk g n ∧
    Takes inodeDirectory n s s'

/-- The loop over the groups always ends with `i` at `NGROUPS`. -/
theorem emptiestGroup_count (usedBlock : Nat → UInt32) (gno : Nat) :
    (emptiestGroup usedBlock gno).1 = ngroups := by
  -- Every round adds one to the first component.
  have hfold (f : Nat × Nat × Nat → Nat → Nat × Nat × Nat) (hf : ∀ acc k, (f acc k).1 = acc.1 + 1)
      (l : List Nat) (acc : Nat × Nat × Nat) : (l.foldl f acc).1 = acc.1 + l.length := by
    induction l generalizing acc with
    | nil => rfl
    | cons k l ih =>
      rw [List.foldl_cons, ih, List.length_cons, hf]
      omega
  unfold emptiestGroup
  rw [hfold, List.length_range, Nat.zero_add]
  intro acc k
  dsimp only
  split
  · rfl
  · rfl

theorem runs_inodeAllocGroup_directory {gno : Nat} :
    Runs (inodeAllocGroup sblock ctx inodeDirectory gno) s n s' ↔ n = 0 ∧ s = s' := by
  have htype : inodeDirectory ≠ inodeInvalid := by decide
  simp only [inodeAllocGroup, runs_bind, runs_require, if_true, runs_get, emptiestGroup_count, runs_pure]
  constructor
  · rintro ⟨_, _, ⟨-, rfl⟩, _, _, ⟨rfl, rfl⟩, hn, rfl⟩
    exact ⟨hn.symm, rfl⟩
  · rintro ⟨rfl, rfl⟩
    exact ⟨⟨⟩, s, ⟨htype, rfl⟩, s, s, ⟨rfl, rfl⟩, rfl, rfl⟩

/-- For a directory, `inode_alloc_group` takes no inode of any group: it always returns 0 and changes
nothing, since its test for a failed search holds after every search. -/
theorem inodeAllocGroup_directory_never (s : State) (ctx : Bool) (gno g : Nat) :
    Runs (inodeAllocGroup sblock ctx inodeDirectory gno) s 0 s ∧ ¬TakesIn ctx gno g s := by
  refine ⟨runs_inodeAllocGroup_directory.mpr ⟨rfl, rfl⟩, ?_⟩
  rintro ⟨n, s', hr, hlow, -⟩
  obtain ⟨rfl, -⟩ := runs_inodeAllocGroup_directory.mp hr
  exact absurd hlow.free.1.1 (by decide)

/-- With one used block in group 0 of an otherwise empty image, group 1 is the emptiest and has free
inodes. -/
theorem inodeAllocGroup_misses : ∃ s : State, IsEmptiest s.usedBlock 1 ∧ FreeInode s.disk 21 ∧
    inodeGroup 21 = 1 ∧ ¬TakesIn true 0 1 s := by
  refine ⟨{ rootHandle InodeEntry.zero with usedBlock := fun g => if g = 0 then 1 else 0 }, ?_,
    ⟨isInode_iff.mpr (by decide), by decide +kernel⟩, by decide, ?_⟩
  · exact ⟨by decide, by decide, by decide⟩
  · rintro ⟨n, s', hr, hlow, -⟩
    obtain ⟨rfl, -⟩ := runs_inodeAllocGroup_directory.mp hr
    exact absurd hlow.free.1.1 (by decide)

end FtosFfs.Fs
