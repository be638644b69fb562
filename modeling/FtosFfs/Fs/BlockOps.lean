import FtosFfs.Fs.Alloc
import FtosFfs.Fs.Syscall

/-! The allocation of blocks over whole runs: `used_block` counts the used data blocks of every
group, so that a group is full by its count exactly when `cache_allocg` finds no block in it. -/

namespace FtosFfs.Fs

open Lib Lib.Exec Cache

variable {s s' : State} {ctx : Bool} {g : Nat} {u : Unit}

/-! ### The count of `init_filesystem` -/

/-- `init_filesystem` counts the set bits of the data areas. -/
theorem usedExact_countUsed (disk : Nat → BlockData) : UsedExact disk (countUsed sblock disk) := by
  intro g hg
  have hbits : (List.range' sblock.dataStartPerGroup
      (sblock.blocksPerGroup - sblock.dataStartPerGroup)).countP (fun j =>
        decide (0 + j < bitPerBlock) && bitmapGet (disk (bitmapBlock sblock g 0)) j) =
      (usedBits disk g).card := by
    refine (countP_range' _ _ _).trans (congrArg Finset.card (Finset.filter_congr fun j hj => ?_))
    have hlt : 0 + j < bitPerBlock := by
      obtain ⟨-, hj⟩ : 4 ≤ j ∧ j < 1000 := Finset.mem_Ico.mp hj
      show 0 + j < 4096
      omega
    rw [decide_eq_true hlt, Bool.true_and]
  have hle := card_usedBits_le disk g
  have hle' : (usedBits disk g).card ≤ 996 := hle
  rw [countUsed, if_pos hg, bitmapStarts_sblock]
  simp only [List.map_cons, List.map_nil, List.sum_cons, List.sum_nil, hbits]
  rw [UInt32.toNat_ofNat', Nat.mod_eq_of_lt (by omega)]
  omega

/-! ### Runs -/

theorem runs_discard {α : Type} {x : M α} (h : Runs (discard x : M Unit) s u s') :
    ∃ a, Runs x s a s' := by
  obtain ⟨a, ha, -⟩ := runs_map.mp (show Runs ((fun _ => ()) <$> x) s u s' from h)
  exact ⟨a, ha⟩

theorem runs_cacheBeginOp (hr : Runs cacheBeginOp s u s') :
    s'.disk = s.disk ∧ s'.held = s.held ∧ s'.list = s.list ∧ s'.mem = s.mem ∧
      s'.fresh = s.fresh ∧ s'.usedBlock = s.usedBlock := by
  simp only [cacheBeginOp, runs_bind, runs_get] at hr
  obtain ⟨_, _, ⟨rfl, rfl⟩, hr⟩ := hr
  split at hr
  case isTrue => exact absurd hr runs_throw
  case isFalse =>
    rw [runs_set.mp hr]
    exact ⟨rfl, rfl, rfl, rfl, rfl, rfl⟩

theorem runs_cacheEndOp (hr : Runs cacheEndOp s u s') :
    s'.disk = s.disk ∧ s'.held = s.held ∧ s'.list = s.list ∧ s'.mem = s.mem ∧
      s'.fresh = s.fresh ∧ s'.usedBlock = s.usedBlock := by
  simp only [cacheEndOp, runs_bind, runs_get] at hr
  obtain ⟨_, _, ⟨rfl, rfl⟩, hr⟩ := hr
  split at hr
  case h_1 => exact absurd hr runs_throw
  case h_2 =>
    split at hr
    case isTrue =>
      split at hr
      case isTrue => exact absurd hr runs_throw
      case isFalse =>
        rw [runs_set.mp hr]
        exact ⟨rfl, rfl, rfl, rfl, rfl, rfl⟩
    case isFalse =>
      split at hr
      case isTrue => exact absurd hr runs_throw
      case isFalse =>
        rw [runs_set.mp hr]
        exact ⟨rfl, rfl, rfl, rfl, rfl, rfl⟩

/-- The end of the only operation checkpoints, and empties the log. -/
theorem cacheEndOp_last {log : Log} (hcommit : s.log.commit s.ctx = some log) (hop : log.opCount = 1)
    (hheld : s.held = []) :
    Runs cacheEndOp s () { s with
      log := { log with
        header := { log.header with numBlocks := 0 }
        lastPersistedTs := log.lastAllocatedTs
        logUsed := 0
        opCount := log.opCount - 1 } } := by
  refine runs_bind.mpr ⟨s, s, runs_get.mpr ⟨rfl, rfl⟩, ?_⟩
  have hcount : log.opCount - 1 = 0 := by rw [hop]
  rw [hcommit]
  dsimp only
  rw [if_pos hcount, if_neg (by simp [hheld])]
  exact runs_set.mpr rfl

/-- The calls of the block layer. -/
inductive BlockOp
  | beginOp
  | endOp
  | alloc (ctx : Bool)
  | allocg (ctx : Bool) (gno : Nat)
  | free (ctx : Bool) (blockNo : Nat)

namespace BlockOp

/-- Only data blocks that are allocated are freed. -/
def Allowed (s : State) : BlockOp → Prop
  | free _ b => IsData b ∧ blockBit s.disk b = true
  | _ => True

instance (s : State) : (op : BlockOp) → Decidable (op.Allowed s)
  | free _ _ => inferInstanceAs (Decidable (((_ ∧ _) ∧ _) ∧ _))
  | beginOp | endOp | alloc _ | allocg _ _ => inferInstanceAs (Decidable True)

def exec : BlockOp → M Unit
  | beginOp => cacheBeginOp
  | endOp => cacheEndOp
  | alloc ctx => discard (cacheAlloc sblock ctx)
  | allocg ctx gno => discard (cacheAllocg sblock ctx gno)
  | free ctx b => cacheFree sblock ctx b

end BlockOp

/-- The block layer after the count of `init_filesystem` on an image with property `image`. -/
def blockOps (image : (Nat → BlockData) → Prop) : Machine State BlockOp where
  init s := ∃ disk mem, image disk ∧ s = mount sblock disk mem
  next s op := if op.Allowed s then after op.exec s else none

/-- No block is held, the bits of the blocks outside of the data areas are set, and `used_block` is
exact. -/
structure Counted (s : State) : Prop where
  held : s.held = []
  metaUsed : MetaUsed s.disk
  used : UsedExact s.disk s.usedBlock

theorem Counted.onBlocks (h : Counted s) (hob : OnBlocks s s') (hm : MetaUsed s'.disk) :
    Counted s' :=
  ⟨hob.held.trans h.held, hm, hob.used h.used⟩

theorem BlockOp.counted {op : BlockOp} (h : Counted s) (ha : op.Allowed s)
    (hr : Runs op.exec s u s') : Counted s' := by
  cases op with
  | beginOp =>
    obtain ⟨h1, h2, -, -, -, h3⟩ := runs_cacheBeginOp hr
    exact ⟨h2.trans h.held, h1 ▸ h.metaUsed, h1 ▸ h3 ▸ h.used⟩
  | endOp =>
    obtain ⟨h1, h2, -, -, -, h3⟩ := runs_cacheEndOp hr
    exact ⟨h2.trans h.held, h1 ▸ h.metaUsed, h1 ▸ h3 ▸ h.used⟩
  | alloc ctx =>
    obtain ⟨b, hr⟩ := runs_discard hr
    obtain ⟨hob, hall⟩ := cacheAlloc_spec h.metaUsed hr
    exact h.onBlocks hob (hall.metaUsed h.metaUsed)
  | allocg ctx gno =>
    obtain ⟨b, hr⟩ := runs_discard hr
    obtain ⟨hob, ⟨-, rfl⟩ | hall⟩ := cacheAllocg_spec h.metaUsed hr
    · exact h
    · exact h.onBlocks hob (hall.metaUsed h.metaUsed)
  | free ctx b =>
    obtain ⟨hob, hf⟩ := cacheFree_spec ha.1 hr
    exact h.onBlocks hob (hf.metaUsed ha.1 h.metaUsed)

theorem blockOps_counted (hs : (blockOps MetaUsed).Reachable s) : Counted s := by
  refine hs.invariant ?_ ?_
  · rintro s ⟨disk, mem, hm, rfl⟩
    exact ⟨rfl, hm, usedExact_countUsed disk⟩
  · intro s op s' h hn
    simp only [blockOps, Option.ite_none_right_eq_some] at hn
    obtain ⟨ha, hn⟩ := hn
    obtain ⟨u, hr⟩ := after_eq_some.mp hn
    exact op.counted h ha hr

/-- In every run of allocations and frees from the count at mount time, `used_block` holds the
number of set bits of the data area of every group, and `cache_allocg` returns 0 exactly when it
says that the group is full. -/
theorem blockOps_used_exact (hs : (blockOps MetaUsed).Reachable s) (hg : g < ngroups) :
    (s.usedBlock g).toNat = (usedBits s.disk g).card ∧
      (s.usedBlock g).toNat ≤ sblock.numDatablocksPerGroup ∧
      ∀ ctx, (∃ s', Runs (cacheAllocg sblock ctx g) s 0 s') ↔
        (s.usedBlock g).toNat = sblock.numDatablocksPerGroup := by
  have h := blockOps_counted hs
  have hcount := h.used g hg
  refine ⟨hcount, ?_, fun ctx => ?_⟩
  · rw [hcount]
    exact card_usedBits_le s.disk g
  · rw [hcount]
    rw [cacheAllocg_zero h.metaUsed hg, h.held]
    exact and_iff_right List.not_mem_nil

/-- A disk with all bits set, on which block 69 is then freed. -/
theorem blockOps_used_exact_free : ∃ s, (blockOps MetaUsed).Reachable s ∧
    (s.usedBlock 0).toNat = 995 ∧ (usedBits s.disk 0).card = 995 ∧
    ¬∃ s', Runs (cacheAllocg sblock false 0) s 0 s' := by
  let disk : Nat → BlockData := fun _ => Bytes.ofFn fun _ => 255
  let mem : Ptr → Inode := fun _ => ⟨false, 0, 0, false, InodeEntry.zero⟩
  have hm : MetaUsed disk := by
    intro b hb hd
    have hbit : ∀ k < 4, bitmapGet (Bytes.ofFn fun _ => 255 : BlockData) k = true := by decide
    rw [isData_iff] at hd
    have hb' := inGroups_iff.mp hb
    rw [blockBit_eq]
    exact hbit _ (by omega)
  have hrun : ((blockOps MetaUsed).run (mount sblock disk mem) [.free false 69]).map
      (fun s => decide ((s.usedBlock 0).toNat = 995)) = some true := by decide +kernel
  have hinit : (blockOps MetaUsed).init (mount sblock disk mem) := ⟨disk, mem, hm, rfl⟩
  obtain ⟨s, hs, h995⟩ := Machine.Reachable.of_run hinit hrun
  rw [decide_eq_true_eq] at h995
  obtain ⟨hcount, -, hzero⟩ := blockOps_used_exact hs (show 0 < ngroups by decide)
  refine ⟨s, hs, h995, hcount.symm.trans h995, ?_⟩
  rw [hzero false, h995]
  decide

end FtosFfs.Fs
