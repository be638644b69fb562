import FtosFfs.Cache.Content
import FtosFfs.Cache.Reservation

/-! The device writes of `checkpoint` and `replay`, and of the recovery in `init_bcache`: what the
log header, the log blocks, and the blocks at home hold between any two of them, and the contents
that a recovery from there restores. -/

namespace FtosFfs.Cache

open Lib

/-- One round of the loops of `checkpoint` and `replay`: block `src` is copied to block `dest`, in
the cache and on the device. -/
def BCache.copyBlock (c : BCache) (src dest : Nat) (unpin : Bool) : Option BCache := do
  let (c, s) ← c.cacheAcquire src
  let (c, d) ← c.cacheAcquire dest
  let c := c.setData d (c.mem s).data
  let c := c.cacheRelease s
  let c := c.deviceWrite d
  let c := if unpin then c.setPinned d false else c
  some (c.cacheRelease d)

/-- Round `i` of step 1 of `checkpoint`. -/
def checkpointBlock (sb : SuperBlock) (h : LogHeader) (c : BCache) (i : Nat) : Option BCache :=
  c.copyBlock (h.blockNo i) (sb.logStart + 1 + i) false

/-- Round `i` of step 3 in `replay`. -/
def replayBlock (sb : SuperBlock) (h : LogHeader) (c : BCache) (i : Nat) : Option BCache :=
  c.copyBlock (sb.logStart + 1 + i) (h.blockNo i) true

def readHeader (sb : SuperBlock) (d : Disk) : LogHeader := LogHeader.decode (d sb.logStart)

def writeHeader (sb : SuperBlock) (h : LogHeader) (c : BCache) : BCache :=
  { c with device := Function.update c.device sb.logStart h.encode }

/-- The cache at the start of `init_bcache`. -/
def BCache.empty (d : Disk) : BCache := ⟨d, [], fun _ => initBlock⟩

/-- Block `b` belongs to the log. -/
def InLog (sb : SuperBlock) (b : Nat) : Prop :=
  sb.logStart ≤ b ∧ b ≤ sb.logStart + Log.initLogSize sb

instance (sb : SuperBlock) (b : Nat) : Decidable (InLog sb b) := inferInstanceAs (Decidable (_ ∧ _))

/-! ### Copies -/

namespace BCache

/-- The cache `c'` after a copy of block `src` to block `dest`. -/
structure Copied (c : BCache) (src dest : Nat) (c' : BCache) : Prop where
  ok : c'.Ok
  quiet : c'.Quiet
  view : c'.view = Function.update c.view dest (c.view src)
  device : c'.device = Function.update c.device dest (c.view src)
  cached : ∀ x, c'.Cached x → x = src ∨ x = dest ∨ c.Cached x
  pinned : ∀ x, c'.Pinned x → c.Pinned x

/-- The cache `c'` in the middle of a copy: block `dest` is written, and held at `d`. -/
structure Written (c : BCache) (src dest : Nat) (c' : BCache) (d : Ptr) : Prop where
  ok : c'.Ok
  holds : c'.Holds dest d
  only : ∀ x q, c'.Holds x q → q = d
  view : c'.view = Function.update c.view dest (c.view src)
  device : c'.device = Function.update c.device dest (c.view src)
  cached : ∀ x, c'.Cached x → x = src ∨ x = dest ∨ c.Cached x
  pinned : ∀ x, c'.Pinned x → c.Pinned x

theorem Written.setPinned {c c' : BCache} {src dest : Nat} {d : Ptr}
    (h : Written c src dest c' d) : Written c src dest (c'.setPinned d false) d := by
  refine ⟨h.holds.setPinned_ok h.ok false, (setPinned_holds false dest d).mpr h.holds,
    fun x q hq => h.only x q ((setPinned_holds false x q).mp hq), ?_, ?_,
    fun x hx => h.cached x ((setPinned_cached false x).mp hx), fun x hx => h.pinned x ?_⟩
  · rw [h.holds.setPinned_view h.ok, h.view]
  · rw [setPinned_device, h.device]
  · rw [h.holds.setPinned_pinned h.ok] at hx
    split at hx
    · cases hx
    · exact hx

theorem Written.copied {c c' : BCache} {src dest : Nat} {d : Ptr}
    (h : Written c src dest c' d) : Copied c src dest (c'.cacheRelease d) := by
  have hclean : (c'.mem d).data = c'.device dest := by
    rw [← h.holds.view h.ok, h.view, h.device, Function.update_self, Function.update_self]
  refine ⟨h.holds.cacheRelease_ok h.ok (.inr hclean), quiet_of_not_holds fun x q hq => ?_, ?_, ?_,
    fun x hx => h.cached x ((cacheRelease_cached x).mp hx),
    fun x hx => h.pinned x ((h.holds.cacheRelease_pinned h.ok x).mp hx)⟩
  · obtain ⟨hq, hqd⟩ := (cacheRelease_holds x q).mp hq
    exact hqd (h.only x q hq)
  · rw [h.holds.cacheRelease_view h.ok, h.view]
  · rw [cacheRelease_device, h.device]

/-- The copy up to `device_write`, once both blocks are acquired. -/
theorem written_of_acquired {c c₁ c₂ : BCache} {src dest : Nat} {s d : Ptr} (hq : c.Quiet)
    (h₁ : Acquired c src c₁ s) (h₂ : Acquired c₁ dest c₂ d) :
    Written c src dest (((c₂.setData d (c₂.mem s).data).cacheRelease s).deviceWrite d) d := by
  obtain ⟨hsd, hs₂, hmem₂⟩ := h₂.kept src s h₁.holds
  have hdata : (c₂.mem s).data = c.view src := by rw [hmem₂, h₁.data]
  set c₃ := c₂.setData d (c₂.mem s).data with hc₃
  have hok₃ : c₃.Ok := h₂.holds.setData_ok h₂.ok _
  have hs₃ : c₃.Holds src s := (setData_holds _ src s).mpr hs₂
  have hview₃ : c₃.view = Function.update c.view dest (c.view src) := by
    rw [hc₃, h₂.holds.setData_view h₂.ok, hdata, h₂.view, h₁.view]
  have hdev₃ : c₃.device = c.device := by rw [hc₃, setData_device, h₂.device, h₁.device]
  have hmem₃ : c₃.mem s = c₁.mem s := by rw [hc₃, setData, set_mem_ne _ _ hsd, hmem₂]
  -- the source was not changed, so it can be released
  have hok₄ : (c₃.cacheRelease s).Ok :=
    hs₃.cacheRelease_ok hok₃ (by rw [hmem₃, hdev₃]; exact h₁.clean)
  have hd₄ : (c₃.cacheRelease s).Holds dest d :=
    (cacheRelease_holds dest d).mpr ⟨(setData_holds _ dest d).mpr h₂.holds, hsd.symm⟩
  have hview₄ : (c₃.cacheRelease s).view = Function.update c.view dest (c.view src) := by
    rw [hs₃.cacheRelease_view hok₃, hview₃]
  refine ⟨hd₄.deviceWrite_ok hok₄, hd₄, fun x q hx => ?_, ?_, ?_, fun x hx => ?_, fun x hx => ?_⟩
  · have hx₄ := (cacheRelease_holds x q).mp (show (c₃.cacheRelease s).Holds x q from hx)
    rcases h₂.back x q ((setData_holds _ x q).mp hx₄.1) with ⟨-, hqd⟩ | hx
    · exact hqd
    · rcases h₁.back x q hx with ⟨-, hqs⟩ | hx
      · exact absurd hqs hx₄.2
      · exact absurd hx (hq.not_holds x q)
  · rw [hd₄.deviceWrite_view hok₄, hview₄]
  · rw [hd₄.deviceWrite_device, ← hd₄.view hok₄, hview₄, Function.update_self,
      cacheRelease_device, hdev₃]
  · have hx₂ : c₂.Cached x := (setData_cached _ x).mp ((cacheRelease_cached x).mp hx)
    rcases h₂.cached x hx₂ with hx | hx
    · exact .inr (.inl hx)
    · exact (h₁.cached x hx).imp_right .inr
  · have hx₃ : c₃.Pinned x := (hs₃.cacheRelease_pinned hok₃ x).mp hx
    have hx₂ := (h₂.holds.setData_pinned h₂.ok _ x).mp hx₃
    exact (h₁.pinned x).mp ((h₂.pinned x).mp hx₂)

/-- A copy between two blocks returns when the caller holds no block. -/
theorem copyBlock_spec {c : BCache} (h : c.Ok) (hq : c.Quiet) {src dest : Nat}
    (hne : src ≠ dest) (unpin : Bool) :
    ∃ c', c.copyBlock src dest unpin = some c' ∧ Copied c src dest c' ∧
      (unpin = true → ¬c'.Pinned dest) := by
  obtain ⟨c₁, s, he₁, h₁⟩ := cacheAcquire_returns h (hq.not_holds src)
  have hfree (p : Ptr) : ¬c₁.Holds dest p := by
    intro hp
    rcases h₁.back dest p hp with ⟨hd, -⟩ | hp
    · exact hne hd.symm
    · exact hq.not_holds dest p hp
  obtain ⟨c₂, d, he₂, h₂⟩ := cacheAcquire_returns h₁.ok hfree
  have hw := written_of_acquired hq h₁ h₂
  cases unpin with
  | false =>
    exact ⟨_, by simp only [copyBlock, he₁, he₂, Option.bind_eq_bind, Option.bind_some]; rfl,
      hw.copied, by simp⟩
  | true =>
    refine ⟨_, by simp only [copyBlock, he₁, he₂, Option.bind_eq_bind, Option.bind_some]; rfl,
      hw.setPinned.copied, fun _ hpin => ?_⟩
    have hpin := (hw.setPinned.holds.cacheRelease_pinned hw.setPinned.ok dest).mp hpin
    rw [hw.holds.setPinned_pinned hw.ok, if_pos rfl] at hpin
    cases hpin

theorem empty_ok (d : Disk) : (empty d).Ok := by
  refine ⟨List.nodup_nil, ?_, ?_, ?_, ?_, ?_⟩
  all_goals intro p hp; cases hp

theorem empty_quiet (d : Disk) : (empty d).Quiet := fun p hp => by cases hp

theorem empty_view (d : Disk) : (empty d).view = d := funext fun _ => view_missing (by simp [empty])

theorem empty_cached (d : Disk) (b : Nat) : ¬(empty d).Cached b := by simp [Cached, empty]

end BCache

/-! ### The cache during the loops -/

/-- The header records as many blocks as the log has room for, none of them in the log. -/
structure HeaderOk (sb : SuperBlock) (h : LogHeader) : Prop where
  le : h.numBlocks ≤ Log.initLogSize sb
  home : ∀ j < h.numBlocks, ¬InLog sb (h.blockNo j)
  lt : ∀ j < h.numBlocks, h.blockNo j < 2 ^ 64

theorem inLog_block {sb : SuperBlock} {j : Nat} (hj : j < Log.initLogSize sb) :
    InLog sb (sb.logStart + 1 + j) := ⟨by omega, by omega⟩

theorem inLog_header (sb : SuperBlock) : InLog sb sb.logStart := ⟨by omega, by omega⟩

/-- The cache while the first `i` blocks of the header are in the log, with the contents `Y`. -/
structure Logged (sb : SuperBlock) (c : BCache) (h : LogHeader) (Y : Disk) (i : Nat) : Prop where
  ok : c.Ok
  quiet : c.Quiet
  uncached : ¬c.Cached sb.logStart
  header : HeaderOk sb h
  logged : ∀ j < i, c.view (sb.logStart + 1 + j) = Y (h.blockNo j)

section Rounds

variable {sb : SuperBlock} {c : BCache} {h : LogHeader} {Y : Disk} {i : Nat}

theorem Logged.checkpointBlock (hl : Logged sb c h Y i) (hi : i < h.numBlocks)
    (hview : c.view (h.blockNo i) = Y (h.blockNo i)) :
    ∃ c', checkpointBlock sb h c i = some c' ∧ Logged sb c' h Y (i + 1) ∧
      c'.view = Function.update c.view (sb.logStart + 1 + i) (Y (h.blockNo i)) ∧
      c'.device = Function.update c.device (sb.logStart + 1 + i) (Y (h.blockNo i)) := by
  have hin : InLog sb (sb.logStart + 1 + i) := inLog_block (Nat.lt_of_lt_of_le hi hl.header.le)
  have hne : h.blockNo i ≠ sb.logStart + 1 + i := fun he => hl.header.home i hi (he ▸ hin)
  obtain ⟨c', he, hc, -⟩ := BCache.copyBlock_spec hl.ok hl.quiet hne false
  refine ⟨c', he, ⟨hc.ok, hc.quiet, fun hcached => ?_, hl.header, fun j hj => ?_⟩,
    by rw [hc.view, hview], by rw [hc.device, hview]⟩
  · rcases hc.cached _ hcached with hs | hs | hs
    · exact hl.header.home i hi (hs ▸ inLog_header sb)
    · omega
    · exact hl.uncached hs
  · rw [hc.view, hview]
    by_cases hji : j = i
    · rw [hji, Function.update_self]
    · rw [Function.update_of_ne (by omega)]
      exact hl.logged j (by omega)

theorem Logged.replayBlock (hl : Logged sb c h Y h.numBlocks) (hi : i < h.numBlocks) :
    ∃ c', replayBlock sb h c i = some c' ∧ Logged sb c' h Y h.numBlocks ∧
      c'.view = Function.update c.view (h.blockNo i) (Y (h.blockNo i)) ∧
      c'.device = Function.update c.device (h.blockNo i) (Y (h.blockNo i)) := by
  have hin (j : Nat) (hj : j < h.numBlocks) : InLog sb (sb.logStart + 1 + j) :=
    inLog_block (Nat.lt_of_lt_of_le hj hl.header.le)
  have hne (j : Nat) (hj : j < h.numBlocks) : sb.logStart + 1 + j ≠ h.blockNo i :=
    fun he => hl.header.home i hi (he ▸ hin j hj)
  obtain ⟨c', he, hc, -⟩ := BCache.copyBlock_spec hl.ok hl.quiet (hne i hi) true
  have hdata := hl.logged i hi
  refine ⟨c', he, ⟨hc.ok, hc.quiet, fun hcached => ?_, hl.header, fun j hj => ?_⟩,
    by rw [hc.view, hdata], by rw [hc.device, hdata]⟩
  · rcases hc.cached _ hcached with hs | hs | hs
    · omega
    · exact hl.header.home i hi (hs ▸ inLog_header sb)
    · exact hl.uncached hs
  · rw [hc.view, Function.update_of_ne (hne j hj)]
    exact hl.logged j hj

/-- A write of the header does not go through the cache. -/
theorem writeHeader_ok (hok : c.Ok) (hun : ¬c.Cached sb.logStart) (h' : LogHeader) :
    (writeHeader sb h' c).Ok := by
  refine ⟨hok.nodup, hok.bound, hok.inj, hok.valid, hok.acquired, fun p hp hlock hpin => ?_⟩
  have hne : (c.mem p).blockNo ≠ sb.logStart := fun he => hun ⟨p, hp, he⟩
  simp only [writeHeader]
  rw [Function.update_of_ne hne]
  exact hok.clean p hp hlock hpin

theorem writeHeader_view (hok : c.Ok) (hun : ¬c.Cached sb.logStart) (h' : LogHeader) {b : Nat}
    (hb : b ≠ sb.logStart) : (writeHeader sb h' c).view b = c.view b := by
  by_cases hc : c.Cached b
  · obtain ⟨p, hp, rfl⟩ := hc
    rw [BCache.view_cached hok hp]
    exact BCache.view_cached (writeHeader_ok hok hun h') hp
  · have hmiss : ∀ p ∈ c.list, (c.mem p).blockNo ≠ b := fun p hp he => hc ⟨p, hp, he⟩
    rw [BCache.view_missing hmiss, BCache.view_missing (c := writeHeader sb h' c) hmiss]
    exact Function.update_of_ne hb _ _

theorem Logged.writeHeader (hl : Logged sb c h Y i) (h' : LogHeader) :
    Logged sb (writeHeader sb h' c) h Y i := by
  refine ⟨writeHeader_ok hl.ok hl.uncached h', hl.quiet, hl.uncached, hl.header, fun j hj => ?_⟩
  rw [writeHeader_view hl.ok hl.uncached h' (by omega)]
  exact hl.logged j hj

end Rounds

/-! ### The disk between two writes -/

/-- The header on disk records the blocks of `h`. -/
def HeaderAt (sb : SuperBlock) (d : Disk) (h : LogHeader) : Prop :=
  (readHeader sb d).numBlocks = h.numBlocks ∧
    ∀ j < h.numBlocks, (readHeader sb d).blockNo j = h.blockNo j

/-- A recovery from disk `d`, whose header is `h`, restores the contents `X`. -/
structure Restores (sb : SuperBlock) (d : Disk) (h : LogHeader) (X : Disk) : Prop where
  disk : HeaderAt sb d h
  header : HeaderOk sb h
  logged : ∀ j < h.numBlocks, d (sb.logStart + 1 + j) = X (h.blockNo j)
  rest : ∀ b, ¬InLog sb b → b ∉ h.entries → d b = X b

/-- A recovery from disk `d` restores the contents `X`. -/
def Recoverable (sb : SuperBlock) (d X : Disk) : Prop := ∃ h, Restores sb d h X

/-- Disk `d` has an empty log and the contents `X`. -/
structure AtHome (sb : SuperBlock) (d X : Disk) : Prop where
  empty : (readHeader sb d).numBlocks = 0
  home : ∀ b, ¬InLog sb b → d b = X b

section Writes

variable {sb : SuperBlock} {d X Y : Disk} {h : LogHeader}

theorem HeaderAt.write (hh : HeaderOk sb h) : HeaderAt sb (Function.update d sb.logStart h.encode) h := by
  have hle := hh.le
  have hmax : Log.initLogSize sb ≤ 63 := Log.initLogSize_le sb
  have hread : readHeader sb (Function.update d sb.logStart h.encode) = LogHeader.decode h.encode := by
    rw [readHeader, Function.update_self]
  rw [HeaderAt, hread]
  refine ⟨LogHeader.numBlocks_decode_encode (by omega), fun j hj => ?_⟩
  exact LogHeader.blockNo_decode_encode (show j < 63 by omega) (hh.lt j hj)

theorem HeaderAt.update {b : Nat} {v : BlockData} (hd : HeaderAt sb d h) (hb : b ≠ sb.logStart) :
    HeaderAt sb (Function.update d b v) h := by
  rw [HeaderAt, readHeader, Function.update_of_ne hb.symm]
  exact hd

theorem headerOk_zero (h : LogHeader) (hzero : h.numBlocks = 0) : HeaderOk sb h :=
  ⟨by omega, fun j hj => by omega, fun j hj => by omega⟩

theorem AtHome.restores (hd : AtHome sb d X) : Restores sb d (readHeader sb d) X := by
  have hzero := hd.empty
  exact ⟨⟨rfl, fun _ _ => rfl⟩, headerOk_zero _ hzero, fun j hj => by omega,
    fun b hb _ => hd.home b hb⟩

theorem Restores.atHome (hr : Restores sb d h X) (hzero : h.numBlocks = 0) : AtHome sb d X := by
  refine ⟨hr.disk.1.trans hzero, fun b hb => hr.rest b hb ?_⟩
  simp [LogHeader.entries, hzero]

/-- A write to a log block leaves the contents at home alone. -/
theorem AtHome.logBlock {j : Nat} (hd : AtHome sb d X) (hj : j < Log.initLogSize sb)
    (v : BlockData) : AtHome sb (Function.update d (sb.logStart + 1 + j) v) X := by
  refine ⟨?_, fun b hb => ?_⟩
  · rw [readHeader, Function.update_of_ne (by omega)]
    exact hd.empty
  · rw [Function.update_of_ne]
    · exact hd.home b hb
    · rintro rfl
      exact hb (inLog_block hj)

/-- The write of the header that makes the blocks in the log count. -/
theorem AtHome.mark (hd : AtHome sb d X) (hh : HeaderOk sb h)
    (hlogged : ∀ j < h.numBlocks, d (sb.logStart + 1 + j) = Y (h.blockNo j))
    (hsame : ∀ b, ¬InLog sb b → b ∉ h.entries → X b = Y b) :
    Restores sb (Function.update d sb.logStart h.encode) h Y := by
  refine ⟨HeaderAt.write hh, hh, fun j hj => ?_, fun b hb hbe => ?_⟩
  · rw [Function.update_of_ne (by omega)]
    exact hlogged j hj
  · rw [Function.update_of_ne, hd.home b hb, hsame b hb hbe]
    rintro rfl
    exact hb (inLog_header sb)

/-- A write of a logged block to its place. -/
theorem Restores.replay {i : Nat} (hr : Restores sb d h X) (hi : i < h.numBlocks) :
    Restores sb (Function.update d (h.blockNo i) (X (h.blockNo i))) h X := by
  have hhome := hr.header.home i hi
  have hne (b : Nat) (hb : InLog sb b) : b ≠ h.blockNo i := fun he => hhome (he ▸ hb)
  refine ⟨hr.disk.update (hne _ (inLog_header sb)).symm, hr.header, fun j hj => ?_,
    fun b hb hbe => ?_⟩
  · rw [Function.update_of_ne (hne _ (inLog_block (Nat.lt_of_lt_of_le hj hr.header.le)))]
    exact hr.logged j hj
  · rw [Function.update_of_ne]
    · exact hr.rest b hb hbe
    · rintro rfl
      exact hbe (LogHeader.mem_entries.mpr ⟨i, hi, rfl⟩)

/-- The write of the empty header once all blocks are in their places. -/
theorem Restores.clear (hr : Restores sb d h X)
    (hdone : ∀ j < h.numBlocks, d (h.blockNo j) = X (h.blockNo j)) :
    AtHome sb (Function.update d sb.logStart (LogHeader.encode ⟨0, h.blockNo⟩)) X := by
  refine ⟨(HeaderAt.write (headerOk_zero ⟨0, h.blockNo⟩ rfl)).1, fun b hb => ?_⟩
  rw [Function.update_of_ne]
  · by_cases hbe : b ∈ h.entries
    · obtain ⟨j, hj, rfl⟩ := LogHeader.mem_entries.mp hbe
      exact hdone j hj
    · exact hr.rest b hb hbe
  · rintro rfl
    exact hb (inLog_header sb)

end Writes

/-! ### `replay` -/

/-- The cache and the disk while `replay` has copied `i` blocks of header `h` to their places, or
once it has cleared the header. -/
structure Replaying (sb : SuperBlock) (c : BCache) (h : LogHeader) (X : Disk) (i : Nat) : Prop where
  logged : Logged sb c h X h.numBlocks
  restores : Restores sb c.device h X
  done : ∀ j < i, j < h.numBlocks → c.device (h.blockNo j) = X (h.blockNo j)
  view : ∀ b, ¬InLog sb b → c.view b = X b ∨ c.view b = c.device b

section Replay

variable {sb : SuperBlock} {c : BCache} {h : LogHeader} {X : Disk} {i : Nat}

theorem Replaying.round (hr : Replaying sb c h X i) (hi : i < h.numBlocks) :
    ∃ c', replayBlock sb h c i = some c' ∧ Replaying sb c' h X (i + 1) := by
  obtain ⟨c', he, hl, hview, hdev⟩ := hr.logged.replayBlock hi
  refine ⟨c', he, hl, by rw [hdev]; exact hr.restores.replay hi, fun j hj hjn => ?_,
    fun b hb => ?_⟩
  · rw [hdev]
    by_cases hji : h.blockNo j = h.blockNo i
    · rw [hji, Function.update_self]
    · rw [Function.update_of_ne hji]
      exact hr.done j (by rcases Nat.lt_succ_iff_lt_or_eq.mp hj with hlt | rfl
                          · exact hlt
                          · exact absurd rfl hji) hjn
  · rw [hview, hdev]
    by_cases hbi : b = h.blockNo i
    · exact .inl (by rw [hbi, Function.update_self])
    · rw [Function.update_of_ne hbi, Function.update_of_ne hbi]
      exact hr.view b hb

/-- The header that `replay` leaves. -/
def clearHeader (h : LogHeader) : LogHeader := { h with numBlocks := 0 }

theorem Replaying.clear (hr : Replaying sb c h X i) (hi : h.numBlocks ≤ i) :
    Replaying sb (writeHeader sb (clearHeader h) c) (clearHeader h) X i := by
  have hhome := hr.restores.clear fun j hj => hr.done j (by omega) hj
  have hl := hr.logged.writeHeader (clearHeader h)
  have hzero : HeaderOk sb (clearHeader h) := headerOk_zero _ rfl
  refine ⟨⟨hl.ok, hl.quiet, hl.uncached, hzero, fun j hj => absurd hj (Nat.not_lt_zero j)⟩,
    ⟨HeaderAt.write hzero, hzero, fun j hj => absurd hj (Nat.not_lt_zero j),
      fun b hb _ => hhome.home b hb⟩,
    fun j _ hj => absurd hj (Nat.not_lt_zero j), fun b hb => ?_⟩
  have hne : b ≠ sb.logStart := by
    rintro rfl
    exact hb (inLog_header sb)
  rw [writeHeader_view hr.logged.ok hr.logged.uncached _ hne]
  refine (hr.view b hb).imp_right fun hv => hv.trans ?_
  exact (Function.update_of_ne hne _ _).symm

/-- The cache and the disk between two calls: nothing is in the log, the blocks on disk are `X`,
and the blocks seen through the cache are `Y`. -/
structure Settled (sb : SuperBlock) (c : BCache) (X Y : Disk) : Prop where
  ok : c.Ok
  quiet : c.Quiet
  uncached : ¬c.Cached sb.logStart
  disk : AtHome sb c.device X
  view : ∀ b, ¬InLog sb b → c.view b = Y b

/-- The end of `replay`. -/
theorem Replaying.settled (hr : Replaying sb c h X i) (hzero : h.numBlocks = 0) :
    Settled sb c X X := by
  have hhome := hr.restores.atHome hzero
  refine ⟨hr.logged.ok, hr.logged.quiet, hr.logged.uncached, hhome, fun b hb => ?_⟩
  rcases hr.view b hb with hv | hv
  · exact hv
  · rw [hv, hhome.home b hb]

/-- The start of the recovery in `init_bcache`. -/
theorem Recoverable.replaying {d : Disk} (hd : Recoverable sb d X) :
    Replaying sb (BCache.empty d) (readHeader sb d) X 0 := by
  obtain ⟨h, hr⟩ := hd
  obtain ⟨hnum, hno⟩ := hr.disk
  have hhead : HeaderOk sb (readHeader sb d) := by
    refine ⟨hnum ▸ hr.header.le, fun j hj => ?_, fun j hj => ?_⟩
    · rw [hnum] at hj
      rw [hno j hj]
      exact hr.header.home j hj
    · rw [hnum] at hj
      rw [hno j hj]
      exact hr.header.lt j hj
  have hentries : (readHeader sb d).entries = h.entries := by
    rw [LogHeader.entries, LogHeader.entries, hnum]
    exact List.map_congr_left fun j hj => hno j (List.mem_range.mp hj)
  have hlogged (j : Nat) (hj : j < (readHeader sb d).numBlocks) :
      d (sb.logStart + 1 + j) = X ((readHeader sb d).blockNo j) := by
    rw [hnum] at hj
    rw [hno j hj, hr.logged j hj]
  refine ⟨⟨BCache.empty_ok d, BCache.empty_quiet d, BCache.empty_cached d _, hhead, fun j hj => ?_⟩,
    ⟨⟨rfl, fun _ _ => rfl⟩, hhead, hlogged, fun b hb hbe => ?_⟩,
    fun j hj => absurd hj (Nat.not_lt_zero j), fun b _ => .inr ?_⟩
  · rw [BCache.empty_view]
    exact hlogged j hj
  · rw [hentries] at hbe
    exact hr.rest b hb hbe
  · rw [BCache.empty_view]
    rfl

end Replay

/-! ### Step 1 of `checkpoint` -/

/-- The cache and the disk while `checkpoint` has copied `i` blocks to the log. -/
structure Logging (sb : SuperBlock) (c : BCache) (h : LogHeader) (X Y : Disk) (i : Nat) : Prop
    extends Settled sb c X Y where
  header : HeaderOk sb h
  le : i ≤ h.numBlocks
  logged : ∀ j < i, c.view (sb.logStart + 1 + j) = Y (h.blockNo j)
  written : ∀ j < i, c.device (sb.logStart + 1 + j) = Y (h.blockNo j)
  same : ∀ b, ¬InLog sb b → b ∉ h.entries → X b = Y b

section Logging

variable {sb : SuperBlock} {c : BCache} {h : LogHeader} {X Y : Disk} {i : Nat}

theorem Settled.logging (hs : Settled sb c X Y) (hh : HeaderOk sb h)
    (hsame : ∀ b, ¬InLog sb b → b ∉ h.entries → X b = Y b) : Logging sb c h X Y 0 :=
  { hs with
    header := hh
    le := Nat.zero_le _
    logged := fun j hj => absurd hj (Nat.not_lt_zero j)
    written := fun j hj => absurd hj (Nat.not_lt_zero j)
    same := hsame }

theorem Logging.toLogged (hl : Logging sb c h X Y i) : Logged sb c h Y i :=
  ⟨hl.ok, hl.quiet, hl.uncached, hl.header, hl.logged⟩

theorem Logging.round (hl : Logging sb c h X Y i) (hi : i < h.numBlocks) :
    ∃ c', checkpointBlock sb h c i = some c' ∧ Logging sb c' h X Y (i + 1) := by
  obtain ⟨c', he, hl', hview, hdev⟩ :=
    hl.toLogged.checkpointBlock hi (hl.view _ (hl.header.home i hi))
  have hin := Nat.lt_of_lt_of_le hi hl.header.le
  refine ⟨c', he, ⟨hl'.ok, hl'.quiet, hl'.uncached, ?_, fun b hb => ?_⟩, hl.header, hi, hl'.logged,
    fun j hj => ?_, hl.same⟩
  · rw [hdev]
    exact hl.disk.logBlock hin _
  · rw [hview, Function.update_of_ne]
    · exact hl.view b hb
    · rintro rfl
      exact hb (inLog_block hin)
  · rw [hdev]
    by_cases hji : j = i
    · rw [hji, Function.update_self]
    · rw [Function.update_of_ne (by omega)]
      exact hl.written j (by omega)

/-- Step 2 of `checkpoint`. -/
theorem Logging.mark (hl : Logging sb c h X Y h.numBlocks) :
    Replaying sb (writeHeader sb h c) h Y 0 := by
  refine ⟨hl.toLogged.writeHeader h, hl.disk.mark hl.header hl.written hl.same,
    fun j hj => absurd hj (Nat.not_lt_zero j), fun b hb => .inl ?_⟩
  have hne : b ≠ sb.logStart := by
    rintro rfl
    exact hb (inLog_header sb)
  rw [writeHeader_view hl.ok hl.uncached h hne]
  exact hl.view b hb

end Logging

end FtosFfs.Cache
