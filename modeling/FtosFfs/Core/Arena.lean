import FtosFfs.Lib.Bitmap
import FtosFfs.Lib.Circular
import FtosFfs.Lib.Machine
import Mathlib.Algebra.BigOperators.Group.List.Basic
import Mathlib.Algebra.GroupWithZero.Nat

/-! The object arenas of `core/arena.c`: pages with a bitmap of used slots in a ring, the head of which
moves on when a page is full and back to a page in which an object is freed. -/

namespace FtosFfs.Core.Arena

open Lib Lib.Circular

/-- `ARENA_PAGE_SIZE`. -/
def pageSize : Nat := 4096

/-- `ARENA_MIN_OBJECT_SIZE`. -/
def minObjectSize : Nat := 16

/-- `sizeof(ArenaPage)`: `arena`, `list`, the cells of `used`, and `count`. -/
def headerSize : Nat := 8 + 16 + pageSize / minObjectSize / 8 + 8

/-- `ARENA_PAGE_CAPACITY`. -/
def pageCapacity : Nat := pageSize - headerSize

/-- `ArenaPage` without its list node. -/
structure Page where
  used : Bitmap
  count : Nat

/-- An arena, with 0 for `NULL`, and the memory of its pages by their addresses.  `live` are the
objects handed out and not freed, `given` the pages that the page allocator returned. -/
structure State where
  objectSize : Nat
  maxCount : Nat
  pages : Nat
  numObjects : Nat
  numPages : Nat
  links : Links Nat
  page : Nat → Page
  live : Finset Nat
  given : Finset Nat

/-- `init_arena`, over memory that holds `links` and `page`. -/
def initArena (objectSize : Nat) (links : Links Nat) (page : Nat → Page) : Option State :=
  if minObjectSize ≤ objectSize ∧ objectSize ≤ pageCapacity then
    some ⟨objectSize, pageCapacity / objectSize, 0, 0, 0, links, page, ∅, ∅⟩
  else none

def initArenaPage (s : State) (page : Nat) : State :=
  { s with
    links := initListNode s.links page
    page := Function.update s.page page ⟨Bitmap.empty, 0⟩ }

def insertPage (s : State) (page : Nat) : State :=
  if s.pages ≠ 0 then { s with links := mergeList s.links page s.pages, pages := page }
  else { s with pages := page }

/-- `add_page`, with the page that the allocator returns. -/
def addPage (s : State) (page : Nat) : Option State :=
  if page % pageSize = 0 then
    if page ≠ 0 then
      let s := insertPage (initArenaPage s page) page
      some { s with numPages := s.numPages + 1, given := insert page s.given }
    else some s
  else none

/-- The address of slot `index` of `page`. -/
def slot (s : State) (page index : Nat) : Nat := page + headerSize + index * s.objectSize

/-- The page at the head of the ring is missing or full. -/
def NeedsPage (s : State) : Prop := s.pages = 0 ∨ (s.page s.pages).count ≥ s.maxCount

instance (s : State) : Decidable (NeedsPage s) := inferInstanceAs (Decidable (_ ∨ _))

/-- The rest of `alloc_object` after slot `index` of the head page is found free. -/
def takeSlot (s : State) (index : Nat) : State :=
  let page := s.pages
  let s := { s with
    page := Function.update s.page page
      ⟨(s.page page).used.set index, (s.page page).count + 1⟩
    numObjects := s.numObjects + 1 }
  if (s.page page).count ≥ s.maxCount then { s with pages := s.links.next page } else s

/-- `alloc_object`, with the page that the allocator returns when it is asked; without a result when
an assertion fails or there is no page to look at. -/
def allocObject (s : State) (fresh : Nat) : Option (Nat × State) := do
  let s ← if NeedsPage s then addPage s fresh else some s
  if s.pages = 0 then none
  else
    match (List.range s.maxCount).find? fun index => !(s.page s.pages).used.get index with
    | none => none
    | some index => some (slot s s.pages index, takeSlot s index)

def movePageToHead (s : State) (page : Nat) : State :=
  if s.pages ≠ page then insertPage { s with links := detachFromList s.links page } page else s

/-- `get_container_page`. -/
def getContainerPage (object : Nat) : Nat := object / pageSize * pageSize

def freeObject (s : State) (object : Nat) : Option State :=
  let page := getContainerPage object
  let offset := object - (page + headerSize)
  let index := offset / s.objectSize
  if offset % s.objectSize = 0 ∧ (s.page page).used.get index = true then
    some (movePageToHead { s with
      page := Function.update s.page page
        ⟨(s.page page).used.clear index, (s.page page).count - 1⟩
      numObjects := s.numObjects - 1 } page)
  else none

inductive Label
  | alloc (fresh : Nat)
  | free (object : Nat)

/-- The page allocator fails or returns a new page. -/
def Fresh (s : State) (page : Nat) : Prop := page = 0 ∨ page % pageSize = 0 ∧ page ∉ s.given

instance (s : State) (page : Nat) : Decidable (Fresh s page) :=
  inferInstanceAs (Decidable (_ ∨ _ ∧ _))

/-- An arena for objects of any size that `init_arena` accepts, of which only live ones are freed. -/
def arena : Machine State Label where
  init s := ∃ objectSize links page, initArena objectSize links page = some s
  next s
    | .alloc fresh =>
      if Fresh s fresh then
        (allocObject s fresh).map fun (object, s) => { s with live := insert object s.live }
      else none
    | .free object =>
      if object ∈ s.live then
        (freeObject s object).map fun s => { s with live := s.live.erase object }
      else none

variable {s s' : State} {l : List Nat} {p q i : Nat}

/-! ### Slots -/

/-- Objects of a size that `init_arena` accepts. -/
structure Sized (s : State) : Prop where
  min : minObjectSize ≤ s.objectSize
  max : s.objectSize ≤ pageCapacity
  count : s.maxCount = pageCapacity / s.objectSize

theorem Sized.maxCount_pos (h : Sized s) : 0 < s.maxCount := by
  have hmin : 16 ≤ s.objectSize := h.min
  rw [h.count]
  exact Nat.div_pos h.max (by omega)

/-- The bitmap has a bit for every slot. -/
theorem Sized.maxCount_le (h : Sized s) : s.maxCount ≤ pageSize / minObjectSize := by
  rw [h.count]
  exact (Nat.div_le_div_left h.min (by decide)).trans (by decide)

/-- A slot is inside its page, behind the header. -/
theorem Sized.slot_mem (h : Sized s) (hi : i < s.maxCount) :
    p + headerSize ≤ slot s p i ∧ slot s p i + s.objectSize ≤ p + pageSize := by
  have hmul : (i + 1) * s.objectSize ≤ pageCapacity := by
    rw [h.count] at hi
    exact (Nat.mul_le_mul_right _ hi).trans (Nat.div_mul_le_self ..)
  rw [Nat.add_mul, Nat.one_mul] at hmul
  unfold slot
  show p + 64 ≤ p + 64 + i * s.objectSize ∧ p + 64 + i * s.objectSize + s.objectSize ≤ p + 4096
  have hcap : pageCapacity = 4032 := rfl
  omega

theorem Sized.containerPage_slot (h : Sized s) (hp : p % pageSize = 0) (hi : i < s.maxCount) :
    getContainerPage (slot s p i) = p := by
  obtain ⟨hlow, hhigh⟩ := h.slot_mem (p := p) hi
  have hmin : 16 ≤ s.objectSize := h.min
  unfold getContainerPage
  rw [show pageSize = 4096 from rfl] at hp hhigh ⊢
  rw [show headerSize = 64 from rfl] at hlow
  omega

/-- The offset of a slot gives its index. -/
theorem Sized.offset_slot (h : Sized s) :
    (slot s p i - (p + headerSize)) % s.objectSize = 0 ∧
      (slot s p i - (p + headerSize)) / s.objectSize = i := by
  have hmin : 16 ≤ s.objectSize := h.min
  have hoff : slot s p i - (p + headerSize) = i * s.objectSize := by
    unfold slot
    omega
  rw [hoff]
  exact ⟨Nat.mul_mod_left .., Nat.mul_div_cancel _ (by omega)⟩

theorem Sized.slot_inj (h : Sized s) {j : Nat} (hp : p % pageSize = 0) (hq : q % pageSize = 0)
    (hi : i < s.maxCount) (hj : j < s.maxCount) (heq : slot s p i = slot s q j) : p = q ∧ i = j := by
  have hpq : p = q := by rw [← h.containerPage_slot hp hi, heq, h.containerPage_slot hq hj]
  subst hpq
  refine ⟨rfl, ?_⟩
  rw [← (h.offset_slot (p := p) (i := i)).2, heq, h.offset_slot.2]

/-- Different slots do not overlap. -/
theorem Sized.slot_disjoint (h : Sized s) {j : Nat} (hp : p % pageSize = 0) (hq : q % pageSize = 0)
    (hi : i < s.maxCount) (hj : j < s.maxCount) (hne : slot s p i ≠ slot s q j) :
    slot s p i + s.objectSize ≤ slot s q j ∨ slot s q j + s.objectSize ≤ slot s p i := by
  rcases Nat.lt_trichotomy p q with hpq | rfl | hqp
  · obtain ⟨-, hhigh⟩ := h.slot_mem (p := p) hi
    obtain ⟨hlow, -⟩ := h.slot_mem (p := q) hj
    rw [show pageSize = 4096 from rfl] at hp hq hhigh
    omega
  · have hij : i ≠ j := by
      rintro rfl
      exact hne rfl
    unfold slot
    rcases Nat.lt_or_gt_of_ne hij with hlt | hgt
    · have := Nat.mul_le_mul_right s.objectSize (Nat.succ_le_of_lt hlt)
      rw [Nat.succ_mul] at this
      omega
    · have := Nat.mul_le_mul_right s.objectSize (Nat.succ_le_of_lt hgt)
      rw [Nat.succ_mul] at this
      omega
  · obtain ⟨-, hhigh⟩ := h.slot_mem (p := q) hj
    obtain ⟨hlow, -⟩ := h.slot_mem (p := p) hi
    rw [show pageSize = 4096 from rfl] at hp hq hhigh
    omega

/-! ### The counts -/

/-- Pages `l` with exact counts: a slot is used exactly when its object is live, the count of a page
is that of its used slots, and the counts of the arena are those of the pages. -/
structure Tallied (s : State) (l : List Nat) : Prop where
  sized : Sized s
  nodup : l.Nodup
  aligned : ∀ p ∈ l, p ≠ 0 ∧ p % pageSize = 0
  given : ∀ p ∈ l, p ∈ s.given
  numPages : s.numPages = l.length
  count : ∀ p ∈ l, (s.page p).count = ((s.page p).used.bits s.maxCount).card
  unused : ∀ p ∈ l, ∀ i, s.maxCount ≤ i → (s.page p).used.get i = false
  numObjects : s.numObjects = (l.map fun p => (s.page p).count).sum
  live : ∀ o, o ∈ s.live ↔
    ∃ p ∈ l, ∃ i < s.maxCount, (s.page p).used.get i = true ∧ o = slot s p i

namespace Tallied

theorem perm {l' : List Nat} (h : Tallied s l) (hl : l.Perm l') : Tallied s l' := by
  refine ⟨h.sized, hl.nodup_iff.mp h.nodup, fun p hp => h.aligned p (hl.mem_iff.mpr hp), fun p hp =>
    h.given p (hl.mem_iff.mpr hp), h.numPages.trans hl.length_eq, fun p hp =>
    h.count p (hl.mem_iff.mpr hp), fun p hp => h.unused p (hl.mem_iff.mpr hp), ?_, fun o => ?_⟩
  · rw [h.numObjects]
    exact (hl.map _).sum_eq
  · rw [h.live]
    exact exists_congr fun p => and_congr_left fun _ => hl.mem_iff

theorem mem_live (h : Tallied s l) (hp : p ∈ l) (hi : i < s.maxCount) :
    (s.page p).used.get i = true ↔ slot s p i ∈ s.live := by
  rw [h.live]
  constructor
  · exact fun hu => ⟨p, hp, i, hi, hu, rfl⟩
  · rintro ⟨q, hq, j, hj, hu, heq⟩
    obtain ⟨rfl, rfl⟩ := h.sized.slot_inj (h.aligned p hp).2 (h.aligned q hq).2 hi hj heq
    exact hu

theorem count_le (h : Tallied s l) (hp : p ∈ l) : (s.page p).count ≤ s.maxCount := by
  rw [h.count p hp]
  exact Bitmap.card_bits_le ..

/-- A page whose slots are all free joins. -/
theorem addPage (h : Tallied s l) (hp0 : p ≠ 0) (hal : p % pageSize = 0) (hp : p ∉ l) :
    Tallied { s with
      page := Function.update s.page p ⟨Bitmap.empty, 0⟩
      numPages := s.numPages + 1
      given := insert p s.given } (p :: l) := by
  have hold {q : Nat} (hq : q ∈ l) : Function.update s.page p ⟨Bitmap.empty, 0⟩ q = s.page q :=
    Function.update_of_ne (ne_of_mem_of_not_mem hq hp) ..
  constructor
  case sized => exact ⟨h.sized.min, h.sized.max, h.sized.count⟩
  case nodup => exact List.nodup_cons.mpr ⟨hp, h.nodup⟩
  case aligned =>
    intro q hq
    rcases List.mem_cons.mp hq with rfl | hq
    · exact ⟨hp0, hal⟩
    · exact h.aligned q hq
  case given =>
    intro q hq
    rcases List.mem_cons.mp hq with rfl | hq
    · exact Finset.mem_insert_self ..
    · exact Finset.mem_insert_of_mem (h.given q hq)
  case numPages => exact congrArg Nat.succ h.numPages
  case count =>
    intro q hq
    rcases List.mem_cons.mp hq with rfl | hq
    · simp
    · simp only [hold hq]
      exact h.count q hq
  case unused =>
    intro q hq i hi
    rcases List.mem_cons.mp hq with rfl | hq
    · simp
    · simp only [hold hq]
      exact h.unused q hq i hi
  case numObjects =>
    simp only [List.map_cons, List.sum_cons, Function.update_self, Nat.zero_add]
    rw [List.map_congr_left fun q hq => by rw [hold hq]]
    exact h.numObjects
  case live =>
    intro o
    show o ∈ s.live ↔ ∃ q ∈ p :: l, ∃ i < s.maxCount,
      (Function.update s.page p ⟨Bitmap.empty, 0⟩ q).used.get i = true ∧ o = slot s q i
    rw [h.live, List.exists_mem_cons_iff, Function.update_self]
    simp only [Bitmap.get_empty, Bool.false_eq_true, false_and, and_false, exists_false, false_or]
    refine exists_congr fun q => and_congr_right fun hq => ?_
    rw [hold hq]

/-- A change of one page, of the number of objects, and of the live ones that go together. -/
theorem setPage (h : Tallied s (p :: l)) {x : Page} {numObjects : Nat} {live : Finset Nat}
    (hcount : x.count = (x.used.bits s.maxCount).card)
    (hunused : ∀ i, s.maxCount ≤ i → x.used.get i = false)
    (hnum : numObjects = x.count + (l.map fun q => (s.page q).count).sum)
    (hlive : ∀ o, o ∈ live ↔ (∃ i < s.maxCount, x.used.get i = true ∧ o = slot s p i) ∨
      ∃ q ∈ l, ∃ i < s.maxCount, (s.page q).used.get i = true ∧ o = slot s q i) :
    Tallied { s with page := Function.update s.page p x, numObjects, live } (p :: l) := by
  have hold {q : Nat} (hq : q ∈ l) : Function.update s.page p x q = s.page q :=
    Function.update_of_ne (ne_of_mem_of_not_mem hq (List.nodup_cons.mp h.nodup).1) ..
  constructor
  case sized => exact ⟨h.sized.min, h.sized.max, h.sized.count⟩
  case nodup => exact h.nodup
  case aligned => exact h.aligned
  case given => exact h.given
  case numPages => exact h.numPages
  case count =>
    intro q hq
    rcases List.mem_cons.mp hq with rfl | hq'
    · simp only [Function.update_self]
      exact hcount
    · simp only [hold hq']
      exact h.count q hq
  case unused =>
    intro q hq i hi
    rcases List.mem_cons.mp hq with rfl | hq'
    · simp only [Function.update_self]
      exact hunused i hi
    · simp only [hold hq']
      exact h.unused q hq i hi
  case numObjects =>
    simp only [List.map_cons, List.sum_cons, Function.update_self]
    rw [List.map_congr_left fun q hq => by rw [hold hq]]
    exact hnum
  case live =>
    intro o
    show o ∈ live ↔ ∃ q ∈ p :: l, ∃ i < s.maxCount,
      (Function.update s.page p x q).used.get i = true ∧ o = slot s q i
    rw [hlive, List.exists_mem_cons_iff, Function.update_self]
    refine or_congr Iff.rfl (exists_congr fun q => and_congr_right fun hq => ?_)
    rw [hold hq]

/-- A free slot of the page is taken. -/
theorem take (h : Tallied s (p :: l)) (hi : i < s.maxCount) (hfree : (s.page p).used.get i = false) :
    Tallied { s with
      page := Function.update s.page p ⟨(s.page p).used.set i, (s.page p).count + 1⟩
      numObjects := s.numObjects + 1
      live := insert (slot s p i) s.live } (p :: l) := by
  refine h.setPage ?_ (fun j hj => ?_) ?_ fun o => ?_
  · simp only
    rw [Bitmap.card_bits_set hi hfree, h.count p List.mem_cons_self]
  · simp only
    rw [Bitmap.get_set, if_neg (by omega), h.unused p List.mem_cons_self j hj]
  · rw [h.numObjects, List.map_cons, List.sum_cons]
    simp only
    omega
  · rw [Finset.mem_insert, h.live, List.exists_mem_cons_iff, ← or_assoc]
    refine or_congr ⟨?_, ?_⟩ Iff.rfl
    · rintro (rfl | ⟨j, hj, hu, rfl⟩)
      · exact ⟨i, hi, by rw [Bitmap.get_set, if_pos rfl], rfl⟩
      · refine ⟨j, hj, ?_, rfl⟩
        rw [Bitmap.get_set]
        split
        · rfl
        · exact hu
    · rintro ⟨j, hj, hu, rfl⟩
      rw [Bitmap.get_set] at hu
      split at hu
      case isTrue hji => exact .inl (by rw [hji])
      case isFalse => exact .inr ⟨j, hj, hu, rfl⟩

/-- A used slot of the page is given back. -/
theorem free (h : Tallied s (p :: l)) (hi : i < s.maxCount) (hused : (s.page p).used.get i = true) :
    Tallied { s with
      page := Function.update s.page p ⟨(s.page p).used.clear i, (s.page p).count - 1⟩
      numObjects := s.numObjects - 1
      live := s.live.erase (slot s p i) } (p :: l) := by
  have hcard := Bitmap.card_bits_clear hi hused
  have hcount := h.count p List.mem_cons_self
  have hal := (h.aligned p List.mem_cons_self).2
  refine h.setPage ?_ (fun j hj => ?_) ?_ fun o => ?_
  · simp only
    omega
  · simp only
    rw [Bitmap.get_clear, if_neg (by omega), h.unused p List.mem_cons_self j hj]
  · rw [h.numObjects, List.map_cons, List.sum_cons]
    simp only
    omega
  · rw [Finset.mem_erase, h.live, List.exists_mem_cons_iff, and_or_left]
    refine or_congr ⟨?_, ?_⟩ ⟨fun h => h.2, fun ho => ⟨?_, ho⟩⟩
    · rintro ⟨hne, j, hj, hu, rfl⟩
      have hji : j ≠ i := by
        rintro rfl
        exact hne rfl
      exact ⟨j, hj, by rwa [Bitmap.get_clear, if_neg hji], rfl⟩
    · rintro ⟨j, hj, hu, rfl⟩
      rw [Bitmap.get_clear] at hu
      split at hu
      case isTrue => cases hu
      case isFalse hji =>
        exact ⟨fun heq => hji (h.sized.slot_inj hal hal hj hi heq).2, j, hj, hu, rfl⟩
    · obtain ⟨q, hq, j, hj, hu, rfl⟩ := ho
      intro heq
      have hpq := (h.sized.slot_inj (h.aligned q (List.mem_cons_of_mem p hq)).2 hal hj hi heq).1
      exact (List.nodup_cons.mp h.nodup).1 (hpq ▸ hq)

end Tallied

/-! ### The ring -/

/-- Page `p` is full. -/
def Full (s : State) (p : Nat) : Prop := s.maxCount ≤ (s.page p).count

/-- The pages `l` of the ring from the head on: their counts are exact, and no page that is not full
comes after a full one. -/
structure Sound (s : State) (l : List Nat) : Prop where
  tallied : Tallied s l
  ring : IsRing s.links l
  head : s.pages = l.headD 0
  order : l.Pairwise fun p q => Full s p → Full s q

theorem Sound.all_full (h : Sound s l) (hneeds : NeedsPage s) : ∀ p ∈ l, Full s p := by
  cases l with
  | nil => simp
  | cons b t =>
    have hhead : s.pages = b := h.head
    have hb : Full s b := by
      rcases hneeds with h0 | hfull
      · exact absurd (hhead.symm.trans h0) (h.tallied.aligned b List.mem_cons_self).1
      · rwa [hhead] at hfull
    intro p hp
    rcases List.mem_cons.mp hp with rfl | hp
    · exact hb
    · exact (List.pairwise_cons.mp h.order).1 p hp hb

/-- The order of pages whose counts stay as they are. -/
theorem pairwise_full_congr (h : l.Pairwise fun p q => Full s p → Full s q)
    (hmax : s'.maxCount = s.maxCount) (hpage : ∀ p ∈ l, s'.page p = s.page p) :
    l.Pairwise fun p q => Full s' p → Full s' q := by
  refine h.imp_of_mem fun hp hq himp => ?_
  unfold Full at himp ⊢
  rwa [hmax, hpage _ hp, hpage _ hq]

theorem Sound.addPage (h : Sound s l) (hp0 : p ≠ 0) (hal : p % pageSize = 0) (hp : p ∉ s.given) :
    ∃ s', addPage s p = some s' ∧ Sound s' (p :: l) ∧ ¬Full s' p := by
  have hpl : p ∉ l := fun hmem => hp (h.tallied.given p hmem)
  have htallied := h.tallied.addPage hp0 hal hpl
  have hsome : Arena.addPage s p = some { insertPage (initArenaPage s p) p with
      numPages := (insertPage (initArenaPage s p) p).numPages + 1
      given := insert p (insertPage (initArenaPage s p) p).given } := by
    simp [Arena.addPage, hal, hp0]
  -- Both branches of the insertion leave the counts alone and put the page at the head.
  obtain ⟨links, hlinks, hring⟩ : ∃ links, insertPage (initArenaPage s p) p =
      { initArenaPage s p with links, pages := p } ∧ IsRing links (p :: l) := by
    cases l with
    | nil =>
      have hnull : s.pages = 0 := h.head
      exact ⟨initListNode s.links p, by simp [insertPage, initArenaPage, hnull], isRing_initListNode⟩
    | cons b t =>
      have hhead : s.pages = b := h.head
      have hb : b ≠ 0 := (h.tallied.aligned b List.mem_cons_self).1
      refine ⟨mergeList (initListNode s.links p) p b, ?_,
        (h.ring.init_other hpl).merge_node isRing_initListNode hpl⟩
      simp [insertPage, initArenaPage, hhead, hb]
  have hempty : ¬Full { s with
      page := Function.update s.page p ⟨Bitmap.empty, 0⟩
      numPages := s.numPages + 1
      given := insert p s.given } p := by
    have hpos := h.tallied.sized.maxCount_pos
    simp only [Full, Function.update_self]
    omega
  rw [hlinks] at hsome
  refine ⟨_, hsome, ⟨?_, hring, rfl, ?_⟩, hempty⟩
  · exact ⟨⟨htallied.sized.min, htallied.sized.max, htallied.sized.count⟩, htallied.nodup,
      htallied.aligned, htallied.given, htallied.numPages, htallied.count, htallied.unused,
      htallied.numObjects, htallied.live⟩
  · refine List.pairwise_cons.mpr ⟨fun q _ hf => absurd hf hempty, ?_⟩
    exact pairwise_full_congr h.order rfl fun q hq =>
      Function.update_of_ne (ne_of_mem_of_not_mem hq hpl) ..

/-- A head page that is not full has a free slot, and taking it keeps the order. -/
theorem Sound.takeSlot (h : Sound s (p :: l)) (hp : ¬Full s p) :
    ∃ i, (List.range s.maxCount).find? (fun i => !(s.page s.pages).used.get i) = some i ∧
      ∃ l', Sound { takeSlot s i with live := insert (slot s p i) s.live } l' := by
  have hhead : s.pages = p := h.head
  have hcount := h.tallied.count p List.mem_cons_self
  have hpl : p ∉ l := (List.nodup_cons.mp h.tallied.nodup).1
  obtain ⟨j, hj, hfree⟩ := Bitmap.exists_clear (m := (s.page p).used) (n := s.maxCount)
    (by rw [← hcount]; exact Nat.not_le.mp hp)
  cases hfind : (List.range s.maxCount).find? (fun i => !(s.page s.pages).used.get i) with
  | none =>
    have hall := List.find?_eq_none.mp hfind j (List.mem_range.mpr hj)
    rw [hhead, hfree] at hall
    exact absurd rfl hall
  | some i =>
    have hi : i < s.maxCount := List.mem_range.mp (List.mem_of_find?_eq_some hfind)
    have hfree' : (s.page p).used.get i = false := by
      have := List.find?_some hfind
      rw [hhead] at this
      simpa using this
    have htallied := h.tallied.take hi hfree'
    set x : Page := ⟨(s.page p).used.set i, (s.page p).count + 1⟩ with hx
    have horder : l.Pairwise fun q r => s.maxCount ≤ (Function.update s.page p x q).count →
        s.maxCount ≤ (Function.update s.page p x r).count := by
      refine (List.pairwise_cons.mp h.order).2.imp_of_mem fun hq hr himp => ?_
      rw [Function.update_of_ne (ne_of_mem_of_not_mem hq hpl),
        Function.update_of_ne (ne_of_mem_of_not_mem hr hpl)]
      exact himp
    refine ⟨i, rfl, ?_⟩
    by_cases hfull : s.maxCount ≤ x.count
    · -- The page is full now, and the head moves on: the page is the last one from there.
      have htake : Arena.takeSlot s i = { s with
          page := Function.update s.page p x
          numObjects := s.numObjects + 1
          pages := s.links.next p } := by
        simp [Arena.takeSlot, hhead, ← hx, hfull]
      rw [htake]
      have hperm : (p :: l).Perm (l ++ [p]) := (List.perm_append_singleton p l).symm
      have ht := htallied.perm hperm
      refine ⟨l ++ [p], ⟨⟨ht.sized.min, ht.sized.max, ht.sized.count⟩, ht.nodup, ht.aligned, ht.given,
        ht.numPages, ht.count, ht.unused, ht.numObjects, ht.live⟩, h.ring.rotate, ?_, ?_⟩
      · show s.links.next p = _
        rw [h.ring.next_eq]
        cases l <;> rfl
      · refine List.pairwise_append.mpr ⟨horder, List.pairwise_singleton .., fun q _ r hr _ => ?_⟩
        obtain rfl := List.mem_singleton.mp hr
        show s.maxCount ≤ (Function.update s.page r x r).count
        rw [Function.update_self]
        exact hfull
    · have htake : Arena.takeSlot s i = { s with
          page := Function.update s.page p x
          numObjects := s.numObjects + 1 } := by
        simp [Arena.takeSlot, hhead, ← hx, hfull]
      rw [htake]
      refine ⟨p :: l, htallied, h.ring, h.head, List.pairwise_cons.mpr ⟨fun q _ hf => ?_, horder⟩⟩
      refine absurd ?_ hfull
      have hf' : s.maxCount ≤ (Function.update s.page p x p).count := hf
      rwa [Function.update_self] at hf'

/-- `alloc_object` returns if it needs no page or gets one. -/
theorem Sound.allocObject (h : Sound s l) {fresh : Nat}
    (hfresh : NeedsPage s → fresh ≠ 0 ∧ fresh % pageSize = 0 ∧ fresh ∉ s.given) :
    ∃ o s' l', allocObject s fresh = some (o, s') ∧ Sound { s' with live := insert o s'.live } l' := by
  have hhead {s : State} {p : Nat} {l : List Nat} (h : Sound s (p :: l)) (hp : ¬Full s p) :
      ∃ o s' l', (if s.pages = 0 then none else
        match (List.range s.maxCount).find? fun index => !(s.page s.pages).used.get index with
        | none => none
        | some index => some (slot s s.pages index, Arena.takeSlot s index)) = some (o, s') ∧
        Sound { s' with live := insert o s'.live } l' := by
    have hpages : s.pages = p := h.head
    have hp0 : s.pages ≠ 0 := by
      rw [hpages]
      exact (h.tallied.aligned p List.mem_cons_self).1
    obtain ⟨i, hfind, l', hs⟩ := h.takeSlot hp
    refine ⟨slot s p i, Arena.takeSlot s i, l', ?_, ?_⟩
    · rw [if_neg hp0, hfind, hpages]
    · have hlive : (Arena.takeSlot s i).live = s.live := by
        unfold Arena.takeSlot
        dsimp only
        split <;> rfl
      rwa [hlive]
  by_cases hneeds : NeedsPage s
  · obtain ⟨h0, hal, hgiven⟩ := hfresh hneeds
    obtain ⟨t, ht, hs, hfull⟩ := h.addPage h0 hal hgiven
    obtain ⟨o, s', l', hr, hs'⟩ := hhead hs hfull
    refine ⟨o, s', l', ?_, hs'⟩
    simp only [Arena.allocObject, if_pos hneeds, ht, Option.bind_eq_bind, Option.bind_some]
    exact hr
  · cases l with
    | nil => exact absurd (.inl h.head) hneeds
    | cons p t =>
      have hpages : s.pages = p := h.head
      have hfull : ¬Full s p := fun hf => hneeds (.inr (by rw [hpages]; exact hf))
      obtain ⟨o, s', l', hr, hs'⟩ := hhead h hfull
      refine ⟨o, s', l', ?_, hs'⟩
      simp only [Arena.allocObject, if_neg hneeds, Option.bind_eq_bind, Option.bind_some]
      exact hr

/-- Without a page, `alloc_object` fails if it needs one. -/
theorem Sound.allocObject_null (h : Sound s l) (hneeds : NeedsPage s) : Arena.allocObject s 0 = none := by
  have hadd : Arena.addPage s 0 = some s := by simp [Arena.addPage]
  simp only [Arena.allocObject, if_pos hneeds, hadd, Option.bind_eq_bind, Option.bind_some]
  by_cases h0 : s.pages = 0
  · rw [if_pos h0]
  · rw [if_neg h0]
    have hmem : s.pages ∈ l := by
      cases l with
      | nil => exact absurd h.head h0
      | cons p t =>
        rw [show s.pages = p from h.head]
        exact List.mem_cons_self
    have hcard : ((s.page s.pages).used.bits s.maxCount).card = s.maxCount := by
      rw [← h.tallied.count _ hmem]
      exact le_antisymm (h.tallied.count_le hmem) (h.all_full hneeds _ hmem)
    have hnone : (List.range s.maxCount).find? (fun i => !(s.page s.pages).used.get i) = none := by
      refine List.find?_eq_none.mpr fun i hi => ?_
      have hall := Finset.eq_of_subset_of_card_le (Finset.filter_subset _ (Finset.range s.maxCount))
        (by rw [Finset.card_range]; exact hcard.ge)
      have hmem' : i ∈ (s.page s.pages).used.bits s.maxCount := by
        unfold Bitmap.bits
        rw [hall]
        exact Finset.mem_range.mpr (List.mem_range.mp hi)
      simp [(Bitmap.mem_bits.mp hmem').2]
    rw [hnone]

/-- `free_object` of a live object returns. -/
theorem Sound.freeObject (h : Sound s l) {o : Nat} (ho : o ∈ s.live) :
    ∃ s' l', freeObject s o = some s' ∧ Sound { s' with live := s'.live.erase o } l' := by
  obtain ⟨p, hp, i, hi, hused, rfl⟩ := (h.tallied.live o).mp ho
  have hpage := h.tallied.sized.containerPage_slot (h.tallied.aligned p hp).2 hi
  obtain ⟨hmod, hdiv⟩ := h.tallied.sized.offset_slot (p := p) (i := i)
  obtain ⟨l₁, l₂, rfl⟩ := List.append_of_mem hp
  have hperm : (l₁ ++ p :: l₂).Perm (p :: (l₁ ++ l₂)) := List.perm_middle
  have htallied := (h.tallied.perm hperm).free hi hused
  have hpl : p ∉ l₁ ++ l₂ := (List.nodup_cons.mp htallied.nodup).1
  set x : Page := ⟨(s.page p).used.clear i, (s.page p).count - 1⟩ with hx
  set t : State := { s with
    page := Function.update s.page p x
    numObjects := s.numObjects - 1 } with ht
  have hfree : Arena.freeObject s (slot s p i) = some (movePageToHead t p) := by
    simp only [Arena.freeObject, hpage, hmod, hdiv, hused, and_self, if_true]
    rfl
  have hroom : ¬s.maxCount ≤ x.count := by
    have hpos := h.tallied.sized.maxCount_pos
    have hle := h.tallied.count_le hp
    simp only [hx]
    omega
  have horder : (p :: (l₁ ++ l₂)).Pairwise fun q r =>
      s.maxCount ≤ (Function.update s.page p x q).count →
        s.maxCount ≤ (Function.update s.page p x r).count := by
    refine List.pairwise_cons.mpr ⟨fun q _ hf => ?_, ?_⟩
    · rw [Function.update_self] at hf
      exact absurd hf hroom
    · have hsub : (l₁ ++ l₂).Sublist (l₁ ++ p :: l₂) :=
        (List.Sublist.refl l₁).append (List.sublist_cons_self p l₂)
      refine (h.order.sublist hsub).imp_of_mem fun hq hr himp => ?_
      rw [Function.update_of_ne (ne_of_mem_of_not_mem hq hpl),
        Function.update_of_ne (ne_of_mem_of_not_mem hr hpl)]
      exact himp
  -- The page is at the head already, or is moved there.
  obtain ⟨links, hmove, hring⟩ : ∃ links, movePageToHead t p = { t with links, pages := p } ∧
      IsRing links (p :: (l₁ ++ l₂)) := by
    cases l₁ with
    | nil =>
      have hhead : s.pages = p := h.head
      refine ⟨s.links, ?_, h.ring⟩
      simp [movePageToHead, ht, hhead]
    | cons b l₁ =>
      have hhead : s.pages = b := h.head
      have hb0 : b ≠ 0 := (h.tallied.aligned b List.mem_cons_self).1
      have hbp : b ≠ p := ne_of_mem_of_not_mem List.mem_cons_self hpl
      have hdetach := h.ring.detach
      refine ⟨mergeList (detachFromList s.links p) p b, ?_, hdetach.1.merge_node hdetach.2 hpl⟩
      simp [movePageToHead, insertPage, ht, hhead, hb0, hbp]
  rw [hmove] at hfree
  exact ⟨_, p :: (l₁ ++ l₂), hfree, ⟨⟨htallied.sized.min, htallied.sized.max, htallied.sized.count⟩,
    htallied.nodup, htallied.aligned, htallied.given, htallied.numPages, htallied.count,
    htallied.unused, htallied.numObjects, htallied.live⟩, hring, rfl, horder⟩

/-! ### Every sequence of calls -/

theorem Sound.next (h : Sound s l) {a : Label} (hn : arena.next s a = some s') :
    ∃ l', Sound s' l' := by
  cases a with
  | alloc fresh =>
    simp only [arena, Option.ite_none_right_eq_some, Option.map_eq_some_iff] at hn
    obtain ⟨hfresh, ⟨o, t⟩, hr, rfl⟩ := hn
    have hpage : NeedsPage s → fresh ≠ 0 ∧ fresh % pageSize = 0 ∧ fresh ∉ s.given := by
      intro hneeds
      have h0 : fresh ≠ 0 := by
        rintro rfl
        rw [h.allocObject_null hneeds] at hr
        cases hr
      exact ⟨h0, hfresh.resolve_left h0⟩
    obtain ⟨o', t', l', hr', hs⟩ := h.allocObject hpage
    rw [hr', Option.some.injEq, Prod.mk.injEq] at hr
    obtain ⟨rfl, rfl⟩ := hr
    exact ⟨l', hs⟩
  | free o =>
    simp only [arena, Option.ite_none_right_eq_some, Option.map_eq_some_iff] at hn
    obtain ⟨ho, t, hr, rfl⟩ := hn
    obtain ⟨t', l', hr', hs⟩ := h.freeObject ho
    rw [hr', Option.some.injEq] at hr
    subst hr
    exact ⟨l', hs⟩

theorem arena_sound (hs : arena.Reachable s) : ∃ l, Sound s l := by
  refine hs.invariant (I := fun s => ∃ l, Sound s l) ?_ fun s a s' ⟨l, h⟩ hn => h.next hn
  rintro s ⟨objectSize, links, page, hinit⟩
  simp only [initArena, Option.ite_none_right_eq_some, Option.some.injEq] at hinit
  obtain ⟨⟨hmin, hmax⟩, rfl⟩ := hinit
  refine ⟨[], ⟨⟨hmin, hmax, rfl⟩, List.nodup_nil, ?_, ?_, rfl, ?_, ?_, rfl, ?_⟩, trivial, rfl, .nil⟩
  all_goals simp

/-- What the representation of an arena is worth: `l` are the pages of the ring from the head on. -/
structure Represents (s : State) (l : List Nat) : Prop where
  ring : IsRing s.links l ∧ s.pages = l.headD 0 ∧ s.numPages = l.length
  inside : ∀ o ∈ s.live, ∃ p ∈ l, ∃ i < s.maxCount, o = slot s p i ∧ p + headerSize ≤ o ∧
    o + s.objectSize ≤ p + pageSize
  disjoint : ∀ o ∈ s.live, ∀ o' ∈ s.live, o ≠ o' →
    o + s.objectSize ≤ o' ∨ o' + s.objectSize ≤ o
  used : ∀ p ∈ l, ∀ i, (s.page p).used.get i = true ↔ i < s.maxCount ∧ slot s p i ∈ s.live
  count : ∀ p ∈ l, (s.page p).count = ((s.page p).used.bits (pageSize / minObjectSize)).card
  numObjects : s.numObjects = (l.map fun p => (s.page p).count).sum
  order : l.Pairwise fun p q => Full s p → Full s q
  requests : NeedsPage s → ∀ p ∈ l, Full s p
  allocates : ∀ fresh, (NeedsPage s → fresh ≠ 0 ∧ fresh % pageSize = 0 ∧ fresh ∉ s.given) →
    ∃ o s', allocObject s fresh = some (o, s')

/-- In every state of an arena, live objects are in slots of their own, the bits and counts are exact,
the pages that are not full come first in the ring, and an allocation asks for a page only when all
are full and then succeeds if it gets one. -/
theorem arena_represents (hs : arena.Reachable s) : ∃ l, Represents s l := by
  obtain ⟨l, h⟩ := arena_sound hs
  have ht := h.tallied
  refine ⟨l, ⟨h.ring, h.head, ht.numPages⟩, fun o ho => ?_, fun o ho o' ho' hne => ?_, fun p hp i => ?_,
    fun p hp => ?_, ht.numObjects, h.order, h.all_full, fun fresh hfresh => ?_⟩
  · obtain ⟨p, hp, i, hi, -, rfl⟩ := (ht.live o).mp ho
    exact ⟨p, hp, i, hi, rfl, ht.sized.slot_mem hi⟩
  · obtain ⟨p, hp, i, hi, -, rfl⟩ := (ht.live o).mp ho
    obtain ⟨q, hq, j, hj, -, rfl⟩ := (ht.live o').mp ho'
    exact ht.sized.slot_disjoint (ht.aligned p hp).2 (ht.aligned q hq).2 hi hj hne
  · by_cases hi : i < s.maxCount
    · rw [ht.mem_live hp hi, and_iff_right hi]
    · simp [ht.unused p hp i (Nat.not_lt.mp hi), hi]
  · rw [ht.count p hp, Bitmap.bits_of_clear ht.sized.maxCount_le (ht.unused p hp)]
  · obtain ⟨o, s', -, hr, -⟩ := h.allocObject hfresh
    exact ⟨o, s', hr⟩

/-- Two objects of 2000 bytes fill a page, a third one takes another page, and the first is freed. -/
theorem arena_represents_three : ∃ s l, arena.Reachable s ∧ Represents s l ∧
    s.pages = 4096 ∧ s.numPages = 2 ∧ s.live = {6160, 8256} := by
  let s₀ : State := ⟨2000, 2, 0, 0, 0, ⟨id, id⟩, fun _ => ⟨Bitmap.empty, 0⟩, ∅, ∅⟩
  have hrun : (arena.run s₀ [.alloc 4096, .alloc 0, .alloc 8192, .free 4160]).map (fun s =>
      decide (s.pages = 4096 ∧ s.numPages = 2 ∧ s.live = {6160, 8256})) = some true := by
    decide +kernel
  have hinit : arena.init s₀ := ⟨2000, ⟨id, id⟩, fun _ => ⟨Bitmap.empty, 0⟩, if_pos (by decide)⟩
  obtain ⟨s, hs, htest⟩ := Machine.Reachable.of_run hinit hrun
  rw [decide_eq_true_eq] at htest
  obtain ⟨l, hl⟩ := arena_represents hs
  exact ⟨s, l, hs, hl, htest⟩

end FtosFfs.Core.Arena
