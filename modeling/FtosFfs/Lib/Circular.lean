import Mathlib.Data.List.Basic
import Mathlib.Data.List.Nodup
import Mathlib.Logic.Function.Basic

/-! Circular lists through `next` and `prev` links: the list of the nodes that a ring goes through,
and what merging a single node into a ring and detaching a node do to it. -/

namespace FtosFfs.Lib.Circular

variable {α : Type}

/-- The links of the nodes. -/
structure Links (α : Type) where
  next : α → α
  prev : α → α

variable {m m' : Links α} {a b z z' : α} {t l l₁ l₂ : List α}

/-! ### Rings -/

/-- The links lead from `a` through `t` to `z`, and back. -/
def Linked (m : Links α) (a : α) : List α → α → Prop
  | [], z => m.next a = z ∧ m.prev z = a
  | b :: t, z => (m.next a = b ∧ m.prev b = a) ∧ Linked m b t z

/-- The nodes of a ring, in the order of the links. -/
def IsRing (m : Links α) : List α → Prop
  | [] => True
  | a :: t => (a :: t).Nodup ∧ Linked m a t a

theorem linked_append : Linked m a (l ++ b :: t) z ↔ Linked m a l b ∧ Linked m b t z := by
  induction l generalizing a with
  | nil => exact Iff.rfl
  | cons c l ih => rw [List.cons_append, Linked, Linked, ih, ← and_assoc]

/-- The node before the end of a path. -/
theorem Linked.prev_eq (h : Linked m a t z) :
    m.prev z = (a :: t).getLast (List.cons_ne_nil a t) := by
  induction t generalizing a with
  | nil => exact h.2
  | cons b t ih => rw [List.getLast_cons_cons]; exact ih h.2

theorem Linked.prev_next (h : Linked m a t z) : m.prev (m.next a) = a := by
  cases t with
  | nil => rw [h.1, h.2]
  | cons b t => rw [h.1.1, h.1.2]

theorem Linked.next_prev (h : Linked m a t z) : m.next (m.prev z) = z := by
  induction t generalizing a with
  | nil => rw [h.2, h.1]
  | cons b t ih => exact ih h.2

/-- A path over links that are the same but for the last one, which leads to `z'`. -/
theorem Linked.redirect (h : Linked m a t z) (hnodup : (a :: t).Nodup)
    (hnext : ∀ x ∈ a :: t, x ≠ m.prev z → m'.next x = m.next x) (hlast : m'.next (m.prev z) = z')
    (hprev : ∀ x ∈ t, m'.prev x = m.prev x) (hz : m'.prev z' = m.prev z) : Linked m' a t z' := by
  induction t generalizing a with
  | nil =>
    obtain ⟨-, hp⟩ := h
    rw [hp] at hlast hz
    exact ⟨hlast, hz⟩
  | cons b t ih =>
    obtain ⟨⟨hn, hp⟩, h⟩ := h
    obtain ⟨ha, hnodup⟩ := List.nodup_cons.mp hnodup
    -- The last node is one of the nodes after `a`.
    have hne : a ≠ m.prev z := by
      rw [h.prev_eq]
      exact fun heq => ha (heq ▸ List.getLast_mem _)
    refine ⟨⟨?_, ?_⟩, ih h hnodup (fun x hx => hnext x (by simp [hx]))
      fun x hx => hprev x (by simp [hx])⟩
    · rw [hnext a (by simp) hne, hn]
    · rw [hprev b (by simp), hp]

/-- A path over links that are the same. -/
theorem Linked.congr (h : Linked m a t z) (hnext : ∀ x ∈ a :: t, m'.next x = m.next x)
    (hprev : ∀ x ∈ t, m'.prev x = m.prev x) (hz : m'.prev z = m.prev z) : Linked m' a t z := by
  induction t generalizing a with
  | nil => exact ⟨(hnext a (by simp)).trans h.1, hz.trans h.2⟩
  | cons b t ih =>
    obtain ⟨⟨hn, hp⟩, h⟩ := h
    refine ⟨⟨(hnext a (by simp)).trans hn, (hprev b (by simp)).trans hp⟩, ih h
      (fun x hx => hnext x (by simp [hx])) fun x hx => hprev x (by simp [hx])⟩

theorem IsRing.nodup (h : IsRing m l) : l.Nodup := by
  cases l with
  | nil => exact List.nodup_nil
  | cons a t => exact h.1

/-- The same ring from the next node on. -/
theorem IsRing.rotate (h : IsRing m (a :: t)) : IsRing m (t ++ [a]) := by
  obtain ⟨hnodup, hl⟩ := h
  cases t with
  | nil => exact ⟨hnodup, hl⟩
  | cons b t =>
    refine ⟨?_, linked_append.mpr ⟨hl.2, hl.1⟩⟩
    show ((b :: t) ++ [a]).Nodup
    exact (List.perm_append_singleton a (b :: t)).nodup_iff.mpr hnodup

/-- The same ring read from any of its nodes. -/
theorem IsRing.append_comm (h : IsRing m (l ++ t)) : IsRing m (t ++ l) := by
  induction l generalizing t with
  | nil => rwa [List.nil_append, ← List.append_nil t] at h
  | cons a l ih =>
    have hrot : IsRing m (l ++ (t ++ [a])) := by
      rw [← List.append_assoc]
      exact h.rotate
    have h := ih hrot
    rwa [List.append_assoc] at h

/-- A ring whose nodes keep their links. -/
theorem IsRing.congr (h : IsRing m l) (hlinks : ∀ x ∈ l, m'.next x = m.next x ∧ m'.prev x = m.prev x) :
    IsRing m' l := by
  cases l with
  | nil => trivial
  | cons a t =>
    exact ⟨h.1, h.2.congr (fun x hx => (hlinks x hx).1)
      (fun x hx => (hlinks x (List.mem_cons_of_mem a hx)).2) (hlinks a List.mem_cons_self).2⟩

theorem IsRing.next_eq (h : IsRing m (a :: t)) : m.next a = (t ++ [a]).headD a := by
  cases t with
  | nil => exact h.2.1
  | cons b t => exact h.2.1.1

theorem IsRing.next_mem (h : IsRing m l) (ha : a ∈ l) : m.next a ∈ l := by
  obtain ⟨l₁, l₂, rfl⟩ := List.append_of_mem ha
  have hring : IsRing m (a :: (l₂ ++ l₁)) := h.append_comm
  rw [hring.next_eq]
  cases hl : l₂ ++ l₁ with
  | nil => exact ha
  | cons b t =>
    have hb : b ∈ l₂ ++ l₁ := hl ▸ List.mem_cons_self
    rcases List.mem_append.mp hb with hb | hb
    · exact List.mem_append_right l₁ (List.mem_cons_of_mem a hb)
    · exact List.mem_append_left (a :: l₂) hb

theorem IsRing.prev_mem (h : IsRing m l) (ha : a ∈ l) : m.prev a ∈ l := by
  obtain ⟨l₁, l₂, rfl⟩ := List.append_of_mem ha
  have hring : IsRing m (a :: (l₂ ++ l₁)) := h.append_comm
  have hlast : m.prev a ∈ a :: (l₂ ++ l₁) := hring.2.prev_eq ▸ List.getLast_mem _
  rcases List.mem_append.mp (show m.prev a ∈ (a :: l₂) ++ l₁ from hlast) with hp | hp
  · exact List.mem_append_right l₁ hp
  · exact List.mem_append_left (a :: l₂) hp

/-- The two links of node `x` are undone by the links of its neighbours. -/
def MutualAt (m : Links α) (x : α) : Prop := m.prev (m.next x) = x ∧ m.next (m.prev x) = x

theorem IsRing.mutualAt (h : IsRing m l) (ha : a ∈ l) : MutualAt m a := by
  obtain ⟨l₁, l₂, rfl⟩ := List.append_of_mem ha
  have hring : IsRing m (a :: (l₂ ++ l₁)) := h.append_comm
  exact ⟨hring.2.prev_next, hring.2.next_prev⟩

/-- The neighbours of a node outside of a ring are outside of it, so that changes in the ring do not
matter to the node. -/
theorem MutualAt.frame (h : MutualAt m a) (ha : a ∉ l)
    (hclosed : ∀ x ∈ l, m.next x ∈ l ∧ m.prev x ∈ l)
    (hframe : ∀ x, x ∉ l → m'.next x = m.next x ∧ m'.prev x = m.prev x) : MutualAt m' a := by
  have hnext : m.next a ∉ l := fun hin => ha (h.1 ▸ (hclosed _ hin).2)
  have hprev : m.prev a ∉ l := fun hin => ha (h.2 ▸ (hclosed _ hin).1)
  constructor
  · rw [(hframe a ha).1, (hframe _ hnext).2, h.1]
  · rw [(hframe a ha).2, (hframe _ hprev).1, h.2]

/-! ### Operations -/

variable [DecidableEq α]

namespace Links

def setNext (m : Links α) (a b : α) : Links α := { m with next := Function.update m.next a b }

def setPrev (m : Links α) (a b : α) : Links α := { m with prev := Function.update m.prev a b }

@[simp] theorem next_setNext (m : Links α) (a b c : α) :
    (m.setNext a b).next c = if c = a then b else m.next c := Function.update_apply ..

@[simp] theorem prev_setNext (m : Links α) (a b c : α) : (m.setNext a b).prev c = m.prev c := rfl

@[simp] theorem next_setPrev (m : Links α) (a b c : α) : (m.setPrev a b).next c = m.next c := rfl

@[simp] theorem prev_setPrev (m : Links α) (a b c : α) :
    (m.setPrev a b).prev c = if c = a then b else m.prev c := Function.update_apply ..

end Links

/-- Makes `node` a list of its own. -/
def initListNode (m : Links α) (node : α) : Links α := (m.setPrev node node).setNext node node

/-- Merges the rings of two nodes into one, in which `node2` comes after `node1`. -/
def mergeList (m : Links α) (node1 node2 : α) : Links α :=
  let node3 := m.next node1
  let node4 := m.prev node2
  (((m.setNext node1 node2).setPrev node2 node1).setNext node4 node3).setPrev node3 node4

/-- Takes `node` out of its ring. -/
def detachFromList (m : Links α) (node : α) : Links α :=
  let m := m.setNext (m.prev node) (m.next node)
  let m := m.setPrev (m.next node) (m.prev node)
  initListNode m node

theorem isRing_initListNode : IsRing (initListNode m a) [a] := by
  refine ⟨List.nodup_singleton a, ?_, ?_⟩
  · simp [initListNode]
  · simp [initListNode]

/-- A store to the links of a node outside of a ring. -/
theorem IsRing.init_other (h : IsRing m l) (ha : a ∉ l) : IsRing (initListNode m a) l := by
  cases l with
  | nil => trivial
  | cons b t =>
    have hne {x : α} (hx : x ∈ b :: t) : x ≠ a := fun heq => ha (heq ▸ hx)
    refine ⟨h.1, h.2.congr (fun x hx => ?_) (fun x hx => ?_) ?_⟩
    · simp [initListNode, hne hx]
    · simp [initListNode, hne (List.mem_cons_of_mem b hx)]
    · simp [initListNode, hne List.mem_cons_self]

theorem next_mergeList {x : α} (ha : x ≠ a) (hb : x ≠ m.prev b) :
    (mergeList m a b).next x = m.next x := by
  simp [mergeList, ha, hb]

theorem prev_mergeList {x : α} (hb : x ≠ b) (ha : x ≠ m.next a) :
    (mergeList m a b).prev x = m.prev x := by
  simp [mergeList, ha, hb]

/-- Merging two rings: the second is read after the first node of the first. -/
theorem IsRing.merge (ha : IsRing m (a :: l)) (hb : IsRing m (b :: t))
    (hdis : (a :: l).Disjoint (b :: t)) : IsRing (mergeList m a b) (a :: b :: (t ++ l)) := by
  have hnode3 : m.next a ∈ a :: l := ha.next_mem List.mem_cons_self
  have hnode4 : m.prev b ∈ b :: t := hb.prev_mem List.mem_cons_self
  obtain ⟨hna, hla⟩ := ha
  obtain ⟨hnb, hlb⟩ := hb
  have hne {x y : α} (hx : x ∈ a :: l) (hy : y ∈ b :: t) : x ≠ y := fun heq => hdis hx (heq ▸ hy)
  -- The second ring now ends at `node3`.
  have hsecond : Linked (mergeList m a b) b t (m.next a) := by
    refine hlb.redirect hnb (fun x hx hlast => ?_) ?_ (fun x hx => ?_) ?_
    · exact next_mergeList (hne List.mem_cons_self hx).symm hlast
    · simp [mergeList]
    · have hxb : x ≠ b := fun heq => (List.nodup_cons.mp hnb).1 (heq ▸ hx)
      exact prev_mergeList hxb (hne hnode3 (List.mem_cons_of_mem b hx)).symm
    · simp [mergeList]
  have hnodup : (a :: b :: (t ++ l)).Nodup := by
    have happ : ((a :: l) ++ (b :: t)).Nodup := List.nodup_append'.mpr ⟨hna, hnb, hdis⟩
    exact (List.Perm.cons a List.perm_append_comm).nodup_iff.mp happ
  refine ⟨hnodup, ⟨?_, ?_⟩, ?_⟩
  · simp [mergeList, hne List.mem_cons_self hnode4]
  · simp [mergeList, (hne hnode3 List.mem_cons_self).symm]
  · cases l with
    | nil =>
      rw [hla.1] at hsecond
      rwa [List.append_nil]
    | cons c r =>
      obtain ⟨⟨hac, -⟩, hlc⟩ := hla
      rw [hac] at hsecond
      obtain ⟨hacr, hcr⟩ := List.nodup_cons.mp hna
      refine linked_append.mpr ⟨hsecond, hlc.congr (fun x hx => ?_) (fun x hx => ?_) ?_⟩
      · have hxa : x ≠ a := fun heq => hacr (heq ▸ hx)
        exact next_mergeList hxa (hne (List.mem_cons_of_mem a hx) hnode4)
      · have hxc : x ≠ m.next a := by
          rw [hac]
          exact fun heq => (List.nodup_cons.mp hcr).1 (heq ▸ hx)
        have hxl : x ∈ a :: c :: r := List.mem_cons_of_mem a (List.mem_cons_of_mem c hx)
        exact prev_mergeList (hne hxl List.mem_cons_self) hxc
      · have hca : a ≠ m.next a := by
          rw [hac]
          exact fun heq => hacr (heq ▸ List.mem_cons_self)
        exact prev_mergeList (hne List.mem_cons_self List.mem_cons_self) hca

/-- Merging a single node in front of a ring. -/
theorem IsRing.merge_node (h : IsRing m (b :: t)) (ha : IsRing m [a]) (hab : a ∉ b :: t) :
    IsRing (mergeList m a b) (a :: b :: t) := by
  have hring := ha.merge h (List.singleton_disjoint.mpr hab)
  rwa [List.append_nil] at hring

theorem next_detachFromList {x : α} (ha : x ≠ a) (hp : x ≠ m.prev a) :
    (detachFromList m a).next x = m.next x := by
  simp [detachFromList, initListNode, ha, hp]

theorem prev_detachFromList {x : α} (ha : x ≠ a) (hn : x ≠ m.next a) :
    (detachFromList m a).prev x = m.prev x := by
  by_cases hself : a = m.prev a
  · simp [detachFromList, initListNode, ha, hn, ← hself]
  · simp [detachFromList, initListNode, ha, hn, hself]

/-- Detaching a node other than the first. -/
theorem IsRing.detach (h : IsRing m (b :: (l₁ ++ a :: l₂))) :
    IsRing (detachFromList m a) (b :: (l₁ ++ l₂)) ∧ IsRing (detachFromList m a) [a] := by
  refine ⟨?_, isRing_initListNode⟩
  obtain ⟨hnodup, hl⟩ := h
  obtain ⟨hl₁, hl₂⟩ := linked_append.mp hl
  rw [← List.cons_append] at hnodup
  obtain ⟨hn₁, hn₂, hdis⟩ := List.nodup_append.mp hnodup
  obtain ⟨ha₂, hn₂'⟩ := List.nodup_cons.mp hn₂
  have hne₁ {x : α} (hx : x ∈ b :: l₁) : x ≠ a := hdis x hx a List.mem_cons_self
  have hlast : m.prev a ∈ b :: l₁ := hl₁.prev_eq ▸ List.getLast_mem _
  have hb₂ : b ∉ l₂ := fun hb => hdis b List.mem_cons_self b (List.mem_cons_of_mem a hb) rfl
  have hnodup' : (b :: (l₁ ++ l₂)).Nodup := by
    rw [← List.cons_append]
    exact List.nodup_append.mpr ⟨hn₁, hn₂', fun x hx y hy => hdis x hx y (List.mem_cons_of_mem a hy)⟩
  -- The links after the detachment, away from the detached node.
  have hnext {x : α} (hx : x ≠ a) : (detachFromList m a).next x =
      if x = m.prev a then m.next a else m.next x := by
    simp [detachFromList, initListNode, hx]
  have hna : m.prev a ≠ a := hne₁ hlast
  have hprev {x : α} (hx : x ≠ a) : (detachFromList m a).prev x =
      if x = m.next a then m.prev a else m.prev x := by
    simp [detachFromList, initListNode, hx, hna.symm]
  refine ⟨hnodup', ?_⟩
  cases l₂ with
  | nil =>
    rw [List.append_nil]
    obtain ⟨hab, -⟩ := hl₂
    refine hl₁.redirect hn₁ (fun x hx hxl => ?_) ?_ (fun x hx => ?_) ?_
    · rw [hnext (hne₁ hx), if_neg hxl]
    · rw [hnext hna, if_pos rfl, hab]
    · have hxb : x ≠ m.next a := by
        rw [hab]
        exact fun heq => (List.nodup_cons.mp hn₁).1 (heq ▸ hx)
      rw [hprev (hne₁ (List.mem_cons_of_mem b hx)), if_neg hxb]
    · rw [hprev (hne₁ List.mem_cons_self), if_pos hab.symm]
  | cons c r =>
    obtain ⟨⟨hac, -⟩, hl₂⟩ := hl₂
    have hc₁ {x : α} (hx : x ∈ b :: l₁) : x ≠ c :=
      hdis x hx c (List.mem_cons_of_mem a List.mem_cons_self)
    have hcr : c ∉ r := (List.nodup_cons.mp hn₂').1
    have hca {x : α} (hx : x ∈ c :: r) : x ≠ a := fun heq => ha₂ (heq ▸ hx)
    refine linked_append.mpr ⟨hl₁.redirect hn₁ (fun x hx hxl => ?_) ?_ (fun x hx => ?_) ?_,
      hl₂.congr (fun x hx => ?_) (fun x hx => ?_) ?_⟩
    · rw [hnext (hne₁ hx), if_neg hxl]
    · rw [hnext hna, if_pos rfl, hac]
    · rw [hprev (hne₁ (List.mem_cons_of_mem b hx)), hac, if_neg (hc₁ (List.mem_cons_of_mem b hx))]
    · rw [hprev (hca List.mem_cons_self), if_pos hac.symm]
    · have hxl : x ≠ m.prev a := fun heq =>
        hdis x (heq ▸ hlast) x (List.mem_cons_of_mem a hx) rfl
      rw [hnext (hca hx), if_neg hxl]
    · have hxc : x ≠ c := fun heq => hcr (heq ▸ hx)
      rw [hprev (hca (List.mem_cons_of_mem c hx)), hac, if_neg hxc]
    · rw [hprev (hne₁ List.mem_cons_self), hac, if_neg (hc₁ List.mem_cons_self)]

/-- Detaching the first node: the others are read in their order. -/
theorem IsRing.detach_head (h : IsRing m (a :: t)) :
    IsRing (detachFromList m a) t ∧ IsRing (detachFromList m a) [a] := by
  cases t with
  | nil => exact ⟨trivial, isRing_initListNode⟩
  | cons b r =>
    have hring : IsRing m (b :: (r ++ a :: [])) := h.rotate
    have hdetach := hring.detach
    rwa [List.append_nil] at hdetach

end FtosFfs.Lib.Circular
