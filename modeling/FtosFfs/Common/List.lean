import FtosFfs.Lib.Circular

/-! The circular lists of `common/list.c`: what `merge_list` and `detach_from_list` do to the rings of a
heap of nodes. -/

namespace FtosFfs.Common

open Lib.Circular

variable {α : Type} {m m' : Links α} {a b n x : α} {l t r : List α}

/-- `merge_list`, with `none` for `NULL`: the node that it returns and the links after it. -/
def mergeList [DecidableEq α] (m : Links α) : Option α → Option α → Option α × Links α
  | none, node2 => (node2, m)
  | some node1, none => (some node1, m)
  | some node1, some node2 => (some node1, Lib.Circular.mergeList m node1 node2)

/-- `detach_from_list`, with `none` for `NULL`. -/
def detachFromList [DecidableEq α] (m : Links α) (node : α) : Option α × Links α :=
  let prev := m.prev node
  (if prev = node then none else some prev, Lib.Circular.detachFromList m node)

/-! ### Nodes that are not touched -/

/-- The links of the nodes that are not in `l` are the old ones. -/
def SameOutside (l : List α) (m m' : Links α) : Prop :=
  ∀ x, x ∉ l → m'.next x = m.next x ∧ m'.prev x = m.prev x

/-- The rings away from `l` are still there. -/
theorem SameOutside.isRing (h : SameOutside l m m') (hr : IsRing m r) (hdis : r.Disjoint l) :
    IsRing m' r :=
  hr.congr fun x hx => h x (hdis hx)

/-- Links that are mutually inverse stay so when the nodes of rings are linked to new rings. -/
theorem SameOutside.mutualAt (h : SameOutside l m m')
    (hold : ∀ y ∈ l, m.next y ∈ l ∧ m.prev y ∈ l) (hnew : ∀ y ∈ l, MutualAt m' y)
    (hx : MutualAt m x) : MutualAt m' x := by
  by_cases hin : x ∈ l
  · exact hnew x hin
  · exact hx.frame hin hold h

/-- A node is its own predecessor only on a ring of its own. -/
theorem prev_eq_self_iff (h : IsRing m (n :: t)) : m.prev n = n ↔ t = [] := by
  constructor
  · intro hself
    have hlast := h.2.prev_eq
    rw [hself] at hlast
    cases t with
    | nil => rfl
    | cons b r =>
      rw [List.getLast_cons_cons] at hlast
      exact absurd (hlast ▸ List.getLast_mem _) (List.nodup_cons.mp h.1).1
  · rintro rfl
    exact h.2.2

variable [DecidableEq α]

theorem sameOutside_mergeList (ha : IsRing m (a :: l)) (hb : IsRing m (b :: t)) :
    SameOutside (a :: l ++ b :: t) m (Lib.Circular.mergeList m a b) := by
  intro x hx
  rw [List.mem_append, not_or] at hx
  have hal {y : α} (hy : y ∈ a :: l) : x ≠ y := fun heq => hx.1 (heq ▸ hy)
  have hbt {y : α} (hy : y ∈ b :: t) : x ≠ y := fun heq => hx.2 (heq ▸ hy)
  constructor
  · exact next_mergeList (hal List.mem_cons_self) (hbt (hb.prev_mem List.mem_cons_self))
  · exact prev_mergeList (hbt List.mem_cons_self) (hal (ha.next_mem List.mem_cons_self))

theorem sameOutside_detachFromList (h : IsRing m (n :: t)) :
    SameOutside (n :: t) m (Lib.Circular.detachFromList m n) := by
  intro x hx
  have hne {y : α} (hy : y ∈ n :: t) : x ≠ y := fun heq => hx (heq ▸ hy)
  have hn := hne List.mem_cons_self
  constructor
  · exact next_detachFromList hn (hne (h.prev_mem List.mem_cons_self))
  · exact prev_detachFromList hn (hne (h.next_mem List.mem_cons_self))

/-! ### List surgery -/

/-- The ring of `b` is merged after `a` into the ring of `a`. -/
structure Merged (m m' : Links α) (a : α) (l : List α) (b : α) (t : List α) : Prop where
  ring : IsRing m' (a :: b :: (t ++ l))
  others : ∀ r, IsRing m r → r.Disjoint (a :: l ++ b :: t) → IsRing m' r
  same : SameOutside (a :: l ++ b :: t) m m'
  inverse : ∀ x, MutualAt m x → MutualAt m' x

/-- `n` is taken out of the ring in which `t` comes after it. -/
structure Detached (m m' : Links α) (n : α) (t : List α) : Prop where
  single : IsRing m' [n]
  rest : IsRing m' t
  others : ∀ r, IsRing m r → r.Disjoint (n :: t) → IsRing m' r
  same : SameOutside (n :: t) m m'
  inverse : ∀ x, MutualAt m x → MutualAt m' x

theorem merged_mergeList (ha : IsRing m (a :: l)) (hb : IsRing m (b :: t))
    (hdis : (a :: l).Disjoint (b :: t)) :
    Merged m (Lib.Circular.mergeList m a b) a l b t := by
  have hring := ha.merge hb hdis
  have hsame := sameOutside_mergeList ha hb
  refine ⟨hring, fun r hr hout => hsame.isRing hr hout, hsame, fun x hx => hsame.mutualAt ?_ ?_ hx⟩
  · intro y hy
    rcases List.mem_append.mp hy with hy | hy
    · exact ⟨List.mem_append_left _ (ha.next_mem hy), List.mem_append_left _ (ha.prev_mem hy)⟩
    · exact ⟨List.mem_append_right _ (hb.next_mem hy), List.mem_append_right _ (hb.prev_mem hy)⟩
  · intro y hy
    -- The merged ring goes through the nodes of both.
    have hperm : (a :: l ++ b :: t).Perm (a :: b :: (t ++ l)) :=
      List.Perm.cons a List.perm_append_comm
    exact hring.mutualAt (hperm.mem_iff.mp hy)

theorem detached_detachFromList (h : IsRing m (n :: t)) :
    Detached m (Lib.Circular.detachFromList m n) n t := by
  obtain ⟨hrest, hsingle⟩ := h.detach_head
  have hsame := sameOutside_detachFromList h
  refine ⟨hsingle, hrest, fun r hr hout => hsame.isRing hr hout, hsame,
    fun x hx => hsame.mutualAt ?_ ?_ hx⟩
  · exact fun y hy => ⟨h.next_mem hy, h.prev_mem hy⟩
  · intro y hy
    rcases List.mem_cons.mp hy with rfl | hy
    · exact hsingle.mutualAt List.mem_cons_self
    · exact hrest.mutualAt hy

/-- `merge_list` and `detach_from_list` on any heap of rings. -/
theorem list_surgery (m : Links α) :
    (∀ a l b t, IsRing m (a :: l) → IsRing m (b :: t) → (a :: l).Disjoint (b :: t) →
      (mergeList m (some a) (some b)).1 = some a ∧
        Merged m (mergeList m (some a) (some b)).2 a l b t) ∧
    ∀ n t, IsRing m (n :: t) →
      ((detachFromList m n).1 = none ↔ t = []) ∧
        (t ≠ [] → (detachFromList m n).1 = some (m.prev n)) ∧
        Detached m (detachFromList m n).2 n t := by
  refine ⟨fun a l b t ha hb hdis => ⟨rfl, merged_mergeList ha hb hdis⟩, fun n t h => ?_⟩
  have hself := prev_eq_self_iff h
  refine ⟨?_, fun ht => if_neg (mt hself.mp ht), detached_detachFromList h⟩
  rw [← hself]
  constructor
  · intro hnone
    by_contra hne
    have hsome : (detachFromList m n).1 = some (m.prev n) := if_neg hne
    rw [hsome] at hnone
    cases hnone
  · exact fun heq => if_pos heq

/-- The heap of three nodes, in a ring of two and a ring of one. -/
def threeNodes : Links Nat where
  next x := if x = 1 then 2 else if x = 2 then 1 else x
  prev x := if x = 1 then 2 else if x = 2 then 1 else x

theorem list_surgery_threeNodes :
    ((mergeList threeNodes (some 1) (some 3)).1 = some 1 ∧
      Merged threeNodes (mergeList threeNodes (some 1) (some 3)).2 1 [2] 3 []) ∧
    ((detachFromList threeNodes 1).1 = none ↔ [2] = []) ∧
      ([2] ≠ [] → (detachFromList threeNodes 1).1 = some (threeNodes.prev 1)) ∧
      Detached threeNodes (detachFromList threeNodes 1).2 1 [2] := by
  have hone : IsRing threeNodes [1, 2] := by
    refine ⟨by decide, ⟨?_, ?_⟩, ?_, ?_⟩ <;> rfl
  have hthree : IsRing threeNodes [3] := by
    refine ⟨by decide, ?_, ?_⟩ <;> rfl
  exact ⟨(list_surgery threeNodes).1 1 [2] 3 [] hone hthree (by simp),
    (list_surgery threeNodes).2 1 [2] hone⟩

end FtosFfs.Common
