import Mathlib.Data.List.Perm.Basic

/-!
# Priority queues

What a program may rely on when it uses a priority queue whose order is only meaningful on some
collections: as long as the order is a total preorder on the contents, pushing adds an element and
popping takes a greatest one out. On other contents nothing is promised.
-/

namespace RCore

variable {α : Type}

/-- `le` is a total preorder on the elements of `l`. -/
structure TotalOn (le : α → α → Prop) (l : List α) : Prop where
  total : ∀ x ∈ l, ∀ y ∈ l, le x y ∨ le y x
  trans : ∀ x ∈ l, ∀ y ∈ l, ∀ z ∈ l, le x y → le y z → le x z

namespace TotalOn

variable {le : α → α → Prop} {l l' : List α}

theorem mono (h : TotalOn le l) (hs : l' ⊆ l) : TotalOn le l' :=
  ⟨fun x hx y hy => h.total x (hs hx) y (hs hy),
    fun x hx y hy z hz => h.trans x (hs hx) y (hs hy) z (hs hz)⟩

theorem exists_greatest (h : TotalOn le l) (hl : l ≠ []) : ∃ a ∈ l, ∀ b ∈ l, le b a := by
  induction l with
  | nil => exact absurd rfl hl
  | cons x l ih =>
    have hx : x ∈ x :: l := List.mem_cons_self
    have hxx : le x x := (h.total x hx x hx).elim id id
    by_cases hnil : l = []
    · subst hnil
      refine ⟨x, hx, fun b hb => ?_⟩
      rw [List.mem_singleton] at hb
      rw [hb]
      exact hxx
    · obtain ⟨a, ha, hmax⟩ := ih (h.mono (List.subset_cons_self x l)) hnil
      have ha' : a ∈ x :: l := List.mem_cons_of_mem x ha
      rcases h.total x hx a ha' with hxa | hax
      · refine ⟨a, ha', fun b hb => ?_⟩
        rcases List.mem_cons.mp hb with rfl | hb'
        · exact hxa
        · exact hmax b hb'
      · refine ⟨x, hx, fun b hb => ?_⟩
        rcases List.mem_cons.mp hb with rfl | hb'
        · exact hxx
        · exact h.trans b hb a ha' x hx (hmax b hb') hax

end TotalOn

/-- A priority queue of elements ordered by `le`. -/
structure PriorityQueue (α : Type) (le : α → α → Prop) where
  Queue : Type
  new : Queue
  push : Queue → α → Queue
  pop : Queue → Option (α × Queue)
  /-- The contents, in any order. -/
  elems : Queue → List α
  elems_new : elems new = []
  push_perm : ∀ q a, TotalOn le (a :: elems q) → (elems (push q a)).Perm (a :: elems q)
  pop_empty : ∀ q, elems q = [] → pop q = none
  pop_greatest : ∀ q, elems q ≠ [] → TotalOn le (elems q) →
    ∃ a q', pop q = some (a, q') ∧ (elems q).Perm (a :: elems q') ∧ ∀ b ∈ elems q, le b a

/-- A priority queue that keeps its elements in a list and searches it for a greatest one. -/
def listQueue [DecidableEq α] (le : α → α → Prop) [DecidableRel le] : PriorityQueue α le where
  Queue := List α
  new := []
  push q a := a :: q
  pop q := (q.find? fun a => q.all fun b => le b a).map fun a => (a, q.erase a)
  elems := id
  elems_new := rfl
  push_perm _ _ _ := List.Perm.refl _
  pop_empty q hq := by
    rw [id_eq] at hq
    rw [hq]
    rfl
  pop_greatest q hq h := by
    obtain ⟨a, ha, hmax⟩ := h.exists_greatest hq
    rw [id_eq] at ha hmax
    cases hf : q.find? fun a => q.all fun b => le b a with
    | none =>
      rw [List.find?_eq_none] at hf
      refine absurd ?_ (hf a ha)
      rw [List.all_eq_true]
      exact fun b hb => decide_eq_true (hmax b hb)
    | some x =>
      have hx := List.mem_of_find?_eq_some hf
      have hmax' := List.find?_some hf
      rw [List.all_eq_true] at hmax'
      refine ⟨x, q.erase x, rfl, List.perm_cons_erase hx, ?_⟩
      exact fun b hb => of_decide_eq_true (hmax' b hb)

end RCore
