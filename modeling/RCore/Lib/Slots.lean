import Mathlib.Order.Lattice.Nat

/-!
# Tables of slots

A table is a list of slots, some of them free, and the slots beyond its end are free too. What is put into a
table goes to the lowest free slot; the list grows if there is none.
-/

namespace RCore

/-- A table; a slot that is `none` is free. -/
abbrev Slots (α : Type) := List (Option α)

namespace Slots

variable {α : Type} {i : Nat}

/-- What is in a slot. -/
def slot (t : Slots α) (i : Nat) : Option α := t[i]?.join

/-- The lowest free slot, and the table with this slot in it. -/
def alloc (t : Slots α) : Nat × Slots α :=
  match t.findIdx? Option.isNone with
  | some i => (i, t)
  | none => (t.length, t ++ [none])

/-- Put `a` into the lowest free slot. -/
def put (t : Slots α) (a : α) : Nat × Slots α :=
  let (i, t) := t.alloc
  (i, t.set i (some a))

theorem slot_of_length_le {t : Slots α} (h : t.length ≤ i) : t.slot i = none := by
  rw [slot, List.getElem?_eq_none h]
  rfl

theorem slot_set {t : Slots α} {o : Option α} (h : i < t.length) : slot (t.set i o) = Function.update t.slot i o := by
  funext x
  rcases eq_or_ne x i with rfl | hx
  · rw [Function.update_self, slot, List.getElem?_set_self h]
    rfl
  · rw [Function.update_of_ne hx, slot, List.getElem?_set_ne (Ne.symm hx)]
    rfl

/-- Freeing a slot. -/
theorem slot_set_none (t : Slots α) (i : Nat) : slot (t.set i none) = Function.update t.slot i none := by
  rcases Nat.lt_or_ge i t.length with hlt | hle
  · exact slot_set hlt
  · rw [List.set_eq_of_length_le hle]
    exact (Function.update_eq_self_iff.mpr (slot_of_length_le hle).symm).symm

theorem alloc_free (t : Slots α) : t.alloc.2[t.alloc.1]? = some none := by
  unfold alloc
  cases h : t.findIdx? Option.isNone with
  | some i =>
    obtain ⟨hlt, hnone, _⟩ := List.findIdx?_eq_some_iff_getElem.mp h
    show t[i]? = some none
    rw [List.getElem?_eq_getElem hlt, Option.isNone_iff_eq_none.mp hnone]
  | none =>
    show (t ++ [none])[t.length]? = some none
    rw [List.getElem?_append_right (Nat.le_refl _), Nat.sub_self]
    rfl

theorem slot_alloc (t : Slots α) : t.alloc.2.slot = t.slot := by
  unfold alloc
  cases h : t.findIdx? Option.isNone with
  | some i => rfl
  | none =>
    funext x
    show slot (t ++ [none]) x = t.slot x
    rcases Nat.lt_trichotomy x t.length with hlt | rfl | hlt
    · rw [slot, List.getElem?_append_left hlt]
      rfl
    · rw [slot, slot, List.getElem?_append_right (Nat.le_refl _), List.getElem?_eq_none (Nat.le_refl _), Nat.sub_self]
      rfl
    · rw [slot_of_length_le (Nat.le_of_lt hlt), slot_of_length_le]
      rw [List.length_append, List.length_singleton]
      exact hlt

/-- The slot that is found is the lowest free one. -/
theorem isLeast_alloc (t : Slots α) : IsLeast {i | t.slot i = none} t.alloc.1 := by
  unfold alloc
  cases h : t.findIdx? Option.isNone with
  | some i =>
    obtain ⟨hlt, hnone, hlow⟩ := List.findIdx?_eq_some_iff_getElem.mp h
    refine ⟨?_, fun j hj => Nat.le_of_not_lt fun hji => ?_⟩
    · show t[i]?.join = none
      rw [List.getElem?_eq_getElem hlt, Option.isNone_iff_eq_none.mp hnone]
      rfl
    · have hfree : t[j]?.join = none := hj
      rw [List.getElem?_eq_getElem (Nat.lt_trans hji hlt)] at hfree
      exact hlow j hji (Option.isNone_iff_eq_none.mpr hfree)
  | none =>
    have hall := List.findIdx?_eq_none_iff.mp h
    refine ⟨slot_of_length_le (Nat.le_refl _), fun j hj => Nat.le_of_not_lt fun hlt => ?_⟩
    have hfree : t[j]?.join = none := hj
    have htaken := hall t[j] (List.getElem_mem hlt)
    rw [List.getElem?_eq_getElem hlt] at hfree
    have hnone : t[j] = none := hfree
    rw [hnone] at htaken
    cases htaken

theorem put_fst (t : Slots α) (a : α) : (t.put a).1 = sInf {i | t.slot i = none} := t.isLeast_alloc.csInf_eq.symm

theorem slot_put (t : Slots α) (a : α) : (t.put a).2.slot = Function.update t.slot (t.put a).1 (some a) := by
  obtain ⟨hlt, -⟩ := List.getElem?_eq_some_iff.mp t.alloc_free
  rw [← slot_alloc t]
  exact slot_set hlt

end Slots

end RCore
