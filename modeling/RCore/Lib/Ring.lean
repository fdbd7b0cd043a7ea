import Mathlib.Data.Fin.Basic
import Mathlib.Data.List.Basic
import Mathlib.Data.Nat.ModEq

/-!
# Ring buffers

The contents of a ring buffer: the places of a vector from a head on, going around its end. Taking the
first one and adding one behind the last are a step of the head and a write.
-/

namespace RCore.Ring

variable {α : Type} {n : Nat} [NeZero n] {arr : Vector α n} {head tail : Fin n} {k : Nat}

/-- The first `k` places from `head` on. -/
def window (arr : Vector α n) (head : Fin n) (k : Nat) : List α :=
  (List.range k).map fun i => arr[head + Fin.ofNat n i]

@[simp] theorem length_window : (window arr head k).length = k := by
  rw [window, List.length_map, List.length_range]

theorem val_add_ofNat (i : Nat) : (head + Fin.ofNat n i).val = (head.val + i) % n := by
  rw [Fin.val_add, Fin.val_ofNat, Nat.add_mod_mod]

theorem add_ofNat_succ (i : Nat) : head + Fin.ofNat n (i + 1) = head + 1 + Fin.ofNat n i := by
  apply Fin.ext
  rw [val_add_ofNat, val_add_ofNat, Fin.val_add, Fin.val_one', Nat.add_mod_mod, Nat.mod_add_mod,
    Nat.add_assoc, Nat.add_comm i 1]

theorem add_ofNat_zero : head + Fin.ofNat n 0 = head := by
  apply Fin.ext
  rw [val_add_ofNat, Nat.add_zero, Nat.mod_eq_of_lt head.isLt]

/-- The first place and the others. -/
theorem window_succ : window arr head (k + 1) = getElem arr head head.isLt :: window arr (head + 1) k := by
  rw [window, List.range_succ_eq_map, List.map_cons, List.map_map, window]
  congr 1
  · simp only [add_ofNat_zero]
  · apply List.map_congr_left
    intro i _
    simp only [Function.comp_apply, Nat.succ_eq_add_one, add_ofNat_succ]

/-- Two places less than once around are different. -/
theorem val_add_ofNat_ne {i : Nat} (hi : i < k) (hk : k < n) :
    (head + Fin.ofNat n k).val ≠ (head + Fin.ofNat n i).val := by
  rw [val_add_ofNat, val_add_ofNat]
  intro hc
  have hmod : k % n = i % n := Nat.ModEq.add_left_cancel' head.val hc
  rw [Nat.mod_eq_of_lt hk, Nat.mod_eq_of_lt (hi.trans hk)] at hmod
  omega

/-- A value written behind the last place. -/
theorem window_set (hk : k < n) (ht : tail = head + Fin.ofNat n k) (a : α) :
    window (arr.set tail a) head (k + 1) = window arr head k ++ [a] := by
  subst ht
  rw [window, List.range_succ, List.map_append, List.map_singleton, window]
  congr 1
  · apply List.map_congr_left
    intro i hi
    exact Vector.getElem_set_ne _ _ (val_add_ofNat_ne (List.mem_range.mp hi) hk)
  · congr 1
    exact Vector.getElem_set_self _

end RCore.Ring
