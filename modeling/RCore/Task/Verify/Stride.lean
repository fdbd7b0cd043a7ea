import Mathlib.Data.Nat.Basic
import Mathlib.Order.Compare
import RCore.Task.Scheduler

/-!
# Comparing passes on the circle

A pass is a number modulo 2 ^ 64. As long as the unbounded sums behind two passes differ by at most
half of the circle, `partial_cmp` compares the sums, the smaller one being the greater element of the
heap (`Stride.partialCmp_eq`). On a collection whose sums all lie that close together it is a total
preorder.
-/

namespace RCore.Task

open RCore

/-- How far the passes in the ready queue may be apart: `BIG_STRIDE / 2`. -/
def maxDistance : Nat := bigStride / 2

/-- The sums `g` and `g'` are within half of the circle. -/
def Near (g g' : Nat) : Prop := g ≤ g' + maxDistance ∧ g' ≤ g + maxDistance

theorem Near.symm {g g' : Nat} (h : Near g g') : Near g' g := ⟨h.2, h.1⟩

theorem Near.refl (g : Nat) : Near g g := ⟨Nat.le_add_right _ _, Nat.le_add_right _ _⟩

/-- The stride that every accepted priority gives. -/
theorem stride_le {priority : Nat} (h : 2 ≤ priority) : bigStride / priority ≤ maxDistance :=
  Nat.div_le_div_left h (by decide)

namespace Stride

variable {x y : Stride} {g g' : Nat}

theorem partialCmp_eq (hx : x.pass = g % 2 ^ 64) (hy : y.pass = g' % 2 ^ 64) (h : Near g g') :
    x.partialCmp y = some (compare g' g) := by
  obtain ⟨h₁, h₂⟩ := h
  have hmax : maxDistance = 2 ^ 63 - 1 := by decide
  have hbig : bigStride / 2 = 2 ^ 63 - 1 := by decide
  rw [hmax] at h₁ h₂
  unfold partialCmp absDiff cmp
  rw [hbig, hx, hy]
  rcases Nat.lt_trichotomy g g' with hlt | rfl | hgt
  · rw [Nat.compare_eq_gt.mpr hlt]
    -- the smaller sum: either its pass is smaller too, or the passes are on both ends
    by_cases hp : g % 2 ^ 64 < g' % 2 ^ 64
    · rw [if_pos hp, if_pos (by omega), Nat.compare_eq_lt.mpr hp]
      rfl
    · have hne : g' % 2 ^ 64 < g % 2 ^ 64 := by omega
      rw [if_neg hp, if_neg (by omega), Nat.compare_eq_gt.mpr hne]
      rfl
  · rw [if_neg (Nat.lt_irrefl _), if_pos (by omega), Nat.compare_eq_eq.mpr rfl, Nat.compare_eq_eq.mpr rfl]
    rfl
  · rw [Nat.compare_eq_lt.mpr hgt]
    by_cases hp : g % 2 ^ 64 < g' % 2 ^ 64
    · rw [if_pos hp, if_neg (by omega), Nat.compare_eq_lt.mpr hp]
      rfl
    · have hne : g' % 2 ^ 64 < g % 2 ^ 64 := by omega
      rw [if_neg hp, if_pos (by omega), Nat.compare_eq_gt.mpr hne]
      rfl

/-- The heap orders by the sums, downwards. -/
theorem le_iff (hx : x.pass = g % 2 ^ 64) (hy : y.pass = g' % 2 ^ 64) (h : Near g g') :
    Le x y ↔ g' ≤ g := by
  rw [Le, partialCmp_eq hx hy h, Option.some_inj, Option.some_inj, Nat.compare_eq_lt,
    Nat.compare_eq_eq]
  omega

end Stride

/-- A collection of strides, each with its sum, which are all close together. -/
theorem totalOn_of_near {α : Type} {l : List α} (f : α → Stride) (ghost : α → Nat)
    (hpass : ∀ a ∈ l, (f a).pass = ghost a % 2 ^ 64) (hnear : ∀ a ∈ l, ∀ b ∈ l, Near (ghost a) (ghost b)) :
    TotalOn Stride.Le (l.map f) := by
  have hle : ∀ a ∈ l, ∀ b ∈ l, (Stride.Le (f a) (f b) ↔ ghost b ≤ ghost a) := fun a ha b hb =>
    Stride.le_iff (hpass a ha) (hpass b hb) (hnear a ha b hb)
  refine ⟨?_, ?_⟩
  · simp only [List.forall_mem_map]
    intro a ha b hb
    rw [hle a ha b hb, hle b hb a ha]
    omega
  · simp only [List.forall_mem_map]
    intro a ha b hb c hc
    rw [hle a ha b hb, hle b hb c hc, hle a ha c hc]
    omega

end RCore.Task
