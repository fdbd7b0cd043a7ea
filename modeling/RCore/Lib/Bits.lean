import RCore.Lib.Bytes

/-!
# Bits of machine words

A word is a number; its bits are read with `Nat.testBit`. This file has what a bitmap needs: the
number of trailing ones, and what setting and subtracting one bit does to the others.
-/

namespace RCore

/-- The number of consecutive ones among the `n` low bits of `w`, from bit 0 up. -/
def trailingOnes : Nat → Nat → Nat
  | 0, _ => 0
  | n + 1, w => if w % 2 = 1 then trailingOnes n (w / 2) + 1 else 0

theorem testBit_zero_iff (w : Nat) : w.testBit 0 = true ↔ w % 2 = 1 := by
  simp [Nat.testBit_zero]

theorem trailingOnes_below (n w : Nat) : ∀ j, j < trailingOnes n w → w.testBit j = true := by
  induction n generalizing w with
  | zero =>
    intro j hj
    simp [trailingOnes] at hj
  | succ n ih =>
    intro j hj
    unfold trailingOnes at hj
    split at hj
    · next hodd =>
      cases j with
      | zero => exact (testBit_zero_iff w).mpr hodd
      | succ j =>
        rw [Nat.testBit_succ]
        exact ih (w / 2) j (by omega)
    · omega

/-- A word of `n` bits that is not all ones stops its trailing ones at a clear bit. -/
theorem trailingOnes_spec (n w : Nat) (hw : w < 2 ^ n) (hne : w ≠ 2 ^ n - 1) :
    trailingOnes n w < n ∧ w.testBit (trailingOnes n w) = false := by
  induction n generalizing w with
  | zero =>
    simp only [pow_zero] at hw hne
    omega
  | succ n ih =>
    have hpow : 2 ^ (n + 1) = 2 * 2 ^ n := by rw [pow_succ, Nat.mul_comm]
    unfold trailingOnes
    split
    · next hodd =>
      obtain ⟨hlt, hbit⟩ := ih (w / 2) (by omega) (by omega)
      exact ⟨by omega, by rw [Nat.testBit_succ]; exact hbit⟩
    · next heven =>
      refine ⟨by omega, ?_⟩
      rw [Nat.testBit_zero]
      simp only [decide_eq_false_iff_not]
      exact heven

theorem testBit_or_shiftLeft (w k j : Nat) :
    (w ||| 1 <<< k).testBit j = (w.testBit j || decide (j = k)) := by
  rw [Nat.testBit_or, Nat.shiftLeft_eq, Nat.one_mul, Nat.testBit_two_pow]
  congr 1
  exact decide_eq_decide.mpr eq_comm

/-- `w & (1 << k) > 0` reads bit `k`. -/
theorem and_shiftLeft_pos_iff (w k : Nat) : 0 < w &&& 1 <<< k ↔ w.testBit k = true := by
  rw [Nat.shiftLeft_eq, Nat.one_mul]
  constructor
  · intro h
    by_contra hb
    have hz : w &&& 2 ^ k = 0 := by
      apply Nat.eq_of_testBit_eq
      intro i
      rw [Nat.testBit_and, Nat.testBit_two_pow, Nat.zero_testBit]
      by_cases hi : k = i
      · subst hi
        simpa using hb
      · simp [hi]
    omega
  · intro h
    apply Nat.pos_of_ne_zero
    intro hz
    have hbit : (w &&& 2 ^ k).testBit k = true := by
      rw [Nat.testBit_and, h, Nat.testBit_two_pow_self]
      rfl
    rw [hz, Nat.zero_testBit] at hbit
    exact Bool.false_ne_true hbit

/-- Subtracting a bit that is set clears that bit alone. -/
theorem testBit_sub_shiftLeft {w k : Nat} (hk : w.testBit k = true) (j : Nat) :
    (w - 1 <<< k).testBit j = (w.testBit j && decide (j ≠ k)) := by
  -- `w = 2^k * (2a + 1) + b` with `b < 2^k`, and the subtraction leaves `2^k * (2a) + b`
  rw [Nat.shiftLeft_eq, Nat.one_mul]
  have hb : w % 2 ^ k < 2 ^ k := Nat.mod_lt _ (Nat.two_pow_pos k)
  have hodd : w / 2 ^ k % 2 = 1 := by
    have := hk
    rw [Nat.testBit_eq_decide_div_mod_eq] at this
    exact of_decide_eq_true this
  have hw : w = 2 ^ k * (w / 2 ^ k) + w % 2 ^ k := (Nat.div_add_mod w (2 ^ k)).symm
  obtain ⟨a, ha⟩ : ∃ a, w / 2 ^ k = 2 * a + 1 := ⟨w / 2 ^ k / 2, by omega⟩
  have hsub : w - 2 ^ k = 2 ^ k * (2 * a) + w % 2 ^ k := by
    conv => lhs; rw [hw, ha]
    rw [Nat.mul_add, Nat.mul_one]
    omega
  rw [hsub, Nat.testBit_two_pow_mul_add _ hb]
  conv => rhs; rw [hw, ha, Nat.testBit_two_pow_mul_add _ hb]
  by_cases hj : j < k
  · simp [hj, Nat.ne_of_lt hj]
  · simp only [hj, ↓reduceIte]
    rcases Nat.eq_or_lt_of_le (Nat.le_of_not_lt hj) with h | h
    · subst h
      simp [Nat.testBit_zero]
    · obtain ⟨i, hi⟩ : ∃ i, j - k = i + 1 := ⟨j - k - 1, by omega⟩
      have hne : j ≠ k := by omega
      rw [hi, Nat.testBit_succ, Nat.testBit_succ]
      have h1 : 2 * a / 2 = a := by omega
      have h2 : (2 * a + 1) / 2 = a := by omega
      simp [h1, h2, hne]

end RCore
