import Mathlib.Order.Monotone.Basic
import RCore.User.Sleep

/-!
# What `sleep` waits for

The kernel divides the cycles by 12 for the microseconds, where a microsecond has 12.5 of them, and the user library
keeps 16 bits of the seconds. So what `get_time` returns is the number of 12000 cycles each, modulo 65536000, and the
two parts of what `sleep` is for come apart: a period of `p` ends after `12000 * p` cycles, or never.
-/

namespace RCore.User

open RCore Mm

/-- The milliseconds that `cycles` take. -/
def millis (cycles : Nat) : Nat := cycles * 1000 / CLOCK_FREQ

/-- The loop condition of `sleep` at the poll `n`. -/
def Waits (clock : Nat → Nat) (periodMs n : Nat) : Prop := getTime (clock n) < deadline (getTime (clock 0)) periodMs

/-- No `sleep` that starts at the cycle `c` returns before its period is over. -/
def NotEarly (c periodMs : Nat) : Prop :=
  ∀ clock, Monotone clock → clock 0 = c → ∀ fuel n, sleep clock periodMs fuel = some n →
    periodMs ≤ millis (clock n - clock 0)

/-- The loop condition is false at every poll that a `sleep` from the cycle `c` makes a millisecond after its period is
over. -/
def NotLate (c periodMs : Nat) : Prop :=
  ∀ clock, Monotone clock → clock 0 = c → ∀ n, 1 ≤ n → (∀ m, 1 ≤ m → m < n → Waits clock periodMs m) →
    periodMs + 1 ≤ millis (clock n - clock 0) → ¬ Waits clock periodMs n

/-! ## The clock -/

theorem getTime_eq (c : Nat) : getTime c = (c / 12000 % 65536000 : Nat) := by
  have hmask (x : Nat) : x &&& 0xffff = x % 65536 := Nat.and_two_pow_sub_one_eq_mod x 16
  simp only [getTime, sysGetTime, getTimeUs, CLOCK_FREQ, MICRO_PER_SEC, hmask]
  omega

theorem le_millis {p cycles : Nat} : p ≤ millis cycles ↔ 12500 * p ≤ cycles := by
  rw [millis, CLOCK_FREQ, Nat.le_div_iff_mul_le (by decide)]
  omega

/-! ## The loop -/

variable {clock : Nat → Nat} {periodMs : Nat}

theorem sleepLoop_eq_some {start : Int} {n fuel first : Nat} (h : sleepLoop clock start periodMs fuel first = some n) :
    first ≤ n ∧ ¬ getTime (clock n) < deadline start periodMs := by
  induction fuel generalizing first with
  | zero => cases h
  | succ fuel ih =>
    rw [sleepLoop] at h
    split at h
    · obtain ⟨hle, hn⟩ := ih h
      exact ⟨by omega, hn⟩
    · next hstop =>
      obtain rfl : first = n := by simpa using h
      exact ⟨le_refl _, hstop⟩

theorem sleep_eq_some {fuel n : Nat} (h : sleep clock periodMs fuel = some n) : 1 ≤ n ∧ ¬ Waits clock periodMs n :=
  sleepLoop_eq_some h

/-- The sleep is over with the first poll, if that does not wait. -/
theorem sleep_first (h : ¬ Waits clock periodMs 1) : sleep clock periodMs 1 = some 1 := by
  rw [sleep, sleepLoop]
  exact if_neg h

/-- The counter is at `c` when a sleep begins and at `x` from its first poll on. -/
def jump (c x n : Nat) : Nat := if n = 0 then c else x

theorem jump_monotone {c x : Nat} (h : c ≤ x) : Monotone (jump c x) := by
  intro m n hmn
  simp only [jump]
  split <;> split <;> omega

/-- A sleep is early if it can end with a poll at the cycle `x`, too few after its start. -/
theorem NotEarly.at {c x : Nat} (h : NotEarly c periodMs) (hle : c ≤ x)
    (hstop : deadline (getTime c) periodMs ≤ getTime x) : 12500 * periodMs ≤ x - c := by
  have hend : sleep (jump c x) periodMs 1 = some 1 := sleep_first (not_lt.mpr hstop)
  exact le_millis.mp (h (jump c x) (jump_monotone hle) rfl 1 1 hend)

/-- A sleep is late if it does not end with a poll at the cycle `x`, long enough after its start. -/
theorem NotLate.at {c x : Nat} (h : NotLate c periodMs) (hle : c + 12500 * (periodMs + 1) ≤ x) :
    deadline (getTime c) periodMs ≤ getTime x := by
  refine not_lt.mp (h (jump c x) (jump_monotone (by omega)) rfl 1 (le_refl 1) (fun m h1 h2 => by omega) ?_)
  exact le_millis.mpr (Nat.le_sub_of_add_le (by rw [Nat.add_comm]; exact hle))

/-! ## The deadline -/

/-- The sum is below `2 ^ 63`, or so far above it that it wraps below the start. -/
theorem deadline_eq {m p : Nat} (hm : m < 65536000) (hp : p < 2 ^ 64) :
    deadline (m : Nat) p = if m + p < 2 ^ 63 then ((m + p : Nat) : Int) else (m + p : Nat) - 2 ^ 64 := by
  rw [deadline, ← Int.natCast_add, Int.bmod_def]
  split <;> split <;> omega

theorem deadline_getTime {c p : Nat} (hp : p < 2 ^ 64) :
    deadline (getTime c) p =
      if c / 12000 % 65536000 + p < 2 ^ 63 then ((c / 12000 % 65536000 + p : Nat) : Int)
      else (c / 12000 % 65536000 + p : Nat) - 2 ^ 64 := by
  rw [getTime_eq]
  exact deadline_eq (Nat.mod_lt _ (by decide)) hp

/-! ## The two halves -/

theorem getTime_ticks {q : Nat} : getTime (q * 12000) = (q % 65536000 : Nat) := by
  rw [getTime_eq, Nat.mul_div_cancel q (by decide)]

/-- Only a deadline that the clock never shows is not early: the ticks are too short for the others. -/
theorem notEarly_iff {c p : Nat} (hp : p < 2 ^ 64) :
    NotEarly c p ↔ p = 0 ∨ 65536000 ≤ c / 12000 % 65536000 + p ∧ c / 12000 % 65536000 + p < 2 ^ 63 := by
  have hdl := deadline_getTime (c := c) hp
  constructor
  · intro h
    by_contra hno
    have hpos : 1 ≤ p := by omega
    by_cases hwrap : c / 12000 % 65536000 + p < 2 ^ 63
    · -- the tick at which the sleep ends comes 12000 cycles for each millisecond after the start
      have hshown : c / 12000 % 65536000 + p < 65536000 := by omega
      have hle : c ≤ (c / 12000 + p) * 12000 := by omega
      have hstop : deadline (getTime c) p ≤ getTime ((c / 12000 + p) * 12000) := by
        rw [hdl, if_pos hwrap, getTime_ticks]
        omega
      have := h.at hle hstop
      omega
    · -- the deadline is behind the start
      have hstop : deadline (getTime c) p ≤ getTime c := by
        rw [hdl, if_neg hwrap, getTime_eq]
        omega
      have := h.at (le_refl c) hstop
      omega
  · rintro (rfl | ⟨hnever, hwrap⟩) clock - hstart fuel n hend
    · exact Nat.zero_le _
    · -- no reading is as large as the deadline
      refine absurd ?_ (sleep_eq_some hend).2
      rw [Waits, hstart, hdl, if_pos hwrap, getTime_eq]
      omega

/-- The clock starts again from 0, so only a deadline that 0 reaches is not late. -/
theorem notLate_iff {c p : Nat} (hp : p < 2 ^ 64) :
    NotLate c p ↔ c / 12000 % 65536000 + p = 0 ∨
      2 ^ 63 ≤ c / 12000 % 65536000 + p ∧ c / 12000 % 65536000 + p ≤ 2 ^ 64 := by
  have hdl := deadline_getTime (c := c) hp
  constructor
  · intro h
    -- a cycle at which the clock shows 0, after any period
    have hle : c + 12500 * (p + 1) ≤ (c + 12500 * (p + 1)) * 65536000 * 12000 := by omega
    have hstop := h.at hle
    rw [getTime_ticks, Nat.mul_mod_left, hdl] at hstop
    split at hstop <;> omega
  · rintro h clock - hstart n - - -
    rw [Waits, hstart, hdl, getTime_eq, not_lt]
    split <;> omega

/-- `sleep` waits for the right time only if the period is 0 and the clock shows 0 at its start. Its first half holds where the
deadline is never shown, its second where the deadline is not above 0. -/
theorem sleep_right_iff {c periodMs : Nat} (hp : periodMs < 2 ^ 64) :
    (NotEarly c periodMs ↔
      periodMs = 0 ∨ 65536000 ≤ c / 12000 % 65536000 + periodMs ∧ c / 12000 % 65536000 + periodMs < 2 ^ 63) ∧
    (NotLate c periodMs ↔ c / 12000 % 65536000 + periodMs = 0 ∨
      2 ^ 63 ≤ c / 12000 % 65536000 + periodMs ∧ c / 12000 % 65536000 + periodMs ≤ 2 ^ 64) ∧
    (NotEarly c periodMs ∧ NotLate c periodMs ↔ periodMs = 0 ∧ c / 12000 % 65536000 = 0) := by
  refine ⟨notEarly_iff hp, notLate_iff hp, ?_⟩
  rw [notEarly_iff hp, notLate_iff hp]
  omega

/-- A sleep of no time when the clock starts. -/
theorem sleep_right_zero : NotEarly 0 0 ∧ NotLate 0 0 :=
  (sleep_right_iff (by decide)).2.2.mpr ⟨rfl, rfl⟩

/-- A program that polls every 12000000 cycles and sleeps for a second wakes up after 0.96 seconds. A sleep of a
millisecond goes on at a poll that comes more than 62914 seconds later, when the clock starts again. -/
theorem sleep_wakes_early : sleep (fun n => n * 12000000) 1000 1 = some 1 ∧ millis (12000000 - 0) = 960 ∧
    sleep (fun n => n * 786432000000) 1 1 = none ∧ millis (786432000000 - 0) = 62914560 ∧
    ¬ NotEarly 0 1000 ∧ ¬ NotLate 0 1 := by
  refine ⟨by decide, by decide, by decide, by decide, ?_, ?_⟩
  · rw [notEarly_iff (by decide)]
    decide
  · rw [notLate_iff (by decide)]
    decide

end RCore.User
