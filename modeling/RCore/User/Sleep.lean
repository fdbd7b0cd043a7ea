import RCore.Mm.UserMemory

/-!
# Sleeping

`sleep` (`user/src/lib.rs`) polls the clock until the period is over. The clock it reads goes through the kernel
(`os/src/timer.rs`, `sys_get_time`). The cycle counter is a parameter: `clock n` is its value at the reading `n`
of the clock, where the reading 0 is the one before the loop and every poll of the loop is one more.
-/

namespace RCore.User

open RCore Mm

/-- `CLOCK_FREQ` of `boards/qemu.rs` -/
def CLOCK_FREQ : Nat := 12500000

/-- `MICRO_PER_SEC` -/
def MICRO_PER_SEC : Nat := 1000000

/-- `get_time_us` of the kernel, where `time::read()` is `cycles`. -/
def getTimeUs (cycles : Nat) : Nat := cycles / (CLOCK_FREQ / MICRO_PER_SEC)

/-- What `sys_get_time` returns and leaves in the caller's `TimeVal`, which is on its stack. -/
def sysGetTime (cycles : Nat) : Int × TimeVal :=
  let us := getTimeUs cycles
  (0, ⟨us / 1000000, us % 1000000⟩)

/-- `get_time` of the user library. -/
def getTime (cycles : Nat) : Int :=
  match sysGetTime cycles with
  | (0, time) => ((time.sec &&& 0xffff) * 1000 + time.usec / 1000 : Nat)
  | _ => -1

/-- `start + period_ms as isize`, which wraps in the release build. -/
def deadline (start : Int) (periodMs : Nat) : Int := Int.bmod (start + periodMs) (2 ^ 64)

variable (clock : Nat → Nat)

/-- The loop of `sleep` from its poll `n` on, of which at most `fuel` are made: the poll at which it ends. -/
def sleepLoop (start : Int) (periodMs : Nat) : Nat → Nat → Option Nat
  | 0, _ => none
  | fuel + 1, n =>
    if getTime (clock n) < deadline start periodMs then
      sleepLoop start periodMs fuel (n + 1)
    else
      some n

/-- `sleep`: the reading of the clock after which it returns, or `none` where `fuel` polls are not enough. -/
def sleep (periodMs fuel : Nat) : Option Nat :=
  let start := getTime (clock 0)
  sleepLoop clock start periodMs fuel 1

end RCore.User
