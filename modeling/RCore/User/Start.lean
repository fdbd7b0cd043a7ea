import RCore.Lib.Bytes
import RCore.Mm.Address

/-!
# The start of a user program

`_start` (`user/src/lib.rs`) makes a list of strings from `argc` and `argv`. It reads its own memory, which is
a parameter: the byte at a virtual address, or nothing where the read faults.
-/

namespace RCore.User

open RCore Mm

variable (read : Nat → Option UInt8)

/-- The `n` bytes from `a` on. -/
def readBytes (a n : Nat) : Option (List UInt8) := (List.range n).mapM fun i => read (usizeAdd a i)

/-- The `usize` at `a`. -/
def readUsize (a : Nat) : Option Nat := (readBytes read a 8).map leDecode

/-- The search of `_start` for the NUL of the string at `strStart`, from the byte `i` on; at most `fuel` bytes
are looked at. -/
def findNul (strStart : Nat) : Nat → Nat → Option Nat
  | 0, _ => none
  | fuel + 1, i => do
    let b ← read (usizeAdd strStart i)
    if b = 0 then return i else findNul strStart fuel (i + 1)

/-- A round of the loop of `_start`: the string it pushes. -/
def startArg (fuel argv i : Nat) : Option String := do
  let strStart ← readUsize read (usizeAdd argv (usizeMul i 8))
  let len ← findNul read strStart fuel 0
  let bytes ← readBytes read strStart len
  -- the unwrapped `core::str::from_utf8`
  String.fromUTF8? ⟨bytes.toArray⟩

/-- The arguments with which `_start` calls `main`. -/
def startArgs (fuel argc argv : Nat) : Option (List String) := (List.range argc).mapM (startArg read fuel argv)

end RCore.User
