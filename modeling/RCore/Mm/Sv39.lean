import RCore.Lib.Riscv
import RCore.Mm.PageTable

/-!
# The translation of the hart

Sv39 as the hart does it, on the same tables in memory that `os/src/mm/page_table.rs` builds: it stops at
the first entry that is readable or executable, which may be a large page, it wants the reserved bits
to be zero, and it checks the permissions of the entry. The bits for "accessed" and "dirty", which the
hart sets itself and the kernel does not look at, are left out.
-/

namespace RCore.Mm

open Riscv

/-- The permission bits that are on allow an access; `SUM` is bit 18 and `MXR` bit 19 of `sstatus`. -/
def allows (on : PTEFlags → Bool) (sstatus : Word) (mode : Mode) (acc : Access) : Bool :=
  (match mode, acc with
    | .user, _ => on PTEFlags.U
    | .supervisor, .fetch => !on PTEFlags.U
    | .supervisor, .load | .supervisor, .store => !on PTEFlags.U || sstatus.getLsbD 18) &&
  (match acc with
    | .load => on PTEFlags.R || sstatus.getLsbD 19 && on PTEFlags.X
    | .store => on PTEFlags.W
    | .fetch => on PTEFlags.X)

namespace PageTableEntry

/-- A permission bit. -/
def has (pte : PageTableEntry) (flag : PTEFlags) : Bool := (pte.flags &&& flag) != 0

/-- An entry that the hart takes: valid, not writable alone, and the ten reserved bits are zero. -/
def isLegal (pte : PageTableEntry) : Bool :=
  pte.isValid && !(pte.has PTEFlags.W && !pte.has PTEFlags.R) && pte.bits / 2 ^ 54 = 0

/-- An entry that does not point at a table. -/
def isLeaf (pte : PageTableEntry) : Bool := pte.has PTEFlags.R || pte.has PTEFlags.X

/-- The access is allowed. -/
def permits (pte : PageTableEntry) (sstatus : Word) (mode : Mode) (acc : Access) : Bool :=
  allows pte.has sstatus mode acc

end PageTableEntry

namespace Sv39

/-- The walk from the table in `ppn` on, over the slots still to pass: the leaf, and how many slots were
left. -/
def walk (m : Mem) (ppn : Nat) : List (Fin 512) → Option (PageTableEntry × Nat)
  | [] => none
  | i :: idxs =>
    let pte := readPte m (pteAddr ppn i)
    if !pte.isLegal then none
    else if pte.isLeaf then some (pte, idxs.length)
    else walk m pte.ppn idxs

/-- The upper bits of an address are all alike. -/
def canonical (va : Nat) : Bool := va < 2 ^ 38 ∨ 2 ^ 64 - 2 ^ 38 ≤ va ∧ va < 2 ^ 64

/-- The physical address behind an address. -/
def translate (satp sstatus : Word) (mode : Mode) (acc : Access) (m : Mem) (va : Nat) : Option Nat :=
  let vpn := va / 4096 % 2 ^ 27
  match satp.toNat / 2 ^ 60 with
  | 0 => some va
  | 8 =>
    if canonical va then
      match walk m (satp.toNat % 2 ^ 44) (indexes vpn) with
      | some (pte, k) =>
        -- a large page begins at a multiple of its size
        if pte.permits sstatus mode acc ∧ pte.ppn % 512 ^ k = 0 then
          some ((pte.ppn + vpn % 512 ^ k) * 4096 + va % 4096)
        else none
      | none => none
    else none
  | _ => none

end Sv39

/-- A hart with this translation. -/
def sv39Machine (text : Nat → Option (Insn × Nat)) : Machine where
  translate := Sv39.translate
  text := text

end RCore.Mm
