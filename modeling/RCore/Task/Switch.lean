import RCore.Lib.Riscv

/-!
# Switching tasks

`__switch` (`os/src/task/switch.S`) and the contexts it saves and restores (`os/src/task/context.rs`). The
threads of the kernel are its idle loop, which is `run_tasks` (`os/src/task/processor.rs`), and the tasks.
Each has a context at a fixed place in memory, and no two of them run at once: `run_tasks` switches to a
task, `schedule` switches back.
-/

namespace RCore.Task

open RCore Riscv

/-- `TaskContext` -/
structure TaskContext where
  ra : Nat
  sp : Nat
  s : Fin 12 → Nat

namespace TaskContext

/-- `TaskContext::zero_init` -/
def zeroInit : TaskContext where
  ra := 0
  sp := 0
  s _ := 0

/-- `TaskContext::goto_trap_return`; `trapReturn` is the address of `trap_return`. -/
def gotoTrapReturn (trapReturn kstackPtr : Nat) : TaskContext where
  ra := trapReturn
  sp := kstackPtr
  s _ := 0

end TaskContext

namespace Switch

/-- The registers `s0` to `s11`. -/
def sReg (n : Nat) : Reg := if n < 2 then Fin.ofNat 32 (8 + n) else Fin.ofNat 32 (16 + n)

/-- `SAVE_SN` -/
def saveSn (n : Nat) : Instr := .sd (sReg n) (8 * (n + 2)) Reg.a0

/-- `LOAD_SN` -/
def loadSn (n : Nat) : Instr := .ld (sReg n) (8 * (n + 2)) Reg.a1

/-- `__switch` up to `ret`. -/
def switchCode : List Instr :=
  [.sd Reg.sp 8 Reg.a0, .sd Reg.ra 0 Reg.a0] ++ (List.range 12).map saveSn ++
  [.ld Reg.ra 0 Reg.a1] ++ (List.range 12).map loadSn ++ [.ld Reg.sp 8 Reg.a1]

/-- `__switch` -/
def switch : List Insn := switchCode.map Insn.plain ++ [.jr Reg.ra]

end Switch

end RCore.Task
