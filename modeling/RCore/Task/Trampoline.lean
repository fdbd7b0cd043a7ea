import RCore.Lib.Riscv
import RCore.Task.Kernel

/-!
# The trampoline

The two routines of `os/src/trap/trap.S`, which lie one behind the other in the section of the
trampoline. The assembler may write an instruction in two bytes or in four; the loads and stores of
`SAVE_GP` and `LOAD_GP` are those of the repetition unrolled.
-/

namespace RCore.Task.Trampoline

open RCore Riscv

/-- `SAVE_GP` -/
def saveGp (n : Reg) : Instr := .sd n (8 * n.val) Reg.sp

/-- `LOAD_GP` -/
def loadGp (n : Reg) : Instr := .ld n (8 * n.val) Reg.sp

/-- The registers of the repetition: `x5` to `x31`. -/
def repeated : List Reg := (List.range 27).map fun k => Fin.ofNat 32 (5 + k)

/-- `__alltraps` up to its jump. -/
def allTrapsCode : List Instr :=
  [.csrrw Reg.sp .sscratch Reg.sp, saveGp 1, saveGp 3] ++ repeated.map saveGp ++
  [.csrr Reg.t0 .sstatus,
    .csrr Reg.t1 .sepc,
    .sd Reg.t0 (8 * 32) Reg.sp,
    .sd Reg.t1 (8 * 33) Reg.sp,
    -- the user's stack
    .csrr Reg.t2 .sscratch,
    .sd Reg.t2 (8 * 2) Reg.sp,
    .ld Reg.t0 (8 * 34) Reg.sp,
    .ld Reg.t1 (8 * 36) Reg.sp,
    .ld Reg.sp (8 * 35) Reg.sp,
    .csrw .satp Reg.t0,
    .sfenceVma]

/-- `__alltraps` -/
def allTraps : List Insn := allTrapsCode.map Insn.plain ++ [.jr Reg.t1]

/-- `__restore` up to `sret`. -/
def restoreCode : List Instr :=
  [.csrw .satp Reg.a1,
    .sfenceVma,
    .csrw .sscratch Reg.a0,
    .mv Reg.sp Reg.a0,
    .ld Reg.t0 (8 * 32) Reg.sp,
    .ld Reg.t1 (8 * 33) Reg.sp,
    .csrw .sstatus Reg.t0,
    .csrw .sepc Reg.t1,
    loadGp 1,
    loadGp 3] ++ repeated.map loadGp ++ [.ld Reg.sp (8 * 2) Reg.sp]

/-- `__restore` -/
def restore : List Insn := restoreCode.map Insn.plain ++ [.sret]

end RCore.Task.Trampoline
