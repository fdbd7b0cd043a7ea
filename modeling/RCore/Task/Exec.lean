import RCore.Mm.UserMemory
import RCore.Task.Process

/-!
# `sys_exec`

How the arguments of `exec` come out of the memory of the caller, and what `trap_handler` stores when a
system call is over (`os/src/syscall/process.rs`, `os/src/trap/mod.rs`). The files are a parameter: the
ELF file at a path, if there is one.
-/

namespace RCore.Task

open RCore Mm

namespace Kernel

variable {B : BinaryHeap} (I : Image)

/-- At most `rounds` rounds of the loop of `sys_exec` over `args`. Its `translated_ref` translates as
`translated_refmut` does. -/
def argsLoop (fuel token : Nat) : Nat → Nat → List String → Comp Phys (Option (List String))
  | 0, _, _ => return none
  | rounds + 1, args, argsVec => do
    let pa ← translatedRefmut token args
    let s ← Comp.get
    let argStrPtr := s.mem.word 8 pa
    if argStrPtr = 0 then return some argsVec
    else
      match ← translatedStr fuel token argStrPtr with
      | none => return none
      | some arg => argsLoop fuel token rounds (usizeAdd args 8) (argsVec ++ [arg])

/-- The end of `sys_exec`, when `open_file` has returned. -/
def execFile (file : Option ElfFile) (argsVec : List String) (sstatus : Nat) : Comp (Kernel B) Int := do
  match file with
  | some allData => do
    let argc := argsVec.length
    exec I allData (argsVec.map stringBytes) sstatus
    -- return argc because cx.x[10] will be covered with it later
    return argc
  | none => return -1

/-- `sys_exec`; the strings and the array of pointers are given a number of rounds. -/
def sysExec (openFile : String → Option ElfFile) (fuel path args sstatus : Nat) :
    Comp (Kernel B) (Option Int) := do
  let cur ← currentTask
  let t ← task cur
  let token := t.memorySet.token
  match ← onPhys (translatedStr fuel token path) with
  | none => return none
  | some path =>
    match ← onPhys (argsLoop fuel token fuel args []) with
    | none => return none
    | some argsVec => do
      let r ← execFile I (openFile path) argsVec sstatus
      return some r

/-- The end of a system call in `trap_handler`: `cx = current_trap_cx(); cx.x[10] = result`. -/
def storeResult (result : Int) : Comp (Kernel B) Unit := do
  let cur ← currentTask
  let t ← task cur
  onPhys (storePhys (t.trapCxPpn * 4096 + 8 * 10) (leEncode 8 (result % 2 ^ 64).toNat))

end Kernel

end RCore.Task
