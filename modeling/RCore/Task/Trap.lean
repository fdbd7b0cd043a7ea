import RCore.Task.Signal

/-!
# Traps and signals

`trap_handler` (`os/src/trap/mod.rs`) with the signal phase at its end (`handle_signals` in
`os/src/task/mod.rs`) and the system calls that signals are sent and handled with. Any number of tasks
trap, are suspended and are fetched again in any order; a task runs by itself until it is suspended,
exits or goes back to its program. A trap context is a record here, and the record of a task is what
`TaskControlBlockInner` has for traps and signals.
-/

namespace RCore.Task

open RCore Mm

/-! ## Records -/

namespace TrapContext

/-- `cx.x[10] = v` -/
def setA0 (cx : TrapContext) (v : Nat) : TrapContext := { cx with x := Function.update cx.x 10 v }

/-- What `__alltraps` stores: the registers but `x0` and `x4`, `sstatus` and `sepc`. -/
def save (cx : TrapContext) (x : Fin 32 → Nat) (sstatus sepc : Nat) : TrapContext :=
  { cx with x := fun i => if i = 0 ∨ i = 4 then cx.x i else x i, sstatus, sepc }

end TrapContext

/-- What happens to a task; nothing reads it. -/
inductive Event where
  /-- `call_user_signal_handler` has saved the trap context and turned to the handler. -/
  | delivered (sig : Nat) (saved : TrapContext)
  /-- `sys_sigretrun` is over, its result included. -/
  | sigreturned (cx : TrapContext)
  /-- `trap_return` goes back to the program. -/
  | resumed (cx : TrapContext)

/-- Where a task goes on. -/
inductive Control where
  /-- In its program. -/
  | user
  /-- In a system call that has suspended it. -/
  | call
  /-- At `handle_signals`. -/
  | signals
  /-- At the loop of `handle_signals`. -/
  | loop
  deriving DecidableEq

/-- What `TaskControlBlockInner` has for traps and signals. -/
structure TaskInner where
  trapCx : TrapContext
  signals : SignalFlags
  signalMask : SignalFlags
  handlingSig : Int
  signalActions : List SignalAction
  killed : Bool
  frozen : Bool
  trapCtxBackup : Option TrapContext
  control : Control
  log : List Event

namespace SignalFlags

def SIGINT : SignalFlags := 0x4
def SIGABRT : SignalFlags := 0x40
def SIGFPE : SignalFlags := 0x100

/-- `SignalFlags::check_error` -/
def checkError (flags : SignalFlags) : Option (Int × String) :=
  if contains flags SIGINT then some (-2, "Killed, SIGINT=2")
  else if contains flags SIGILL then some (-4, "Illegal Instruction, SIGILL=4")
  else if contains flags SIGABRT then some (-6, "Aborted, SIGABRT=6")
  else if contains flags SIGFPE then some (-8, "Erroneous Arithmetic Operation, SIGFPE=8")
  else if contains flags SIGKILL then some (-9, "Killed, SIGKILL=9")
  else if contains flags SIGSEGV then some (-11, "Segmentation Fault, SIGSEGV=11")
  else none

end SignalFlags

namespace TaskInner

open SignalFlags

/-- The record of a new `INITPROC`. -/
def new (trapCx : TrapContext) : TaskInner where
  trapCx := trapCx
  signals := 0
  signalMask := 0
  handlingSig := -1
  signalActions := List.replicate 32 SignalAction.default
  killed := false
  frozen := false
  trapCtxBackup := none
  control := .user
  log := []

/-- The record that `fork` makes; `kernelSp` is the top of the kernel stack of the child. -/
def fork (t : TaskInner) (kernelSp : Nat) : TaskInner where
  trapCx := { t.trapCx.setA0 0 with kernelSp }
  signals := 0
  signalMask := t.signalMask
  handlingSig := -1
  signalActions := t.signalActions
  killed := false
  frozen := false
  trapCtxBackup := none
  control := .user
  log := []

/-! ## System calls -/

/-- `sys_kill`, from the point where it has found the task. -/
def kill (flag : SignalFlags) : Comp TaskInner Int := do
  let t ← Comp.get
  if contains t.signals flag then return -1
  else do
    Comp.modify fun t => { t with signals := t.signals ||| flag }
    return 0

/-- `sys_sigprocmask` -/
def sysSigprocmask (mask : SignalFlags) : Comp TaskInner Int := do
  let t ← Comp.get
  Comp.modify fun t => { t with signalMask := mask }
  return t.signalMask.toNat

/-- `sys_sigretrun` -/
def sysSigreturn : Comp TaskInner Int := do
  Comp.modify fun t => { t with handlingSig := -1 }
  let t ← Comp.get
  let backup ← Comp.unwrap t.trapCtxBackup
  Comp.modify fun t => { t with trapCx := backup }
  return 0

/-- `sys_sigaction`; `value` is the action that user memory holds at `action`. -/
def sysSigaction (signum : UInt32) (action oldAction : Nat) (value : SignalAction) : Comp TaskInner Int := do
  if 31 < signum then return -1
  else if Kernel.checkSigactionError (ofSignum signum) action oldAction then return -1
  else do
    Comp.modify fun t => { t with signalActions := t.signalActions.set signum.toNat value }
    return 0

/-- `current_add_signal` -/
def currentAddSignal (signal : SignalFlags) : Comp TaskInner Unit :=
  Comp.modify fun t => { t with signals := t.signals ||| signal }

/-! ## Delivery -/

/-- `call_kernel_signal_handler` -/
def callKernelSignalHandler (signal : SignalFlags) : Comp TaskInner Unit := do
  if signal = SIGSTOP then
    Comp.modify fun t => { t with frozen := true, signals := t.signals ^^^ SIGSTOP }
  else if signal = SIGCONT then do
    let t ← Comp.get
    if contains t.signals SIGCONT then
      Comp.modify fun t => { t with signals := t.signals ^^^ SIGCONT, frozen := false }
    else return ()
  else
    Comp.modify fun t => { t with killed := true }

/-- `call_user_signal_handler` -/
def callUserSignalHandler (sig : Nat) (signal : SignalFlags) : Comp TaskInner Unit := do
  let t ← Comp.get
  let action ← Comp.unwrap t.signalActions[sig]?
  if action.handler ≠ 0 then
    Comp.modify fun t => { t with
      signalMask := action.mask
      handlingSig := sig
      signals := t.signals ^^^ signal
      trapCtxBackup := some t.trapCx
      trapCx := { t.trapCx.setA0 sig with sepc := action.handler }
      log := t.log ++ [.delivered sig t.trapCx] }
  else
    return ()

/-- The loop of `check_pending_signals` over the signals still to check. -/
def checkPendingLoop : List Nat → Comp TaskInner Unit
  | [] => return ()
  | sig :: sigs => do
    let t ← Comp.get
    let signal := ofSignum (UInt32.ofNat sig)
    if contains t.signals signal ∧ ¬ contains t.signalMask signal then
      -- a handler is running: its action may exclude the signal
      let blocked ← if t.handlingSig = -1 then pure false else do
        let action ← Comp.unwrap t.signalActions[t.handlingSig.toNat]?
        pure (contains action.mask signal)
      if blocked then checkPendingLoop sigs
      else if Kernel.isKernelSignal signal then do
        callKernelSignalHandler signal
        checkPendingLoop sigs
      else
        callUserSignalHandler sig signal
    else
      checkPendingLoop sigs

/-- `check_pending_signals` -/
def checkPendingSignals : Comp TaskInner Unit := checkPendingLoop (List.range 32)

/-! ## Traps -/

/-- `__alltraps` -/
def allTraps (x : Fin 32 → Nat) (sstatus sepc : Nat) : Comp TaskInner Unit := do
  let t ← Comp.get
  Comp.assert (t.control = .user)
  Comp.modify fun t => { t with trapCx := t.trapCx.save x sstatus sepc }

/-- `trap_return` -/
def trapReturn : Comp TaskInner Unit :=
  Comp.modify fun t => { t with control := .user, log := t.log ++ [.resumed t.trapCx] }

end TaskInner

/-- A system call. -/
inductive Syscall where
  | kill (pid : Nat) (signum : UInt32)
  | sigprocmask (mask : SignalFlags)
  | sigaction (signum : UInt32) (action oldAction : Nat) (value : SignalAction)
  | sigreturn
  | exit (exitCode : Int32)
  | fork (child kernelSp : Nat)
  /-- Any call that can suspend the task: `sys_yield`, `sys_read`, `sys_write`. -/
  | blocking
  /-- Any other call, which may leave another trap context, as `sys_exec` does, and return anything. -/
  | other (cx : TrapContext) (r : Int)

/-- `scause` -/
inductive Cause where
  | userEnvCall (call : Syscall)
  /-- A fault of a store, a load or an instruction fetch. -/
  | pageFault
  | illegalInstruction
  | supervisorTimer

/-- The tasks that have not exited, by pid, and the one that the processor runs. -/
structure TrapSystem where
  tasks : Nat → Option TaskInner
  current : Option Nat
  /-- The exits so far; nothing reads it. -/
  exits : List (Nat × Int)

namespace TrapSystem

/-- Run a function of the task `pid`. -/
def onTask {α : Type} (pid : Nat) (x : Comp TaskInner α) : Comp TrapSystem α := do
  let s ← Comp.get
  let t ← Comp.unwrap (s.tasks pid)
  let (a, t) ← Comp.unwrap (x.run t)
  Comp.modify fun s => { s with tasks := Function.update s.tasks pid (some t) }
  return a

/-- `current_task().unwrap()` -/
def currentTask : Comp TrapSystem Nat := do
  let s ← Comp.get
  Comp.unwrap s.current

/-- `suspend_current_and_run_next`, which goes on at `control`. -/
def suspendCurrent (control : Control) : Comp TrapSystem Unit := do
  let cur ← currentTask
  onTask cur (Comp.modify fun t => { t with control })
  Comp.modify fun s => { s with current := none }

/-- `exit_current_and_run_next` -/
def exitCurrent (exitCode : Int) : Comp TrapSystem Unit := do
  let cur ← currentTask
  Comp.modify fun s => { s with
    tasks := Function.update s.tasks cur none
    current := none
    exits := s.exits ++ [(cur, exitCode)] }

/-- `syscall`: what it returns, if it does so at once. -/
def syscall : Syscall → Comp TrapSystem (Option Int)
  | .kill pid signum => do
    let s ← Comp.get
    if (s.tasks pid).isSome then do
      let r ← onTask pid (TaskInner.kill (SignalFlags.ofSignum signum))
      return some r
    else return some (-1)
  | .sigprocmask mask => do
    let cur ← currentTask
    let r ← onTask cur (TaskInner.sysSigprocmask mask)
    return some r
  | .sigaction signum action oldAction value => do
    let cur ← currentTask
    let r ← onTask cur (TaskInner.sysSigaction signum action oldAction value)
    return some r
  | .sigreturn => do
    let cur ← currentTask
    let r ← onTask cur TaskInner.sysSigreturn
    return some r
  | .exit exitCode => do
    exitCurrent exitCode.toInt
    return none
  | .fork child kernelSp => do
    let cur ← currentTask
    let s ← Comp.get
    let t ← Comp.unwrap (s.tasks cur)
    Comp.assert ((s.tasks child).isNone = true)
    Comp.modify fun s => { s with tasks := Function.update s.tasks child (some (t.fork kernelSp)) }
    return some child
  | .blocking => do
    suspendCurrent .call
    return none
  | .other cx r => do
    let cur ← currentTask
    onTask cur (Comp.modify fun t => { t with trapCx := cx })
    return some r

/-- The end of a system call: `cx.x[10] = result`. -/
def endCall (r : Int) (log : TrapContext → List Event) : Comp TaskInner Unit :=
  Comp.modify fun t =>
    let cx := t.trapCx.setA0 (r % 2 ^ 64).toNat
    { t with trapCx := cx, control := .signals, log := t.log ++ log cx }

end TrapSystem

/-- What can happen next. -/
inductive TrapOp where
  /-- `run_tasks` fetches a task. -/
  | fetch (pid : Nat)
  /-- The program of the current task traps; `trap_handler` up to `handle_signals`. -/
  | trap (x : Fin 32 → Nat) (sstatus sepc : Nat) (cause : Cause)
  /-- The system call that the current task is in suspends it again. -/
  | wait
  /-- It returns. -/
  | callReturns (cx : TrapContext) (r : Int)
  /-- `handle_signals` up to its loop. -/
  | handleSignals
  /-- A pass of the loop, and the rest of `trap_handler` if it leaves the loop. -/
  | pass

namespace TrapSystem

open TaskInner

/-- One step. -/
def step : TrapOp → Comp TrapSystem Unit
  | .fetch pid => do
    let s ← Comp.get
    Comp.assert (s.current = none ∧ (s.tasks pid).isSome = true)
    Comp.modify fun s => { s with current := some pid }
  | .trap x sstatus sepc cause => do
    let cur ← currentTask
    onTask cur (allTraps x sstatus sepc)
    match cause with
    | .userEnvCall call => do
      onTask cur (Comp.modify fun t => { t with trapCx := { t.trapCx with sepc := usizeAdd t.trapCx.sepc 4 } })
      match ← syscall call with
      | some r =>
        onTask cur (endCall r fun cx => match call with
          | .sigreturn => [.sigreturned cx]
          | _ => [])
      | none => return ()
    | .pageFault => do
      onTask cur (currentAddSignal SignalFlags.SIGSEGV)
      onTask cur (Comp.modify fun t => { t with control := .signals })
    | .illegalInstruction => do
      onTask cur (currentAddSignal SignalFlags.SIGILL)
      onTask cur (Comp.modify fun t => { t with control := .signals })
    | .supervisorTimer => suspendCurrent .signals
  | .wait => do
    let cur ← currentTask
    let s ← Comp.get
    let t ← Comp.unwrap (s.tasks cur)
    Comp.assert (t.control = .call)
    suspendCurrent .call
  | .callReturns cx r => do
    let cur ← currentTask
    let s ← Comp.get
    let t ← Comp.unwrap (s.tasks cur)
    Comp.assert (t.control = .call)
    onTask cur (Comp.modify fun t => { t with trapCx := cx })
    onTask cur (endCall r fun _ => [])
  | .handleSignals => do
    let cur ← currentTask
    let s ← Comp.get
    let t ← Comp.unwrap (s.tasks cur)
    Comp.assert (t.control = .signals)
    onTask cur checkPendingSignals
    onTask cur (Comp.modify fun t => { t with control := .loop })
  | .pass => do
    let cur ← currentTask
    let s ← Comp.get
    let t ← Comp.unwrap (s.tasks cur)
    Comp.assert (t.control = .loop)
    if t.frozen = false ∨ t.killed = true then
      match SignalFlags.checkError t.signals with
      | some (errno, _) => exitCurrent errno
      | none => onTask cur trapReturn
    else do
      onTask cur checkPendingSignals
      suspendCurrent .loop

/-- The states after a start with `INITPROC` alone and any number of steps that satisfy `ok`. -/
inductive Reached (ok : TrapSystem → TrapOp → Prop) : TrapSystem → Prop
  | start (pid : Nat) (cx : TrapContext) :
    Reached ok ⟨fun p => if p = pid then some (.new cx) else none, none, []⟩
  | step {s s' : TrapSystem} (op : TrapOp) (hs : Reached ok s) (hok : ok s op)
      (h : (step op).run s = some ((), s')) : Reached ok s'

end TrapSystem

end RCore.Task
