import RCore.Task.Kernel

/-!
# Signals

The signal system calls of `os/src/syscall/process.rs` and the delivery of signals
(`check_pending_signals` and what it calls in `os/src/task/mod.rs`). All 32 bits of a `SignalFlags` are
signals, so `from_bits` always succeeds. A shift by a signal number takes its amount modulo 32, as in
the release build.
-/

namespace RCore.Task

open RCore Mm

/-- `SignalFlags` -/
abbrev SignalFlags := UInt32

namespace SignalFlags

/-- `1 << signum` -/
def ofSignum (signum : UInt32) : SignalFlags := (1 : UInt32) <<< signum

/-- `SignalFlags::contains` -/
def contains (flags flag : SignalFlags) : Bool := flags &&& flag = flag

def SIGDEF : SignalFlags := 1
def SIGILL : SignalFlags := 0x10
def SIGKILL : SignalFlags := 0x200
def SIGSEGV : SignalFlags := 0x800
def SIGCONT : SignalFlags := 0x40000
def SIGSTOP : SignalFlags := 0x80000

end SignalFlags

namespace Kernel

variable {B : BinaryHeap}

open SignalFlags

/-! ## System calls -/

/-- `sys_kill` -/
def sysKill (pid : Nat) (signum : UInt32) : Comp (Kernel B) Int := do
  match ← pid2task pid with
  | some addr => do
    let t ← task addr
    let flag := ofSignum signum
    if contains t.signals flag then return -1
    else do
      setTask addr { t with signals := t.signals ||| flag }
      return 0
  | none => return -1

/-- `sys_sigprocmask` -/
def sysSigprocmask (mask : UInt32) : Comp (Kernel B) Int := do
  let cur ← currentTask
  let t ← task cur
  setTask cur { t with signalMask := mask }
  return t.signalMask.toNat

/-- `sys_sigretrun` -/
def sysSigreturn : Comp (Kernel B) Int := do
  let cur ← currentTask
  let t ← task cur
  setTask cur { t with handlingSig := -1 }
  let backup ← Comp.unwrap t.trapCtxBackup
  onPhys (storePhys (t.trapCxPpn * 4096) backup)
  return 0

/-- `check_sigaction_error` -/
def checkSigactionError (signal : SignalFlags) (action oldAction : Nat) : Bool :=
  action = 0 ∨ oldAction = 0 ∨ signal = SIGKILL ∨ signal = SIGSTOP

/-- A `SignalAction` in memory: the handler, the mask and four bytes of padding. -/
def actionBytes (a : SignalAction) (pad : UInt32) : List UInt8 :=
  leEncode 8 a.handler ++ leEncode 4 a.mask.toNat ++ leEncode 4 pad.toNat

/-- The `SignalAction` at a physical address. -/
def readAction (m : Mem) (pa : Nat) : SignalAction := ⟨m.word 8 pa, UInt32.ofNat (m.word 4 (pa + 8))⟩

/-- `sys_sigaction`. Of an action that was never set, the code changes a copy of the user's structure
only. `pad` is what the padding of the kernel's structure holds. -/
def sysSigaction (signum : UInt32) (action oldAction : Nat) (pad : UInt32) : Comp (Kernel B) Int := do
  let cur ← currentTask
  let t ← task cur
  if 31 < signum then return -1
  else if checkSigactionError (ofSignum signum) action oldAction then return -1
  else do
    let old ← Comp.unwrap t.signalActions[signum.toNat]?
    let pa ← onPhys (translatedRefmut t.memorySet.token oldAction)
    if old.mask ≠ 40 then onPhys (storePhys pa (actionBytes old pad))
    let pa ← onPhys (translatedRefmut t.memorySet.token action)
    let k ← Comp.get
    let a := readAction k.phys.mem pa
    setTask cur { t with signalActions := t.signalActions.set signum.toNat a }
    return 0

/-! ## Delivery -/

/-- `current_add_signal` -/
def currentAddSignal (signal : SignalFlags) : Comp (Kernel B) Unit := do
  let cur ← currentTask
  let t ← task cur
  setTask cur { t with signals := t.signals ||| signal }

/-- `call_kernel_signal_handler` -/
def callKernelSignalHandler (signal : SignalFlags) : Comp (Kernel B) Unit := do
  let cur ← currentTask
  let t ← task cur
  if signal = SIGSTOP then
    setTask cur { t with frozen := true, signals := t.signals ^^^ SIGSTOP }
  else if signal = SIGCONT then
    if contains t.signals SIGCONT then
      setTask cur { t with signals := t.signals ^^^ SIGCONT, frozen := false }
    else return ()
  else
    setTask cur { t with killed := true }

/-- `call_user_signal_handler` -/
def callUserSignalHandler (sig : Nat) (signal : SignalFlags) : Comp (Kernel B) Unit := do
  let cur ← currentTask
  let t ← task cur
  let action ← Comp.unwrap t.signalActions[sig]?
  if action.handler ≠ 0 then do
    let k ← Comp.get
    setTask cur { t with
      signalMask := action.mask
      handlingSig := sig
      signals := t.signals ^^^ signal
      trapCtxBackup := some (k.phys.mem.bytes (t.trapCxPpn * 4096) trapContextSize) }
    -- sepc, then a0
    onPhys (storePhys (t.trapCxPpn * 4096 + 8 * 33) (leEncode 8 action.handler))
    onPhys (storePhys (t.trapCxPpn * 4096 + 8 * 10) (leEncode 8 sig))
  else
    return ()

/-- The signals that the kernel handles itself. -/
def isKernelSignal (signal : SignalFlags) : Bool :=
  signal = SIGKILL ∨ signal = SIGSTOP ∨ signal = SIGCONT ∨ signal = SIGDEF

/-- The loop of `check_pending_signals` over the signals still to check. It ends at the first user
signal it delivers. -/
def checkPendingLoop : List Nat → Comp (Kernel B) Unit
  | [] => return ()
  | sig :: sigs => do
    let cur ← currentTask
    let t ← task cur
    let signal := ofSignum (UInt32.ofNat sig)
    if contains t.signals signal ∧ ¬ contains t.signalMask signal then
      -- a handler is running: its action may exclude the signal
      let blocked ← if t.handlingSig = -1 then pure false else do
        let action ← Comp.unwrap t.signalActions[t.handlingSig.toNat]?
        pure (contains action.mask signal)
      if blocked then checkPendingLoop sigs
      else if isKernelSignal signal then do
        callKernelSignalHandler signal
        checkPendingLoop sigs
      else
        callUserSignalHandler sig signal
    else
      checkPendingLoop sigs

/-- `check_pending_signals` -/
def checkPendingSignals : Comp (Kernel B) Unit := checkPendingLoop (List.range 32)

end Kernel

end RCore.Task
