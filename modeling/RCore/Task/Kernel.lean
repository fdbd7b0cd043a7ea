import RCore.Mm.MemorySet
import RCore.Task.Scheduler

/-!
# Tasks, the ready queue and the processor

The state of the kernel and the records it is made of (`os/src/task/task.rs`, `pid.rs`, `manager.rs`,
`processor.rs`, `trap/context.rs`). An `Arc<TaskControlBlock>` is an address in `tasks`; addresses are
never used twice. The strong count of a task is the number of places in the state that hold its
address: the processor, the ready queue, the children of every task and the static `INITPROC`. A
`Weak` is an address too, which does not count.

Left out of a task are its descriptor table and its kernel context, which no function here looks at.
-/

namespace RCore.Task

open RCore Mm

/-- `TaskStatus` -/
inductive TaskStatus where
  | unInit
  | ready
  | running
  | zombie
  | exited
  deriving DecidableEq

/-! ## Records -/

/-- `SignalAction` -/
structure SignalAction where
  handler : Nat
  mask : UInt32
  deriving DecidableEq

/-- `SignalAction::default` -/
def SignalAction.default : SignalAction := ⟨0, 40⟩

/-- `TrapContext` -/
structure TrapContext where
  x : Fin 32 → Nat
  sstatus : Nat
  sepc : Nat
  kernelSatp : Nat
  kernelSp : Nat
  trapHandler : Nat

namespace TrapContext

/-- The fields in the order of the structure. -/
def words (cx : TrapContext) : List Nat :=
  List.ofFn cx.x ++ [cx.sstatus, cx.sepc, cx.kernelSatp, cx.kernelSp, cx.trapHandler]

/-- The bytes of a trap context. -/
def asBytes (cx : TrapContext) : List UInt8 := cx.words.flatMap (leEncode 8)

/-- `TrapContext::app_init_context`; `sstatus` is the value of the register with `SPP` set to
`User`. -/
def appInitContext (entry sp kernelSatp kernelSp trapHandler sstatus : Nat) : TrapContext where
  x i := if i = 2 then sp else 0
  sstatus := sstatus
  sepc := entry
  kernelSatp := kernelSatp
  kernelSp := kernelSp
  trapHandler := trapHandler

end TrapContext

/-- The size of a `TrapContext` in bytes. -/
def trapContextSize : Nat := 37 * 8

/-- `TaskControlBlock` with its `TaskControlBlockInner`. -/
structure TaskControlBlock where
  pid : Nat
  /-- The number in the `KernelStack`, which is `usize::MAX` if the stack could not be mapped. -/
  kernelStack : Nat
  trapCxPpn : Nat
  baseSize : Nat
  priority : Nat
  pass : Nat
  /-- The sum that `pass` is without wrapping around; nothing reads it. -/
  ghostPass : Nat
  taskStatus : TaskStatus
  memorySet : MemorySet
  parent : Option Nat
  children : List Nat
  exitCode : Int32
  signals : UInt32
  signalMask : UInt32
  handlingSig : Int
  signalActions : List SignalAction
  killed : Bool
  frozen : Bool
  /-- The bytes of the saved trap context. -/
  trapCtxBackup : Option (List UInt8)

/-- `PidAllocator`. The first element of `recycled` is the top of the code's stack. -/
structure PidAllocator where
  current : Nat
  recycled : List Nat
  deriving DecidableEq

namespace PidAllocator

/-- `PidAllocator::alloc` -/
def alloc (a : PidAllocator) : Nat × PidAllocator :=
  match a.recycled with
  | pid :: rest => (pid, { a with recycled := rest })
  | [] => (a.current, { a with current := a.current + 1 })

end PidAllocator

/-- What the linker decides: the sections of the kernel and the address of `trap_handler`. -/
structure Image extends Layout where
  trapHandler : Nat

/-- The state of the kernel. -/
structure Kernel (B : BinaryHeap) where
  phys : Phys
  /-- `KERNEL_SPACE` -/
  kernelSpace : MemorySet
  /-- `QUEUE_FRAMES`, the frames of the block device. -/
  queueFrames : List Nat
  /-- `PID_ALLOCATOR` -/
  pidAllocator : PidAllocator
  /-- The task control blocks in memory, by address. -/
  tasks : Nat → Option TaskControlBlock
  /-- The first address never used. -/
  next : Nat
  /-- The ready queue of `TASK_MANAGER`, in the order of the pids. -/
  readyQueue : List (Nat × Nat)
  /-- The scheduler of `TASK_MANAGER`. -/
  scheduler : StrideScheduler B
  /-- The current task of `PROCESSOR`. -/
  current : Option Nat
  /-- `INITPROC` -/
  initproc : Option Nat

namespace Kernel

variable {B : BinaryHeap}

/-- The addresses held by the state, each as often as it is held. -/
def refs (k : Kernel B) : List Nat :=
  k.initproc.toList ++ k.current.toList ++ k.readyQueue.map Prod.snd ++
    (List.range k.next).flatMap fun a => ((k.tasks a).map TaskControlBlock.children).getD []

/-- `Arc::strong_count`, without the references that local variables hold. -/
def strongCount (k : Kernel B) (addr : Nat) : Nat := k.refs.count addr

/-- Run a function of the memory manager. -/
def onPhys {α : Type} (x : Comp Phys α) : Comp (Kernel B) α :=
  Comp.zoom Kernel.phys (fun k p => { k with phys := p }) x

/-- The task at an address. -/
def task (addr : Nat) : Comp (Kernel B) TaskControlBlock := do
  let k ← Comp.get
  Comp.unwrap (k.tasks addr)

/-- Change the task at an address. -/
def setTask (addr : Nat) (t : TaskControlBlock) : Comp (Kernel B) Unit :=
  Comp.modify fun k => { k with tasks := Function.update k.tasks addr (some t) }

/-! ## The processor -/

/-- `current_task().unwrap()` -/
def currentTask : Comp (Kernel B) Nat := do
  let k ← Comp.get
  Comp.unwrap k.current

/-- `take_current_task().unwrap()` -/
def takeCurrentTask : Comp (Kernel B) Nat := do
  let addr ← currentTask
  Comp.modify fun k => { k with current := none }
  return addr

/-! ## The task manager -/

/-- `TaskManager::add` -/
def addTask (addr : Nat) : Comp (Kernel B) Unit := do
  let t ← task addr
  -- the division panics on 0
  Comp.assert (t.priority ≠ 0)
  let stride := bigStride / t.priority
  let pass := usizeAdd t.pass stride
  setTask addr { t with pass, ghostPass := t.ghostPass + stride }
  Comp.modify fun k => { k with
    scheduler := k.scheduler.insertTask t.pid pass
    readyQueue := insertKey t.pid addr k.readyQueue }

/-- The loop of `TaskManager::fetch`: it drops the heap entries whose pid is not in the ready queue.
`fuel` bounds the rounds. -/
def fetchLoop : Nat → Comp (Kernel B) (Option Nat)
  | 0 => Comp.panic
  | fuel + 1 => do
    let k ← Comp.get
    let (next, scheduler) := k.scheduler.findNextTask
    Comp.modify fun k => { k with scheduler }
    match next with
    | some nextPid => if (k.readyQueue.lookup nextPid).isSome then return some nextPid else fetchLoop fuel
    | none => return none

/-- `TaskManager::fetch`. Every round takes an entry out of the heap, so one more round than there are
entries is enough. -/
def fetchTask : Comp (Kernel B) (Option Nat) := do
  let k ← Comp.get
  match ← fetchLoop ((B.elems k.scheduler).length + 1) with
  | some nextPid => do
    let k ← Comp.get
    let addr ← Comp.unwrap (k.readyQueue.lookup nextPid)
    Comp.modify fun k => { k with readyQueue := k.readyQueue.filter fun e => e.1 ≠ nextPid }
    return some addr
  | none => return none

/-- `pid2task` -/
def pid2task (pid : Nat) : Comp (Kernel B) (Option Nat) := do
  let cur ← currentTask
  let t ← task cur
  if pid = t.pid then return some cur
  else do
    let k ← Comp.get
    return k.readyQueue.lookup pid

/-- A round of the loop of `run_tasks`, which runs when no task does. -/
def runTasks : Comp (Kernel B) Unit := do
  let k ← Comp.get
  Comp.assert (k.current = none)
  match ← fetchTask with
  | some addr => do
    let t ← task addr
    setTask addr { t with taskStatus := .running }
    Comp.modify fun k => { k with current := some addr }
  | none => return ()

/-! ## Pids and kernel stacks -/

/-- `pid_alloc` -/
def pidAlloc : Comp (Kernel B) Nat := do
  let k ← Comp.get
  Comp.modify fun k => { k with pidAllocator := k.pidAllocator.alloc.2 }
  return k.pidAllocator.alloc.1

/-- The drop of a `PidHandle`. -/
def pidDealloc (pid : Nat) : Comp (Kernel B) Unit := do
  let k ← Comp.get
  Comp.assert (pid < k.pidAllocator.current ∧ pid ∉ k.pidAllocator.recycled)
  Comp.modify fun k => { k with
    pidAllocator := { k.pidAllocator with recycled := pid :: k.pidAllocator.recycled } }

/-- `kernel_stack_position`: bottom and top. -/
def kernelStackPosition (pid : Nat) : Nat × Nat :=
  let top := usizeSub trampoline (usizeMul pid (8192 + 4096))
  (usizeSub top 8192, top)

/-- `KernelStack::new`: the number of the stack. -/
def newKernelStack (pid : Nat) : Comp (Kernel B) Nat := do
  let k ← Comp.get
  let (bottom, top) := kernelStackPosition pid
  let (r, kernelSpace) ← onPhys (k.kernelSpace.insertFramedArea (VirtAddr.ofUsize bottom)
    (VirtAddr.ofUsize top) (PTEFlags.R ||| PTEFlags.W))
  Comp.modify fun k => { k with kernelSpace }
  match r with
  | .ok _ => return pid
  | .error _ => return 2 ^ 64 - 1

/-- `KernelStack::get_top` -/
def kernelStackTop (stack : Nat) : Nat := (kernelStackPosition stack).2

/-- The drop of a `KernelStack`. -/
def dropKernelStack (stack : Nat) : Comp (Kernel B) Unit := do
  let k ← Comp.get
  let vpn ← (VirtAddr.ofUsize (kernelStackPosition stack).1).toVpn
  let kernelSpace ← onPhys (k.kernelSpace.removeAreaWithStartVpn vpn)
  Comp.modify fun k => { k with kernelSpace }

end Kernel

end RCore.Task
