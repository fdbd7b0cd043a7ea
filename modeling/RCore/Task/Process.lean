import RCore.Task.Signal

/-!
# Processes

Creation, `exec`, `fork`, `exit` and the system calls of `os/src/syscall/process.rs` and `memory.rs`
as functions on the state of the kernel, and `step`, which is what can happen next: a round of the
idle loop, a system call of the current task with any arguments, or a store of its program.

An ELF file comes from the file system and `exec` gets its arguments from user memory; both are inputs
here, so that nothing is assumed about them.
-/

namespace RCore.Task

open RCore Mm

namespace Kernel

variable {B : BinaryHeap} (I : Image)

/-! ## Creation -/

/-- The translation of the page of `TRAP_CONTEXT`, unwrapped. -/
def trapCxPpnOf (ms : MemorySet) : Comp (Kernel B) Nat := do
  let k ← Comp.get
  let pte ← Comp.unwrap (ms.translate k.phys.mem (VirtAddr.ofUsize trapContext).floor)
  return pte.ppn

/-- `Arc::new` of a task control block. -/
def newTask (t : TaskControlBlock) : Comp (Kernel B) Nat := do
  let k ← Comp.get
  setTask k.next t
  Comp.modify fun k => { k with next := k.next + 1 }
  return k.next

/-- `TaskControlBlock::new`, in an `Arc`. -/
def new (elf : ElfFile) (sstatus : Nat) : Comp (Kernel B) Nat := do
  let (memorySet, userSp, entryPoint) ← onPhys (MemorySet.fromElf I.toLayout elf)
  let trapCxPpn ← trapCxPpnOf memorySet
  let pid ← pidAlloc
  let kernelStack ← newKernelStack pid
  let k ← Comp.get
  let cx := TrapContext.appInitContext entryPoint userSp k.kernelSpace.token
    (kernelStackTop kernelStack) I.trapHandler sstatus
  onPhys (storePhys (trapCxPpn * 4096) cx.asBytes)
  newTask {
    pid, kernelStack, trapCxPpn
    baseSize := userSp
    priority := 16
    pass := 0
    ghostPass := 0
    taskStatus := .ready
    memorySet
    parent := none
    children := []
    exitCode := 0
    signals := 0
    signalMask := 0
    handlingSig := -1
    signalActions := List.replicate 32 SignalAction.default
    killed := false
    frozen := false
    trapCtxBackup := none }

/-- `add_initproc`, with the creation of `INITPROC`. -/
def addInitproc (elf : ElfFile) (sstatus : Nat) : Comp (Kernel B) Unit := do
  let addr ← new I elf sstatus
  Comp.modify fun k => { k with initproc := some addr }
  addTask addr

/-- Store a string of `exec`, byte by byte, with a final zero. -/
def storeArg (token : Nat) : List UInt8 → Nat → Comp (Kernel B) Unit
  | [], p => do
    let pa ← onPhys (translatedRefmut token p)
    onPhys (storePhys pa [0])
  | c :: cs, p => do
    let pa ← onPhys (translatedRefmut token p)
    onPhys (storePhys pa [c])
    storeArg token cs (usizeAdd p 1)

/-- The loop of `exec` over the arguments still to push; `slots` are the places of their pointers. The
top of the stack it leaves. -/
def pushArgs (token : Nat) : List (List UInt8) → List Nat → Nat → Comp (Kernel B) Nat
  | arg :: args, slot :: slots, userSp => do
    let userSp := usizeSub userSp (arg.length + 1)
    onPhys (storePhys slot (leEncode 8 userSp))
    storeArg token arg userSp
    pushArgs token args slots userSp
  | _, _, userSp => return userSp

/-- The places of the pointers of `argv`. -/
def argvSlots (token argvBase : Nat) : List Nat → Comp (Kernel B) (List Nat)
  | [] => return []
  | arg :: args => do
    let pa ← onPhys (translatedRefmut token (usizeAdd argvBase (usizeMul arg 8)))
    let pas ← argvSlots token argvBase args
    return pa :: pas

/-- `TaskControlBlock::exec` -/
def exec (elf : ElfFile) (args : List (List UInt8)) (sstatus : Nat) : Comp (Kernel B) Unit := do
  let (memorySet, userSp, entryPoint) ← onPhys (MemorySet.fromElf I.toLayout elf)
  let userSp := usizeSub userSp (usizeMul (args.length + 1) 8)
  let argvBase := userSp
  let argv ← argvSlots memorySet.token argvBase (List.range (args.length + 1))
  let last ← Comp.unwrap argv[args.length]?
  onPhys (storePhys last (leEncode 8 0))
  let userSp ← pushArgs memorySet.token args argv userSp
  let userSp := usizeSub userSp (userSp % 8)
  let trapCxPpn ← trapCxPpnOf memorySet
  let cur ← currentTask
  let t ← task cur
  -- the old memory set is dropped
  setTask cur { t with memorySet, trapCxPpn }
  onPhys t.memorySet.drop
  let k ← Comp.get
  let cx := TrapContext.appInitContext entryPoint userSp k.kernelSpace.token
    (kernelStackTop t.kernelStack) I.trapHandler sstatus
  let cx := { cx with x := fun i => if i = 10 then args.length else if i = 11 then argvBase else cx.x i }
  onPhys (storePhys (trapCxPpn * 4096) cx.asBytes)

/-! ## Fork -/

/-- `TaskControlBlock::fork` of the task at `addr`: the child. -/
def fork (addr : Nat) : Comp (Kernel B) Nat := do
  let t ← task addr
  let memorySet ← onPhys (MemorySet.fromExistedUserspace I.toLayout t.memorySet)
  let pid ← pidAlloc
  let kernelStack ← newKernelStack pid
  let trapCxPpn ← trapCxPpnOf memorySet
  -- modify kernel sp in child's trap_cx
  onPhys (storePhys (trapCxPpn * 4096 + 8 * 35) (leEncode 8 (kernelStackTop kernelStack)))
  let child ← newTask {
    pid, kernelStack, trapCxPpn
    baseSize := t.baseSize
    priority := t.priority
    pass := t.pass
    ghostPass := t.ghostPass
    taskStatus := .ready
    memorySet
    parent := some addr
    children := []
    exitCode := 0
    signals := 0
    signalMask := t.signalMask
    handlingSig := -1
    signalActions := t.signalActions
    killed := false
    frozen := false
    trapCtxBackup := none }
  setTask addr { t with children := t.children ++ [child] }
  return child

/-- `sys_fork` -/
def sysFork : Comp (Kernel B) Int := do
  let cur ← currentTask
  let child ← fork I cur
  let t ← task child
  -- return value of child is 0
  onPhys (storePhys (t.trapCxPpn * 4096 + 8 * 10) (leEncode 8 0))
  addTask child
  return t.pid

/-! ## Scheduling and exit -/

/-- `suspend_current_and_run_next` -/
def suspendCurrentAndRunNext : Comp (Kernel B) Unit := do
  let addr ← takeCurrentTask
  let t ← task addr
  setTask addr { t with taskStatus := .ready }
  addTask addr

/-- The loop of `exit_current_and_run_next` over the children still to give to `INITPROC`. The cells of
the exiting task and of `INITPROC` are borrowed. -/
def adopt (addr init : Nat) : List Nat → Comp (Kernel B) Unit
  | [] => return ()
  | child :: children => do
    Comp.assert (child ≠ addr ∧ child ≠ init)
    let c ← task child
    setTask child { c with parent := some init }
    let i ← task init
    setTask init { i with children := i.children ++ [child] }
    adopt addr init children

/-- The drop of a task control block: pid, kernel stack, memory set. It is dropped by the parent that
collects it; a zombie has no children, so no other task goes with it. -/
def dropTask (addr : Nat) : Comp (Kernel B) Unit := do
  let t ← task addr
  Comp.modify fun k => { k with tasks := Function.update k.tasks addr none }
  pidDealloc t.pid
  dropKernelStack t.kernelStack
  onPhys t.memorySet.drop

/-- `exit_current_and_run_next` -/
def exitCurrentAndRunNext (exitCode : Int32) : Comp (Kernel B) Unit := do
  let addr ← takeCurrentTask
  let t ← task addr
  let k ← Comp.get
  let init ← Comp.unwrap k.initproc
  -- the cell of `INITPROC` is borrowed while that of the task is
  Comp.assert (init ≠ addr)
  adopt addr init t.children
  let memorySet ← onPhys t.memorySet.recycleDataPages
  setTask addr { t with taskStatus := .zombie, exitCode, children := [], memorySet }
  -- drop task
  let k ← Comp.get
  if k.strongCount addr = 0 then dropTask addr else return ()

/-! ## Waiting -/

/-- A child that a `sys_waitpid` of `pid` is about. -/
def waitsFor (k : Kernel B) (pid : Int) (addr : Nat) : Bool :=
  match k.tasks addr with
  | some t => pid = -1 ∨ pid % 2 ^ 64 = t.pid
  | none => false

/-- Such a child that has exited. -/
def collects (k : Kernel B) (pid : Int) (addr : Nat) : Bool :=
  match k.tasks addr with
  | some t => t.taskStatus = .zombie ∧ (pid = -1 ∨ pid % 2 ^ 64 = t.pid)
  | none => false

/-- `sys_waitpid` -/
def sysWaitpid (pid : Int) (exitCodePtr : Nat) : Comp (Kernel B) Int := do
  let cur ← currentTask
  let t ← task cur
  let k ← Comp.get
  if ¬ t.children.any (k.waitsFor pid) then return -1
  else
    match t.children.findIdx? (k.collects pid) with
    | some idx => do
      let child ← Comp.unwrap t.children[idx]?
      setTask cur { t with children := t.children.eraseIdx idx }
      let k ← Comp.get
      -- the one reference left is the local variable
      Comp.assert (k.strongCount child + 1 = 1)
      let c ← task child
      let pa ← onPhys (translatedRefmut t.memorySet.token exitCodePtr)
      onPhys (storePhys pa (leEncode 4 c.exitCode.toUInt32.toNat))
      dropTask child
      return c.pid
    | none => return -2

/-! ## Other system calls -/

/-- `sys_set_priority` -/
def sysSetPriority (prio : Nat) : Comp (Kernel B) Int := do
  -- `prio as isize` is negative from 2 ^ 63 on
  if prio < 2 ∨ 2 ^ 63 ≤ prio then return -1
  else do
    let cur ← currentTask
    let t ← task cur
    setTask cur { t with priority := prio }
    return prio

/-- A memory system call of the current task. -/
def onMemorySet (x : MemorySet → Comp Phys (Int × MemorySet)) : Comp (Kernel B) Int := do
  let cur ← currentTask
  let t ← task cur
  let (r, memorySet) ← onPhys (x t.memorySet)
  setTask cur { t with memorySet }
  return r

/-- A store of one byte by the program of the current task, which the hardware allows on a page with
`U` and `W`. -/
def userStore (va : Nat) (b : UInt8) : Comp (Kernel B) Unit := do
  let cur ← currentTask
  let t ← task cur
  let k ← Comp.get
  let pte ← Comp.unwrap (t.memorySet.translate k.phys.mem (VirtAddr.ofUsize va).floor)
  Comp.assert (pte.flags &&& (PTEFlags.U ||| PTEFlags.W) = PTEFlags.U ||| PTEFlags.W)
  onPhys (storePhys (pte.ppn * 4096 + va % 4096) [b])

end Kernel

/-- What can happen next. -/
inductive Op where
  /-- A round of the idle loop. -/
  | runTasks
  /-- `sys_yield`, a timer interrupt, or a round of the loop of a frozen task. -/
  | yield
  | exit (exitCode : Int32)
  | fork
  | exec (elf : ElfFile) (args : List (List UInt8)) (sstatus : Nat)
  | waitpid (pid : Int) (exitCodePtr : Nat)
  | setPriority (prio : Nat)
  | mmap (start len prot : Nat)
  | munmap (start len : Nat)
  | userStore (va : Nat) (b : UInt8)
  | kill (pid : Nat) (signum : UInt32)
  | sigprocmask (mask : UInt32)
  | sigaction (signum : UInt32) (action oldAction : Nat) (pad : UInt32)
  | sigreturn
  /-- A fault of the program. -/
  | addSignal (signal : SignalFlags)
  /-- The signal phase of `trap_handler`, a round of the loop of `handle_signals`. -/
  | checkPendingSignals

namespace Kernel

variable {B : BinaryHeap} (I : Image)

/-- One step, with what the system call returns. -/
def step : Op → Comp (Kernel B) Int
  | .runTasks => do
    runTasks
    return 0
  | .yield => do
    suspendCurrentAndRunNext
    return 0
  | .exit exitCode => do
    exitCurrentAndRunNext exitCode
    return 0
  | .fork => sysFork I
  | .exec elf args sstatus => do
    exec I elf args sstatus
    return args.length
  | .waitpid pid exitCodePtr => sysWaitpid pid exitCodePtr
  | .setPriority prio => sysSetPriority prio
  | .mmap start len prot => onMemorySet fun ms => sysMmap ms start len prot
  | .munmap start len => onMemorySet fun ms => sysMunmap ms start len
  | .userStore va b => do
    userStore va b
    return 0
  | .kill pid signum => sysKill pid signum
  | .sigprocmask mask => sysSigprocmask mask
  | .sigaction signum action oldAction pad => sysSigaction signum action oldAction pad
  | .sigreturn => sysSigreturn
  | .addSignal signal => do
    currentAddSignal signal
    return 0
  | .checkPendingSignals => do
    checkPendingSignals
    return 0

/-! ## The start -/

/-- The loop of `virtio_dma_alloc` over the pages still to take; `base` is the first frame. -/
def virtioDmaLoop : Option Nat → Nat → Nat → Comp Phys (List Nat)
  | _, _, 0 => return []
  | base, i, pages + 1 => do
    let frame ← Comp.unwrap (← frameAlloc)
    let base := base.getD frame
    Comp.assert (frame = base + i)
    let frames ← virtioDmaLoop (some base) (i + 1) pages
    return frame :: frames

/-- The calls of `virtio_dma_alloc` that the block device makes when it is set up: the frames. -/
def virtioDmaAlloc : List Nat → Comp Phys (List Nat)
  | [] => return []
  | pages :: calls => do
    let frames ← virtioDmaLoop none 0 pages
    let rest ← virtioDmaAlloc calls
    return frames ++ rest

/-- `mm::init` on a machine whose memory holds `mem`: the frame allocator and the kernel's address
space. -/
def initMemory (mem : Mem) : Option (MemorySet × Phys) :=
  (MemorySet.newKernel I.toLayout).run ⟨mem, ⟨I.firstFrame, memoryEnd / 4096, []⟩, false⟩

/-- `rust_main` up to `run_tasks`. `INITPROC` is read from the block device, which is set up then. -/
def boot (mem : Mem) (dmaCalls : List Nat) (elf : ElfFile) (sstatus : Nat) : Option (Kernel B) := do
  let (kernelSpace, phys) ← initMemory I mem
  let (queueFrames, phys) ← (virtioDmaAlloc dmaCalls).run phys
  let k : Kernel B := {
    phys, kernelSpace, queueFrames
    pidAllocator := ⟨0, []⟩
    tasks := fun _ => none
    next := 0
    readyQueue := []
    scheduler := B.new
    current := none
    initproc := none }
  ((addInitproc I elf sstatus).run k).map Prod.snd

/-- The states after a start and any number of steps that satisfy `ok`. -/
inductive Reached (ok : Kernel B → Op → Prop) : Kernel B → Prop
  | boot {mem : Mem} {dmaCalls : List Nat} {elf : ElfFile} {sstatus : Nat} {k : Kernel B}
      (h : boot I mem dmaCalls elf sstatus = some k) : Reached ok k
  | step {k k' : Kernel B} {r : Int} (op : Op) (hk : Reached ok k) (hok : ok k op)
      (h : (step I op).run k = some (r, k')) : Reached ok k'

end Kernel

end RCore.Task
