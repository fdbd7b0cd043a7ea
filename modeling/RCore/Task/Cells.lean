import RCore.Fs.FdTable
import RCore.Lib.Guarded
import RCore.Task.Process
import RCore.Task.Trap

/-!
# Borrowing

Every shared structure of the kernel is in an `UPSafeCell`, and `exclusive_access` panics if a handle on
the cell is alive. Here the system calls, the traps and the scheduler are programs that take and drop
handles where the code does; what they compute is what the functions of the kernel without handles
compute. A handle on a temporary lives until the end of its statement, one in a variable until it is
dropped or its block ends.

What a function does many times in the same way, it does once here: the calls of `frame_alloc` and
`frame_dealloc` that a function of the memory manager makes, and the accesses to blocks of a function of
the file system. Where a path through a function takes some of the handles of another path only, the
longer path stands for both.

The files of a task, what it passes to a system call and what a system call stores in its memory are
inputs.
-/

namespace RCore.Task

open RCore Mm Fs Guarded

/-- The cells. -/
inductive Cell where
  /-- `TaskControlBlockInner` -/
  | task (addr : Nat)
  | processor
  | taskManager
  | kernelSpace
  | frameAllocator
  | pidAllocator
  /-- `PipeRingBuffer` -/
  | pipe (pipe : Nat)
  /-- `OSInodeInner` -/
  | osInode (path : List Char)
  /-- `VirtIOBlk` -/
  | blockDevice
  deriving DecidableEq

/-- A function of the kernel. -/
abbrev Code (B : BinaryHeap) (α : Type) := Guarded Cell (Kernel B) α

namespace Code

variable {B : BinaryHeap} (I : Image)

/-! ## The processor and the task manager -/

/-- `current_task().unwrap()` -/
def currentTask : Code B Nat := during .processor (comp Kernel.currentTask)

/-- `take_current_task().unwrap()` -/
def takeCurrentTask : Code B Nat := during .processor (comp Kernel.takeCurrentTask)

/-- `current_user_token` of the task at `cur`, which runs. -/
def userToken (cur : Nat) : Code B Unit := do
  access .processor
  access (.task cur)

/-- `current_user_token` -/
def currentUserToken : Code B Unit := do
  let cur ← currentTask
  access (.task cur)

/-- `current_trap_cx` -/
def currentTrapCx : Code B Unit := do
  let cur ← currentTask
  access (.task cur)

/-- `schedule` -/
def schedule : Code B Unit := access .processor

/-- `add_task`. The pass is changed, and read again. -/
def addTask (addr : Nat) : Code B Unit :=
  during .taskManager do
    access (.task addr)
    access (.task addr)
    comp (Kernel.addTask addr)

/-- `fetch_task` -/
def fetchTask : Code B (Option Nat) := during .taskManager (comp Kernel.fetchTask)

/-- `pid2task` -/
def pid2task (pid : Nat) : Code B (Option Nat) := do
  let cur ← currentTask
  let t ← comp (Kernel.task cur)
  if pid = t.pid then do
    access .processor
    return some cur
  else during .taskManager do
    let k ← comp Comp.get
    return k.readyQueue.lookup pid

/-- A round of the loop of `run_tasks`. -/
def runTasks : Code B Unit :=
  during .processor do
    let k ← comp Comp.get
    comp (Comp.assert (k.current = none))
    match ← fetchTask with
    | some addr => do
      during (.task addr) do
        let t ← comp (Kernel.task addr)
        comp (Kernel.setTask addr { t with taskStatus := .running })
      comp (Comp.modify fun k => { k with current := some addr })
    | none => return ()

/-- `suspend_current_and_run_next` -/
def suspendCurrentAndRunNext : Code B Unit := do
  let addr ← takeCurrentTask
  during (.task addr) do
    let t ← comp (Kernel.task addr)
    comp (Kernel.setTask addr { t with taskStatus := .ready })
  addTask addr
  schedule

/-! ## Memory, pids and kernel stacks -/

/-- A function of the memory manager that calls `frame_alloc` or `frame_dealloc`. -/
def onFrames {α : Type} (x : Comp Phys α) : Code B α := do
  access .frameAllocator
  comp (Kernel.onPhys x)

/-- `pid_alloc` -/
def pidAlloc : Code B Nat := during .pidAllocator (comp Kernel.pidAlloc)

/-- The drop of a `PidHandle`. -/
def pidDealloc (pid : Nat) : Code B Unit := during .pidAllocator (comp (Kernel.pidDealloc pid))

/-- `KernelStack::new` -/
def newKernelStack (pid : Nat) : Code B Nat :=
  during .kernelSpace do
    access .frameAllocator
    comp (Kernel.newKernelStack pid)

/-- The drop of a `KernelStack`. -/
def dropKernelStack (stack : Nat) : Code B Unit :=
  during .kernelSpace do
    access .frameAllocator
    comp (Kernel.dropKernelStack stack)

/-- The drop of a task control block. -/
def dropTask (addr : Nat) : Code B Unit := do
  let t ← comp (Kernel.task addr)
  comp (Comp.modify fun k => { k with tasks := Function.update k.tasks addr none })
  pidDealloc t.pid
  dropKernelStack t.kernelStack
  onFrames t.memorySet.drop

/-! ## Exit -/

/-- The loop of `exit_current_and_run_next` over the children still to give to `INITPROC`. -/
def adopt (addr init : Nat) : List Nat → Code B Unit
  | [] => return ()
  | child :: children => do
    during (.task child) do
      -- three handles
      comp (Comp.assert (child ≠ addr ∧ child ≠ init))
      let c ← comp (Kernel.task child)
      comp (Kernel.setTask child { c with parent := some init })
    let i ← comp (Kernel.task init)
    comp (Kernel.setTask init { i with children := i.children ++ [child] })
    adopt addr init children

/-- `exit_current_and_run_next` -/
def exitCurrentAndRunNext (exitCode : Int32) : Code B Unit := do
  let addr ← takeCurrentTask
  during (.task addr) do
    let t ← comp (Kernel.task addr)
    let k ← comp Comp.get
    let init ← comp (Comp.unwrap k.initproc)
    during (.task init) do
      -- two handles
      comp (Comp.assert (init ≠ addr))
      adopt addr init t.children
    let memorySet ← onFrames t.memorySet.recycleDataPages
    comp (Kernel.setTask addr { t with taskStatus := .zombie, exitCode, children := [], memorySet })
  -- drop task
  let k ← comp Comp.get
  if k.strongCount addr = 0 then dropTask addr
  schedule

/-! ## Fork and exec -/

/-- `TaskControlBlock::fork` -/
def fork (addr : Nat) : Code B Nat :=
  during (.task addr) do
    let t ← comp (Kernel.task addr)
    let memorySet ← onFrames (MemorySet.fromExistedUserspace I.toLayout t.memorySet)
    let pid ← pidAlloc
    let kernelStack ← newKernelStack pid
    let trapCxPpn ← comp (Kernel.trapCxPpnOf memorySet)
    let k ← comp Comp.get
    -- the cell of the child
    access (.task k.next)
    comp (Kernel.onPhys (storePhys (trapCxPpn * 4096 + 8 * 35) (leEncode 8 (Kernel.kernelStackTop kernelStack))))
    let child ← comp (Kernel.newTask {
      pid, kernelStack, trapCxPpn
      baseSize := t.baseSize
      priority := t.priority
      pass := t.pass
      ghostPass := t.ghostPass
      taskStatus := .ready
      memorySet
      parent := some addr
      children := []
      exitCode := 0
      signals := 0
      signalMask := t.signalMask
      handlingSig := -1
      signalActions := t.signalActions
      killed := false
      frozen := false
      trapCtxBackup := none })
    comp (Kernel.setTask addr { t with children := t.children ++ [child] })
    return child

/-- `sys_fork` -/
def sysFork : Code B Int := do
  let cur ← currentTask
  let child ← fork I cur
  let t ← during (.task child) (comp (Kernel.task child))
  comp (Kernel.onPhys (storePhys (t.trapCxPpn * 4096 + 8 * 10) (leEncode 8 0)))
  addTask child
  return t.pid

/-- An access of the file system to its block device, which translates the address of its buffer by
`kernel_token`. -/
def blockIo : Code B Unit := during .blockDevice (access .kernelSpace)

/-- `sys_exec` of the file at `path`. -/
def sysExec (path : List Char) (elf : ElfFile) (args : List (List UInt8)) (sstatus : Nat) : Code B Int := do
  let cur ← currentTask
  userToken cur
  -- `open_file` and `read_all`
  blockIo
  during (.osInode path) blockIo
  access .processor
  -- `TaskControlBlock::exec`
  let (memorySet, userSp, entryPoint) ← onFrames (MemorySet.fromElf I.toLayout elf)
  let userSp := usizeSub userSp (usizeMul (args.length + 1) 8)
  let argvBase := userSp
  let argv ← comp (Kernel.argvSlots memorySet.token argvBase (List.range (args.length + 1)))
  let last ← comp (Comp.unwrap argv[args.length]?)
  comp (Kernel.onPhys (storePhys last (leEncode 8 0)))
  let userSp ← comp (Kernel.pushArgs memorySet.token args argv userSp)
  let userSp := usizeSub userSp (userSp % 8)
  let trapCxPpn ← comp (Kernel.trapCxPpnOf memorySet)
  during (.task cur) do
    let t ← comp (Kernel.task cur)
    comp (Kernel.setTask cur { t with memorySet, trapCxPpn })
    onFrames t.memorySet.drop
    access .kernelSpace
    let k ← comp Comp.get
    let cx := TrapContext.appInitContext entryPoint userSp k.kernelSpace.token
      (Kernel.kernelStackTop t.kernelStack) I.trapHandler sstatus
    let cx := { cx with x := fun i => if i = 10 then args.length else if i = 11 then argvBase else cx.x i }
    comp (Kernel.onPhys (storePhys (trapCxPpn * 4096) cx.asBytes))
  return args.length

/-- `sys_exec` of a file that does not exist. -/
def sysExecNotFound : Code B Unit := do
  currentUserToken
  blockIo

/-! ## Waiting -/

/-- The search of `sys_waitpid` for a child that has exited, up to the first. -/
def findZombie (k : Kernel B) (pid : Int) : List Nat → Code B Unit
  | [] => return ()
  | child :: children => do
    access (.task child)
    if k.collects pid child then return () else findZombie k pid children

/-- `sys_waitpid` -/
def sysWaitpid (pid : Int) (exitCodePtr : Nat) : Code B Int := do
  let cur ← currentTask
  during (.task cur) do
    let t ← comp (Kernel.task cur)
    let k ← comp Comp.get
    if ¬ t.children.any (k.waitsFor pid) then return -1
    else
      findZombie k pid t.children
      match t.children.findIdx? (k.collects pid) with
      | some idx => do
        let child ← comp (Comp.unwrap t.children[idx]?)
        comp (Kernel.setTask cur { t with children := t.children.eraseIdx idx })
        let k ← comp Comp.get
        comp (Comp.assert (k.strongCount child + 1 = 1))
        let c ← during (.task child) (comp (Kernel.task child))
        let pa ← comp (Kernel.onPhys (translatedRefmut t.memorySet.token exitCodePtr))
        comp (Kernel.onPhys (storePhys pa (leEncode 4 c.exitCode.toUInt32.toNat)))
        -- `child` goes before the handle on its parent
        dropTask child
        return c.pid
      | none => return -2

/-! ## Other system calls on the current task -/

/-- A function that holds the cell of the current task. -/
def onCurrent {α : Type} (f : Nat → TaskControlBlock → Comp (Kernel B) α) : Code B α := do
  let cur ← currentTask
  during (.task cur) do
    let t ← comp (Kernel.task cur)
    comp (f cur t)

/-- `sys_set_priority` -/
def sysSetPriority (prio : Nat) : Code B Int := do
  if prio < 2 ∨ 2 ^ 63 ≤ prio then return -1
  else onCurrent fun cur t => do
    Kernel.setTask cur { t with priority := prio }
    return prio

/-- A memory system call: the user token, the memory set, and the pid for the message of an error. -/
def onMemorySet (x : MemorySet → Comp Phys (Int × MemorySet)) : Code B Int := do
  let cur ← currentTask
  userToken cur
  access .processor
  let r ← during (.task cur) do
    let t ← comp (Kernel.task cur)
    let (r, memorySet) ← onFrames (x t.memorySet)
    comp (Kernel.setTask cur { t with memorySet })
    return r
  access .processor
  return r

/-- `sys_kill` -/
def sysKill (pid : Nat) (signum : UInt32) : Code B Int := do
  match ← pid2task pid with
  | some addr =>
    during (.task addr) do
      let t ← comp (Kernel.task addr)
      let flag := SignalFlags.ofSignum signum
      if SignalFlags.contains t.signals flag then return -1
      else do
        comp (Kernel.setTask addr { t with signals := t.signals ||| flag })
        return 0
  | none => return -1

/-- `sys_sigprocmask` -/
def sysSigprocmask (mask : UInt32) : Code B Int :=
  onCurrent fun cur t => do
    Kernel.setTask cur { t with signalMask := mask }
    return t.signalMask.toNat

/-- `sys_sigretrun` -/
def sysSigreturn : Code B Int :=
  onCurrent fun cur t => do
    Kernel.setTask cur { t with handlingSig := -1 }
    let backup ← Comp.unwrap t.trapCtxBackup
    Kernel.onPhys (storePhys (t.trapCxPpn * 4096) backup)
    return 0

/-- `sys_sigaction` -/
def sysSigaction (signum : UInt32) (action oldAction : Nat) (pad : UInt32) : Code B Int := do
  let cur ← currentTask
  userToken cur
  access .processor
  during (.task cur) do
    let t ← comp (Kernel.task cur)
    if 31 < signum then return -1
    else if Kernel.checkSigactionError (SignalFlags.ofSignum signum) action oldAction then return -1
    else comp do
      let old ← Comp.unwrap t.signalActions[signum.toNat]?
      let pa ← Kernel.onPhys (translatedRefmut t.memorySet.token oldAction)
      if old.mask ≠ 40 then Kernel.onPhys (storePhys pa (Kernel.actionBytes old pad))
      let pa ← Kernel.onPhys (translatedRefmut t.memorySet.token action)
      let k ← Comp.get
      let a := Kernel.readAction k.phys.mem pa
      Kernel.setTask cur { t with signalActions := t.signalActions.set signum.toNat a }
      return 0

/-! ## Signals -/

/-- `current_add_signal` -/
def currentAddSignal (signal : SignalFlags) : Code B Unit :=
  onCurrent fun cur t => Kernel.setTask cur { t with signals := t.signals ||| signal }

/-- `call_kernel_signal_handler` -/
def callKernelSignalHandler (signal : SignalFlags) : Code B Unit :=
  onCurrent fun cur t =>
    if signal = SignalFlags.SIGSTOP then
      Kernel.setTask cur { t with frozen := true, signals := t.signals ^^^ SignalFlags.SIGSTOP }
    else if signal = SignalFlags.SIGCONT then
      if SignalFlags.contains t.signals SignalFlags.SIGCONT then
        Kernel.setTask cur { t with signals := t.signals ^^^ SignalFlags.SIGCONT, frozen := false }
      else return ()
    else
      Kernel.setTask cur { t with killed := true }

/-- `call_user_signal_handler` -/
def callUserSignalHandler (sig : Nat) (signal : SignalFlags) : Code B Unit :=
  onCurrent fun cur t => do
    let action ← Comp.unwrap t.signalActions[sig]?
    if action.handler ≠ 0 then do
      let k ← Comp.get
      Kernel.setTask cur { t with
        signalMask := action.mask
        handlingSig := sig
        signals := t.signals ^^^ signal
        trapCtxBackup := some (k.phys.mem.bytes (t.trapCxPpn * 4096) trapContextSize) }
      Kernel.onPhys (storePhys (t.trapCxPpn * 4096 + 8 * 33) (leEncode 8 action.handler))
      Kernel.onPhys (storePhys (t.trapCxPpn * 4096 + 8 * 10) (leEncode 8 sig))
    else
      return ()

/-- The loop of `check_pending_signals`. The handle is dropped before a handler is called. -/
def checkPendingLoop : List Nat → Code B Unit
  | [] => return ()
  | sig :: sigs => do
    let cur ← currentTask
    let signal := SignalFlags.ofSignum (UInt32.ofNat sig)
    -- whether the signal is to be handled
    let handle ← during (.task cur) do
      let t ← comp (Kernel.task cur)
      if SignalFlags.contains t.signals signal ∧ ¬ SignalFlags.contains t.signalMask signal then
        let blocked ← if t.handlingSig = -1 then pure false else do
          let action ← comp (Comp.unwrap t.signalActions[t.handlingSig.toNat]?)
          pure (SignalFlags.contains action.mask signal)
        return !blocked
      else return false
    if handle then
      if Kernel.isKernelSignal signal then do
        callKernelSignalHandler signal
        checkPendingLoop sigs
      else
        callUserSignalHandler sig signal
    else
      checkPendingLoop sigs

/-- `check_pending_signals` -/
def checkPendingSignals : Code B Unit := checkPendingLoop (List.range 32)

/-- The test of `frozen` and `killed` in the loop of `handle_signals`. -/
def frozenOrKilled : Code B (Bool × Bool) := onCurrent fun _ t => return (t.frozen, t.killed)

/-- The end of `trap_handler`: `check_signals_error_of_current`, and the exit that an error means. -/
def checkSignalsError : Code B Unit := do
  match ← onCurrent fun _ t => return SignalFlags.checkError t.signals with
  | some (errno, _) => exitCurrentAndRunNext (Int32.ofInt errno)
  | none => return ()

/-! ## Files -/

/-- Inputs of a file function: the character that `console_getchar` returns, whether a pipe makes its
process wait, and what the memory of the machine is afterwards. -/
structure Input where
  c : Nat
  waits : Bool
  mem : Mem

/-- What is stored in the memory of the program. -/
def store (mem : Mem) : Code B Unit := comp (Kernel.onPhys (Comp.modify fun p => { p with mem }))

/-- `Stdin::read` up to its end, or to the suspension of its process. -/
def readStdin (input : Input) : Code B Unit := do
  if input.c = 0 then suspendCurrentAndRunNext
  else if input.c = 3 then do
    currentAddSignal SignalFlags.SIGINT
    store input.mem
  else store input.mem

/-- A round of the loop of `Pipe::read` or `Pipe::write`. -/
def pipeRound (pipe : Nat) (input : Input) : Code B Unit := do
  during (.pipe pipe) (store input.mem)
  if input.waits then suspendCurrentAndRunNext else return ()

/-- `OSInode::read`, `write` or `fstat`. -/
def onInode (path : List Char) (input : Input) : Code B Unit :=
  during (.osInode path) do
    blockIo
    store input.mem

/-- `File::read`, or a round of it -/
def read (file : File) (input : Input) : Code B Unit :=
  match file with
  | .stdin => readStdin input
  | .stdout => return ()
  | .inode path _ _ => onInode path input
  | .pipeRead pipe => pipeRound pipe input
  | .pipeWrite _ => return ()

/-- `File::write`, or a round of it -/
def write (file : File) (input : Input) : Code B Unit :=
  match file with
  | .stdin => return ()
  | .stdout => return ()
  | .inode path _ _ => onInode path input
  | .pipeRead _ => return ()
  | .pipeWrite pipe => pipeRound pipe input

/-- `File::fstat` -/
def fstat (file : File) (input : Input) : Code B Unit :=
  match file with
  | .inode path _ _ => onInode path input
  | _ => return ()

/-- `sys_read` and `sys_write`: the handle on the task is dropped before the file is used. -/
def onFile (file : Option File) (ok : File → Bool) (f : File → Input → Code B Unit) (input : Input) : Code B Unit := do
  let cur ← currentTask
  userToken cur
  access (.task cur)
  match file with
  | some file => if ok file then f file input else return ()
  | none => return ()

/-- `sys_read` of a descriptor that refers to `file`. -/
def sysRead (file : Option File) (input : Input) : Code B Unit := onFile file File.readable read input

/-- `sys_write` -/
def sysWrite (file : Option File) (input : Input) : Code B Unit := onFile file File.writable write input

/-- `sys_fstat`: the handle on the task is taken a second time. -/
def sysFstat (file : Option File) (input : Input) : Code B Unit := do
  let cur ← currentTask
  access (.task cur)
  userToken cur
  during (.task cur) do
    match file with
    | some file => fstat file input
    | none => return ()

/-- `sys_close` and `sys_dup`. -/
def onFdTable : Code B Unit := do
  let cur ← currentTask
  access (.task cur)

/-- `sys_open` -/
def sysOpen : Code B Unit := do
  let cur ← currentTask
  userToken cur
  blockIo
  access (.task cur)

/-- `sys_pipe`, which makes the pipe `pipe`. -/
def sysPipe (pipe : Nat) (input : Input) : Code B Unit := do
  let cur ← currentTask
  userToken cur
  during (.task cur) do
    access (.pipe pipe)
    store input.mem

/-- `sys_linkat` and `sys_unlinkat`. -/
def onRootInode : Code B Unit := do
  currentUserToken
  blockIo

/-- `sys_get_time` -/
def sysGetTime (input : Input) : Code B Unit := do
  currentUserToken
  store input.mem

/-- `sys_getpid` -/
def sysGetpid : Code B Unit := do
  let _ ← currentTask
  return ()

end Code

/-- What can happen next: the kernel's steps, and the pieces of a trap that are none of these. -/
inductive CodeOp where
  /-- The path is that of `sys_exec`. -/
  | kernel (op : Op) (path : List Char)
  /-- The start of a system call, and the store of its result. -/
  | trapCx
  | frozenOrKilled
  | checkSignalsError
  /-- `trap_return` -/
  | trapReturn
  | execNotFound
  | read (file : Option File) (input : Code.Input)
  | write (file : Option File) (input : Code.Input)
  /-- A process that waited in `File::read` goes on. -/
  | resumeRead (file : File) (input : Code.Input)
  /-- A process that waited in `File::write` goes on. -/
  | resumeWrite (file : File) (input : Code.Input)
  | fstat (file : Option File) (input : Code.Input)
  | closeOrDup
  | openFile
  | pipe (pipe : Nat) (input : Code.Input)
  | linkOrUnlink
  | getTime (input : Code.Input)
  | getpid

namespace Code

variable {B : BinaryHeap} (I : Image)

/-- The step of the kernel with its handles. -/
def kernelStep (path : List Char) : Op → Code B Int
  | .runTasks => do
    runTasks
    return 0
  | .yield => do
    suspendCurrentAndRunNext
    return 0
  | .exit exitCode => do
    exitCurrentAndRunNext exitCode
    return 0
  | .fork => sysFork I
  | .exec elf args sstatus => sysExec I path elf args sstatus
  | .waitpid pid exitCodePtr => sysWaitpid pid exitCodePtr
  | .setPriority prio => sysSetPriority prio
  | .mmap start len prot => onMemorySet fun ms => sysMmap ms start len prot
  | .munmap start len => onMemorySet fun ms => sysMunmap ms start len
  | .userStore va b => do
    comp (Kernel.userStore va b)
    return 0
  | .kill pid signum => sysKill pid signum
  | .sigprocmask mask => sysSigprocmask mask
  | .sigaction signum action oldAction pad => sysSigaction signum action oldAction pad
  | .sigreturn => sysSigreturn
  | .addSignal signal => do
    currentAddSignal signal
    return 0
  | .checkPendingSignals => do
    checkPendingSignals
    return 0

/-- One step. -/
def step : CodeOp → Code B Unit
  | .kernel op path => do
    let _ ← kernelStep I path op
    return ()
  | .trapCx => currentTrapCx
  | .frozenOrKilled => do
    let _ ← frozenOrKilled
    return ()
  | .checkSignalsError => checkSignalsError
  | .trapReturn => currentUserToken
  | .execNotFound => sysExecNotFound
  | .read file input => sysRead file input
  | .write file input => sysWrite file input
  | .resumeRead file input => read file input
  | .resumeWrite file input => write file input
  | .fstat file input => sysFstat file input
  | .closeOrDup => onFdTable
  | .openFile => sysOpen
  | .pipe pipe input => sysPipe pipe input
  | .linkOrUnlink => onRootInode
  | .getTime input => sysGetTime input
  | .getpid => sysGetpid

/-- The handles that are alive and the states after a start and any number of steps. A step begins where
the processor is given to a task, or the piece before it ends, and ends at the next such place. -/
inductive Reached : List Cell → Kernel B → Prop
  | boot {mem : Mem} {dmaCalls : List Nat} {elf : ElfFile} {sstatus : Nat} {k : Kernel B}
      (h : Kernel.boot I mem dmaCalls elf sstatus = some k) : Reached [] k
  | step {held held' : List Cell} {k k' : Kernel B} (op : CodeOp) (hk : Reached held k)
      (h : (step I op).run held k = .returned () held' k') : Reached held' k'

end Code

end RCore.Task
