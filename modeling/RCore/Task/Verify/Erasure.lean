import RCore.Task.Cells
import RCore.Task.Verify.Steps

/-!
# The kernel without its handles

A function of the kernel with its handles computes what the function without them computes, so that a
step that takes no cell twice is a step of the kernel (`erase_kernelStep`).
-/

namespace RCore.Task.Code

open RCore Mm Fs Guarded Kernel

variable {B : BinaryHeap} (I : Image)

attribute [local simp] Comp.pure_bind Comp.bind_pure Comp.bind_pure_unit Comp.bind_assoc Comp.get_bind_const

@[simp] theorem erase_currentTask : (currentTask : Code B Nat).erase = Kernel.currentTask := by
  simp [currentTask]

@[simp] theorem erase_takeCurrentTask : (takeCurrentTask : Code B Nat).erase = Kernel.takeCurrentTask := by
  simp [takeCurrentTask]

@[simp] theorem erase_userToken (cur : Nat) : (userToken cur : Code B Unit).erase = pure () := by
  simp [userToken]

@[simp] theorem erase_schedule : (schedule : Code B Unit).erase = pure () := erase_access _

@[simp] theorem erase_addTask (addr : Nat) : (addTask addr : Code B Unit).erase = Kernel.addTask addr := by
  simp [addTask]

@[simp] theorem erase_fetchTask : (fetchTask : Code B (Option Nat)).erase = Kernel.fetchTask := by
  simp [fetchTask]

@[simp] theorem erase_pid2task (pid : Nat) : (pid2task pid : Code B (Option Nat)).erase = Kernel.pid2task pid := by
  simp [pid2task, Kernel.pid2task]

@[simp] theorem erase_runTasks : (runTasks : Code B Unit).erase = Kernel.runTasks := by
  simp only [runTasks, Kernel.runTasks, erase_during, erase_bind, erase_comp, erase_fetchTask]
  congr 1
  funext k
  congr 1
  funext _
  congr 1
  funext next
  cases next with
  | none => rfl
  | some addr => simp

@[simp] theorem erase_suspendCurrentAndRunNext :
    (suspendCurrentAndRunNext : Code B Unit).erase = Kernel.suspendCurrentAndRunNext := by
  simp [suspendCurrentAndRunNext, Kernel.suspendCurrentAndRunNext]

@[simp] theorem erase_onFrames {α : Type} (x : Comp Phys α) : (onFrames x : Code B α).erase = onPhys x := by
  simp [onFrames]

@[simp] theorem erase_pidAlloc : (pidAlloc : Code B Nat).erase = Kernel.pidAlloc := by simp [pidAlloc]

@[simp] theorem erase_pidDealloc (pid : Nat) : (pidDealloc pid : Code B Unit).erase = Kernel.pidDealloc pid := by
  simp [pidDealloc]

@[simp] theorem erase_newKernelStack (pid : Nat) :
    (newKernelStack pid : Code B Nat).erase = Kernel.newKernelStack pid := by
  simp [newKernelStack]

@[simp] theorem erase_dropKernelStack (stack : Nat) :
    (dropKernelStack stack : Code B Unit).erase = Kernel.dropKernelStack stack := by
  simp [dropKernelStack]

@[simp] theorem erase_dropTask (addr : Nat) : (dropTask addr : Code B Unit).erase = Kernel.dropTask addr := by
  simp [dropTask, Kernel.dropTask]

@[simp] theorem erase_adopt (addr init : Nat) (children : List Nat) :
    (adopt addr init children : Code B Unit).erase = Kernel.adopt addr init children := by
  induction children with
  | nil => rfl
  | cons child children ih => simp [adopt, Kernel.adopt, ih]

@[simp] theorem erase_exitCurrentAndRunNext (exitCode : Int32) :
    (exitCurrentAndRunNext exitCode : Code B Unit).erase = Kernel.exitCurrentAndRunNext exitCode := by
  simp [exitCurrentAndRunNext, Kernel.exitCurrentAndRunNext]

@[simp] theorem erase_fork (addr : Nat) : (fork I addr : Code B Nat).erase = Kernel.fork I addr := by
  simp [fork, Kernel.fork]

@[simp] theorem erase_sysFork : (sysFork I : Code B Int).erase = Kernel.sysFork I := by
  simp [sysFork, Kernel.sysFork]

@[simp] theorem erase_blockIo : (blockIo : Code B Unit).erase = pure () := by simp [blockIo]

@[simp] theorem erase_findZombie (k : Kernel B) (pid : Int) (children : List Nat) :
    (findZombie k pid children : Code B Unit).erase = pure () := by
  induction children with
  | nil => rfl
  | cons child children ih => simp [findZombie, ih]

theorem erase_sysWaitpid (pid : Int) (ptr : Nat) :
    (sysWaitpid pid ptr : Code B Int).erase = Kernel.sysWaitpid pid ptr := by
  simp only [sysWaitpid, Kernel.sysWaitpid, erase_during, erase_bind, erase_comp, erase_currentTask, erase_ite,
    erase_pure, erase_findZombie, Comp.pure_bind]
  congr 1
  funext cur
  congr 1
  funext t
  congr 1
  funext k
  split
  · rfl
  · cases t.children.findIdx? (k.collects pid) with
    | none => rfl
    | some idx => simp

@[simp] theorem erase_onCurrent {α : Type} (f : Nat → TaskControlBlock → Comp (Kernel B) α) :
    (onCurrent f).erase = (do
      let cur ← Kernel.currentTask
      let t ← Kernel.task cur
      f cur t) := by
  simp [onCurrent]

theorem erase_sysSetPriority (prio : Nat) :
    (sysSetPriority prio : Code B Int).erase = Kernel.sysSetPriority prio := by
  simp [sysSetPriority, Kernel.sysSetPriority]

theorem erase_onMemorySet (x : MemorySet → Comp Phys (Int × MemorySet)) :
    (onMemorySet x : Code B Int).erase = Kernel.onMemorySet x := by
  simp [onMemorySet, Kernel.onMemorySet]

theorem erase_sysKill (pid : Nat) (signum : UInt32) :
    (sysKill pid signum : Code B Int).erase = Kernel.sysKill pid signum := by
  simp only [sysKill, Kernel.sysKill, erase_bind, erase_pid2task]
  congr 1
  funext target
  cases target with
  | none => rfl
  | some addr => simp

theorem erase_sysSigprocmask (mask : UInt32) :
    (sysSigprocmask mask : Code B Int).erase = Kernel.sysSigprocmask mask := by
  simp [sysSigprocmask, Kernel.sysSigprocmask]

theorem erase_sysSigreturn : (sysSigreturn : Code B Int).erase = Kernel.sysSigreturn := by
  simp [sysSigreturn, Kernel.sysSigreturn]

theorem erase_sysSigaction (signum : UInt32) (action oldAction : Nat) (pad : UInt32) :
    (sysSigaction signum action oldAction pad : Code B Int).erase =
      Kernel.sysSigaction signum action oldAction pad := by
  simp [sysSigaction, Kernel.sysSigaction]

@[simp] theorem erase_currentAddSignal (signal : SignalFlags) :
    (currentAddSignal signal : Code B Unit).erase = Kernel.currentAddSignal signal := by
  simp [currentAddSignal, Kernel.currentAddSignal]

@[simp] theorem erase_callKernelSignalHandler (signal : SignalFlags) :
    (callKernelSignalHandler signal : Code B Unit).erase = Kernel.callKernelSignalHandler signal := by
  simp [callKernelSignalHandler, Kernel.callKernelSignalHandler]

@[simp] theorem erase_callUserSignalHandler (sig : Nat) (signal : SignalFlags) :
    (callUserSignalHandler sig signal : Code B Unit).erase = Kernel.callUserSignalHandler sig signal := by
  simp [callUserSignalHandler, Kernel.callUserSignalHandler]

theorem erase_checkPendingLoop (sigs : List Nat) :
    (checkPendingLoop sigs : Code B Unit).erase = Kernel.checkPendingLoop sigs := by
  induction sigs with
  | nil => rfl
  | cons sig sigs ih =>
    simp only [checkPendingLoop, Kernel.checkPendingLoop, erase_bind, erase_currentTask, erase_during, erase_comp,
      erase_ite, erase_pure, Comp.bind_assoc, erase_callKernelSignalHandler, erase_callUserSignalHandler, ih]
    congr 1
    funext cur
    congr 1
    funext t
    split
    · simp only [Comp.pure_bind]
      split
      · simp only [Comp.pure_bind]
        rfl
      · simp only [Comp.bind_assoc, Comp.pure_bind]
        congr 1
        funext action
        cases SignalFlags.contains action.mask (SignalFlags.ofSignum (UInt32.ofNat sig)) <;> rfl
    · simp only [Comp.pure_bind]
      rfl

/-- It does not matter when the current task is looked up. -/
theorem currentTask_comm {α β : Type} {x : Comp (Kernel B) α} (hx : ∀ T, Still x T)
    (f : Nat → α → Comp (Kernel B) β) :
    (do
      let cur ← Kernel.currentTask
      let a ← x
      f cur a) = (do
      let a ← x
      let cur ← Kernel.currentTask
      f cur a) := by
  funext k
  show Comp.run _ k = Comp.run _ k
  have hcur : ∀ k : Kernel B, Kernel.currentTask.run k = k.current.map fun a => (a, k) := fun k => by
    rw [Kernel.currentTask, Comp.run_bind, Comp.run_get]
    show (Comp.unwrap k.current).run k = _
    cases k.current <;> rfl
  simp only [Comp.run_bind, hcur]
  cases hrun : x.run k with
  | none => cases k.current <;> simp [hrun]
  | some r =>
    have htable : r.2.table = k.table := hx k.table k rfl r.1 r.2 hrun
    have hsame : r.2.current = k.current := congrArg Table.current htable
    rw [Option.bind_some, hsame]
    cases k.current <;> simp [hrun]

theorem still_unwrap {α : Type} (o : Option α) (T : Table B) : Still (Comp.unwrap o) T :=
  ends_unwrap fun _ _ => rfl

theorem erase_sysExec (path : List Char) (elf : ElfFile) (args : List (List UInt8)) (sstatus : Nat) :
    (sysExec I path elf args sstatus : Code B Int).erase = (do
      Kernel.exec I elf args sstatus
      return (args.length : Int)) := by
  simp only [sysExec, Kernel.exec, erase_bind, erase_currentTask, erase_userToken, erase_blockIo, erase_during,
    erase_access, erase_onFrames, erase_comp, erase_pure, Comp.pure_bind, Comp.bind_assoc]
  rw [currentTask_comm fun T => still_onPhys _]
  congr 1
  funext r
  rw [currentTask_comm fun T => still_argvSlots _ _ _]
  congr 1
  funext argv
  rw [currentTask_comm fun T => still_unwrap _ T]
  congr 1
  funext last
  rw [currentTask_comm fun T => still_onPhys _]
  congr 1
  funext _
  rw [currentTask_comm fun T => still_pushArgs _ _ _ _]
  congr 1
  funext userSp
  rw [currentTask_comm fun T => still_trapCxPpnOf _]

/-- **The step of the kernel, without its handles.** -/
theorem erase_kernelStep (path : List Char) (op : Op) :
    (kernelStep I path op : Code B Int).erase = Kernel.step I op := by
  cases op with
  | runTasks => simp [kernelStep, Kernel.step]
  | yield => simp [kernelStep, Kernel.step]
  | exit exitCode => simp [kernelStep, Kernel.step]
  | fork => exact erase_sysFork I
  | exec elf args sstatus => exact erase_sysExec I path elf args sstatus
  | waitpid pid ptr => exact erase_sysWaitpid pid ptr
  | setPriority prio => exact erase_sysSetPriority prio
  | mmap start len prot => exact erase_onMemorySet fun ms => sysMmap ms start len prot
  | munmap start len => exact erase_onMemorySet fun ms => sysMunmap ms start len
  | userStore va b => simp [kernelStep, Kernel.step]
  | kill pid signum => exact erase_sysKill pid signum
  | sigprocmask mask => exact erase_sysSigprocmask mask
  | sigaction signum action oldAction pad => exact erase_sysSigaction signum action oldAction pad
  | sigreturn => exact erase_sysSigreturn
  | addSignal signal => simp [kernelStep, Kernel.step]
  | checkPendingSignals => simp [kernelStep, Kernel.step, checkPendingSignals, Kernel.checkPendingSignals,
      erase_checkPendingLoop]

end RCore.Task.Code
