import RCore.Task.Verify.Actions
import RCore.Task.Verify.Isolation

/-!
# What sys_sigaction reports

`SignalAction::default` marks an action that was never set by its mask, which is 40. `sys_sigaction` takes a stored
action with that mask for the default one, and then changes a copy of the user's structure only.
-/

namespace RCore.Task

open RCore Mm

namespace Kernel

variable {B : BinaryHeap} {α β : Type} {T : Nat → List SignalAction} {k k' : Kernel B}

/-! ## Tables of actions -/

/-- The tasks have these tables of actions. -/
def Under (T : Nat → List SignalAction) (k : Kernel B) : Prop := ∀ a t, k.tasks a = some t → t.signalActions = T a

/-- `x` leaves all tables of actions as they are. -/
abbrev KeepsTables (T : Nat → List SignalAction) (x : Comp (Kernel B) α) : Prop := Comp.Stable (Under T) x

theorem keeps_modify {f : Kernel B → Kernel B} (hf : ∀ k, (f k).tasks = k.tasks) : KeepsTables T (Comp.modify f) :=
  Comp.stable_modify fun k hk a t ht => hk a t (hf k ▸ ht)

theorem keeps_onPhys (x : Comp Phys α) : KeepsTables T (onPhys x : Comp (Kernel B) α) := by
  intro k hk
  rw [wlp_onPhys]
  exact fun _ _ _ => hk

theorem keeps_task {f : TaskControlBlock → Comp (Kernel B) β} {a : Nat}
    (hf : ∀ t, t.signalActions = T a → KeepsTables T (f t)) : KeepsTables T (task a >>= f) := by
  intro k hk
  rw [Comp.wlp_bind, wlp_task]
  exact fun t ht => hf t (hk a t ht) k hk

theorem Under.set (hk : Under T k) {a : Nat} {o : Option TaskControlBlock}
    (ho : ∀ t, o = some t → t.signalActions = T a) {b : Nat} {t : TaskControlBlock}
    (ht : Function.update k.tasks a o b = some t) : t.signalActions = T b := by
  by_cases hb : b = a
  · rw [hb, Function.update_self] at ht
    rw [hb]
    exact ho t ht
  · rw [Function.update_of_ne hb] at ht
    exact hk b t ht

theorem keeps_setTask {a : Nat} {t : TaskControlBlock} (ht : t.signalActions = T a) :
    KeepsTables T (setTask a t : Comp (Kernel B) Unit) := by
  intro k hk
  rw [wlp_setTask]
  intro b u hu
  refine hk.set ?_ hu
  rintro _ ⟨⟩
  exact ht

theorem keeps_currentTask : KeepsTables T (currentTask : Comp (Kernel B) Nat) :=
  Comp.stable_get.bind fun _ => Comp.stable_unwrap _

theorem keeps_takeCurrentTask : KeepsTables T (takeCurrentTask : Comp (Kernel B) Nat) :=
  keeps_currentTask.bind fun _ => (keeps_modify fun _ => by rfl).bind fun _ => Comp.stable_pure _

/-- A change of the current task. -/
theorem keeps_current {f : Nat → TaskControlBlock → Comp (Kernel B) α}
    (hf : ∀ a t, t.signalActions = T a → KeepsTables T (f a t)) : KeepsTables T (do
      let cur ← currentTask
      let t ← task cur
      f cur t) := keeps_currentTask.bind fun a => keeps_task fun t ht => hf a t ht

/-! ## Scheduling -/

theorem keeps_addTask (a : Nat) : KeepsTables T (addTask a : Comp (Kernel B) Unit) :=
  keeps_task fun _ ht => (Comp.stable_assert _).bind fun _ => (keeps_setTask (by exact ht)).bind fun _ =>
    keeps_modify fun _ => by rfl

theorem keeps_fetchLoop (fuel : Nat) : KeepsTables T (fetchLoop fuel : Comp (Kernel B) (Option Nat)) := by
  induction fuel with
  | zero => exact Comp.stable_panic
  | succ fuel ih =>
    rw [fetchLoop]
    refine Comp.stable_get.bind fun k => (keeps_modify fun _ => by rfl).bind fun _ => ?_
    split
    · exact Comp.stable_ite (Comp.stable_pure _) ih
    · exact Comp.stable_pure _

theorem keeps_runTasks : KeepsTables T (runTasks : Comp (Kernel B) Unit) := by
  have hfetch : KeepsTables T (fetchTask : Comp (Kernel B) (Option Nat)) := by
    refine Comp.stable_get.bind fun k => (keeps_fetchLoop _).bind fun next => ?_
    cases next with
    | some next =>
      exact Comp.stable_get.bind fun _ => (Comp.stable_unwrap _).bind fun _ => (keeps_modify fun _ => by rfl).bind
        fun _ => Comp.stable_pure _
    | none => exact Comp.stable_pure _
  refine Comp.stable_get.bind fun _ => (Comp.stable_assert _).bind fun _ => hfetch.bind fun next => ?_
  cases next with
  | some addr => exact keeps_task fun _ ht => (keeps_setTask (by exact ht)).bind fun _ => keeps_modify fun _ => by rfl
  | none => exact Comp.stable_pure _

theorem keeps_suspend : KeepsTables T (suspendCurrentAndRunNext : Comp (Kernel B) Unit) :=
  keeps_takeCurrentTask.bind fun a => keeps_task fun _ ht => (keeps_setTask (by exact ht)).bind fun _ => keeps_addTask a

/-! ## Creation and exit -/

theorem keeps_trapCxPpnOf (ms : MemorySet) : KeepsTables T (trapCxPpnOf ms : Comp (Kernel B) Nat) :=
  Comp.stable_get.bind fun _ => (Comp.stable_unwrap _).bind fun _ => Comp.stable_pure _

theorem keeps_pidAlloc : KeepsTables T (pidAlloc : Comp (Kernel B) Nat) :=
  Comp.stable_get.bind fun _ => (keeps_modify fun _ => by rfl).bind fun _ => Comp.stable_pure _

theorem keeps_newKernelStack (pid : Nat) : KeepsTables T (newKernelStack pid : Comp (Kernel B) Nat) := by
  refine Comp.stable_get.bind fun _ => (keeps_onPhys _).bind fun r => (keeps_modify fun _ => by rfl).bind fun _ => ?_
  cases r.1 with
  | ok => exact Comp.stable_pure _
  | error => exact Comp.stable_pure _

theorem keeps_dropTask (a : Nat) : KeepsTables T (dropTask a : Comp (Kernel B) Unit) := by
  refine keeps_task fun t _ => Comp.Stable.bind ?_ fun _ => ?_
  · refine Comp.stable_modify fun k hk b u hu => hk.set (o := none) ?_ hu
    rintro _ ⟨⟩
  · have hpid : KeepsTables T (pidDealloc t.pid : Comp (Kernel B) Unit) :=
      Comp.stable_get.bind fun _ => (Comp.stable_assert _).bind fun _ => keeps_modify fun _ => by rfl
    have hstack : KeepsTables T (dropKernelStack t.kernelStack : Comp (Kernel B) Unit) := by
      rw [dropKernelStack, VirtAddr.toVpn]
      exact Comp.stable_get.bind fun _ => ((Comp.stable_assert _).bind fun _ => Comp.stable_pure _).bind fun _ =>
        (keeps_onPhys _).bind fun _ => keeps_modify fun _ => by rfl
    exact hpid.bind fun _ => hstack.bind fun _ => keeps_onPhys _

theorem keeps_adopt (a init : Nat) (cs : List Nat) : KeepsTables T (adopt a init cs : Comp (Kernel B) Unit) := by
  induction cs with
  | nil => exact Comp.stable_pure _
  | cons c cs ih =>
    exact (Comp.stable_assert _).bind fun _ => keeps_task fun _ hc => (keeps_setTask (by exact hc)).bind fun _ =>
      keeps_task fun _ hi => (keeps_setTask (by exact hi)).bind fun _ => ih

theorem keeps_exit (exitCode : Int32) : KeepsTables T (exitCurrentAndRunNext exitCode : Comp (Kernel B) Unit) :=
  keeps_takeCurrentTask.bind fun a => keeps_task fun t ht => Comp.stable_get.bind fun _ =>
    (Comp.stable_unwrap _).bind fun _ => (Comp.stable_assert _).bind fun _ => (keeps_adopt a _ t.children).bind fun _ =>
      (keeps_onPhys _).bind fun _ => (keeps_setTask (by exact ht)).bind fun _ => Comp.stable_get.bind fun _ =>
        Comp.stable_ite (keeps_dropTask a) (Comp.stable_pure _)

theorem keeps_sysWaitpid (pid : Int) (ptr : Nat) : KeepsTables T (sysWaitpid pid ptr : Comp (Kernel B) Int) := by
  refine keeps_current fun cur t ht => Comp.stable_get.bind fun k => Comp.stable_ite (Comp.stable_pure _) ?_
  cases t.children.findIdx? (k.collects pid) with
  | some idx =>
    exact (Comp.stable_unwrap _).bind fun child => (keeps_setTask (by exact ht)).bind fun _ => Comp.stable_get.bind fun _ =>
      (Comp.stable_assert _).bind fun _ => keeps_task fun _ _ => (keeps_onPhys _).bind fun _ =>
        (keeps_onPhys _).bind fun _ => (keeps_dropTask child).bind fun _ => Comp.stable_pure _
  | none => exact Comp.stable_pure _

/-! ## Memory -/

theorem keeps_storeArg (token : Nat) (cs : List UInt8) (p : Nat) :
    KeepsTables T (storeArg token cs p : Comp (Kernel B) Unit) := by
  induction cs generalizing p with
  | nil => exact (keeps_onPhys _).bind fun _ => keeps_onPhys _
  | cons c cs ih => exact (keeps_onPhys _).bind fun _ => (keeps_onPhys _).bind fun _ => ih _

theorem keeps_pushArgs (token : Nat) (args : List (List UInt8)) (slots : List Nat) (sp : Nat) :
    KeepsTables T (pushArgs token args slots sp : Comp (Kernel B) Nat) := by
  induction args generalizing slots sp with
  | nil => exact Comp.stable_pure _
  | cons arg args ih =>
    cases slots with
    | nil => exact Comp.stable_pure _
    | cons slot slots =>
      exact (keeps_onPhys _).bind fun _ => (keeps_storeArg token arg _).bind fun _ => ih slots _

theorem keeps_argvSlots (token base : Nat) (args : List Nat) :
    KeepsTables T (argvSlots token base args : Comp (Kernel B) (List Nat)) := by
  induction args with
  | nil => exact Comp.stable_pure _
  | cons arg args ih => exact (keeps_onPhys _).bind fun _ => ih.bind fun _ => Comp.stable_pure _

theorem keeps_exec (I : Image) (elf : ElfFile) (args : List (List UInt8)) (sstatus : Nat) :
    KeepsTables T (exec I elf args sstatus : Comp (Kernel B) Unit) :=
  (keeps_onPhys _).bind fun _ => (keeps_argvSlots _ _ _).bind fun _ => (Comp.stable_unwrap _).bind fun _ =>
    (keeps_onPhys _).bind fun _ => (keeps_pushArgs _ args _ _).bind fun _ => (keeps_trapCxPpnOf _).bind fun _ =>
      keeps_current fun _ _ ht => (keeps_setTask (by exact ht)).bind fun _ => (keeps_onPhys _).bind fun _ =>
        Comp.stable_get.bind fun _ => keeps_onPhys _

theorem keeps_onMemorySet (x : MemorySet → Comp Phys (Int × MemorySet)) :
    KeepsTables T (onMemorySet x : Comp (Kernel B) Int) :=
  keeps_current fun _ _ ht => (keeps_onPhys _).bind fun _ => (keeps_setTask (by exact ht)).bind fun _ => Comp.stable_pure _

theorem keeps_userStore (va : Nat) (b : UInt8) : KeepsTables T (userStore va b : Comp (Kernel B) Unit) :=
  keeps_current fun _ _ _ => Comp.stable_get.bind fun _ => (Comp.stable_unwrap _).bind fun _ =>
    (Comp.stable_assert _).bind fun _ => keeps_onPhys _

/-! ## Signals -/

theorem keeps_sysKill (pid : Nat) (signum : UInt32) : KeepsTables T (sysKill pid signum : Comp (Kernel B) Int) := by
  have hfind : KeepsTables T (pid2task pid : Comp (Kernel B) (Option Nat)) :=
    keeps_current fun _ _ _ => Comp.stable_ite (Comp.stable_pure _) (Comp.stable_get.bind fun _ => Comp.stable_pure _)
  refine hfind.bind fun o => ?_
  cases o with
  | some a =>
    exact keeps_task fun _ ht => Comp.stable_ite (Comp.stable_pure _) ((keeps_setTask (by exact ht)).bind fun _ => Comp.stable_pure _)
  | none => exact Comp.stable_pure _

theorem keeps_callKernelSignalHandler (signal : SignalFlags) :
    KeepsTables T (callKernelSignalHandler signal : Comp (Kernel B) Unit) :=
  keeps_current fun _ _ ht => Comp.stable_ite (keeps_setTask (by exact ht))
    (Comp.stable_ite (Comp.stable_ite (keeps_setTask (by exact ht)) (Comp.stable_pure _)) (keeps_setTask (by exact ht)))

theorem keeps_callUserSignalHandler (sig : Nat) (signal : SignalFlags) :
    KeepsTables T (callUserSignalHandler sig signal : Comp (Kernel B) Unit) :=
  keeps_current fun _ _ ht => (Comp.stable_unwrap _).bind fun _ => Comp.stable_ite
    (Comp.stable_get.bind fun _ => (keeps_setTask (by exact ht)).bind fun _ => (keeps_onPhys _).bind fun _ => keeps_onPhys _)
    (Comp.stable_pure _)

theorem keeps_checkPendingLoop (sigs : List Nat) : KeepsTables T (checkPendingLoop sigs : Comp (Kernel B) Unit) := by
  induction sigs with
  | nil => exact Comp.stable_pure _
  | cons sig sigs ih =>
    have hgo : ∀ b : Bool, KeepsTables T (if b = true then checkPendingLoop sigs
        else if isKernelSignal (SignalFlags.ofSignum (UInt32.ofNat sig)) = true then do
          callKernelSignalHandler (SignalFlags.ofSignum (UInt32.ofNat sig))
          checkPendingLoop sigs
        else callUserSignalHandler sig (SignalFlags.ofSignum (UInt32.ofNat sig)) : Comp (Kernel B) Unit) := fun b =>
      Comp.stable_ite ih (Comp.stable_ite ((keeps_callKernelSignalHandler _).bind fun _ => ih)
        (keeps_callUserSignalHandler sig _))
    refine keeps_current fun _ t ht => Comp.stable_ite ?_ ih
    refine Comp.stable_ite ((Comp.stable_pure _).bind hgo) ?_
    exact (Comp.stable_unwrap _).bind fun _ => (Comp.stable_pure _).bind hgo

/-- The calls that set actions, or copy them. -/
def actsOnTables : Op → Bool
  | .sigaction _ _ _ _ => true
  | .fork => true
  | _ => false

/-- **Every other step leaves the tables of all tasks as they are.** -/
theorem keeps_step (I : Image) {op : Op} (hop : actsOnTables op = false) :
    KeepsTables T (step I op : Comp (Kernel B) Int) := by
  cases op with
  | runTasks => exact keeps_runTasks.bind fun _ => Comp.stable_pure _
  | yield => exact keeps_suspend.bind fun _ => Comp.stable_pure _
  | exit exitCode => exact (keeps_exit exitCode).bind fun _ => Comp.stable_pure _
  | fork => cases hop
  | exec elf args sstatus => exact (keeps_exec I elf args sstatus).bind fun _ => Comp.stable_pure _
  | waitpid pid ptr => exact keeps_sysWaitpid pid ptr
  | setPriority prio =>
    exact Comp.stable_ite (Comp.stable_pure _) (keeps_current fun _ _ ht => (keeps_setTask (by exact ht)).bind fun _ =>
      Comp.stable_pure _)
  | mmap start len prot => exact keeps_onMemorySet fun ms => sysMmap ms start len prot
  | munmap start len => exact keeps_onMemorySet fun ms => sysMunmap ms start len
  | userStore va b => exact (keeps_userStore va b).bind fun _ => Comp.stable_pure _
  | kill pid signum => exact keeps_sysKill pid signum
  | sigprocmask mask => exact keeps_current fun _ _ ht => (keeps_setTask (by exact ht)).bind fun _ => Comp.stable_pure _
  | sigaction => cases hop
  | sigreturn =>
    exact keeps_current fun _ _ ht => (keeps_setTask (by exact ht)).bind fun _ => (Comp.stable_unwrap _).bind fun _ =>
      (keeps_onPhys _).bind fun _ => Comp.stable_pure _
  | addSignal signal =>
    exact Comp.Stable.bind (keeps_current fun _ _ ht => keeps_setTask (by exact ht)) fun _ => Comp.stable_pure _
  | checkPendingSignals => exact (keeps_checkPendingLoop _).bind fun _ => Comp.stable_pure _

/-! ## `fork` and `sys_sigaction` -/

variable {I : Image} {a : Nat} {signum pad : UInt32} {action oldAction : Nat}

/-- The child gets the table of its parent. -/
theorem sysFork_tables (hk : Under T k) (hc : k.current = some a) (hfresh : k.tasks k.next = none) :
    (sysFork I).wlp (fun _ k' => Under (Function.update T k.next (T a)) k') k := by
  generalize hT' : Function.update T k.next (T a) = T'
  have hnext : T' k.next = T a := by rw [← hT', Function.update_self]
  have hu : Under T' k := by
    intro b t ht
    have hb : b ≠ k.next := by
      rintro rfl
      rw [hfresh] at ht
      cases ht
    rw [← hT', Function.update_of_ne hb]
    exact hk b t ht
  -- up to the creation of the child, its address is the first that is free
  generalize hn : k.next = n at hnext
  let P : Kernel B → Prop := fun k => Under T' k ∧ k.next = n
  have hpre : ∀ {α β : Type} {x : Comp (Kernel B) α} {f : α → Comp (Kernel B) β} {Q : β → Kernel B → Prop},
      KeepsTables T' x → Comp.Stable (fun k => k.next = n) x → (∀ c k, P k → (f c).wlp Q k) →
      ∀ k, P k → (x >>= f).wlp Q k := by
    intro α β x f Q hx hx' hf k hk
    rw [Comp.wlp_bind]
    exact (hx.and hx' k hk).mono fun c k' hk' => hf c k' hk'
  have hphys : ∀ {α : Type} (x : Comp Phys α), Comp.Stable (fun k : Kernel B => k.next = n) (onPhys x) := by
    intro α x k hk
    rw [wlp_onPhys]
    exact fun _ _ _ => hk
  have hstack : ∀ pid, Comp.Stable (fun k : Kernel B => k.next = n) (newKernelStack pid) := by
    intro pid
    refine Comp.stable_get.bind fun _ => (hphys _).bind fun r =>
      Comp.Stable.bind (Comp.stable_modify fun _ h => h) fun _ => ?_
    cases r.1 with
    | ok => exact Comp.stable_pure _
    | error => exact Comp.stable_pure _
  have hpid : Comp.Stable (fun k : Kernel B => k.next = n) pidAlloc :=
    Comp.stable_get.bind fun _ => Comp.Stable.bind (Comp.stable_modify fun _ h => h) fun _ => Comp.stable_pure _
  have hppn : ∀ ms, Comp.Stable (fun k : Kernel B => k.next = n) (trapCxPpnOf ms) := fun ms =>
    Comp.stable_get.bind fun _ => (Comp.stable_unwrap _).bind fun _ => Comp.stable_pure _
  have hfork : (fork I a).wlp (fun _ k' => Under T' k') k := by
    rw [fork, Comp.wlp_bind, wlp_task]
    intro t ht
    have hta : t.signalActions = T a := hk a t ht
    refine hpre (keeps_onPhys _) (hphys _) (fun ms k₁ hk₁ => ?_) k ⟨hu, hn⟩
    refine hpre keeps_pidAlloc hpid (fun pid k₂ hk₂ => ?_) k₁ hk₁
    refine hpre (keeps_newKernelStack pid) (hstack pid) (fun stack k₃ hk₃ => ?_) k₂ hk₂
    refine hpre (keeps_trapCxPpnOf ms) (hppn ms) (fun ppn k₄ hk₄ => ?_) k₃ hk₃
    refine hpre (keeps_onPhys _) (hphys _) (fun _ k₅ hk₅ => ?_) k₄ hk₄
    rw [Comp.wlp_bind, wlp_newTask]
    have hnew : ∀ u : TaskControlBlock, u.signalActions = T a →
        Under T' { k₅ with tasks := Function.update k₅.tasks k₅.next (some u), next := k₅.next + 1 } := by
      intro u hua b v hv
      refine hk₅.1.set ?_ hv
      rintro _ ⟨⟩
      rw [hk₅.2, hnext]
      exact hua
    have ha : t.signalActions = T' a := hu a t ht
    exact ((keeps_setTask (by exact ha)).bind fun _ => Comp.stable_pure _) _ (hnew _ hta)
  rw [sysFork, Comp.wlp_bind, wlp_currentTask]
  intro cur hcur
  cases hc.symm.trans hcur
  rw [Comp.wlp_bind]
  refine hfork.mono fun child k' hk' => ?_
  exact (keeps_task fun _ _ => (keeps_onPhys _).bind fun _ => (keeps_addTask child).bind fun _ => Comp.stable_pure _) k' hk'

/-- A call that succeeds sets one action, and one that fails none. -/
theorem sysSigaction_tables (hk : Under T k) (hc : k.current = some a) :
    (sysSigaction signum action oldAction pad).wlp (fun r k' => (r ≠ 0 → Under T k') ∧ (r = 0 →
      ∃ new : SignalAction, new.handler < 2 ^ 64 ∧ Under (Function.update T a ((T a).set signum.toNat new)) k')) k := by
  rw [sysSigaction]
  simp only [Comp.wlp_bind, wlp_currentTask, wlp_task]
  intro cur hcur t ht
  cases hc.symm.trans hcur
  have hfails : Under T k ∧ ((-1 : Int) = 0 → ∃ new : SignalAction, new.handler < 2 ^ 64 ∧
      Under (Function.update T a ((T a).set signum.toNat new)) k) := ⟨hk, fun h => by cases h⟩
  split
  · rw [Comp.wlp_pure]
    exact ⟨fun _ => hk, hfails.2⟩
  split
  · rw [Comp.wlp_pure]
    exact ⟨fun _ => hk, hfails.2⟩
  simp only [Comp.wlp_bind, Comp.wlp_unwrap]
  intro old _
  refine (keeps_onPhys (T := T) _ k hk).mono fun pa k₁ hk₁ => ?_
  have hrest : ∀ k₂ : Kernel B, Under T k₂ → (do
      let pa ← onPhys (translatedRefmut t.memorySet.token action)
      let k ← Comp.get
      let a' := readAction k.phys.mem pa
      setTask a { t with signalActions := t.signalActions.set signum.toNat a' }
      pure (0 : Int)).wlp (fun r k' => (r ≠ 0 → Under T k') ∧ (r = 0 → ∃ new : SignalAction, new.handler < 2 ^ 64 ∧
        Under (Function.update T a ((T a).set signum.toNat new)) k')) k₂ := by
    intro k₂ hk₂
    rw [Comp.wlp_bind]
    refine (keeps_onPhys (T := T) _ k₂ hk₂).mono fun pa k₃ hk₃ => ?_
    simp only [Comp.wlp_bind, Comp.wlp_get, wlp_setTask, Comp.wlp_pure]
    refine ⟨fun h => absurd rfl h, fun _ => ⟨readAction k₃.phys.mem pa, Mem.word_lt .., fun b u hu => ?_⟩⟩
    have hb : Function.update k₃.tasks a _ b = some u := hu
    by_cases hba : b = a
    · rw [hba, Function.update_self, Option.some.injEq] at hb
      rw [hba, Function.update_self, ← hb, ← hk a t ht]
    · rw [Function.update_of_ne hba] at hb
      rw [Function.update_of_ne hba]
      exact hk₃ b u hb
  split
  · rw [Comp.wlp_bind]
    exact (keeps_onPhys (T := T) _ k₁ hk₁).mono fun _ k₂ hk₂ => hrest k₂ hk₂
  · exact hrest k₁ hk₁

/-! ## Histories -/

/-- **A run with the actions that were installed last**: `last a i` is the action that the last successful
`sys_sigaction` of the task at `a`, or of the task it was forked from before, has installed for the signal `i`, or the
default one. -/
inductive ActionRun (I : Image) : (Nat → Nat → SignalAction) → Kernel B → Prop
  | boot {mem : Mem} {dmaCalls : List Nat} {elf : ElfFile} {sstatus : Nat} {k : Kernel B}
      (h : boot I mem dmaCalls elf sstatus = some k) : ActionRun I (fun _ _ => .default) k
  | installs {last : Nat → Nat → SignalAction} {k k' : Kernel B} {a : Nat} {signum pad : UInt32}
      {action oldAction : Nat} {t' : TaskControlBlock} {new : SignalAction} (hr : ActionRun I last k)
      (hc : k.current = some a) (h : (step I (.sigaction signum action oldAction pad)).run k = some (0, k'))
      (ht' : k'.tasks a = some t') (hnew : t'.signalActions[signum.toNat]? = some new) :
      ActionRun I (Function.update last a (Function.update (last a) signum.toNat new)) k'
  | forks {last : Nat → Nat → SignalAction} {k k' : Kernel B} {a : Nat} {r : Int} (hr : ActionRun I last k)
      (hc : k.current = some a) (h : (step I .fork).run k = some (r, k')) :
      ActionRun I (Function.update last k.next (last a)) k'
  /-- Any other step, and a `sys_sigaction` that fails. -/
  | other {last : Nat → Nat → SignalAction} {k k' : Kernel B} {r : Int} (hr : ActionRun I last k) (op : Op)
      (hfork : op ≠ .fork) (hfails : ∀ signum action oldAction pad, op = .sigaction signum action oldAction pad → r ≠ 0)
      (h : (step I op).run k = some (r, k')) : ActionRun I last k'

theorem ActionRun.reached {last : Nat → Nat → SignalAction} (hr : ActionRun I last k) :
    Reached I (fun _ _ => True) k := by
  induction hr with
  | boot h => exact .boot h
  | installs _ _ h _ _ ih => exact ih.step _ trivial h
  | forks _ _ h ih => exact ih.step _ trivial h
  | other _ op _ _ h ih => exact ih.step op trivial h

/-- The tables with these actions. -/
def tableOf (last : Nat → Nat → SignalAction) (a : Nat) : List SignalAction := (List.range 32).map (last a)

theorem tableOf_get {last : Nat → Nat → SignalAction} {i : Nat} (hi : i < 32) :
    (tableOf last a)[i]? = some (last a i) := by
  rw [tableOf, List.getElem?_map, List.getElem?_range hi]
  rfl

theorem tableOf_set (last : Nat → Nat → SignalAction) (a i : Nat) (new : SignalAction) :
    Function.update (tableOf last) a ((tableOf last a).set i new) =
      tableOf (Function.update last a (Function.update (last a) i new)) := by
  funext b
  by_cases hb : b = a
  · subst hb
    rw [Function.update_self]
    refine List.ext_getElem (by simp [tableOf]) fun j _ _ => ?_
    simp only [tableOf, Function.update_self, List.getElem_set, List.getElem_map, List.getElem_range]
    by_cases hij : i = j
    · rw [if_pos hij, hij, Function.update_self]
    · rw [if_neg hij, Function.update_of_ne (Ne.symm hij)]
  · rw [Function.update_of_ne hb, tableOf, tableOf, Function.update_of_ne hb]

theorem tableOf_fork (last : Nat → Nat → SignalAction) (a n : Nat) :
    Function.update (tableOf last) n (tableOf last a) = tableOf (Function.update last n (last a)) := by
  funext b
  by_cases hb : b = n
  · rw [hb, Function.update_self, tableOf, tableOf, Function.update_self]
  · rw [Function.update_of_ne hb, tableOf, tableOf, Function.update_of_ne hb]

theorem boot_tables {mem : Mem} {dmaCalls : List Nat} {elf : ElfFile} {sstatus : Nat}
    (h : boot I mem dmaCalls elf sstatus = some k) : Under (tableOf fun _ _ => .default) k := by
  obtain ⟨⟨ks, p⟩, _, h⟩ := Option.bind_eq_some_iff.mp h
  obtain ⟨⟨frames, p⟩, _, h⟩ := Option.bind_eq_some_iff.mp h
  obtain ⟨⟨_, k₁⟩, hrun, rfl⟩ := Option.map_eq_some_iff.mp h
  have hnew : KeepsTables (tableOf fun _ _ => .default) (new I elf sstatus : Comp (Kernel B) Nat) := by
    refine (keeps_onPhys _).bind fun _ => (keeps_trapCxPpnOf _).bind fun _ => keeps_pidAlloc.bind fun pid =>
      (keeps_newKernelStack pid).bind fun _ => Comp.stable_get.bind fun _ => (keeps_onPhys _).bind fun _ => ?_
    intro k hk
    rw [wlp_newTask]
    intro b u hu
    refine hk.set ?_ hu
    rintro _ ⟨⟩
    rfl
  have hinit : KeepsTables (tableOf fun _ _ => .default) (addInitproc I elf sstatus : Comp (Kernel B) Unit) :=
    hnew.bind fun addr => (keeps_modify fun _ => by rfl).bind fun _ => keeps_addTask addr
  refine hinit _ ?_ _ _ hrun
  intro b u hu
  cases hu

/-- **The tables have the actions that were installed last.** -/
theorem ActionRun.under {last : Nat → Nat → SignalAction} (hr : ActionRun I last k) :
    Under (tableOf last) k ∧ ∀ a i, (last a i).handler < 2 ^ 64 := by
  induction hr with
  | boot h => exact ⟨boot_tables h, fun _ _ => (by decide : 0 < 2 ^ 64)⟩
  | @installs last k k' a signum pad action oldAction t' new _ hc h ht' hnew ih =>
    obtain ⟨new', hlt, hu⟩ := (sysSigaction_tables ih.1 hc _ _ h).2 rfl
    have hsame : new = new' := by
      rw [hu a t' ht', Function.update_self, List.getElem?_set_self'] at hnew
      obtain ⟨_, _, hnew⟩ := Option.map_eq_some_iff.mp hnew
      exact hnew.symm
    subst hsame
    rw [tableOf_set] at hu
    refine ⟨hu, fun b i => ?_⟩
    by_cases hb : b = a
    · subst hb
      rw [Function.update_self]
      by_cases hi : i = signum.toNat
      · rw [hi, Function.update_self]
        exact hlt
      · rw [Function.update_of_ne hi]
        exact ih.2 b i
    · rw [Function.update_of_ne hb]
      exact ih.2 b i
  | @forks last k k' a r hr hc h ih =>
    have hfresh : k.tasks k.next = none := by
      have hnone := hr.reached.ok.sched.fresh k.next (Nat.le_refl _)
      cases ht : k.tasks k.next with
      | none => rfl
      | some t =>
        rw [table_task ht] at hnone
        cases hnone
    refine ⟨tableOf_fork last a k.next ▸ sysFork_tables ih.1 hc hfresh _ _ h, fun b i => ?_⟩
    by_cases hb : b = k.next
    · rw [hb, Function.update_self]
      exact ih.2 a i
    · rw [Function.update_of_ne hb]
      exact ih.2 b i
  | @other last k k' r hr op hfork hfails h ih =>
    refine ⟨?_, ih.2⟩
    cases hop : actsOnTables op with
    | false => exact keeps_step I hop k ih.1 _ _ h
    | true =>
      cases op with
      | sigaction signum action oldAction pad =>
        cases hc : k.current with
        | none =>
          have hpanic : (step I (.sigaction signum action oldAction pad)).run k = none := by
            simp [step, sysSigaction, currentTask, hc, Comp.unwrap]
          rw [hpanic] at h
          cases h
        | some a => exact (sysSigaction_tables ih.1 hc _ _ h).1 (hfails _ _ _ _ rfl)
      | fork => exact absurd rfl hfork
      | _ => cases hop

/-! ## Reports -/

variable {L : Layout} {rest : List Nat} {s : Phys} {ms : MemorySet} {m : Mem} {t : TaskControlBlock} {e e' : PageTableEntry}

/-- Where an action of the user and the bytes that are stored at `oldAction` share their place, they are the same. -/
def SameWhereShared (m : Mem) (ms : MemorySet) (action oldAction : Nat) (bs : List UInt8) : Prop :=
  ∀ i < 12, ∀ j (hj : j < bs.length), (PageTable.fromToken ms.token).translateVa m (VirtAddr.ofUsize (usizeAdd action i)) =
      (PageTable.fromToken ms.token).translateVa m (VirtAddr.ofUsize (usizeAdd oldAction j)) →
    userByte m (PageTable.fromToken ms.token) (usizeAdd action i) = some bs[j]

theorem readAction_eq_iff {m' : Mem} {pa : Nat} : readAction m' pa = readAction m pa ↔ ∀ i < 12, m' (pa + i) = m (pa + i) := by
  have hmask : UInt32.ofNat (m'.word 4 (pa + 8)) = UInt32.ofNat (m.word 4 (pa + 8)) ↔
      m'.word 4 (pa + 8) = m.word 4 (pa + 8) := by
    have hlt : ∀ m : Mem, m.word 4 (pa + 8) < UInt32.size := fun m => Mem.word_lt m 4 _
    rw [← UInt32.toNat_inj, UInt32.toNat_ofNat_of_lt' (hlt m'), UInt32.toNat_ofNat_of_lt' (hlt m)]
  rw [readAction, readAction, SignalAction.mk.injEq, hmask, Mem.word_eq_iff, Mem.word_eq_iff]
  constructor
  · rintro ⟨hhandler, hmask⟩ i hi
    by_cases h8 : i < 8
    · exact hhandler i h8
    · have hbyte := hmask (i - 8) (by omega)
      rwa [Nat.add_assoc, Nat.add_sub_cancel' (by omega)] at hbyte
  · intro h
    refine ⟨fun i hi => h i (by omega), fun i hi => ?_⟩
    rw [Nat.add_assoc]
    exact h (8 + i) (by omega)

/-- When a store leaves the action as it is. -/
theorem readAction_write_iff (h : Good L rest s ms) (he : ms.translate m (pageOf oldAction) = some e)
    (he' : ms.translate m (pageOf action) = some e') {bs : List UInt8} (hfits : oldAction % 4096 + bs.length ≤ 4096)
    (hact : action % 4096 + 16 ≤ 4096) :
    readAction (m.write (e.ppn * 4096 + oldAction % 4096) bs) (e'.ppn * 4096 + action % 4096) =
      readAction m (e'.ppn * 4096 + action % 4096) ↔ SameWhereShared m ms action oldAction bs := by
  have hold : ∀ j < bs.length, (PageTable.fromToken ms.token).translateVa m (VirtAddr.ofUsize (usizeAdd oldAction j)) =
      some (e.ppn * 4096 + oldAction % 4096 + j) := by
    intro j hj
    rw [h.translateVa_first he (by omega), Nat.add_assoc]
  have hnew : ∀ i < 12, (PageTable.fromToken ms.token).translateVa m (VirtAddr.ofUsize (usizeAdd action i)) =
      some (e'.ppn * 4096 + action % 4096 + i) := by
    intro i hi
    rw [h.translateVa_first he' (by omega), Nat.add_assoc]
  rw [readAction_eq_iff]
  constructor
  · intro hsame i hi j hj hshared
    rw [hnew i hi, hold j hj, Option.some.injEq] at hshared
    rw [userByte, hnew i hi, Option.map_some, ← hsame i hi, hshared, Mem.write_getElem hj]
  · intro hsame i hi
    by_cases hin : e.ppn * 4096 + oldAction % 4096 ≤ e'.ppn * 4096 + action % 4096 + i ∧
        e'.ppn * 4096 + action % 4096 + i < e.ppn * 4096 + oldAction % 4096 + bs.length
    · obtain ⟨j, hj⟩ := Nat.exists_eq_add_of_le hin.1
      have hlt : j < bs.length := by omega
      have hbyte := hsame i hi j hlt (by rw [hnew i hi, hold j hlt, hj])
      rw [userByte, hnew i hi, Option.map_some, Option.some.injEq] at hbyte
      rw [hbyte, hj, Mem.write_getElem hlt]
    · exact Mem.write_of_not_mem (by omega)

/-- **`sys_sigaction` has reported an action and has installed the one that the program has passed.** -/
structure Reported (k k' : Kernel B) (a : Nat) (t : TaskControlBlock) (signum : UInt32) (prev : SignalAction)
    (action oldAction : Nat) : Prop where
  handler : userWord k'.phys.mem t.memorySet oldAction 8 = some prev.handler
  installed : ∃ new, userAction k.phys.mem t.memorySet action = some new ∧
    k'.tasks a = some { t with signalActions := t.signalActions.set signum.toNat new }

/-- **When `sys_sigaction` reports the previous action.** A successful call with structures that are on one page each
stores the handler that the last successful call has installed, and then installs the action that is passed, exactly if
the mask of the previous action is not 40 and the report does not overwrite the action that is passed, or that mask
is 40 and the handler is there already. -/
theorem sysSigaction_reports_iff {last : Nat → Nat → SignalAction} (hr : ActionRun I last k) (hc : k.current = some a)
    (ht : k.tasks a = some t) (h : Good L rest k.phys t.memorySet) (hfr : t.memorySet.Framed)
    (hold : oldAction % 4096 + 16 ≤ 4096) (hact : action % 4096 + 16 ≤ 4096)
    (hrun : (sysSigaction signum action oldAction pad).run k = some (0, k')) :
    Reported k k' a t signum (last a signum.toNat) action oldAction ↔
      if (last a signum.toNat).mask = 40 then
        userWord k.phys.mem t.memorySet oldAction 8 = some (last a signum.toNat).handler
      else SameWhereShared k.phys.mem t.memorySet action oldAction (actionBytes (last a signum.toNat) pad) := by
  obtain ⟨hu, hlt⟩ := hr.under
  obtain ⟨old, e, e', hget, he, hmem, he', htask⟩ := sysSigaction_installed h hc ht _ _ hrun rfl
  have hindex : signum.toNat < t.signalActions.length := (List.getElem?_eq_some_iff.mp hget).1
  have hlen : t.signalActions.length = 32 := by
    rw [hu a t ht, tableOf, List.length_map, List.length_range]
  have hprev : last a signum.toNat = old := by
    rw [hu a t ht, tableOf_get (by omega), Option.some.injEq] at hget
    exact hget
  rw [hprev]
  -- the table says which action has been installed
  have hset : ∀ new, k'.tasks a = some { t with signalActions := t.signalActions.set signum.toNat new } ↔
      readAction k'.phys.mem (e'.ppn * 4096 + action % 4096) = new := by
    intro new
    rw [htask, Option.some.injEq]
    constructor
    · intro heq
      have htable := congrArg (fun u => u.signalActions[signum.toNat]?) heq
      simp only [List.getElem?_set_self hindex, Option.some.injEq] at htable
      exact htable
    · rintro rfl
      rfl
  split
  · next hmask =>
    have hsame : k'.phys.mem = k.phys.mem := by
      rw [hmem, oldStored, he]
      simp only [hmask, ne_eq, not_true, if_false]
    rw [hsame] at he' hset
    refine ⟨fun hrep => hsame ▸ hrep.handler, fun hthere => ⟨hsame.symm ▸ hthere, _, userAction_fits h he' hact, ?_⟩⟩
    exact (hset _).mpr rfl
  · next hmask =>
    have hbytes : (actionBytes old pad).length = 16 := length_actionBytes old pad
    have hwrite : k'.phys.mem = k.phys.mem.write (e.ppn * 4096 + oldAction % 4096) (actionBytes old pad) := by
      rw [hmem, oldStored, he]
      simp only [hmask, ne_eq, not_false_iff, if_true]
    have hkeeps : ∀ v, t.memorySet.translate k'.phys.mem v = t.memorySet.translate k.phys.mem v := by
      intro v
      rw [hwrite]
      exact (h.store_keeps hfr he (a := e.ppn * 4096 + oldAction % 4096) (by omega) (by omega) rfl).2 v
    have hreport : userWord k'.phys.mem t.memorySet oldAction 8 = some old.handler := by
      have hfirst : ((actionBytes old pad).drop 0).take 8 = leEncode 8 old.handler := by
        rw [List.drop_zero, actionBytes, List.append_assoc]
        exact List.take_left' (leEncode_length 8 _)
      have hsmall : old.handler < 256 ^ 8 := hprev ▸ hlt a signum.toNat
      have hstored : (k.phys.mem.write (e.ppn * 4096 + oldAction % 4096) (actionBytes old pad)).bytes
          (e.ppn * 4096 + oldAction % 4096 + 0) 8 = leEncode 8 old.handler := (Mem.bytes_write (by omega)).trans hfirst
      rw [userWord_eq h ((hkeeps _).trans he) (by omega), hwrite, Mem.word]
      rw [Nat.add_zero] at hstored
      rw [hstored, leDecode_leEncode, Nat.mod_eq_of_lt hsmall]
    rw [hkeeps] at he'
    rw [← readAction_write_iff h he he' (hbytes ▸ hold) hact, ← hwrite]
    constructor
    · rintro ⟨_, new, hnew, hinst⟩
      rw [userAction_fits h he' hact, Option.some.injEq] at hnew
      exact ((hset new).mp hinst).trans hnew.symm
    · intro hsame
      exact ⟨hreport, _, userAction_fits h he' hact, (hset _).mpr hsame⟩

/-! ## The first call of a process -/

/-- `INITPROC` runs, and has a page of zeros at `0x100000`. -/
structure ZeroPage (k : Kernel B) (a : Nat) (t : TaskControlBlock) (L : Layout) (rest : List Nat) (e : PageTableEntry) :
    Prop where
  current : k.current = some a
  task : k.tasks a = some t
  good : Good L rest k.phys t.memorySet
  framed : t.memorySet.Framed
  mapped : ∀ p, p / 4096 = 0x100 → t.memorySet.translate k.phys.mem (pageOf p) = some e
  flags : e.flags = protPerm 3 ||| PTEFlags.V
  zero : ∀ off < 4096, k.phys.mem (e.ppn * 4096 + off) = 0

theorem exists_zeroPage : ∃ (k : Kernel listHeap) (a : Nat) (t : TaskControlBlock) (rest : List Nat)
    (e : PageTableEntry), ActionRun fourMegabytes (fun _ _ => .default) k ∧
      ZeroPage k a t fourMegabytes.toLayout rest e := by
  obtain ⟨k₀, a, t, hboot, hstart⟩ := exists_boot listHeap fourMegabytes (by decide) (fun _ => 0) [0x73, 0, 0, 0]
    (by decide) 0
  have hk₀ : Reached fourMegabytes (Within true) k₀ := .boot hboot
  obtain ⟨k, hrun₀, halone⟩ := hstart.runTasks (I := fourMegabytes) hk₀.ok.sched
  have hk := hk₀.step .runTasks ⟨hstart.starved, trivial⟩ hrun₀
  have hm := hk.mem halone.starved
  have hl : TaskStatus.running ≠ TaskStatus.zombie := by decide
  have hg := hm.goodTask halone.task_eq hl
  have hsite : Site fourMegabytes.toLayout _ k.phys k.phys _ _ (94 + 6) :=
    ⟨⟨hg, halone.roomy.full, Keeps.refl _ _⟩, halone.roomy.ranges, halone.roomy.free⟩
  obtain ⟨⟨r, ms⟩, p, hrun, hr, hsite'⟩ := hsite.sysMmap_ok 0x100000 0x1000 3 (l := 0x100) (r := 0x101) (n := 1)
    (by decide) (by decide) (by decide) (by decide) (by decide) (by decide) (by decide) (by decide) (by decide)
  simp only at hr
  subst hr
  obtain ⟨_, _, _, _, hadded⟩ := sysMmap_added hg hrun
  obtain ⟨e, he, hflags, hzero⟩ := hadded.after 0x100 (by decide)
  have hstep := onMemorySet_run (x := fun ms => sysMmap ms 0x100000 0x1000 3) halone.current halone.task_eq hrun
  have hacts := ((ActionRun.boot hboot).other .runTasks (by rintro ⟨⟩) (by rintro _ _ _ _ ⟨⟩) hrun₀).other
    (.mmap 0x100000 0x1000 3) (by rintro ⟨⟩) (by rintro _ _ _ _ ⟨⟩) hstep
  have hk' := hk.step (.mmap 0x100000 0x1000 3) ⟨halone.starved, trivial⟩ hstep
  have hm' := hk'.mem (hsite'.whole.keeps.starved.trans halone.starved)
  have ht' := Function.update_self a (some { t with taskStatus := TaskStatus.running, memorySet := ms }) k.tasks
  have hpage : ∀ q, q / 4096 = 0x100 → pageOf q = 0x100 := by
    intro q hq
    show q % 2 ^ 39 / 4096 = 0x100
    omega
  exact ⟨_, a, _, _, e, hacts, halone.current, ht', hm'.goodTask ht' hl, (hm'.task_ok ht' hl).framed,
    fun q hq => (hpage q hq).symm ▸ he, hflags, hzero⟩

/-- A call over a default action, with structures on mapped pages, stores nothing and succeeds. -/
theorem sysSigaction_default {last : Nat → Nat → SignalAction} (hr : ActionRun I last k) (hc : k.current = some a)
    (ht : k.tasks a = some t) (h : Good L rest k.phys t.memorySet) (hsig : signum ≤ 31)
    (hargs : checkSigactionError (SignalFlags.ofSignum signum) action oldAction = false)
    (hdefault : last a signum.toNat = .default)
    (he : t.memorySet.translate k.phys.mem (pageOf oldAction) = some e)
    (he' : t.memorySet.translate k.phys.mem (pageOf action) = some e') :
    (sysSigaction signum action oldAction pad).run k = some (0, { k with
      tasks := Function.update k.tasks a (some { t with
        signalActions := t.signalActions.set signum.toNat
          (readAction k.phys.mem (e'.ppn * 4096 + action % 4096)) }) }) := by
  have hlt : signum.toNat < 32 := by
    have hle : signum.toNat ≤ 31 := UInt32.le_iff_toNat_le.mp hsig
    omega
  have hget : t.signalActions[signum.toNat]? = some .default := by
    rw [hr.under.1 a t ht, tableOf_get hlt, hdefault]
  have hrefs : ∀ {p : Nat} {e : PageTableEntry},
      t.memorySet.translate k.phys.mem (pageOf p) = some e →
      (onPhys (translatedRefmut t.memorySet.token p)).run k = some (e.ppn * 4096 + p % 4096, k) := by
    intro p e he
    rw [onPhys, Comp.run_zoom, translatedRefmut_run h he]
    rfl
  have hmask : ¬SignalAction.default.mask ≠ 40 := fun hne => hne rfl
  simp only [sysSigaction, currentTask, task, setTask, Comp.run_bind, Comp.run_get, hc, ht, Comp.unwrap, Comp.run_pure,
    Option.bind_some, if_neg (UInt32.not_lt.mpr hsig), hargs, hget, if_neg hmask, hrefs he, hrefs he', Comp.run_modify,
    Bool.false_eq_true, if_false]

/-- The first call of a process that has cleared the place of the report. -/
theorem sysSigaction_reports_zero : ∃ (k k' : Kernel listHeap) (a : Nat) (t : TaskControlBlock),
    ActionRun fourMegabytes (fun _ _ => .default) k ∧
    (sysSigaction 2 0x100010 0x100000 0).run k = some (0, k') ∧ Reported k k' a t 2 .default 0x100010 0x100000 := by
  obtain ⟨k, a, t, rest, e, hr, hz⟩ := exists_zeroPage
  have hpage := hz.mapped 0x100000 (by decide)
  have hrun : (sysSigaction 2 0x100010 0x100000 0).run k = _ :=
    sysSigaction_default hr hz.current hz.task hz.good (by decide) (by decide) rfl hpage (hz.mapped 0x100010 (by decide))
  have hword : userWord k.phys.mem t.memorySet 0x100000 8 = some 0 := by
    rw [userWord_eq hz.good hpage (by decide), Option.some.injEq]
    refine (Mem.word_eq_iff (m := fun _ => 0) (a := 0)).mpr fun i hi => ?_
    rw [Nat.add_assoc]
    exact hz.zero _ (by omega)
  exact ⟨k, _, a, t, hr, hrun, (sysSigaction_reports_iff hr hz.current hz.task hz.good hz.framed (by decide) (by decide)
    hrun).mpr (by rwa [if_pos (by rfl)])⟩

/-- The first call does not report that there was no handler: what is at `old_action` stays there. -/
theorem sysSigaction_reports_garbage : ∃ (k k' : Kernel listHeap) (a : Nat) (t : TaskControlBlock),
    ActionRun fourMegabytes (fun _ _ => .default) k ∧ k.current = some a ∧ k.tasks a = some t ∧
    (sysSigaction 2 0x100010 0x100000 0).run k = some (0, k') ∧
    ¬Reported k k' a t 2 .default 0x100010 0x100000 := by
  obtain ⟨k, a, t, rest, e, hr, hz⟩ := exists_zeroPage
  have hpage := hz.mapped 0x100000 (by decide)
  -- the program stores 1 there
  have hflags : e.flags &&& (PTEFlags.U ||| PTEFlags.W) = PTEFlags.U ||| PTEFlags.W := by
    rw [hz.flags]
    decide
  let p : Phys := { k.phys with mem := k.phys.mem.write (e.ppn * 4096 + 0x100000 % 4096) [1] }
  have hstore : (step fourMegabytes (.userStore 0x100000 1)).run k = some (0, { k with phys := p }) := by
    simp only [step, userStore, currentTask, task, onPhys, storePhys, Comp.run_bind, Comp.run_get, hz.current, hz.task,
      Comp.unwrap, Comp.run_pure, Option.bind_some, Comp.run_zoom, Comp.run_modify, Comp.assert, if_pos hflags,
      show t.memorySet.translate k.phys.mem (VirtAddr.ofUsize 0x100000).floor = some e from hpage]
    rfl
  have hmem : p = { k.phys with mem := k.phys.mem.write (e.ppn * 4096 + 0x100000 % 4096) [1] } := rfl
  obtain ⟨hg, hkeeps⟩ := hz.good.store_keeps hz.framed hpage (by omega) (by rw [List.length_singleton]; omega) hmem
  have hpage' := (hkeeps _).trans hpage
  have hr' := hr.other (.userStore 0x100000 1) (by rintro ⟨⟩) (by rintro _ _ _ _ ⟨⟩) hstore
  have hrun : (sysSigaction 2 0x100010 0x100000 0).run { k with phys := p } = _ :=
    sysSigaction_default hr' hz.current hz.task hg (by decide) (by decide) rfl hpage'
      ((hkeeps _).trans (hz.mapped 0x100010 (by decide)))
  refine ⟨_, _, a, t, hr', hz.current, hz.task, hrun, fun hrep => ?_⟩
  have hword : userWord p.mem t.memorySet 0x100000 8 = some 0 := hrep.handler
  rw [userWord_eq hg hpage' (by decide), Option.some.injEq] at hword
  have hzero := (Mem.word_eq_iff (m := fun _ => 0) (a := 0)).mp hword 0 (by decide)
  have hone : p.mem (e.ppn * 4096 + 0x100000 % 4096 + 0) = 1 := Mem.write_getElem (show 0 < [(1 : UInt8)].length by decide)
  exact absurd (hone.symm.trans hzero) (by decide)

end Kernel

end RCore.Task
