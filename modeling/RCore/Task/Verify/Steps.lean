import RCore.Task.Verify.Moves

/-!
# The steps of the kernel on the process table

`Ends x R T` says what a function of the kernel does to the process table: started with the table
`T`, it ends with a result and a table that satisfy `R`, if it does not panic. The rules below compute
it along the code; a function of the memory manager can do nothing to the table. With them every step
of the kernel is a move of its table (`step_move`), so the invariants hold in every state that is
reached (`Reached.ok`).
-/

namespace RCore.Task

open RCore Mm

namespace Table

variable {B : BinaryHeap}

/-- The addresses held by the state, as in `Kernel.refs`. -/
def refs (T : Table B) : List Nat :=
  T.initproc.toList ++ T.current.toList ++ T.ready.map Prod.snd ++
    (List.range T.next).flatMap fun a => ((T.tasks a).map Entry.children).getD []

/-- A child that a `sys_waitpid` of `pid` is about. -/
def WaitsFor (T : Table B) (pid : Int) (c : Nat) : Prop :=
  ∃ f, T.tasks c = some f ∧ (pid = -1 ∨ pid % 2 ^ 64 = f.pid)

end Table

namespace Kernel

variable {B : BinaryHeap} {α β : Type} {T : Table B} {k : Kernel B} {a : Nat}
  {t : TaskControlBlock}

/-! ## The table of a kernel -/

theorem table_task (h : k.tasks a = some t) : k.table.tasks a = some t.entry := by
  simp only [table, h, Option.map_some]

theorem exists_task {e : Entry} (h : k.table.tasks a = some e) : ∃ t, k.tasks a = some t ∧ t.entry = e :=
  Option.map_eq_some_iff.mp h

theorem table_setTask (k : Kernel B) (a : Nat) (t : TaskControlBlock) :
    ({ k with tasks := Function.update k.tasks a (some t) } : Kernel B).table =
      k.table.put a t.entry := by
  simp only [table, Table.put]
  congr 1
  funext b
  by_cases hb : b = a
  · rw [hb, Function.update_self, Function.update_self, Option.map_some]
  · rw [Function.update_of_ne hb, Function.update_of_ne hb]

theorem table_clearTask (k : Kernel B) (a : Nat) :
    ({ k with tasks := Function.update k.tasks a none } : Kernel B).table = k.table.erase a := by
  simp only [table, Table.erase]
  congr 1
  funext b
  by_cases hb : b = a
  · rw [hb, Function.update_self, Function.update_self, Option.map_none]
  · rw [Function.update_of_ne hb, Function.update_of_ne hb]

theorem refs_table (k : Kernel B) : k.table.refs = k.refs := by
  have hc : ∀ b, ((k.table.tasks b).map Entry.children).getD [] =
      ((k.tasks b).map TaskControlBlock.children).getD [] := by
    intro b
    simp only [table, Option.map_map]
    rfl
  simp only [Table.refs, refs, hc]
  rfl

theorem waitsFor_iff (k : Kernel B) (pid : Int) (c : Nat) :
    k.waitsFor pid c = true ↔ k.table.WaitsFor pid c := by
  unfold waitsFor Table.WaitsFor
  cases hc : k.tasks c with
  | none => simp [table, hc]
  | some t => simp [table_task hc, TaskControlBlock.entry]

theorem collects_iff (k : Kernel B) (pid : Int) (c : Nat) :
    k.collects pid c = true ↔
      k.table.WaitsFor pid c ∧ ∃ f, k.table.tasks c = some f ∧ f.taskStatus = .zombie := by
  unfold collects Table.WaitsFor
  cases hc : k.tasks c with
  | none => simp [table, hc]
  | some t =>
    simp only [Bool.decide_and, Bool.decide_or, Bool.and_eq_true, Bool.or_eq_true,
      decide_eq_true_eq, table_task hc, Option.some.injEq, exists_eq_left', TaskControlBlock.entry]
    exact And.comm

/-! ## Rules -/

/-- Started with the table `T`, `x` ends in `R` if it does not panic. -/
def Ends (x : Comp (Kernel B) α) (R : α → Table B → Prop) (T : Table B) : Prop :=
  ∀ k : Kernel B, k.table = T → x.wlp (fun r k' => R r k'.table) k

variable {R R' : α → Table B → Prop}

theorem Ends.mono {x : Comp (Kernel B) α} (h : Ends x R T) (hr : ∀ r T', R r T' → R' r T') :
    Ends x R' T := fun k hk => (h k hk).mono fun _ _ hq => hr _ _ hq

theorem ends_bind {x : Comp (Kernel B) α} {f : α → Comp (Kernel B) β} {R : β → Table B → Prop}
    (h : Ends x (fun r T' => Ends (f r) R T') T) : Ends (x >>= f) R T := by
  intro k hk
  rw [Comp.wlp_bind]
  exact (h k hk).mono fun r k' hr => hr k' rfl

theorem ends_pure {r : α} (h : R r T) : Ends (pure r) R T := by
  rintro k rfl
  rw [Comp.wlp_pure]
  exact h

theorem ends_get {R : Kernel B → Table B → Prop} (h : ∀ k : Kernel B, k.table = T → R k T) :
    Ends Comp.get R T := by
  rintro k rfl
  rw [Comp.wlp_get]
  exact h k rfl

theorem ends_modify {f : Kernel B → Kernel B} {R : Unit → Table B → Prop}
    (h : ∀ k : Kernel B, k.table = T → R () (f k).table) : Ends (Comp.modify f) R T := by
  intro k hk
  rw [Comp.wlp_modify]
  exact h k hk

theorem ends_assert {c : Prop} [Decidable c] {R : Unit → Table B → Prop} (h : c → R () T) :
    Ends (Comp.assert c) R T := by
  rintro k rfl
  rw [Comp.wlp_assert]
  exact h

theorem ends_unwrap {o : Option α} (h : ∀ r, o = some r → R r T) : Ends (Comp.unwrap o) R T := by
  rintro k rfl
  rw [Comp.wlp_unwrap]
  exact h

theorem ends_onPhys {x : Comp Phys α} (h : ∀ r, R r T) : Ends (onPhys x) R T := by
  rintro k rfl
  rw [onPhys, Comp.wlp_zoom]
  intro r p _
  exact h r

theorem ends_task {R : TaskControlBlock → Table B → Prop}
    (h : ∀ t : TaskControlBlock, T.tasks a = some t.entry → R t T) : Ends (task a) R T :=
  ends_bind (ends_get fun k hk => ends_unwrap fun t ht => h t (by rw [← hk]; exact table_task ht))

theorem ends_setTask {R : Unit → Table B → Prop} (h : R () (T.put a t.entry)) :
    Ends (setTask a t) R T :=
  ends_modify fun k hk => by
    rw [table_setTask, hk]
    exact h

theorem ends_currentTask {R : Nat → Table B → Prop} (h : ∀ a, T.current = some a → R a T) :
    Ends currentTask R T :=
  ends_bind (ends_get fun k hk => ends_unwrap fun a ha => h a (by rw [← hk]; exact ha))

theorem ends_takeCurrentTask {R : Nat → Table B → Prop}
    (h : ∀ a, T.current = some a → R a { T with current := none }) : Ends takeCurrentTask R T :=
  ends_bind (ends_currentTask fun a ha => ends_bind (ends_modify fun k hk => by
    subst hk
    exact ends_pure (h a ha)))

/-! ## Functions that leave the table alone -/

/-- `x` leaves the table as it is. -/
def Still (x : Comp (Kernel B) α) (T : Table B) : Prop := Ends x (fun _ T' => T' = T) T

theorem Still.bind {x : Comp (Kernel B) α} {f : α → Comp (Kernel B) β} (hx : Still x T)
    (hf : ∀ r, Still (f r) T) : Still (x >>= f) T :=
  ends_bind (hx.mono fun r T' hT => by
    subst hT
    exact hf r)

theorem still_pure (r : α) : Still (pure r) T := ends_pure rfl

theorem still_onPhys (x : Comp Phys α) : Still (onPhys x) T := ends_onPhys fun _ => rfl

theorem still_ite {c : Prop} [Decidable c] {x y : Comp (Kernel B) α} (hx : Still x T)
    (hy : Still y T) : Still (if c then x else y) T := by
  split
  · exact hx
  · exact hy

/-- Replace the current task by one that is the same to the table. -/
theorem still_setTask {t' : TaskControlBlock} (h : T.tasks a = some t.entry)
    (he : t'.entry = t.entry) : Still (setTask a t') T :=
  ends_setTask (by
    show T.put a t'.entry = T
    rw [Table.put, he, ← h, Function.update_eq_self])

theorem still_trapCxPpnOf (ms : MemorySet) : Still (trapCxPpnOf ms) T :=
  ends_bind (ends_get fun _ _ => ends_bind (ends_unwrap fun _ _ => ends_pure rfl))

theorem still_newKernelStack (pid : Nat) : Still (newKernelStack pid) T := by
  apply ends_bind
  refine ends_get fun k _ => ?_
  apply ends_bind
  refine ends_onPhys fun ⟨r, kernelSpace⟩ => ?_
  apply ends_bind
  refine ends_modify fun k' hk' => ?_
  subst hk'
  cases r with
  | ok => exact still_pure _
  | error => exact still_pure _

theorem still_dropKernelStack (stack : Nat) : Still (dropKernelStack stack) T := by
  apply ends_bind
  refine ends_get fun k _ => ?_
  apply ends_bind
  apply ends_bind
  refine ends_assert fun _ => ends_pure ?_
  apply ends_bind
  refine ends_onPhys fun kernelSpace => ?_
  refine ends_modify fun k' hk' => ?_
  subst hk'
  rfl

/-! ## Signals and memory -/

/-- A function of the current task that replaces it by one that is the same to the table. -/
theorem still_current {f : Nat → TaskControlBlock → Comp (Kernel B) α}
    (hf : ∀ a t, T.tasks a = some t.entry → Still (f a t) T) :
    Still (do
      let cur ← currentTask
      let t ← task cur
      f cur t) T :=
  ends_bind (ends_currentTask fun a _ => ends_bind (ends_task fun t ht => hf a t ht))

theorem still_onMemorySet (x : MemorySet → Comp Phys (Int × MemorySet)) : Still (onMemorySet x) T :=
  still_current fun _ _ ht => (still_onPhys _).bind fun (_, _) =>
    Still.bind (still_setTask ht rfl) fun _ => still_pure _

theorem still_userStore (va : Nat) (b : UInt8) : Still (userStore va b) T :=
  still_current fun _ _ _ => ends_bind (ends_get fun _ _ => ends_bind (ends_unwrap fun _ _ =>
    ends_bind (ends_assert fun _ => still_onPhys _)))

theorem still_pid2task (pid : Nat) : Still (pid2task pid) T :=
  still_current fun _ _ _ => still_ite (still_pure _) (ends_bind (ends_get fun _ _ => still_pure _))

theorem still_sysKill (pid : Nat) (signum : UInt32) : Still (sysKill pid signum) T := by
  refine (still_pid2task pid).bind fun r => ?_
  cases r with
  | none => exact still_pure _
  | some addr =>
    refine ends_bind (ends_task fun t ht => ?_)
    refine still_ite (still_pure _) ?_
    exact Still.bind (still_setTask ht rfl) fun _ => still_pure _

theorem still_sysSigprocmask (mask : UInt32) : Still (sysSigprocmask mask) T :=
  still_current fun _ _ ht => Still.bind (still_setTask ht rfl) fun _ => still_pure _

theorem still_sysSigreturn : Still sysSigreturn T :=
  still_current fun _ _ ht => Still.bind (still_setTask ht rfl) fun _ => ends_bind (ends_unwrap fun _ _ =>
    (still_onPhys _).bind fun _ => still_pure _)

theorem still_sysSigaction (signum : UInt32) (action oldAction : Nat) (pad : UInt32) :
    Still (sysSigaction signum action oldAction pad) T := by
  refine still_current fun a t ht => ?_
  refine still_ite (still_pure _) (still_ite (still_pure _) ?_)
  refine ends_bind (ends_unwrap fun old _ => ?_)
  refine (still_onPhys _).bind fun pa => ?_
  have hrest : ∀ _ : PUnit, Still (do
      let pa ← onPhys (translatedRefmut t.memorySet.token action)
      let k ← Comp.get
      let a' := readAction k.phys.mem pa
      setTask a { t with signalActions := t.signalActions.set signum.toNat a' }
      pure (0 : Int)) T := fun _ => (still_onPhys _).bind fun _ => ends_bind (ends_get fun _ _ =>
    Still.bind (still_setTask ht rfl) fun _ => still_pure _)
  split
  · exact (still_onPhys _).bind hrest
  · exact hrest ⟨⟩

theorem still_currentAddSignal (signal : SignalFlags) : Still (currentAddSignal signal) T :=
  still_current fun _ _ ht => still_setTask ht rfl

theorem still_callKernelSignalHandler (signal : SignalFlags) :
    Still (callKernelSignalHandler signal) T :=
  still_current fun _ _ ht => still_ite (still_setTask ht rfl)
    (still_ite (still_ite (still_setTask ht rfl) (still_pure _)) (still_setTask ht rfl))

theorem still_callUserSignalHandler (sig : Nat) (signal : SignalFlags) :
    Still (callUserSignalHandler sig signal) T :=
  still_current fun _ _ ht => ends_bind (ends_unwrap fun _ _ => still_ite
    (ends_bind (ends_get fun _ _ => Still.bind (still_setTask ht rfl) fun _ =>
      (still_onPhys _).bind fun _ => still_onPhys _)) (still_pure _))

theorem still_checkPendingLoop (sigs : List Nat) : Still (checkPendingLoop sigs) T := by
  induction sigs with
  | nil => exact still_pure _
  | cons sig sigs ih =>
    refine still_current fun a t ht => ?_
    refine still_ite ?_ ih
    have hrest : ∀ blocked : Bool, Still (if blocked then checkPendingLoop sigs
        else if isKernelSignal (SignalFlags.ofSignum (UInt32.ofNat sig)) then do
          callKernelSignalHandler (SignalFlags.ofSignum (UInt32.ofNat sig))
          checkPendingLoop sigs
        else callUserSignalHandler sig (SignalFlags.ofSignum (UInt32.ofNat sig))) T :=
      fun _ => still_ite ih (still_ite ((still_callKernelSignalHandler _).bind fun _ => ih)
        (still_callUserSignalHandler _ _))
    refine still_ite ((still_pure _).bind hrest) ?_
    exact ends_bind (ends_unwrap fun _ _ => (still_pure _).bind hrest)

/-! ## Exec -/

theorem still_storeArg (token : Nat) (cs : List UInt8) (p : Nat) : Still (storeArg token cs p) T := by
  induction cs generalizing p with
  | nil => exact (still_onPhys _).bind fun _ => still_onPhys _
  | cons c cs ih => exact (still_onPhys _).bind fun _ => (still_onPhys _).bind fun _ => ih _

theorem still_pushArgs (token : Nat) (args : List (List UInt8)) (slots : List Nat) (userSp : Nat) :
    Still (pushArgs token args slots userSp) T := by
  induction args generalizing slots userSp with
  | nil => exact still_pure _
  | cons arg args ih =>
    cases slots with
    | nil => exact still_pure _
    | cons slot slots =>
      exact (still_onPhys _).bind fun _ => (still_storeArg _ _ _).bind fun _ => ih _ _

theorem still_argvSlots (token argvBase : Nat) (args : List Nat) :
    Still (argvSlots token argvBase args) T := by
  induction args with
  | nil => exact still_pure _
  | cons arg args ih => exact (still_onPhys _).bind fun _ => ih.bind fun _ => still_pure _

theorem still_exec (I : Image) (elf : ElfFile) (args : List (List UInt8)) (sstatus : Nat) :
    Still (exec I elf args sstatus) T := by
  refine (still_onPhys _).bind fun r => ?_
  refine (still_argvSlots _ _ _).bind fun argv => ends_bind (ends_unwrap fun last _ => ?_)
  refine (still_onPhys _).bind fun _ => (still_pushArgs _ _ _ _).bind fun userSp => ?_
  refine (still_trapCxPpnOf _).bind fun trapCxPpn => still_current fun a t ht => ?_
  refine Still.bind (still_setTask ht rfl) fun _ => (still_onPhys _).bind fun _ => ?_
  exact ends_bind (ends_get fun _ _ => still_onPhys _)

/-! ## Fork and yield -/

theorem ends_addTask {R : Unit → Table B → Prop}
    (h : ∀ t : TaskControlBlock, T.tasks a = some t.entry → R () (T.add a t.entry)) :
    Ends (addTask a) R T := by
  refine ends_bind (ends_task fun t ht => ends_bind (ends_assert fun _ => ?_))
  refine ends_bind (ends_setTask (ends_modify fun k hk => ?_))
  have hadd : ({ k with
      scheduler := k.scheduler.insertTask t.pid (usizeAdd t.pass (bigStride / t.priority))
      readyQueue := insertKey t.pid a k.readyQueue } : Kernel B).table =
      { k.table with
        heap := B.push k.table.heap ⟨t.pid, usizeAdd t.pass (bigStride / t.priority)⟩
        ready := insertKey t.pid a k.table.ready } := rfl
  rw [hadd, hk]
  exact h t ht

theorem ends_pidAlloc {R : Nat → Table B → Prop}
    (h : R T.pids.alloc.1 { T with pids := T.pids.alloc.2 }) : Ends pidAlloc R T := by
  refine ends_bind (ends_get fun k hk => ends_bind (ends_modify fun k' hk' => ?_))
  have hk₁ : k.pidAllocator = T.pids := by rw [← hk]; rfl
  rw [hk₁]
  subst hk'
  exact ends_pure h

theorem ends_newTask {R : Nat → Table B → Prop}
    (h : R T.next { T.put T.next t.entry with next := T.next + 1 }) : Ends (newTask t) R T := by
  refine ends_bind (ends_get fun k hk => ?_)
  have hnext : k.next = T.next := by rw [← hk]; rfl
  refine ends_bind (ends_setTask (ends_bind (ends_modify fun k' hk' => ?_)))
  rw [hnext] at hk' ⊢
  have htable : ({ k' with next := k'.next + 1 } : Kernel B).table =
      { k'.table with next := k'.table.next + 1 } := rfl
  rw [htable, hk']
  exact ends_pure h

theorem ends_fork (I : Image) {R : Nat → Table B → Prop}
    (h : ∀ e, T.tasks a = some e → R T.next (T.spawn a e (e.child a T.pids.alloc.1))) :
    Ends (fork I a) R T := by
  refine ends_bind (ends_task fun t ht => ends_bind (ends_onPhys fun ms => ?_))
  refine ends_bind (ends_pidAlloc (ends_bind ((still_newKernelStack _).mono fun stack T' hT => ?_)))
  subst hT
  refine ends_bind ((still_trapCxPpnOf _).mono fun ppn T' hT => ?_)
  subst hT
  refine ends_bind (ends_onPhys fun _ => ends_bind (ends_newTask ?_))
  exact ends_bind (ends_setTask (ends_pure (h t.entry ht)))

theorem spawn_next {e f : Entry} (hne : T.next ≠ a) : (T.spawn a e f).tasks T.next = some f := by
  show ((T.put T.next f).put a _).tasks T.next = some f
  rw [Table.put_ne hne]
  exact Table.put_same T T.next f

theorem ends_sysFork (I : Image) (h : T.SchedOk) :
    Ends (sysFork I) (fun _ T' => Table.Move .fork T T') T := by
  refine ends_bind (ends_currentTask fun a hcur => ends_bind (ends_fork I fun e he => ?_))
  have hne : T.next ≠ a := by
    rintro rfl
    rw [h.fresh _ (Nat.le_refl _)] at he
    cases he
  refine ends_bind (ends_task fun t ht => ends_bind (ends_onPhys fun _ => ?_))
  refine ends_bind (ends_addTask fun t' ht' => ends_pure ?_)
  rw [spawn_next hne] at ht'
  rw [← Option.some.inj ht']
  exact Table.Move.fork hcur he

theorem ends_suspend : Ends suspendCurrentAndRunNext (fun _ T' => Table.Move .yield T T') T := by
  refine ends_bind (ends_takeCurrentTask fun a hcur => ends_bind (ends_task fun t ht => ?_))
  refine ends_bind (ends_setTask (ends_addTask fun t' ht' => ?_))
  rw [Table.put_same] at ht'
  rw [← Option.some.inj ht']
  have heq : (({ T with current := none } : Table B).put a
      ({ t with taskStatus := .ready } : TaskControlBlock).entry).add a
        ({ t with taskStatus := .ready } : TaskControlBlock).entry =
      ({ T with current := none } : Table B).add a { t.entry with taskStatus := .ready } := by
    simp only [Table.add, Table.put, Function.update_idem]
    rfl
  rw [heq]
  exact Table.Move.yield hcur ht

theorem ends_sysSetPriority (prio : Nat) :
    Ends (sysSetPriority prio) (fun _ T' => Table.Move (.setPriority prio) T T') T := by
  unfold sysSetPriority
  split
  · exact ends_pure (Table.Move.same _ _)
  · next hprio =>
    refine ends_bind (ends_currentTask fun a hcur => ends_bind (ends_task fun t ht => ?_))
    refine ends_bind (ends_setTask (ends_pure ?_))
    exact Table.Move.setPriority hcur ht (by omega)

/-! ## Taking the next task -/

/-- The least ready task, as `fetch` finds it: the heap gives its entry first. -/
structure Fetches (k : Kernel B) (p : Nat × Nat) (q : B.Queue) : Prop where
  mem : p ∈ k.readyQueue
  pop : B.pop k.scheduler = some (k.table.stride p, q)
  perm : (B.elems k.scheduler).Perm (k.table.stride p :: B.elems q)
  least : ∀ x ∈ k.readyQueue, k.table.ghost p.2 ≤ k.table.ghost x.2

theorem exists_fetches (h : k.table.SchedOk) (hne : k.readyQueue ≠ []) : ∃ p q, k.Fetches p q := by
  obtain ⟨p, hp, q, hpop, hperm, hmin⟩ := h.pop hne
  exact ⟨p, q, hp, hpop, hperm, hmin⟩

/-- The loop of `fetch` ends at the first entry of the heap, whatever its bound. -/
theorem fetchLoop_run (h : k.table.SchedOk) {p : Nat × Nat} {q : B.Queue} (hf : k.Fetches p q)
    (fuel : Nat) : (fetchLoop (fuel + 1)).run k = some (some p.1, { k with scheduler := q }) := by
  have hnext : k.scheduler.findNextTask = (some p.1, q) := by
    rw [StrideScheduler.findNextTask, hf.pop]
    rfl
  have hlook : k.readyQueue.lookup p.1 = some p.2 := lookup_of_mem h.keys hf.mem
  rw [fetchLoop]
  simp only [Comp.run_bind, Comp.run_get, Option.bind_some, hnext, Comp.run_modify, hlook,
    Option.isSome_some, if_true, Comp.run_pure]

theorem fetchLoop_run_empty (h : k.table.SchedOk) (hk : k.readyQueue = []) (fuel : Nat) :
    (fetchLoop (fuel + 1)).run k = some (none, k) := by
  have hnil : B.elems k.scheduler = [] := by
    have hperm := h.heap
    have hready : k.table.ready = [] := hk
    rw [hready, List.map_nil] at hperm
    exact hperm.eq_nil
  have hnext : k.scheduler.findNextTask = (none, k.scheduler) := by
    rw [StrideScheduler.findNextTask, B.pop_empty _ hnil]
  rw [fetchLoop]
  simp only [Comp.run_bind, Comp.run_get, Option.bind_some, hnext, Comp.run_modify, Comp.run_pure]

/-- **`fetch`** takes the least ready task. -/
theorem fetchTask_run (h : k.table.SchedOk) {p : Nat × Nat} {q : B.Queue} (hf : k.Fetches p q) :
    fetchTask.run k = some (some p.2, { k with
      scheduler := q, readyQueue := k.readyQueue.filter fun e => e.1 ≠ p.1 }) := by
  have hlook : k.readyQueue.lookup p.1 = some p.2 := lookup_of_mem h.keys hf.mem
  rw [fetchTask]
  simp only [Comp.run_bind, Comp.run_get, Option.bind_some, fetchLoop_run h hf, hlook, Comp.unwrap,
    Comp.run_pure, Comp.run_modify]

theorem fetchTask_run_empty (h : k.table.SchedOk) (hk : k.readyQueue = []) :
    fetchTask.run k = some (none, k) := by
  rw [fetchTask]
  simp only [Comp.run_bind, Comp.run_get, Option.bind_some, fetchLoop_run_empty h hk, Comp.run_pure]

theorem ends_runTasks (h : T.SchedOk) : Ends runTasks (fun _ T' => Table.Move .runTasks T T') T := by
  rintro k rfl
  rw [runTasks]
  simp only [Comp.wlp_bind, Comp.wlp_get, Comp.wlp_assert]
  intro hcur
  by_cases hk : k.readyQueue = []
  · rw [Comp.wlp_of_run (fetchTask_run_empty h hk)]
    simp only [Comp.wlp_pure]
    exact Table.Move.same _ _
  · obtain ⟨p, q, hf⟩ := exists_fetches h hk
    rw [Comp.wlp_of_run (fetchTask_run h hf)]
    simp only [task, setTask, Comp.wlp_bind, Comp.wlp_get, Comp.wlp_unwrap, Comp.wlp_modify]
    intro t ht
    have htable := table_setTask { k with
      scheduler := q, readyQueue := k.readyQueue.filter fun e => e.1 ≠ p.1, current := some p.2 } p.2
      { t with taskStatus := .running }
    have hmove := Table.Move.runTasks (T := k.table) hcur hf.mem (table_task ht) hf.perm hf.least
    have heq : k.table.dispatch q p t.entry = ({ k with
        scheduler := q, readyQueue := k.readyQueue.filter fun e => e.1 ≠ p.1,
        current := some p.2 } : Kernel B).table.put p.2
          ({ t with taskStatus := .running } : TaskControlBlock).entry := rfl
    rw [heq, ← htable] at hmove
    exact hmove

/-! ## Exit -/

theorem adopt_cons {i c : Nat} {cs : List Nat} {f g : Entry} (hf : T.tasks c = some f)
    (hci : c ≠ i) (hics : i ∉ cs) (hg : T.tasks i = some g) :
    ((T.put c { f with parent := some i }).put i { g with children := g.children ++ [c] }).adopt i cs =
      T.adopt i (c :: cs) := by
  simp only [Table.adopt, Table.put]
  congr 1
  funext x
  by_cases hxi : x = i
  · subst hxi
    rw [if_neg hics, if_pos rfl, Function.update_self, if_neg, if_pos rfl, hg]
    · simp only [Option.map_some, List.append_assoc, List.singleton_append]
    · rw [List.mem_cons, not_or]
      exact ⟨hci.symm, hics⟩
  · rw [Function.update_of_ne hxi, if_neg hxi, if_neg hxi]
    by_cases hxc : x = c
    · subst hxc
      rw [Function.update_self, if_pos List.mem_cons_self, hf]
      split <;> rfl
    · rw [Function.update_of_ne hxc]
      simp only [List.mem_cons, hxc, false_or]

theorem ends_adopt (a i : Nat) (cs : List Nat) :
    Ends (adopt a i cs) (fun _ T' => T' = T.adopt i cs ∧ a ∉ cs ∧ i ∉ cs) T := by
  induction cs generalizing T with
  | nil =>
    refine ends_pure ⟨?_, List.not_mem_nil, List.not_mem_nil⟩
    simp only [Table.adopt, List.not_mem_nil, if_false, List.append_nil]
    cases T
    simp
  | cons c cs ih =>
    refine ends_bind (ends_assert fun hc => ends_bind (ends_task fun t ht => ?_))
    refine ends_bind (ends_setTask (ends_bind (ends_task fun g hg => ends_bind (ends_setTask ?_))))
    refine ih.mono fun _ T' hT => ?_
    obtain ⟨rfl, ha, hi⟩ := hT
    rw [Table.put_ne hc.2.symm] at hg
    refine ⟨adopt_cons ht hc.2 hi hg, ?_, ?_⟩
    · rw [List.mem_cons, not_or]
      exact ⟨hc.1.symm, ha⟩
    · rw [List.mem_cons, not_or]
      exact ⟨hc.2.symm, hi⟩

/-- The parent of a task holds it. -/
theorem mem_refs_of_child (h : T.SchedOk) {p c : Nat} {e : Entry} (he : T.tasks p = some e)
    (hc : c ∈ e.children) : c ∈ T.refs := by
  refine List.mem_append_right _ (List.mem_flatMap.mpr ⟨p, ?_, ?_⟩)
  · rw [List.mem_range]
    by_contra hge
    rw [h.fresh p (Nat.le_of_not_lt hge)] at he
    cases he
  · rw [he]
    exact hc

/-- **Exit** never drops the task: its parent, which may be `INITPROC`, still holds it. -/
theorem ends_exit {i : Nat} (h : T.Ok i) (exitCode : Int32) :
    Ends (exitCurrentAndRunNext exitCode) (fun _ T' => Table.Move (.exit exitCode) T T') T := by
  refine ends_bind (ends_takeCurrentTask fun a hcur => ends_bind (ends_task fun t ht => ?_))
  refine ends_bind (ends_get fun k hk => ends_bind (ends_unwrap fun j hj => ?_))
  refine ends_bind (ends_assert fun hja => ends_bind ((ends_adopt a j t.children).mono fun _ T' hT => ?_))
  obtain ⟨rfl, hself, _⟩ := hT
  refine ends_bind (ends_onPhys fun ms => ends_bind (ends_setTask ?_))
  have hinit : T.initproc = some j := by
    have htable := congrArg Table.initproc hk
    exact htable.symm.trans hj
  have hmove : Table.Move (.exit exitCode) T (T.exit j a t.entry exitCode) :=
    Table.Move.exit exitCode hinit hcur ht hja hself
  refine ends_bind (ends_get fun k' hk' => ?_)
  have hk'' : k'.table = T.exit j a t.entry exitCode := hk'
  have hji : j = i := Option.some.inj (hinit.symm.trans h.tree.init.1)
  have hok := hmove.ok h
  have hcount : k'.strongCount a ≠ 0 := by
    have hself' : (T.exit j a t.entry exitCode).tasks a =
        some { t.entry with taskStatus := .zombie, exitCode, children := [] } := Table.put_same _ a _
    obtain ⟨p, e, _, he, hmem⟩ := hok.tree.parent a _ hself' (by rw [← hji]; exact hja.symm)
    have hrefs := mem_refs_of_child hok.sched he hmem
    rw [← hk'', refs_table] at hrefs
    exact Nat.ne_of_gt (List.count_pos_iff.mpr hrefs)
  rw [if_neg hcount]
  exact ends_pure hmove

/-! ## Waiting -/

theorem ends_pidDealloc {pid : Nat} {R : Unit → Table B → Prop}
    (h : R () { T with pids := { T.pids with recycled := pid :: T.pids.recycled } }) :
    Ends (pidDealloc pid) R T := by
  refine ends_bind (ends_get fun k _ => ends_bind (ends_assert fun _ => ends_modify fun k' hk' => ?_))
  subst hk'
  exact h

theorem ends_dropTask {c : Nat} {f : Entry} (hf : T.tasks c = some f) :
    Ends (dropTask c) (fun _ T' => T' = { T.erase c with
      pids := { T.pids with recycled := f.pid :: T.pids.recycled } }) T := by
  refine ends_bind (ends_task fun t ht => ?_)
  have hft : f = t.entry := Option.some.inj (hf.symm.trans ht)
  subst hft
  refine ends_bind (ends_modify fun k hk => ?_)
  rw [table_clearTask, hk]
  refine ends_bind (ends_pidDealloc (ends_bind ?_))
  refine (still_dropKernelStack _).mono fun _ T' hT => ?_
  subst hT
  exact ends_onPhys fun _ => rfl

/-- The child that `sys_waitpid` finds. -/
theorem collects_of_findIdx? {pid : Int} {cs : List Nat} {idx c : Nat}
    (hidx : cs.findIdx? (k.collects pid) = some idx) (hc : cs[idx]? = some c) :
    c ∈ cs ∧ k.collects pid c = true ∧ (cs.Nodup → cs.eraseIdx idx = cs.erase c) := by
  obtain ⟨hlt, hcol, _⟩ := List.findIdx?_eq_some_iff_getElem.mp hidx
  obtain ⟨_, hget⟩ := List.getElem?_eq_some_iff.mp hc
  subst hget
  exact ⟨List.getElem_mem hlt, hcol, fun hnd => (hnd.erase_getElem idx hlt).symm⟩

theorem ends_sysWaitpid {i : Nat} (h : T.Ok i) (pid : Int) (ptr : Nat) :
    Ends (sysWaitpid pid ptr) (fun _ T' => Table.Move (.waitpid pid ptr) T T') T := by
  refine ends_bind (ends_currentTask fun a hcur => ends_bind (ends_task fun t ht => ?_))
  refine ends_bind (ends_get fun k hk => ?_)
  subst hk
  split
  · exact ends_pure (Table.Move.same _ _)
  · split
    · next idx hidx =>
      refine ends_bind (ends_unwrap fun c hc => ?_)
      obtain ⟨hmem, hcol, herase⟩ := collects_of_findIdx? hidx hc
      obtain ⟨_, f, hf, hz⟩ := (collects_iff k pid c).mp hcol
      have hca : c ≠ a := by
        rintro rfl
        rw [h.sched.current_running hcur hf] at hz
        cases hz
      refine ends_bind (ends_setTask (ends_bind (ends_get fun k' _ => ends_bind (ends_assert fun _ => ?_))))
      refine ends_bind (ends_task fun t' _ => ends_bind (ends_onPhys fun pa => ends_bind (ends_onPhys fun _ => ?_)))
      refine ends_bind ((ends_dropTask ((Table.put_ne hca).trans hf)).mono fun _ T' hT => ends_pure ?_)
      rw [hT]
      exact Table.Move.reap pid ptr hcur ht hmem hf hz (herase (h.tree.nodup a _ ht))
    · exact ends_pure (Table.Move.same _ _)

/-! ## Every step -/

theorem ends_of_still {x : Comp (Kernel B) α} (hx : Still x T) (op : Op) :
    Ends x (fun _ T' => Table.Move op T T') T :=
  hx.mono fun _ T' hT => by
    rw [hT]
    exact Table.Move.same op T

theorem ends_then_pure {x : Comp (Kernel B) α} {R : Table B → Prop} (hx : Ends x (fun _ => R) T)
    (r : β) : Ends (do let _ ← x; pure r) (fun _ => R) T :=
  ends_bind (hx.mono fun _ _ hR => ends_pure hR)

/-- **Every step of the kernel is a move of its process table.** -/
theorem ends_step (I : Image) {i : Nat} (h : T.Ok i) (op : Op) :
    Ends (step I op) (fun _ T' => Table.Move op T T') T := by
  cases op with
  | runTasks => exact ends_then_pure (ends_runTasks h.sched) _
  | yield => exact ends_then_pure ends_suspend _
  | exit exitCode => exact ends_then_pure (ends_exit h exitCode) _
  | fork => exact ends_sysFork I h.sched
  | exec elf args sstatus => exact ends_of_still ((still_exec I elf args sstatus).bind fun _ => still_pure _) _
  | waitpid pid ptr => exact ends_sysWaitpid h pid ptr
  | setPriority prio => exact ends_sysSetPriority prio
  | mmap start len prot =>
    exact ends_of_still (still_onMemorySet fun ms => sysMmap ms start len prot) _
  | munmap start len =>
    exact ends_of_still (still_onMemorySet fun ms => sysMunmap ms start len) _
  | userStore va b => exact ends_of_still ((still_userStore va b).bind fun _ => still_pure _) _
  | kill pid signum => exact ends_of_still (still_sysKill pid signum) _
  | sigprocmask mask => exact ends_of_still (still_sysSigprocmask mask) _
  | sigaction signum action oldAction pad =>
    exact ends_of_still (still_sysSigaction signum action oldAction pad) _
  | sigreturn => exact ends_of_still still_sysSigreturn _
  | addSignal signal => exact ends_of_still ((still_currentAddSignal signal).bind fun _ => still_pure _) _
  | checkPendingSignals =>
    exact ends_of_still ((still_checkPendingLoop _).bind fun _ => still_pure _) _

theorem step_move {I : Image} {i : Nat} {k' : Kernel B} {r : Int} {op : Op} (h : k.table.Ok i)
    (hs : (step I op).run k = some (r, k')) : Table.Move op k.table k'.table :=
  ends_step I h op k rfl r k' hs

/-! ## The start -/

/-- The process table before `INITPROC` is created. -/
def emptyTable (B : BinaryHeap) : Table B where
  tasks _ := none
  next := 0
  pids := ⟨0, []⟩
  ready := []
  heap := B.new
  current := none
  initproc := none

/-- `INITPROC` as it is created. -/
def initEntry : Entry where
  pid := 0
  priority := 16
  pass := 0
  ghostPass := 0
  taskStatus := .ready
  parent := none
  children := []
  exitCode := 0

/-- The table when `INITPROC` has its pid and its address. -/
def startTable (B : BinaryHeap) : Table B :=
  { emptyTable B with next := 1, pids := ⟨1, []⟩, initproc := some 0 }

theorem schedOk_start (B : BinaryHeap) :
    (startTable B).SchedOk where
  fresh _ _ := rfl
  recycled := ⟨List.nodup_nil, fun _ hp => absurd hp List.not_mem_nil⟩
  pid _ _ h := by cases h
  pid_inj _ _ _ _ h := by cases h
  status _ _ h := by cases h
  current _ h := by cases h
  ready _ hp := absurd hp List.not_mem_nil
  keys := List.nodup_nil
  heap := List.Perm.of_eq B.elems_new
  pass _ _ h := by cases h
  near _ hp := absurd hp List.not_mem_nil
  front _ h := by cases h

theorem ok_start (B : BinaryHeap) : ((startTable B).add 0 initEntry).Ok 0 := by
  have hu : (startTable B).Unlisted 0 initEntry :=
    ⟨rfl, Nat.zero_lt_one, ⟨Nat.zero_lt_one, List.not_mem_nil⟩, fun _ _ h => (by cases h),
      rfl, by decide⟩
  have hsome : ∀ b e, ((startTable B).add 0 initEntry).tasks b = some e →
      b = 0 ∧ e.children = [] := by
    intro b e he
    rcases Table.put_some he with ⟨rfl, rfl⟩ | ⟨_, hc⟩
    · exact ⟨rfl, rfl⟩
    · cases hc
  refine ⟨(schedOk_start B).add hu rfl (fun _ hp => absurd hp List.not_mem_nil) (fun _ h => by cases h), ?_⟩
  refine ⟨⟨rfl, _, Table.put_same (startTable B) 0 _, ?_⟩, ?_, ?_, ?_, ?_⟩
  · show TaskStatus.ready ≠ .zombie
    decide
  · intro p e he c hc
    rw [(hsome p e he).2] at hc
    cases hc
  · intro c f hf hci
    exact absurd (hsome c f hf).1 hci
  · intro p e he
    rw [(hsome p e he).2]
    exact List.nodup_nil
  · intro b e he _
    exact (hsome b e he).2

theorem ends_addInitproc (I : Image) (elf : ElfFile) (sstatus : Nat) :
    Ends (addInitproc I elf sstatus) (fun _ T' => T' = (startTable B).add 0 initEntry)
      (emptyTable B) := by
  refine ends_bind (ends_bind (ends_onPhys fun r => ?_))
  refine ends_bind ((still_trapCxPpnOf _).mono fun ppn T' hT => ?_)
  subst hT
  refine ends_bind (ends_pidAlloc (ends_bind ((still_newKernelStack _).mono fun stack T' hT => ?_)))
  subst hT
  refine ends_bind (ends_get fun k _ => ends_bind (ends_onPhys fun _ => ends_newTask ?_))
  refine ends_bind (ends_modify fun k' hk' => ?_)
  have htable : ({ k' with initproc := some (emptyTable B).next } : Kernel B).table =
      { k'.table with initproc := some 0 } := rfl
  refine ends_addTask fun t ht => ?_
  have htasks : ({ k' with initproc := some (emptyTable B).next } : Kernel B).table =
      (startTable B).put 0 initEntry := by
    rw [htable, hk']
    rfl
  rw [htasks] at ht ⊢
  have ht' : some initEntry = some t.entry := (Table.put_same _ _ _).symm.trans ht
  rw [← Option.some.inj ht']
  show Table.add (Table.put _ 0 initEntry) 0 initEntry = _
  simp only [Table.add, Table.put, Function.update_idem]

theorem boot_table {I : Image} {mem : Mem} {dmaCalls : List Nat} {elf : ElfFile} {sstatus : Nat}
    (h : boot I mem dmaCalls elf sstatus = some k) : k.table = (startTable B).add 0 initEntry := by
  rw [boot] at h
  simp only [Option.bind_eq_bind, Option.bind_eq_some_iff] at h
  obtain ⟨⟨kernelSpace, phys⟩, _, ⟨queueFrames, phys'⟩, _, h⟩ := h
  obtain ⟨⟨u, k'⟩, hrun, rfl⟩ := Option.map_eq_some_iff.mp h
  exact ends_addInitproc I elf sstatus _ rfl u k' hrun

/-- **The invariants hold in every state that is reached.** -/
theorem Reached.mono {I : Image} {ok ok' : Kernel B → Op → Prop} {k : Kernel B} (h : Reached I ok k)
    (himp : ∀ k op, ok k op → ok' k op) : Reached I ok' k := by
  induction h with
  | boot hb => exact .boot hb
  | step op _ hok hrun ih => exact .step op ih (himp _ _ hok) hrun

theorem Reached.ok {I : Image} {ok : Kernel B → Op → Prop} (h : Reached I ok k) : k.table.Ok 0 := by
  induction h with
  | boot hb =>
    rw [boot_table hb]
    exact ok_start B
  | step op _ _ hs ih => exact (step_move ih hs).ok ih

end Kernel

end RCore.Task
