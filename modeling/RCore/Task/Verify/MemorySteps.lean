import RCore.Mm.Verify.Starved
import RCore.Task.Verify.Memory

/-!
# The steps of the kernel on the memory

Every step keeps `MemOk`, unless `frame_alloc` fails in it. A step can break it in two ways only: with
a store through a reference that lies across the end of a page, which goes on in whatever frame comes
next, and, with `traps`, by taking away the page of the trap context.
-/

namespace RCore.Task

open RCore Mm

namespace Kernel

variable {B : BinaryHeap} {α : Type} {I : Image} {traps : Bool} {scraps : List Nat}
  {mine : List Holding} {k : Kernel B} {a : Nat} {t u : TaskControlBlock}

/-! ## Rules -/

theorem wlp_onPhys (x : Comp Phys α) (Q : α → Kernel B → Prop) (k : Kernel B) :
    (onPhys x).wlp Q k ↔ x.wlp (fun r p => Q r { k with phys := p }) k.phys := by
  rw [onPhys, Comp.wlp_zoom]

theorem wlp_task (a : Nat) (Q : TaskControlBlock → Kernel B → Prop) (k : Kernel B) :
    (task a).wlp Q k ↔ ∀ t, k.tasks a = some t → Q t k := by
  rw [task]
  simp only [Comp.wlp_bind, Comp.wlp_get, Comp.wlp_unwrap]

theorem wlp_setTask (a : Nat) (t : TaskControlBlock) (Q : Unit → Kernel B → Prop) (k : Kernel B) :
    (setTask a t).wlp Q k ↔ Q () { k with tasks := Function.update k.tasks a (some t) } := by
  rw [setTask, Comp.wlp_modify]

theorem wlp_currentTask (Q : Nat → Kernel B → Prop) (k : Kernel B) :
    currentTask.wlp Q k ↔ ∀ a, k.current = some a → Q a k := by
  rw [currentTask]
  simp only [Comp.wlp_bind, Comp.wlp_get, Comp.wlp_unwrap]

theorem wlp_takeCurrentTask (Q : Nat → Kernel B → Prop) (k : Kernel B) :
    takeCurrentTask.wlp Q k ↔ ∀ a, k.current = some a → Q a { k with current := none } := by
  rw [takeCurrentTask]
  simp only [Comp.wlp_bind, wlp_currentTask, Comp.wlp_modify, Comp.wlp_pure]

theorem wlp_storePhys (pa : Nat) (bs : List UInt8) (Q : Unit → Kernel B → Prop) (k : Kernel B) :
    (onPhys (storePhys pa bs)).wlp Q k ↔
      Q () { k with phys := { k.phys with mem := k.phys.mem.write pa bs } } := by
  rw [wlp_onPhys, storePhys, Comp.wlp_modify]

theorem wlp_trapCxPpnOf (ms : MemorySet) (Q : Nat → Kernel B → Prop) (k : Kernel B) :
    (trapCxPpnOf ms).wlp Q k ↔
      ∀ e, ms.translate k.phys.mem trapContextVpn = some e → Q e.ppn k := by
  rw [trapCxPpnOf]
  simp only [Comp.wlp_bind, Comp.wlp_get, Comp.wlp_unwrap, Comp.wlp_pure, floor_trapContext]

theorem wlp_pidAlloc (Q : Nat → Kernel B → Prop) (k : Kernel B) :
    pidAlloc.wlp Q k ↔ Q k.pidAllocator.alloc.1 { k with pidAllocator := k.pidAllocator.alloc.2 } := by
  rw [pidAlloc]
  simp only [Comp.wlp_bind, Comp.wlp_get, Comp.wlp_modify, Comp.wlp_pure]

theorem wlp_newTask (t : TaskControlBlock) (Q : Nat → Kernel B → Prop) (k : Kernel B) :
    (newTask t).wlp Q k ↔ Q k.next { k with
      tasks := Function.update k.tasks k.next (some t), next := k.next + 1 } := by
  rw [newTask]
  simp only [Comp.wlp_bind, Comp.wlp_get, wlp_setTask, Comp.wlp_modify, Comp.wlp_pure]

/-- The current task has not exited. -/
def Live (k : Kernel B) : Prop :=
  ∀ a t, k.current = some a → k.tasks a = some t → t.taskStatus ≠ .zombie

theorem live_of_ok {i : Nat} (h : k.table.Ok i) : k.Live := by
  intro a t hc ht
  have hrun : t.taskStatus = .running := h.sched.current_running hc (table_task ht)
  rw [hrun]
  decide

/-- The memory is in order and the current task is alive. -/
structure Calm (I : Image) (traps : Bool) (k : Kernel B) : Prop where
  mem : MemOk I traps [] [] k
  live : k.Live

/-- The current task changes in something else than its memory. -/
theorem Calm.setTask (hm : Calm I traps k) (ht : k.tasks a = some t) (hs : t.SameMemory u) :
    Calm I traps { k with tasks := Function.update k.tasks a (some u) } := by
  refine ⟨hm.mem.setTask ht hs, ?_⟩
  intro b w hb hw
  have hw' : Function.update k.tasks a (some u) b = some w := hw
  by_cases hba : b = a
  · subst hba
    rw [Function.update_self] at hw'
    cases hw'
    rw [Ne, hs.zombie]
    exact hm.live b t hb ht
  · rw [Function.update_of_ne hba] at hw'
    exact hm.live b w hb hw'

/-- A store into a page of the current task. -/
theorem Calm.store (hm : Calm I traps k) (hc : k.current = some a) (ht : k.tasks a = some t) {v : Nat}
    {e : PageTableEntry} (he : t.memorySet.translate k.phys.mem v = some e) {x : Nat} {b : List UInt8}
    (hpa : x / 4096 = e.ppn) (hb : x % 4096 + b.length ≤ 4096) :
    Calm I traps { k with phys := { k.phys with mem := k.phys.mem.write x b } } :=
  ⟨hm.mem.store (hm.mem.mem_holding ht (hm.live a t hc ht)) he hpa hb, hm.live⟩

/-- A store into the trap context of the current task. -/
theorem Calm.storeTrap (hm : Calm I true k) (hc : k.current = some a) (ht : k.tasks a = some t)
    {o : Nat} {b : List UInt8} (hb : o + b.length ≤ 4096) :
    Calm I true { k with phys :=
      { k.phys with mem := k.phys.mem.write (t.trapCxPpn * 4096 + o) b } } := by
  have hoff : o < 4096 ∨ b = [] := by
    cases b with
    | nil => exact Or.inr rfl
    | cons x b =>
      rw [List.length_cons] at hb
      omega
  rcases hoff with hoff | rfl
  · obtain ⟨e, he, hppn, _⟩ := (hm.mem.task_ok ht (hm.live a t hc ht)).trap t.trapCxPpn rfl
    refine hm.store hc ht he ?_ ?_
    · rw [hppn]
      omega
    · have hmod : (t.trapCxPpn * 4096 + o) % 4096 = o := by omega
      rw [hmod]
      exact hb
  · have hnil : k.phys.mem.write (t.trapCxPpn * 4096 + o) [] = k.phys.mem := by
      funext x
      exact Mem.write_of_not_mem (by rw [List.length_nil]; omega)
    rw [hnil]
    exact hm

/-- A reference to the memory behind a good address space, over any memory. -/
theorem onPhys_translatedRefmut {rest : List Nat} {L : Layout} {s : Phys} {ms : MemorySet}
    (hg : Good L rest s ms) (ptr : Nat) (k : Kernel B) :
    (onPhys (translatedRefmut ms.token ptr)).wlp (fun pa k' => k' = k ∧ ∃ e,
      ms.translate k.phys.mem (VirtAddr.ofUsize ptr).floor = some e ∧ pa = e.ppn * 4096 + ptr % 4096) k := by
  rw [wlp_onPhys]
  refine (hg.translatedRefmut_wlp ptr k.phys).mono ?_
  rintro pa _ ⟨rfl, he⟩
  exact ⟨rfl, he⟩

/-- A reference to the memory of a task that has not exited. -/
theorem translatedRefmut_task (hm : MemOk I traps scraps mine k) (ht : k.tasks a = some t)
    (hl : t.taskStatus ≠ .zombie) (ptr : Nat) {Q : Nat → Kernel B → Prop}
    (hQ : ∀ e, t.memorySet.translate k.phys.mem (VirtAddr.ofUsize ptr).floor = some e →
      Q (e.ppn * 4096 + ptr % 4096) k) : (onPhys (translatedRefmut t.memorySet.token ptr)).wlp Q k := by
  refine (onPhys_translatedRefmut (hm.goodTask ht hl) ptr k).mono ?_
  rintro _ _ ⟨rfl, e, he, rfl⟩
  exact hQ e he

/-! ## Signals -/

theorem sysKill_calm (hm : Calm I traps k) (pid : Nat) (signum : UInt32) :
    (sysKill pid signum).wlp (fun _ k' => Calm I traps k') k := by
  rw [sysKill, pid2task]
  simp only [Comp.wlp_bind, wlp_currentTask, wlp_task]
  intro a hc t ht
  have hset : ∀ b : Nat, (do
      let t ← task b
      if SignalFlags.contains t.signals (SignalFlags.ofSignum signum) then pure (-1 : Int)
      else do
        setTask b { t with signals := t.signals ||| SignalFlags.ofSignum signum }
        pure 0).wlp (fun _ k' => Calm I traps k') k := by
    intro b
    simp only [Comp.wlp_bind, wlp_task]
    intro u hu
    split
    · rw [Comp.wlp_pure]
      exact hm
    · simp only [Comp.wlp_bind, wlp_setTask, Comp.wlp_pure]
      exact hm.setTask hu ⟨rfl, rfl, Iff.rfl, fun _ => Or.inl⟩
  split
  · rw [Comp.wlp_pure]
    exact hset a
  · simp only [Comp.wlp_bind, Comp.wlp_get, Comp.wlp_pure]
    cases k.readyQueue.lookup pid with
    | none =>
      rw [Comp.wlp_pure]
      exact hm
    | some b => exact hset b

theorem sysSigprocmask_calm (hm : Calm I traps k) (mask : UInt32) :
    (sysSigprocmask mask).wlp (fun _ k' => Calm I traps k') k := by
  rw [sysSigprocmask]
  simp only [Comp.wlp_bind, wlp_currentTask, wlp_task, wlp_setTask, Comp.wlp_pure]
  intro a _ t ht
  exact hm.setTask ht ⟨rfl, rfl, Iff.rfl, fun _ => Or.inl⟩

theorem currentAddSignal_calm (hm : Calm I traps k) (signal : SignalFlags) :
    (currentAddSignal signal).wlp (fun _ k' => Calm I traps k') k := by
  rw [currentAddSignal]
  simp only [Comp.wlp_bind, wlp_currentTask, wlp_task, wlp_setTask]
  intro a _ t ht
  exact hm.setTask ht ⟨rfl, rfl, Iff.rfl, fun _ => Or.inl⟩

theorem sysSigreturn_calm (hm : Calm I true k) : sysSigreturn.wlp (fun _ k' => Calm I true k') k := by
  rw [sysSigreturn]
  simp only [Comp.wlp_bind, wlp_currentTask, wlp_task, wlp_setTask, Comp.wlp_unwrap, wlp_storePhys,
    Comp.wlp_pure]
  intro a hc t ht backup hb
  have hset := hm.setTask ht (u := { t with handlingSig := -1 }) ⟨rfl, rfl, Iff.rfl, fun _ => Or.inl⟩
  have hlen : 0 + backup.length ≤ 4096 := by
    rw [hm.mem.backup a t backup ht hb]
    decide
  have hstore := hset.storeTrap hc (Function.update_self a _ k.tasks) hlen
  rw [Nat.add_zero] at hstore
  exact hstore

theorem callKernelSignalHandler_calm (hm : Calm I traps k) (signal : SignalFlags) :
    (callKernelSignalHandler signal).wlp (fun _ k' => Calm I traps k') k := by
  rw [callKernelSignalHandler]
  simp only [Comp.wlp_bind, wlp_currentTask, wlp_task]
  intro a _ t ht
  split
  · rw [wlp_setTask]
    exact hm.setTask ht ⟨rfl, rfl, Iff.rfl, fun _ => Or.inl⟩
  · split
    · split
      · rw [wlp_setTask]
        exact hm.setTask ht ⟨rfl, rfl, Iff.rfl, fun _ => Or.inl⟩
      · rw [Comp.wlp_pure]
        exact hm
    · rw [wlp_setTask]
      exact hm.setTask ht ⟨rfl, rfl, Iff.rfl, fun _ => Or.inl⟩

theorem callUserSignalHandler_calm (hm : Calm I true k) (sig : Nat) (signal : SignalFlags) :
    (callUserSignalHandler sig signal).wlp (fun _ k' => Calm I true k') k := by
  rw [callUserSignalHandler]
  simp only [Comp.wlp_bind, wlp_currentTask, wlp_task, Comp.wlp_unwrap]
  intro a hc t ht action _
  split
  · simp only [Comp.wlp_bind, Comp.wlp_get, wlp_setTask, wlp_storePhys]
    have hset := hm.setTask ht (u := { t with
      signalMask := action.mask
      handlingSig := sig
      signals := t.signals ^^^ signal
      trapCtxBackup := some (k.phys.mem.bytes (t.trapCxPpn * 4096) trapContextSize) })
      ⟨rfl, rfl, Iff.rfl, fun bs hbs => Or.inr (by
        rw [← Option.some.inj hbs]
        exact Mem.bytes_length _ _ _)⟩
    have hself := Function.update_self a (some { t with
      signalMask := action.mask
      handlingSig := (sig : Int)
      signals := t.signals ^^^ signal
      trapCtxBackup := some (k.phys.mem.bytes (t.trapCxPpn * 4096) trapContextSize) }) k.tasks
    have hsepc := hset.storeTrap hc hself (o := 8 * 33) (b := leEncode 8 action.handler)
      (by rw [leEncode_length]; decide)
    exact hsepc.storeTrap hc hself (o := 8 * 10) (b := leEncode 8 sig) (by rw [leEncode_length]; decide)
  · rw [Comp.wlp_pure]
    exact hm

theorem checkPendingLoop_calm (sigs : List Nat) (hm : Calm I true k) :
    (checkPendingLoop sigs).wlp (fun _ k' => Calm I true k') k := by
  induction sigs generalizing k with
  | nil =>
    rw [checkPendingLoop, Comp.wlp_pure]
    exact hm
  | cons sig sigs ih =>
    rw [checkPendingLoop]
    simp only [Comp.wlp_bind, wlp_currentTask, wlp_task]
    intro a _ t _
    have hrest : ∀ blocked : Bool, (if blocked then checkPendingLoop sigs
        else if isKernelSignal (SignalFlags.ofSignum (UInt32.ofNat sig)) then do
          callKernelSignalHandler (SignalFlags.ofSignum (UInt32.ofNat sig))
          checkPendingLoop sigs
        else callUserSignalHandler sig (SignalFlags.ofSignum (UInt32.ofNat sig))).wlp
          (fun _ k' => Calm I true k') k := by
      intro blocked
      split
      · exact ih hm
      · split
        · rw [Comp.wlp_bind]
          exact (callKernelSignalHandler_calm hm _).mono fun _ _ hm' => ih hm'
        · exact callUserSignalHandler_calm hm _ _
    split
    · split
      · rw [Comp.wlp_bind, Comp.wlp_pure]
        exact hrest _
      · simp only [Comp.wlp_bind, Comp.wlp_unwrap, Comp.wlp_pure]
        exact fun _ _ => hrest _
    · exact ih hm

theorem sysSigaction_calm (hm : Calm I traps k) (signum : UInt32) (action oldAction : Nat) (pad : UInt32)
    (hold : oldAction % 4096 ≤ 4080) :
    (sysSigaction signum action oldAction pad).wlp (fun _ k' => Calm I traps k') k := by
  rw [sysSigaction]
  simp only [Comp.wlp_bind, wlp_currentTask, wlp_task]
  intro a hc t ht
  split
  · rw [Comp.wlp_pure]
    exact hm
  split
  · rw [Comp.wlp_pure]
    exact hm
  have hl := hm.live a t hc ht
  have hrest : ∀ {k : Kernel B}, Calm I traps k → k.tasks a = some t → (do
      let pa ← onPhys (translatedRefmut t.memorySet.token action)
      let k ← Comp.get
      let a' := readAction k.phys.mem pa
      setTask a { t with signalActions := t.signalActions.set signum.toNat a' }
      pure (0 : Int)).wlp (fun _ k' => Calm I traps k') k := by
    intro k hm ht
    rw [Comp.wlp_bind]
    refine translatedRefmut_task hm.mem ht hl action fun e _ => ?_
    simp only [Comp.wlp_bind, Comp.wlp_get, wlp_setTask, Comp.wlp_pure]
    exact hm.setTask ht ⟨rfl, rfl, Iff.rfl, fun _ => Or.inl⟩
  simp only [Comp.wlp_bind, Comp.wlp_unwrap]
  intro old _
  refine translatedRefmut_task hm.mem ht hl oldAction fun e he => ?_
  split
  · rw [Comp.wlp_bind, wlp_storePhys]
    refine hrest (hm.store hc ht he ?_ ?_) ht
    · omega
    · simp only [actionBytes, List.length_append, leEncode_length]
      omega
  · exact hrest hm ht

/-! ## Scheduling -/

theorem addTask_kept (a : Nat) (k : Kernel B) : (addTask a).wlp (fun _ k' => k'.phys = k.phys ∧
    ∀ t, k.tasks a = some t → ∃ t', k'.tasks a = some t' ∧ t'.trapCxPpn = t.trapCxPpn ∧
      t'.kernelStack = t.kernelStack) k := by
  rw [addTask]
  simp only [Comp.wlp_bind, wlp_task, Comp.wlp_assert, wlp_setTask, Comp.wlp_modify]
  intro t ht _
  refine ⟨trivial, fun u hu => ?_⟩
  have htu : u = t := Option.some.inj (hu.symm.trans ht)
  subst htu
  exact ⟨_, Function.update_self a _ k.tasks, rfl, rfl⟩

theorem addTask_mem (hm : MemOk I traps scraps mine k) (a : Nat) :
    (addTask a).wlp (fun _ k' => MemOk I traps scraps mine k') k := by
  rw [addTask]
  simp only [Comp.wlp_bind, wlp_task, Comp.wlp_assert, wlp_setTask, Comp.wlp_modify]
  intro t ht _
  have hset := hm.setTask ht (u := { t with
    pass := usizeAdd t.pass (bigStride / t.priority)
    ghostPass := t.ghostPass + bigStride / t.priority }) ⟨rfl, rfl, Iff.rfl, fun _ => Or.inl⟩
  exact hset.of_eq rfl rfl rfl rfl rfl

theorem runTasks_mem (hok : k.table.SchedOk) (hm : MemOk I traps scraps mine k) :
    runTasks.wlp (fun _ k' => MemOk I traps scraps mine k') k := by
  rw [runTasks]
  simp only [Comp.wlp_bind, Comp.wlp_get, Comp.wlp_assert]
  intro _
  by_cases hk : k.readyQueue = []
  · rw [Comp.wlp_of_run (fetchTask_run_empty hok hk)]
    simp only [Comp.wlp_pure]
    exact hm
  · obtain ⟨p, q, hf⟩ := exists_fetches hok hk
    rw [Comp.wlp_of_run (fetchTask_run hok hf)]
    simp only [Comp.wlp_bind, wlp_task, wlp_setTask, Comp.wlp_modify]
    intro t ht
    obtain ⟨e, he, _, hready⟩ := hok.ready p hf.mem
    obtain ⟨u, hu, rfl⟩ := exists_task he
    have htu : t = u := Option.some.inj (ht.symm.trans hu)
    subst htu
    have hstatus : t.taskStatus = .ready := hready
    have hset := hm.setTask ht (u := { t with taskStatus := .running })
      ⟨rfl, rfl, iff_of_false (fun h => by cases h) (by rw [hstatus]; decide), fun _ => Or.inl⟩
    exact hset.of_eq rfl rfl rfl rfl rfl

theorem suspend_mem (hm : Calm I traps k) :
    suspendCurrentAndRunNext.wlp (fun _ k' => MemOk I traps [] [] k') k := by
  rw [suspendCurrentAndRunNext]
  simp only [Comp.wlp_bind, wlp_takeCurrentTask, wlp_task, wlp_setTask]
  intro a hc t ht
  have hcur : MemOk I traps [] [] { k with current := none } := hm.mem.of_eq rfl rfl rfl rfl rfl
  have hset := hcur.setTask ht (u := { t with taskStatus := .ready })
    ⟨rfl, rfl, iff_of_false (fun h => by cases h) (hm.live a t hc ht), fun _ => Or.inl⟩
  exact addTask_mem hset a

theorem sysSetPriority_mem (hm : Calm I traps k) (prio : Nat) :
    (sysSetPriority prio).wlp (fun _ k' => MemOk I traps [] [] k') k := by
  rw [sysSetPriority]
  split
  · rw [Comp.wlp_pure]
    exact hm.mem
  · simp only [Comp.wlp_bind, wlp_currentTask, wlp_task, wlp_setTask, Comp.wlp_pure]
    intro a _ t ht
    exact hm.mem.setTask ht ⟨rfl, rfl, Iff.rfl, fun _ => Or.inl⟩

/-! ## The memory calls -/

theorem onMemorySet_run {x : MemorySet → Comp Phys (Int × MemorySet)} {r : Int} {ms : MemorySet}
    {p : Phys} (hc : k.current = some a) (ht : k.tasks a = some t)
    (hx : (x t.memorySet).run k.phys = some ((r, ms), p)) :
    (onMemorySet x).run k = some (r, { k with
      phys := p, tasks := Function.update k.tasks a (some { t with memorySet := ms }) }) := by
  simp only [onMemorySet, currentTask, task, setTask, onPhys, Comp.run_bind, Comp.run_get, hc, ht, hx,
    Comp.unwrap, Comp.run_zoom, Comp.run_pure, Comp.run_modify, Option.bind_some, Option.map_some]

theorem onMemorySet_mmap_mem (hm : Calm I traps k) (start len prot : Nat) :
    (onMemorySet fun ms => sysMmap ms start len prot).wlp
      (fun _ k' => k'.phys.starved = true ∨ MemOk I traps [] [] k') k := by
  rw [onMemorySet]
  simp only [Comp.wlp_bind, wlp_currentTask, wlp_task, wlp_onPhys, wlp_setTask, Comp.wlp_pure]
  intro a hc t ht
  have hl := hm.live a t hc ht
  have hg := hm.mem.goodTask ht hl
  have hok := hm.mem.task_ok ht hl
  refine (sysMmap_wlp hg start len prot).mono ?_
  rintro ⟨r, ms⟩ p (⟨hr, rfl⟩ | ⟨_, hst⟩ | ⟨_, area, hframed, _, _, hP⟩)
  · cases hr
    exact Or.inr (hm.mem.setTask ht ⟨rfl, rfl, Iff.rfl, fun _ => Or.inl⟩)
  · exact Or.inl hst
  · right
    refine hm.mem.putSpace ht hl hP.good hP.keeps.same (hP.framed hok.framed hframed) fun htraps => ?_
    subst htraps
    exact (hok.trap _ rfl).of_translate fun e he => hP.translate hg (by decide) he

/-- The pages of a `sys_munmap`. -/
def munmapPages (start len : Nat) : List Nat :=
  pagesBetween (VirtAddr.ofUsize start) (VirtAddr.ofUsize (usizeAdd start (roundUp len)))

theorem onMemorySet_munmap_mem (hm : Calm I traps k) (start len : Nat)
    (hout : traps = true → trapContextVpn ∉ munmapPages start len) :
    (onMemorySet fun ms => sysMunmap ms start len).wlp (fun _ k' => MemOk I traps [] [] k') k := by
  rw [onMemorySet]
  simp only [Comp.wlp_bind, wlp_currentTask, wlp_task, wlp_onPhys, wlp_setTask, Comp.wlp_pure]
  intro a hc t ht
  have hl := hm.live a t hc ht
  have hg := hm.mem.goodTask ht hl
  have hok := hm.mem.task_ok ht hl
  refine (sysMunmap_wlp hg hok.framed start len).mono ?_
  rintro ⟨r, ms⟩ p (⟨hr, rfl⟩ | ⟨_, hR⟩)
  · cases hr
    exact hm.mem.setTask ht ⟨rfl, rfl, Iff.rfl, fun _ => Or.inl⟩
  · refine hm.mem.putSpace ht hl hR.good (hR.same.mono (List.subset_append_right _ _)) hR.framed
      fun htraps => ?_
    subst htraps
    exact (hok.trap _ rfl).of_translate fun e he => hR.translate hg (by decide) (hout rfl) he

theorem userStore_mem (hm : Calm I traps k) (va : Nat) (b : UInt8) :
    (userStore va b).wlp (fun _ k' => MemOk I traps [] [] k') k := by
  rw [userStore]
  simp only [Comp.wlp_bind, wlp_currentTask, wlp_task, Comp.wlp_get, Comp.wlp_unwrap, Comp.wlp_assert,
    wlp_storePhys]
  intro a hc t ht e he _
  refine (hm.store hc ht he ?_ ?_).mem
  · omega
  · rw [List.length_singleton]
    omega

/-! ## Exit and the end of a task -/

theorem adopt_mem {init : Nat} (hne : init ≠ a) (cs : List Nat) (hm : MemOk I traps scraps mine k) :
    (adopt a init cs).wlp (fun _ k' => MemOk I traps scraps mine k' ∧ k'.tasks a = k.tasks a) k := by
  induction cs generalizing k with
  | nil =>
    rw [adopt, Comp.wlp_pure]
    exact ⟨hm, rfl⟩
  | cons c cs ih =>
    rw [adopt]
    simp only [Comp.wlp_bind, Comp.wlp_assert, wlp_task, wlp_setTask]
    intro hc t ht i hi
    have hset := hm.setTask ht (u := { t with parent := some init }) ⟨rfl, rfl, Iff.rfl, fun _ => Or.inl⟩
    have hset' := hset.setTask hi (u := { i with children := i.children ++ [c] })
      ⟨rfl, rfl, Iff.rfl, fun _ => Or.inl⟩
    refine (ih hset').mono fun _ k' hk' => ⟨hk'.1, hk'.2.trans ?_⟩
    show Function.update (Function.update k.tasks c _) init _ a = k.tasks a
    rw [Function.update_of_ne hne.symm, Function.update_of_ne hc.1.symm]

theorem dropKernelStack_mem (hm : MemOk I traps scraps mine k) (stack : Nat) :
    (dropKernelStack stack).wlp (fun _ k' => MemOk I traps scraps mine k') k := by
  rw [dropKernelStack, VirtAddr.toVpn]
  simp only [Comp.wlp_bind, Comp.wlp_get, Comp.wlp_assert, Comp.wlp_pure, wlp_onPhys, Comp.wlp_modify]
  intro _
  obtain ⟨p, ks, hrun, hg, hsub, hkeeps⟩ := removeArea_run hm.estate.goodKernel hm.estate.full
    (VirtAddr.ofUsize (kernelStackPosition stack).1).floor
  rw [Comp.wlp_of_run hrun]
  exact hm.putKernel hg (fun area ha => hm.estate.full area (hsub.subset ha)) hkeeps.same

/-- **The end of a task**, whether it has exited or not. -/
theorem dropTask_mem (hm : MemOk I traps scraps mine k) (a : Nat) :
    (dropTask a).wlp (fun _ k' => MemOk I traps scraps mine k') k := by
  rw [dropTask]
  simp only [pidDealloc, Comp.wlp_bind, wlp_task, Comp.wlp_modify, Comp.wlp_get, Comp.wlp_assert]
  intro t ht _
  obtain ⟨fs, hs, hclear, hdrop⟩ := hm.clear ht
  have hfree : MemOk I traps (fs ++ scraps) (hs ++ mine) { k with
      tasks := Function.update k.tasks a none
      pidAllocator := { k.pidAllocator with recycled := t.pid :: k.pidAllocator.recycled } } :=
    hclear.of_eq rfl rfl rfl rfl rfl
  exact (dropKernelStack_mem hfree _).mono fun _ k' hm' => (hdrop k' hm').wlp.mono fun _ _ h => h.1

theorem exit_mem (hm : Calm I traps k) (exitCode : Int32) :
    (exitCurrentAndRunNext exitCode).wlp (fun _ k' => MemOk I traps [] [] k') k := by
  rw [exitCurrentAndRunNext]
  simp only [Comp.wlp_bind, wlp_takeCurrentTask, wlp_task, Comp.wlp_get, Comp.wlp_unwrap, Comp.wlp_assert]
  intro a hc t ht init _ hne
  have hcur : MemOk I traps [] [] { k with current := none } := hm.mem.of_eq rfl rfl rfl rfl rfl
  refine (adopt_mem hne t.children hcur).mono ?_
  rintro _ k₁ ⟨hm₁, ht₁⟩
  have ht₁' : k₁.tasks a = some t := ht₁.trans ht
  have hl := hm.live a t hc ht
  rw [wlp_onPhys]
  obtain ⟨p, hrun, hheld, hmem, _⟩ := recycleDataPages_run (hm₁.goodTask ht₁' hl).held
  rw [Comp.wlp_of_run hrun]
  simp only [wlp_setTask]
  have howned : MemorySet.owned { t.memorySet with areas := [] } = t.memorySet.pageTable.frames :=
    List.append_nil _
  have hz := hm₁.toZombie ht₁' hl (u := { t with
    taskStatus := .zombie, exitCode, children := [], memorySet := { t.memorySet with areas := [] } })
    rfl rfl (by rw [howned]; exact hheld) hmem
  split
  · exact dropTask_mem hz a
  · rw [Comp.wlp_pure]
    exact hz

theorem sysWaitpid_mem (hm : Calm I traps k) (pid : Int) (exitCodePtr : Nat)
    (hin : ∀ a t, k.current = some a → k.tasks a = some t →
      t.children.any (k.collects pid) → exitCodePtr % 4096 ≤ 4092) :
    (sysWaitpid pid exitCodePtr).wlp (fun _ k' => MemOk I traps [] [] k') k := by
  rw [sysWaitpid]
  simp only [Comp.wlp_bind, wlp_currentTask, wlp_task, Comp.wlp_get]
  intro a hc t ht
  split
  · rw [Comp.wlp_pure]
    exact hm.mem
  split
  · next idx hidx =>
    simp only [Comp.wlp_bind, Comp.wlp_unwrap, wlp_setTask, Comp.wlp_get, Comp.wlp_assert, wlp_task]
    intro c hget _ u hu
    obtain ⟨hmem, hcol, _⟩ := collects_of_findIdx? hidx hget
    have hoff := hin a t hc ht (List.any_eq_true.mpr ⟨c, hmem, hcol⟩)
    have hset := hm.setTask ht (u := { t with children := t.children.eraseIdx idx })
      ⟨rfl, rfl, Iff.rfl, fun _ => Or.inl⟩
    have hself := Function.update_self a (some { t with children := t.children.eraseIdx idx }) k.tasks
    refine translatedRefmut_task hset.mem hself (hm.live a t hc ht) exitCodePtr fun e he => ?_
    rw [wlp_storePhys]
    have hstore := hset.store hc hself he (x := e.ppn * 4096 + exitCodePtr % 4096)
      (b := leEncode 4 u.exitCode.toUInt32.toNat) (by omega) (by rw [leEncode_length]; omega)
    refine (dropTask_mem hstore.mem c).mono fun _ _ h => ?_
    rw [Comp.wlp_pure]
    exact h
  · rw [Comp.wlp_pure]
    exact hm.mem

/-! ## Once starved -/

/-- `x` never takes `starved` back. -/
abbrev LastingK {α : Type} (x : Comp (Kernel B) α) : Prop :=
  Comp.Stable (fun k : Kernel B => k.phys.starved = true) x

theorem lasting_onPhys {x : Comp Phys α} (hx : Lasting x) : LastingK (onPhys x : Comp (Kernel B) α) :=
  Comp.Stable.zoom (fun _ _ => rfl) hx

theorem lasting_task (a : Nat) : LastingK (task a : Comp (Kernel B) TaskControlBlock) :=
  Comp.stable_get.bind fun _ => Comp.stable_unwrap _

theorem lasting_setTask (a : Nat) (t : TaskControlBlock) : LastingK (setTask a t : Comp (Kernel B) Unit) :=
  Comp.stable_modify fun _ hk => hk

theorem lasting_trapCxPpnOf (ms : MemorySet) : LastingK (trapCxPpnOf ms : Comp (Kernel B) Nat) :=
  Comp.stable_get.bind fun _ => (Comp.stable_unwrap _).bind fun _ => Comp.stable_pure _

theorem lasting_newTask (t : TaskControlBlock) : LastingK (newTask t : Comp (Kernel B) Nat) :=
  Comp.stable_get.bind fun _ => (lasting_setTask _ t).bind fun _ =>
    Comp.Stable.bind (Comp.stable_modify fun _ hk => hk) fun _ => Comp.stable_pure _

theorem lasting_addTask (a : Nat) : LastingK (addTask a : Comp (Kernel B) Unit) :=
  (lasting_task a).bind fun _ => (Comp.stable_assert _).bind fun _ => (lasting_setTask a _).bind fun _ =>
    Comp.stable_modify fun _ hk => hk

/-! ## Kernel stacks -/

/-- **A new kernel stack** leaves everything else alone. -/
theorem newKernelStack_mem (hm : MemOk I traps scraps mine k) (pid : Nat) :
    (newKernelStack pid).wlp (fun _ k' => (k'.phys.starved = true ∨ MemOk I traps scraps mine k') ∧
      ∃ p ks, k' = { k with phys := p, kernelSpace := ks } ∧
        SameOn (userFrames traps scraps mine k) k.phys.mem p.mem) k := by
  rw [newKernelStack]
  simp only [Comp.wlp_bind, Comp.wlp_get, wlp_onPhys, MemorySet.insertFramedArea, MapArea.new,
    VPNRange.wlp_new, Comp.wlp_pure]
  intro hle
  refine (push_wlp hm.estate.goodKernel (fresh_new hle .framed) (fun hc => absurd rfl hc)).mono ?_
  rintro ⟨r, ks⟩ p hr
  cases r with
  | error =>
    simp only [Comp.wlp_modify, Comp.wlp_pure]
    exact ⟨Or.inl hr.1, p, ks, rfl, hr.2⟩
  | ok =>
    simp only [Comp.wlp_modify, Comp.wlp_pure]
    refine ⟨Or.inr ?_, p, ks, rfl, hr.keeps.same⟩
    exact hm.putKernel hr.good (hr.full (fresh_new hle .framed) hm.estate.full) hr.keeps.same

end Kernel

end RCore.Task
