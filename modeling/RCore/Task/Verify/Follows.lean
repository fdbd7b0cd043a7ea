import RCore.Mm.Verify.Access
import RCore.Task.Verify.Isolation

/-!
# What a step leaves alone

The frames of a process are the business of its own steps. A step of another process, or of the idle loop,
leaves its address space and every byte of it alone, and most steps leave the page tables of all processes
alone.
-/

namespace RCore.Task

open RCore Mm

namespace Kernel

variable {B : BinaryHeap} {I : Image} {traps : Bool} {scraps : List Nat} {mine : List Holding} {o : Option Nat}
  {k k' k'' : Kernel B} {a c : Nat} {t u : TaskControlBlock} {h : Holding} {p : Phys}

/-! ## The other processes -/

/-- **The processes other than `o` are spared**: they are still there, with their address spaces and with
all that is in them. -/
def Spares (o : Option Nat) (k k' : Kernel B) : Prop :=
  ∀ b u, k.tasks b = some u → u.taskStatus ≠ .zombie → o ≠ some b → ∃ u', k'.tasks b = some u' ∧
    u'.taskStatus ≠ .zombie ∧ u'.memorySet = u.memorySet ∧ SameOn u.memorySet.owned k.phys.mem k'.phys.mem

namespace Spares

theorem refl (o : Option Nat) (k : Kernel B) : Spares o k k :=
  fun _ u hu hl _ => ⟨u, hu, hl, rfl, SameOn.refl _ _⟩

theorem trans (h : Spares o k k') (h' : Spares o k' k'') : Spares o k k'' := by
  intro b u hu hl hb
  obtain ⟨u', hu', hl', hms, hs⟩ := h b u hu hl hb
  obtain ⟨u'', hu'', hl'', hms', hs'⟩ := h' b u' hu' hl' hb
  rw [hms] at hs'
  exact ⟨u'', hu'', hl'', hms'.trans hms, hs.trans hs'⟩

/-- The tasks are as they were, and so is the memory of the others. -/
theorem of_same (ht : k'.tasks = k.tasks) (hs : ∀ b u, k.tasks b = some u → u.taskStatus ≠ .zombie → o ≠ some b →
    SameOn u.memorySet.owned k.phys.mem k'.phys.mem) : Spares o k k' :=
  fun b u hu hl hb => ⟨u, by rw [ht]; exact hu, hl, rfl, hs b u hu hl hb⟩

/-- What is done to a process that is not there, or has exited, is not done to anybody. -/
theorem of_gone (h : Spares (some c) k k') (hc : ∀ u, k.tasks c = some u → u.taskStatus = .zombie) :
    Spares o k k' := by
  intro b u hu hl _
  refine h b u hu hl fun hcb => hl ?_
  cases hcb
  exact hc u hu

/-- What is done to a new process is not done to one that was there. -/
theorem trans_new (h : Spares o k k') (h' : Spares (some c) k' k'') (hc : k.tasks c = none) : Spares o k k'' := by
  intro b u hu hl hb
  obtain ⟨u', hu', hl', hms, hs⟩ := h b u hu hl hb
  have hcb : some c ≠ some b := by
    rintro hc'
    cases hc'
    rw [hc] at hu
    cases hu
  obtain ⟨u'', hu'', hl'', hms', hs'⟩ := h' b u' hu' hl' hcb
  rw [hms] at hs'
  exact ⟨u'', hu'', hl'', hms'.trans hms, hs.trans hs'⟩

/-- The entry of `o` in the table changes. -/
theorem update (x : Option TaskControlBlock) (n : Nat) :
    Spares (some a) k { k with tasks := Function.update k.tasks a x, next := n } := by
  intro b u hu hl hb
  refine ⟨u, ?_, hl, rfl, SameOn.refl _ _⟩
  have hba : b ≠ a := fun hc => hb (congrArg some hc.symm)
  exact (Function.update_of_ne hba _ _).trans hu

end Spares

/-! ## What leaves the tables alone -/

/-- What has happened since `k` has left the page tables of the processes and of the kernel alone, and
given no process another one. -/
structure Follows (o : Option Nat) (mine : List Holding) (k k' : Kernel B) : Prop where
  spares : Spares o k k'
  user : ∀ a t', k'.tasks a = some t' → t'.taskStatus ≠ .zombie → ∃ t, k.tasks a = some t ∧
    t.taskStatus ≠ .zombie ∧ t'.memorySet = t.memorySet ∧
    SameOn t.memorySet.pageTable.frames k.phys.mem k'.phys.mem
  mine : ∀ h ∈ mine, SameOn h.space.pageTable.frames k.phys.mem k'.phys.mem
  space : k'.kernelSpace = k.kernelSpace
  kernel : SameOn k.kernelSpace.pageTable.frames k.phys.mem k'.phys.mem

namespace Follows

theorem refl (o : Option Nat) (mine : List Holding) (k : Kernel B) : Follows o mine k k :=
  ⟨.refl o k, fun _ t ht hl => ⟨t, ht, hl, rfl, SameOn.refl _ _⟩, fun _ _ => SameOn.refl _ _, rfl, SameOn.refl _ _⟩

theorem trans (h : Follows o mine k k') (h' : Follows o mine k' k'') : Follows o mine k k'' := by
  refine ⟨h.spares.trans h'.spares, ?_, fun x hx => (h.mine x hx).trans (h'.mine x hx), h'.space.trans h.space, ?_⟩
  · intro a t'' ht'' hl''
    obtain ⟨t', ht', hl', hms', hs'⟩ := h'.user a t'' ht'' hl''
    obtain ⟨t, ht, hl, hms, hs⟩ := h.user a t' ht' hl'
    rw [hms] at hs'
    exact ⟨t, ht, hl, hms'.trans hms, hs.trans hs'⟩
  · have hk := h'.kernel
    rw [h.space] at hk
    exact h.kernel.trans hk

/-- Nothing of it has changed. -/
theorem of_eq (hmem : k'.phys.mem = k.phys.mem) (hks : k'.kernelSpace = k.kernelSpace) (ht : k'.tasks = k.tasks) :
    Follows o mine k k' := by
  refine ⟨.of_same ht fun _ _ _ _ _ => ?_, fun a t hta hl => ⟨t, by rw [← ht]; exact hta, hl, rfl, ?_⟩,
    fun _ _ => ?_, hks, ?_⟩ <;> rw [hmem] <;> exact SameOn.refl _ _

/-- A task changes in something else. -/
theorem setTask (ht : k.tasks a = some t) (hms : u.memorySet = t.memorySet)
    (hl : u.taskStatus ≠ .zombie ↔ t.taskStatus ≠ .zombie) :
    Follows o mine k { k with tasks := Function.update k.tasks a (some u) } := by
  refine ⟨?_, ?_, fun _ _ => SameOn.refl _ _, rfl, SameOn.refl _ _⟩
  · intro b w hb hlb _
    by_cases hba : b = a
    · subst hba
      cases ht.symm.trans hb
      exact ⟨u, Function.update_self _ _ _, hl.mpr hlb, hms, SameOn.refl _ _⟩
    · exact ⟨w, (Function.update_of_ne hba _ _).trans hb, hlb, rfl, SameOn.refl _ _⟩
  · intro b t' hb hlb
    have hb' : Function.update k.tasks a (some u) b = some t' := hb
    by_cases hba : b = a
    · subst hba
      rw [Function.update_self] at hb'
      cases hb'
      exact ⟨t, ht, hl.mp hlb, hms, SameOn.refl _ _⟩
    · rw [Function.update_of_ne hba] at hb'
      exact ⟨t', hb', hlb, rfl, SameOn.refl _ _⟩

/-- A task leaves the table, or exits. -/
theorem leave {x : Option TaskControlBlock} (hx : ∀ u, x = some u → u.taskStatus = .zombie) :
    Follows (some a) mine k { k with tasks := Function.update k.tasks a x } := by
  refine ⟨.update x k.next, ?_, fun _ _ => SameOn.refl _ _, rfl, SameOn.refl _ _⟩
  intro b t' hb hlb
  have hb' : Function.update k.tasks a x b = some t' := hb
  by_cases hba : b = a
  · subst hba
    rw [Function.update_self] at hb'
    exact absurd (hx t' hb') hlb
  · rw [Function.update_of_ne hba] at hb'
    exact ⟨t', hb', hlb, rfl, SameOn.refl _ _⟩

end Follows

/-! ## Stores -/

section Stores

variable {v x : Nat} {e : PageTableEntry} {bs : List UInt8}

/-- **A store into a page of a process** is in no table and in no frame of another process. -/
theorem MemOk.storeTask_follows (hm : MemOk I traps [] [] k) (ht : k.tasks a = some t) (hl : t.taskStatus ≠ .zombie)
    (he : t.memorySet.translate k.phys.mem v = some e) (hpa : x / 4096 = e.ppn) (hb : x % 4096 + bs.length ≤ 4096) :
    Follows (some a) [] k { k with phys := { k.phys with mem := k.phys.mem.write x bs } } := by
  have hn : ∀ a t, k.tasks a = some t → a < k.next := fun a t ht => hm.lt_next ht
  have hout := (hm.goodTask ht hl).ppn_apart (hm.task_ok ht hl).framed he
  have hother : ∀ b u, k.tasks b = some u → b ≠ a → e.ppn ∉ u.memorySet.owned := fun b u hu hba hc =>
    hout (List.mem_append_right _ (owned_subset_otherFrames hn hu hba hc))
  refine ⟨.of_same rfl fun b u hu _ hba => ?_, fun b u hu hlu => ⟨u, hu, hlu, rfl, ?_⟩,
    fun _ hc => absurd hc List.not_mem_nil, rfl, ?_⟩
  · exact SameOn.write (hother b u hu fun hc => hba (congrArg some hc.symm)) hpa hb _
  · refine SameOn.write (fun hc => ?_) hpa hb _
    by_cases hba : b = a
    · subst hba
      cases ht.symm.trans hu
      exact hout (List.mem_append_left _ hc)
    · exact hother b u hu hba (List.mem_append_left _ hc)
  · refine SameOn.write (fun hc => hout (List.mem_append_right _ ?_)) hpa hb _
    exact List.mem_append_left _ (List.mem_append_left _ hc)

/-- **A store into a page of a new address space**, which is not yet that of a process. -/
theorem MemOk.storeMine_follows (hm : MemOk I traps scraps (h :: mine) k)
    (he : h.space.translate k.phys.mem v = some e) (hpa : x / 4096 = e.ppn) (hb : x % 4096 + bs.length ≤ 4096) :
    Follows o (h :: mine) k { k with phys := { k.phys with mem := k.phys.mem.write x bs } } := by
  have hout := hm.estate.good.ppn_apart (hm.estate.user h List.mem_cons_self).framed he
  have hother : ∀ y ∈ mine ++ overTasks (TaskControlBlock.holding traps) k.tasks k.next, e.ppn ∉ y.space.owned :=
    fun y hy hc => hout (List.mem_append_right _ (Estate.mem_owned hy hc))
  have htask : ∀ b u, k.tasks b = some u → u.taskStatus ≠ .zombie → e.ppn ∉ u.memorySet.owned := fun b u hu hlu => by
    refine hother ⟨u.memorySet, if traps then some u.trapCxPpn else none⟩ (List.mem_append_right _ ?_)
    refine mem_overTasks (hm.lt_next hu) hu ?_
    rw [TaskControlBlock.holding_live hlu]
    exact List.mem_cons_self
  refine ⟨.of_same rfl fun b u hu hlu _ => ?_, fun b u hu hlu => ⟨u, hu, hlu, rfl, ?_⟩, fun y hy => ?_, rfl, ?_⟩
  · exact SameOn.write (htask b u hu hlu) hpa hb _
  · exact SameOn.write (fun hc => htask b u hu hlu (List.mem_append_left _ hc)) hpa hb _
  · refine SameOn.write (fun hc => ?_) hpa hb _
    rcases List.mem_cons.mp hy with rfl | hy
    · exact hout (List.mem_append_left _ hc)
    · exact hother y (List.mem_append_left _ hy) (List.mem_append_left _ hc)
  · refine SameOn.write (fun hc => hout (List.mem_append_right _ ?_)) hpa hb _
    exact List.mem_append_left _ (List.mem_append_left _ hc)

/-- A store into a page of the current task. -/
theorem Calm.store_follows (hm : Calm I traps k) (ho : k.current = o) (hc : k.current = some a)
    (ht : k.tasks a = some t) (he : t.memorySet.translate k.phys.mem v = some e) (hpa : x / 4096 = e.ppn)
    (hb : x % 4096 + bs.length ≤ 4096) :
    Follows o [] k { k with phys := { k.phys with mem := k.phys.mem.write x bs } } := by
  have hoa : o = some a := ho.symm.trans hc
  subst hoa
  exact hm.mem.storeTask_follows ht (hm.live a t hc ht) he hpa hb

/-- A store into the trap context of the current task. -/
theorem Calm.storeTrap_follows (hm : Calm I true k) (ho : k.current = o) (hc : k.current = some a)
    (ht : k.tasks a = some t) {n : Nat} {b : List UInt8} (hn : n < 4096) (hb : n + b.length ≤ 4096) : Follows o [] k
      { k with phys := { k.phys with mem := k.phys.mem.write (t.trapCxPpn * 4096 + n) b } } := by
  obtain ⟨e, he, hppn, _⟩ := (hm.mem.task_ok ht (hm.live a t hc ht)).trap t.trapCxPpn rfl
  refine hm.store_follows ho hc ht he ?_ ?_
  · rw [hppn]
    omega
  · have hmod : (t.trapCxPpn * 4096 + n) % 4096 = n := by omega
    rw [hmod]
    exact hb

end Stores

/-! ## The steps that leave the tables alone -/

theorem addTask_follows (a : Nat) (k : Kernel B) : (addTask a).wlp (fun _ k' => Follows o [] k k') k := by
  rw [addTask]
  simp only [Comp.wlp_bind, wlp_task, Comp.wlp_assert, wlp_setTask, Comp.wlp_modify]
  intro t ht _
  have hset : Follows o [] k _ := .setTask ht (u := { t with
    pass := usizeAdd t.pass (bigStride / t.priority)
    ghostPass := t.ghostPass + bigStride / t.priority }) rfl Iff.rfl
  exact hset.trans (.of_eq rfl rfl rfl)

theorem runTasks_follows (hok : k.table.SchedOk) : runTasks.wlp (fun _ k' => Follows o [] k k') k := by
  rw [runTasks]
  simp only [Comp.wlp_bind, Comp.wlp_get, Comp.wlp_assert]
  intro _
  by_cases hk : k.readyQueue = []
  · rw [Comp.wlp_of_run (fetchTask_run_empty hok hk)]
    simp only [Comp.wlp_pure]
    exact .refl _ _ _
  · obtain ⟨p, q, hf⟩ := exists_fetches hok hk
    rw [Comp.wlp_of_run (fetchTask_run hok hf)]
    simp only [Comp.wlp_bind, wlp_task, wlp_setTask, Comp.wlp_modify]
    intro t ht
    obtain ⟨e, he, _, hready⟩ := hok.ready p hf.mem
    obtain ⟨u, hu, rfl⟩ := exists_task he
    have htu : t = u := Option.some.inj (ht.symm.trans hu)
    subst htu
    have hstatus : t.taskStatus = .ready := hready
    have hset : Follows o [] k _ := .setTask ht (u := { t with taskStatus := .running }) rfl
      ⟨fun _ => by rw [hstatus]; decide, fun _ => TaskStatus.noConfusion⟩
    exact hset.trans (.of_eq rfl rfl rfl)

theorem suspend_follows (hl : k.Live) : suspendCurrentAndRunNext.wlp (fun _ k' => Follows o [] k k') k := by
  rw [suspendCurrentAndRunNext]
  simp only [Comp.wlp_bind, wlp_takeCurrentTask, wlp_task, wlp_setTask]
  intro a hc t ht
  have hcur : Follows o [] k { k with current := none } := .of_eq rfl rfl rfl
  have hset : Follows o [] { k with current := none } _ := .setTask ht (u := { t with taskStatus := .ready }) rfl
    ⟨fun _ => hl a t hc ht, fun _ => TaskStatus.noConfusion⟩
  exact (addTask_follows a _).mono fun _ _ h => (hcur.trans hset).trans h

theorem sysSetPriority_follows (prio : Nat) (k : Kernel B) :
    (sysSetPriority prio).wlp (fun _ k' => Follows o [] k k') k := by
  rw [sysSetPriority]
  split
  · rw [Comp.wlp_pure]
    exact .refl _ _ _
  · simp only [Comp.wlp_bind, wlp_currentTask, wlp_task, wlp_setTask, Comp.wlp_pure]
    intro a _ t ht
    exact .setTask ht rfl Iff.rfl

theorem sysKill_follows (pid : Nat) (signum : UInt32) (k : Kernel B) :
    (sysKill pid signum).wlp (fun _ k' => Follows o [] k k') k := by
  rw [sysKill, pid2task]
  simp only [Comp.wlp_bind, wlp_currentTask, wlp_task]
  intro a hc t ht
  have hset : ∀ b : Nat, (do
      let t ← task b
      if SignalFlags.contains t.signals (SignalFlags.ofSignum signum) then pure (-1 : Int)
      else do
        setTask b { t with signals := t.signals ||| SignalFlags.ofSignum signum }
        pure 0).wlp (fun _ k' => Follows o [] k k') k := by
    intro b
    simp only [Comp.wlp_bind, wlp_task]
    intro u hu
    split
    · rw [Comp.wlp_pure]
      exact .refl _ _ _
    · simp only [Comp.wlp_bind, wlp_setTask, Comp.wlp_pure]
      exact .setTask hu rfl Iff.rfl
  split
  · rw [Comp.wlp_pure]
    exact hset a
  · simp only [Comp.wlp_bind, Comp.wlp_get, Comp.wlp_pure]
    cases k.readyQueue.lookup pid with
    | none =>
      rw [Comp.wlp_pure]
      exact .refl _ _ _
    | some b => exact hset b

theorem sysSigprocmask_follows (mask : UInt32) (k : Kernel B) :
    (sysSigprocmask mask).wlp (fun _ k' => Follows o [] k k') k := by
  rw [sysSigprocmask]
  simp only [Comp.wlp_bind, wlp_currentTask, wlp_task, wlp_setTask, Comp.wlp_pure]
  intro a _ t ht
  exact .setTask ht rfl Iff.rfl

theorem currentAddSignal_follows (signal : SignalFlags) (k : Kernel B) :
    (currentAddSignal signal).wlp (fun _ k' => Follows o [] k k') k := by
  rw [currentAddSignal]
  simp only [Comp.wlp_bind, wlp_currentTask, wlp_task, wlp_setTask]
  intro a _ t ht
  exact .setTask ht rfl Iff.rfl

theorem sysSigreturn_follows (hm : Calm I true k) (ho : k.current = o) : sysSigreturn.wlp (fun _ k' => Follows o [] k k') k := by
  rw [sysSigreturn]
  simp only [Comp.wlp_bind, wlp_currentTask, wlp_task, wlp_setTask, Comp.wlp_unwrap, wlp_storePhys, Comp.wlp_pure]
  intro a hc t ht backup hb
  have hlen : 0 + backup.length ≤ 4096 := by
    rw [hm.mem.backup a t backup ht hb]
    decide
  have hset := hm.setTask ht (u := { t with handlingSig := -1 }) ⟨rfl, rfl, Iff.rfl, fun _ => Or.inl⟩
  have hstore := hset.storeTrap_follows ho hc (Function.update_self a _ k.tasks) (by decide) hlen
  rw [Nat.add_zero] at hstore
  refine Follows.trans ?_ hstore
  exact .setTask ht rfl Iff.rfl

theorem callKernelSignalHandler_follows (signal : SignalFlags) (k : Kernel B) :
    (callKernelSignalHandler signal).wlp (fun _ k' => k'.current = k.current ∧ Follows o [] k k') k := by
  rw [callKernelSignalHandler]
  simp only [Comp.wlp_bind, wlp_currentTask, wlp_task]
  intro a _ t ht
  split
  · rw [wlp_setTask]
    exact ⟨rfl, .setTask ht rfl Iff.rfl⟩
  · split
    · split
      · rw [wlp_setTask]
        exact ⟨rfl, .setTask ht rfl Iff.rfl⟩
      · rw [Comp.wlp_pure]
        exact ⟨rfl, .refl _ _ _⟩
    · rw [wlp_setTask]
      exact ⟨rfl, .setTask ht rfl Iff.rfl⟩

theorem callUserSignalHandler_follows (hm : Calm I true k) (ho : k.current = o) (sig : Nat) (signal : SignalFlags) :
    (callUserSignalHandler sig signal).wlp (fun _ k' => Follows o [] k k') k := by
  rw [callUserSignalHandler]
  simp only [Comp.wlp_bind, wlp_currentTask, wlp_task, Comp.wlp_unwrap]
  intro a hc t ht action _
  split
  · simp only [Comp.wlp_bind, Comp.wlp_get, wlp_setTask, wlp_storePhys]
    have hset := hm.setTask ht (u := { t with
      signalMask := action.mask
      handlingSig := sig
      signals := t.signals ^^^ signal
      trapCtxBackup := some (k.phys.mem.bytes (t.trapCxPpn * 4096) trapContextSize) })
      ⟨rfl, rfl, Iff.rfl, fun bs hbs => Or.inr (by
        rw [← Option.some.inj hbs]
        exact Mem.bytes_length _ _ _)⟩
    have hself := Function.update_self a (some { t with
      signalMask := action.mask
      handlingSig := (sig : Int)
      signals := t.signals ^^^ signal
      trapCtxBackup := some (k.phys.mem.bytes (t.trapCxPpn * 4096) trapContextSize) }) k.tasks
    have hsepc := hset.storeTrap hc hself (o := 8 * 33) (b := leEncode 8 action.handler)
      (by rw [leEncode_length]; decide)
    have h₁ := hset.storeTrap_follows ho hc hself (n := 8 * 33) (b := leEncode 8 action.handler) (by decide)
      (by rw [leEncode_length]; decide)
    have h₂ := hsepc.storeTrap_follows ho hc hself (n := 8 * 10) (b := leEncode 8 sig) (by decide)
      (by rw [leEncode_length]; decide)
    refine Follows.trans ?_ (h₁.trans h₂)
    exact .setTask ht rfl Iff.rfl
  · rw [Comp.wlp_pure]
    exact .refl _ _ _

theorem checkPendingLoop_follows (sigs : List Nat) (hm : Calm I true k) (ho : k.current = o) :
    (checkPendingLoop sigs).wlp (fun _ k' => Follows o [] k k') k := by
  induction sigs generalizing k with
  | nil =>
    rw [checkPendingLoop, Comp.wlp_pure]
    exact .refl _ _ _
  | cons sig sigs ih =>
    rw [checkPendingLoop]
    simp only [Comp.wlp_bind, wlp_currentTask, wlp_task]
    intro a _ t _
    have hrest : ∀ blocked : Bool, (if blocked then checkPendingLoop sigs
        else if isKernelSignal (SignalFlags.ofSignum (UInt32.ofNat sig)) then do
          callKernelSignalHandler (SignalFlags.ofSignum (UInt32.ofNat sig))
          checkPendingLoop sigs
        else callUserSignalHandler sig (SignalFlags.ofSignum (UInt32.ofNat sig))).wlp
          (fun _ k' => Follows o [] k k') k := by
      intro blocked
      split
      · exact ih hm ho
      · split
        · rw [Comp.wlp_bind]
          refine ((callKernelSignalHandler_calm hm _).and (callKernelSignalHandler_follows (o := o) _ k)).mono ?_
          rintro _ k' ⟨hm', hcur, hf⟩
          exact (ih hm' (hcur.trans ho)).mono fun _ _ hf' => hf.trans hf'
        · exact callUserSignalHandler_follows hm ho _ _
    split
    · split
      · rw [Comp.wlp_bind, Comp.wlp_pure]
        exact hrest _
      · simp only [Comp.wlp_bind, Comp.wlp_unwrap, Comp.wlp_pure]
        exact fun _ _ => hrest _
    · exact ih hm ho

theorem sysSigaction_follows (hm : Calm I traps k) (ho : k.current = o) (signum : UInt32) (action oldAction : Nat) (pad : UInt32)
    (hold : oldAction % 4096 ≤ 4080) :
    (sysSigaction signum action oldAction pad).wlp (fun _ k' => Follows o [] k k') k := by
  rw [sysSigaction]
  simp only [Comp.wlp_bind, wlp_currentTask, wlp_task]
  intro a hc t ht
  split
  · rw [Comp.wlp_pure]
    exact .refl _ _ _
  split
  · rw [Comp.wlp_pure]
    exact .refl _ _ _
  have hl := hm.live a t hc ht
  have hrest : ∀ {k' : Kernel B}, Calm I traps k' → Follows o [] k k' → k'.tasks a = some t → (do
      let pa ← onPhys (translatedRefmut t.memorySet.token action)
      let k ← Comp.get
      let a' := readAction k.phys.mem pa
      setTask a { t with signalActions := t.signalActions.set signum.toNat a' }
      pure (0 : Int)).wlp (fun _ k' => Follows o [] k k') k' := by
    intro k' hm' hf ht'
    rw [Comp.wlp_bind]
    refine translatedRefmut_task hm'.mem ht' hl action fun e _ => ?_
    simp only [Comp.wlp_bind, Comp.wlp_get, wlp_setTask, Comp.wlp_pure]
    exact hf.trans (.setTask ht' rfl Iff.rfl)
  simp only [Comp.wlp_bind, Comp.wlp_unwrap]
  intro old _
  refine translatedRefmut_task hm.mem ht hl oldAction fun e he => ?_
  split
  · rw [Comp.wlp_bind, wlp_storePhys]
    have hpa : (e.ppn * 4096 + oldAction % 4096) / 4096 = e.ppn := by omega
    have hfits : (e.ppn * 4096 + oldAction % 4096) % 4096 + (actionBytes old pad).length ≤ 4096 := by
      simp only [actionBytes, List.length_append, leEncode_length]
      omega
    exact hrest (hm.store hc ht he hpa hfits) (hm.store_follows ho hc ht he hpa hfits) ht
  · exact hrest hm (.refl _ _ _) ht

theorem userStore_follows (hm : Calm I traps k) (ho : k.current = o) (va : Nat) (b : UInt8) :
    (userStore va b).wlp (fun _ k' => Follows o [] k k') k := by
  rw [userStore]
  simp only [Comp.wlp_bind, wlp_currentTask, wlp_task, Comp.wlp_get, Comp.wlp_unwrap, Comp.wlp_assert, wlp_storePhys]
  intro a hc t ht e he _
  refine hm.store_follows ho hc ht he ?_ ?_
  · omega
  · rw [List.length_singleton]
    omega

theorem adopt_follows {init : Nat} (cs : List Nat) (k : Kernel B) :
    (adopt a init cs).wlp (fun _ k' => Follows o [] k k') k := by
  induction cs generalizing k with
  | nil =>
    rw [adopt, Comp.wlp_pure]
    exact .refl _ _ _
  | cons c cs ih =>
    rw [adopt]
    simp only [Comp.wlp_bind, Comp.wlp_assert, wlp_task, wlp_setTask]
    intro _ t ht i hi
    have h₁ : Follows o [] k _ := .setTask ht (u := { t with parent := some init }) rfl Iff.rfl
    have h₂ : Follows o [] { k with tasks := Function.update k.tasks c (some { t with parent := some init }) } _ :=
      .setTask hi (u := { i with children := i.children ++ [c] }) rfl Iff.rfl
    exact (ih _).mono fun _ _ h => (h₁.trans h₂).trans h

end Kernel

end RCore.Task
