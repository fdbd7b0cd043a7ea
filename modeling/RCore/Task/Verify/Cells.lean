import RCore.Task.Verify.Erasure
import RCore.Task.Verify.Scheduling

/-!
# No cell is borrowed twice

The handles that a function takes while it holds others are on other cells: most of these others are the
cell of one task, and the aliasing that could happen is excluded by the process tree, in which no task is a
child of itself and `INITPROC` is nobody's child. The one function that holds the cells of two tasks is the
exit of a task, and there they are the same cell if the task is `INITPROC`.
-/

namespace RCore.Task.Code

open RCore Mm Fs Guarded Kernel

variable {B : BinaryHeap} {I : Image} {k k' : Kernel B} {S : Set Cell}

/-- What comes after a function depends on the table that it leaves. -/
theorem within_bind_ends {α β : Type} {p : Code B α} {f : α → Code B β} {R : α → Table B → Prop}
    (hp : Within S k p) (hx : Ends p.erase R k.table) (hf : ∀ a k', R a k'.table → Within S k' (f a)) :
    Within S k (p >>= f) :=
  hp.bind_wlp ((hx k rfl).mono fun a k' hr => hf a k' hr)

/-! ## Functions -/

theorem within_currentTask (h : .processor ∈ S) : Within S k (currentTask : Code B Nat) :=
  .during h (within_comp _)

theorem within_takeCurrentTask (h : .processor ∈ S) : Within S k (takeCurrentTask : Code B Nat) :=
  .during h (within_comp _)

theorem within_userToken {cur : Nat} (h : .processor ∈ S) (hcur : .task cur ∈ S) :
    Within S k (userToken cur : Code B Unit) :=
  (within_access h).bind fun _ _ => within_access hcur

theorem within_currentUserToken : Within .univ k (currentUserToken : Code B Unit) :=
  (within_currentTask (Set.mem_univ _)).bind fun _ _ => within_access (Set.mem_univ _)

theorem within_addTask {addr : Nat} (h : .taskManager ∈ S) (ht : .task addr ∈ S) :
    Within S k (addTask addr : Code B Unit) := by
  have ht' : .task addr ∈ S \ {Cell.taskManager} := ⟨ht, by simp⟩
  exact .during h ((within_access ht').bind fun _ _ => (within_access ht').bind fun _ _ => within_comp _)

theorem within_fetchTask (h : .taskManager ∈ S) : Within S k (fetchTask : Code B (Option Nat)) :=
  .during h (within_comp _)

theorem within_pid2task (pid : Nat) : Within .univ k (pid2task pid : Code B (Option Nat)) := by
  refine (within_currentTask (Set.mem_univ _)).bind fun cur _ => (within_comp _).bind fun t _ => within_ite (fun _ => ?_) fun _ => ?_
  · exact (within_access (Set.mem_univ _)).bind fun _ _ => within_pure _
  · exact .during (Set.mem_univ _) ((within_comp _).bind fun _ _ => within_pure _)

theorem within_runTasks : Within .univ k (runTasks : Code B Unit) := by
  refine .during (Set.mem_univ _) ((within_comp _).bind fun _ _ => (within_comp _).bind fun _ _ => ?_)
  refine (within_fetchTask (by simp)).bind fun next _ => ?_
  cases next with
  | none => exact within_pure _
  | some addr =>
    refine Within.bind (.during (by simp) ?_) fun _ _ => within_comp _
    exact (within_comp _).bind fun _ _ => within_comp _

theorem within_suspend : Within .univ k (suspendCurrentAndRunNext : Code B Unit) := by
  refine (within_takeCurrentTask (Set.mem_univ _)).bind fun addr _ => Within.bind (.during (Set.mem_univ _) ?_) fun _ _ => ?_
  · exact (within_comp _).bind fun _ _ => within_comp _
  · exact (within_addTask (Set.mem_univ _) (Set.mem_univ _)).bind fun _ _ => within_access (Set.mem_univ _)

theorem within_onFrames {α : Type} (h : .frameAllocator ∈ S) (x : Comp Phys α) : Within S k (onFrames x : Code B α) :=
  (within_access h).bind fun _ _ => within_comp _

theorem within_newKernelStack (h : .kernelSpace ∈ S) (hf : .frameAllocator ∈ S) (pid : Nat) :
    Within S k (newKernelStack pid : Code B Nat) :=
  .during h ((within_access (S := S \ {.kernelSpace}) ⟨hf, by simp⟩).bind fun _ _ => within_comp _)

theorem within_dropKernelStack (h : .kernelSpace ∈ S) (hf : .frameAllocator ∈ S) (stack : Nat) :
    Within S k (dropKernelStack stack : Code B Unit) :=
  .during h ((within_access (S := S \ {.kernelSpace}) ⟨hf, by simp⟩).bind fun _ _ => within_comp _)

theorem within_dropTask (hp : .pidAllocator ∈ S) (h : .kernelSpace ∈ S) (hf : .frameAllocator ∈ S) (addr : Nat) :
    Within S k (dropTask addr : Code B Unit) := by
  refine (within_comp _).bind fun t _ => (within_comp _).bind fun _ _ => ?_
  refine Within.bind (.during hp (within_comp _)) fun _ _ => ?_
  exact (within_dropKernelStack h hf _).bind fun _ _ => within_onFrames hf _

theorem within_blockIo (hb : .blockDevice ∈ S) (hk : .kernelSpace ∈ S) : Within S k (blockIo : Code B Unit) :=
  .during hb (within_access ⟨hk, by simp⟩)

theorem within_onCurrent {α : Type} (f : Nat → TaskControlBlock → Comp (Kernel B) α) : Within .univ k (onCurrent f) :=
  (within_currentTask (Set.mem_univ _)).bind fun _ _ => .during (Set.mem_univ _) ((within_comp _).bind fun _ _ => within_comp _)

theorem within_sysExec (path : List Char) (elf : ElfFile) (args : List (List UInt8)) (sstatus : Nat) :
    Within .univ k (sysExec I path elf args sstatus : Code B Int) := by
  refine (within_currentTask (Set.mem_univ _)).bind fun cur _ => (within_userToken (Set.mem_univ _) (Set.mem_univ _)).bind fun _ _ => ?_
  refine (within_blockIo (Set.mem_univ _) (Set.mem_univ _)).bind fun _ _ => ?_
  refine Within.bind (.during (Set.mem_univ _) (within_blockIo (by simp) (by simp))) fun _ _ => ?_
  refine (within_access (Set.mem_univ _)).bind fun _ _ => (within_onFrames (Set.mem_univ _) _).bind fun _ _ => ?_
  refine (within_comp _).bind fun _ _ => (within_comp _).bind fun _ _ => (within_comp _).bind fun _ _ => ?_
  refine (within_comp _).bind fun _ _ => (within_comp _).bind fun _ _ => ?_
  refine Within.bind (.during (Set.mem_univ _) ?_) fun _ _ => within_pure _
  refine (within_comp _).bind fun t _ => (within_comp _).bind fun _ _ => ?_
  refine (within_onFrames (by simp) _).bind fun _ _ => (within_access (by simp)).bind fun _ _ => ?_
  exact (within_comp _).bind fun _ _ => within_comp _

theorem within_onMemorySet (x : MemorySet → Comp Phys (Int × MemorySet)) :
    Within .univ k (onMemorySet x : Code B Int) := by
  refine (within_currentTask (Set.mem_univ _)).bind fun cur _ => (within_userToken (Set.mem_univ _) (Set.mem_univ _)).bind fun _ _ => ?_
  refine (within_access (Set.mem_univ _)).bind fun _ _ => Within.bind (.during (Set.mem_univ _) ?_) fun _ _ => ?_
  · refine (within_comp _).bind fun _ _ => (within_onFrames (by simp) _).bind fun _ _ => ?_
    exact (within_comp _).bind fun _ _ => within_pure _
  · exact (within_access (Set.mem_univ _)).bind fun _ _ => within_pure _

theorem within_sysKill (pid : Nat) (signum : UInt32) : Within .univ k (sysKill pid signum : Code B Int) := by
  refine (within_pid2task pid).bind fun target _ => ?_
  cases target with
  | none => exact within_pure _
  | some addr =>
    refine .during (Set.mem_univ _) ((within_comp _).bind fun t _ => within_ite (fun _ => within_pure _) fun _ => ?_)
    exact (within_comp _).bind fun _ _ => within_pure _

theorem within_sysSigaction (signum : UInt32) (action oldAction : Nat) (pad : UInt32) :
    Within .univ k (sysSigaction signum action oldAction pad : Code B Int) := by
  refine (within_currentTask (Set.mem_univ _)).bind fun cur _ => (within_userToken (Set.mem_univ _) (Set.mem_univ _)).bind fun _ _ => ?_
  refine (within_access (Set.mem_univ _)).bind fun _ _ => .during (Set.mem_univ _) ((within_comp _).bind fun t _ => ?_)
  exact within_ite (fun _ => within_pure _) fun _ => within_ite (fun _ => within_pure _) fun _ => within_comp _

theorem within_checkPendingLoop (sigs : List Nat) : Within .univ k (checkPendingLoop sigs : Code B Unit) := by
  induction sigs generalizing k with
  | nil => exact within_pure _
  | cons sig sigs ih =>
    refine (within_currentTask (Set.mem_univ _)).bind fun cur _ => Within.bind (.during (Set.mem_univ _) ?_) fun handle _ => ?_
    · refine (within_comp _).bind fun t _ => within_ite (fun _ => within_ite (fun _ => ?_) fun _ => ?_) fun _ => ?_
      · exact (within_pure _).bind fun _ _ => within_pure _
      · exact (within_comp _).bind fun _ _ => (within_pure _).bind fun _ _ => within_pure _
      · exact within_pure _
    · refine within_ite (fun _ => within_ite (fun _ => ?_) fun _ => within_onCurrent _) fun _ => ih
      exact (within_onCurrent _).bind fun _ _ => ih

/-! ## Functions that hold several tasks -/

/-- No task is a child of itself. -/
def Selfless (T : Table B) : Prop := ∀ a e, T.tasks a = some e → a ∉ e.children

theorem within_fork {addr : Nat} (h : k.table.SchedOk) : Within .univ k (fork I addr : Code B Nat) := by
  refine .during (Set.mem_univ _) (within_bind_ends (R := fun t T => T = k.table ∧ T.tasks addr = some t.entry)
    (within_comp _) ?_ fun t k₁ ht => ?_)
  · rw [erase_comp]
    exact ends_task fun t ht => ⟨rfl, ht⟩
  obtain ⟨hk₁, ht⟩ := ht
  -- the child gets an address that no task has
  have hne : k.table.next ≠ addr := by
    rintro rfl
    rw [hk₁, h.fresh _ (Nat.le_refl _)] at ht
    cases ht
  refine within_bind_ends (R := fun _ T => T.next = k.table.next) (within_onFrames (by simp) _) ?_ fun ms k₂ hk₂ => ?_
  · rw [erase_onFrames, hk₁]
    exact ends_onPhys fun _ => rfl
  refine within_bind_ends (R := fun _ T => T.next = k.table.next) (.during (by simp) (within_comp _)) ?_
    fun pid k₃ hk₃ => ?_
  · rw [erase_pidAlloc]
    exact ends_pidAlloc hk₂
  refine within_bind_ends (R := fun _ T => T.next = k.table.next) (within_newKernelStack (by simp) (by simp) _) ?_
    fun stack k₄ hk₄ => ?_
  · rw [erase_newKernelStack]
    exact (still_newKernelStack pid).mono fun _ T hT => hT ▸ hk₃
  refine within_bind_ends (R := fun _ T => T.next = k.table.next) (within_comp _) ?_ fun ppn k₅ hk₅ => ?_
  · rw [erase_comp]
    exact (still_trapCxPpnOf ms).mono fun _ T hT => hT ▸ hk₄
  refine within_bind_ends (R := fun k' _ => k'.next = k.table.next) (within_comp _) ?_ fun k' _ hk' => ?_
  · rw [erase_comp]
    exact ends_get fun k' hT => (congrArg Table.next hT).trans hk₅
  have hcell : .task k'.next ∈ (Set.univ \ {Cell.task addr} : Set Cell) := by
    refine ⟨Set.mem_univ _, ?_⟩
    rw [hk', Set.mem_singleton_iff, Cell.task.injEq]
    exact hne
  refine (within_access hcell).bind fun _ _ => (within_comp _).bind fun _ _ => ?_
  exact (within_comp _).bind fun _ _ => (within_comp _).bind fun _ _ => within_pure _

theorem within_sysFork (h : k.table.SchedOk) : Within .univ k (sysFork I : Code B Int) := by
  refine within_bind_ends (R := fun _ T => T = k.table) (within_currentTask (Set.mem_univ _)) ?_ fun cur k₁ hk₁ => ?_
  · rw [erase_currentTask]
    exact ends_currentTask fun _ _ => rfl
  refine (within_fork (hk₁ ▸ h)).bind fun child _ => ?_
  refine Within.bind (.during (Set.mem_univ _) (within_comp _)) fun t _ => (within_comp _).bind fun _ _ => ?_
  exact (within_addTask (Set.mem_univ _) (Set.mem_univ _)).bind fun _ _ => within_pure _

theorem within_findZombie {k₀ : Kernel B} {pid : Int} {children : List Nat} (h : ∀ c ∈ children, .task c ∈ S) :
    Within S k (findZombie k₀ pid children) := by
  induction children generalizing k with
  | nil => exact within_pure _
  | cons child children ih =>
    refine (within_access (h child List.mem_cons_self)).bind fun _ _ => within_ite (fun _ => within_pure _) fun _ => ?_
    exact ih fun c hc => h c (List.mem_cons_of_mem _ hc)

theorem within_sysWaitpid (h : Selfless k.table) (pid : Int) (ptr : Nat) :
    Within .univ k (sysWaitpid pid ptr : Code B Int) := by
  refine within_bind_ends (R := fun _ T => T = k.table) (within_currentTask (Set.mem_univ _)) ?_ fun cur k₁ hk₁ => ?_
  · rw [erase_currentTask]
    exact ends_currentTask fun _ _ => rfl
  refine .during (Set.mem_univ _) (within_bind_ends (R := fun t _ => cur ∉ t.children) (within_comp _) ?_
    fun t k₂ ht => ?_)
  · rw [erase_comp, hk₁]
    exact ends_task fun t ht => h cur t.entry ht
  have hchild : ∀ c ∈ t.children, .task c ∈ (Set.univ \ {Cell.task cur} : Set Cell) := fun c hc => by
    refine ⟨Set.mem_univ _, ?_⟩
    rw [Set.mem_singleton_iff, Cell.task.injEq]
    rintro rfl
    exact ht hc
  refine (within_comp _).bind fun k₀ _ => within_ite (fun _ => within_pure _) fun _ => ?_
  refine (within_findZombie hchild).bind fun _ _ => ?_
  cases t.children.findIdx? (k₀.collects pid) with
  | none => exact within_pure _
  | some idx =>
    refine within_bind_ends (R := fun child _ => child ∈ t.children) (within_comp _) ?_ fun child _ hmem => ?_
    · rw [erase_comp]
      exact ends_unwrap fun c hc => List.mem_of_getElem? hc
    refine (within_comp _).bind fun _ _ => (within_comp _).bind fun _ _ => (within_comp _).bind fun _ _ => ?_
    refine Within.bind (.during (hchild child hmem) (within_comp _)) fun c _ => (within_comp _).bind fun _ _ => ?_
    refine (within_comp _).bind fun _ _ => ?_
    exact (within_dropTask (by simp) (by simp) (by simp) child).bind fun _ _ => within_pure _

theorem within_adopt {addr init : Nat} {children : List Nat} (h : ∀ c ∈ children, .task c ∈ S) :
    Within S k (adopt addr init children : Code B Unit) := by
  induction children generalizing k with
  | nil => exact within_pure _
  | cons child children ih =>
    refine Within.bind (.during (h child List.mem_cons_self) ?_) fun _ _ => ?_
    · exact (within_comp _).bind fun _ _ => (within_comp _).bind fun _ _ => within_comp _
    · refine (within_comp _).bind fun _ _ => (within_comp _).bind fun _ _ => ?_
      exact ih fun c hc => h c (List.mem_cons_of_mem _ hc)

theorem within_exit {i : Nat} (h : k.table.TreeOk i) (hself : Selfless k.table) (hcur : k.current ≠ k.initproc)
    (exitCode : Int32) : Within .univ k (exitCurrentAndRunNext exitCode : Code B Unit) := by
  refine within_bind_ends (R := fun addr T => addr ≠ i ∧ T.tasks = k.table.tasks ∧ T.initproc = some i)
    (within_takeCurrentTask (Set.mem_univ _)) ?_ fun addr k₁ h₁ => ?_
  · rw [erase_takeCurrentTask]
    refine ends_takeCurrentTask fun a ha => ⟨?_, rfl, h.init.1⟩
    rintro rfl
    exact hcur (ha.trans h.init.1.symm)
  obtain ⟨hai, htasks, hinit⟩ := h₁
  refine Within.bind (.during (Set.mem_univ _) ?_) fun _ k₂ => (within_comp _).bind fun k₃ _ => ?_
  · refine within_bind_ends (R := fun t T => T.initproc = some i ∧ ∀ c ∈ t.children, c ≠ addr ∧ c ≠ i)
      (within_comp _) ?_ fun t k₂ h₂ => ?_
    · rw [erase_comp]
      refine ends_task fun t ht => ⟨hinit, fun c hc => ?_⟩
      rw [htasks] at ht
      have hca : c ≠ addr := by
        rintro rfl
        exact hself c t.entry ht hc
      exact ⟨hca, (h.child addr t.entry ht c hc).1⟩
    obtain ⟨hinit₂, hchildren⟩ := h₂
    refine within_bind_ends (R := fun k' _ => k'.initproc = some i) (within_comp _) ?_ fun k₃ _ h₃ => ?_
    · rw [erase_comp]
      exact ends_get fun k' hT => (congrArg Table.initproc hT).trans hinit₂
    refine within_bind_ends (R := fun init _ => init = i) (within_comp _) ?_ fun init k₄ hi => ?_
    · rw [erase_comp, h₃]
      exact ends_unwrap fun j hj => (Option.some.inj hj).symm
    subst hi
    refine Within.bind (.during ?_ ((within_comp _).bind fun _ _ => within_adopt fun c hc => ?_)) fun _ _ => ?_
    · simpa using hai.symm
    · simpa using hchildren c hc
    · exact (within_onFrames (by simp) _).bind fun _ _ => within_comp _
  · refine within_ite (fun _ => ?_) fun _ => ?_
    · refine Within.bind (within_dropTask (Set.mem_univ _) (Set.mem_univ _) (Set.mem_univ _) addr) fun _ _ => ?_
      exact within_access (Set.mem_univ _)
    · exact within_access (Set.mem_univ _)

/-! ## The tree -/

section Tree

variable {T T' : Table B} {i : Nat}

theorem Selfless.congr (h : Selfless T)
    (hsub : ∀ a f, T'.tasks a = some f → f.children = [] ∨ ∃ e, T.tasks a = some e ∧ f.children ⊆ e.children) :
    Selfless T' := by
  intro a f hf hmem
  rcases hsub a f hf with hnil | ⟨e, he, hchildren⟩
  · rw [hnil] at hmem
    cases hmem
  · exact h a e he (hchildren hmem)

theorem Selfless.put (h : Selfless T) {a : Nat} {e f : Entry} (he : T.tasks a = some e)
    (htasks : T'.tasks = (T.put a f).tasks) (hf : f.children ⊆ e.children) : Selfless T' := by
  refine h.congr fun b g hg => ?_
  rw [htasks] at hg
  rcases Table.put_some hg with ⟨rfl, rfl⟩ | ⟨-, hg⟩
  · exact .inr ⟨e, he, hf⟩
  · exact .inr ⟨g, hg, fun _ hc => hc⟩

/-- Every move keeps it: `fork` gives its child an address that no task has, and the children of a task
that exits go to `INITPROC`, which is none of them. -/
theorem Selfless.move {op : Op} (h : Selfless T) (hok : T.Ok i) (hm : Table.Move op T T') : Selfless T' := by
  cases hm with
  | same => exact h
  | setPriority _ he _ => exact h.put he rfl fun _ hc => hc
  | yield _ he => exact h.put he rfl fun _ hc => hc
  | runTasks _ _ he _ _ => exact h.put he rfl fun _ hc => hc
  | @fork _ a e _ he =>
    have hne : T.next ≠ a := by
      rintro rfl
      have hfresh := hok.sched.fresh T.next (Nat.le_refl _)
      rw [he] at hfresh
      cases hfresh
    intro b f hf hmem
    have hb : b = T.next ∨ (b = a ∧ f = { e with children := e.children ++ [T.next] }) ∨ T.tasks b = some f := by
      rcases Table.put_some hf with ⟨rfl, -⟩ | ⟨hbn, hf⟩
      · exact .inl rfl
      · rcases Table.put_some hf with ⟨rfl, rfl⟩ | ⟨-, hf⟩
        · exact .inr (.inl ⟨rfl, rfl⟩)
        · rcases Table.put_some hf with ⟨rfl, -⟩ | ⟨-, hf⟩
          · exact .inl rfl
          · exact .inr (.inr hf)
    rcases hb with rfl | ⟨rfl, rfl⟩ | hold
    · have hnil : f.children = [] := by
        rcases Table.put_some hf with ⟨-, rfl⟩ | ⟨hbn, -⟩
        · rfl
        · exact absurd rfl hbn
      rw [hnil] at hmem
      cases hmem
    · rcases List.mem_append.mp hmem with hold | hnew
      · exact h b e he hold
      · exact hne (List.mem_singleton.mp hnew).symm
    · exact h b f hold hmem
  | @exit _ j a e exitCode hinit _ he _ _ =>
    have hj : j = i := Option.some.inj (hinit.symm.trans hok.tree.init.1)
    subst hj
    intro b f hf hmem
    rcases Table.put_some hf with ⟨-, rfl⟩ | ⟨-, hadopt⟩
    · cases hmem
    replace hadopt : (if b ∈ e.children then (T.tasks b).map fun f => { f with parent := some j }
        else if b = j then (T.tasks b).map fun f => { f with children := f.children ++ e.children }
        else T.tasks b) = some f := hadopt
    split at hadopt
    · obtain ⟨g, hg, rfl⟩ := Option.map_eq_some_iff.mp hadopt
      exact h b g hg hmem
    split at hadopt
    · next hbj =>
      obtain ⟨g, hg, rfl⟩ := Option.map_eq_some_iff.mp hadopt
      rcases List.mem_append.mp hmem with hold | hnew
      · exact h b g hg hold
      · exact (hok.tree.child a e he b hnew).1 hbj
    · exact h b f hadopt hmem
  | @reap _ a c e _ cs _ _ _ he _ _ _ hcs =>
    refine h.congr fun b f hf => ?_
    by_cases hbc : b = c
    · subst hbc
      rw [Table.reap, Table.erase_same] at hf
      cases hf
    · replace hf : ((T.put a { e with children := cs }).erase c).tasks b = some f := hf
      rw [Table.erase_ne hbc] at hf
      rcases Table.put_some hf with ⟨rfl, rfl⟩ | ⟨-, hf⟩
      · exact .inr ⟨e, he, hcs ▸ List.erase_subset⟩
      · exact .inr ⟨f, hf, fun _ hc => hc⟩

end Tree

/-! ## Files and the pieces of a trap -/

theorem within_store (mem : Mem) : Within S k (store mem : Code B Unit) := within_comp _

theorem within_readStdin (input : Input) : Within .univ k (readStdin input : Code B Unit) := by
  refine within_ite (fun _ => within_suspend) fun _ => within_ite (fun _ => ?_) fun _ => within_store _
  exact (within_onCurrent _).bind fun _ _ => within_store _

theorem within_pipeRound (pipe : Nat) (input : Input) : Within .univ k (pipeRound pipe input : Code B Unit) :=
  Within.bind (.during (Set.mem_univ _) (within_store _)) fun _ _ =>
    within_ite (fun _ => within_suspend) fun _ => within_pure _

theorem within_onInode {path : List Char} (input : Input) (hp : .osInode path ∈ S) (hb : .blockDevice ∈ S)
    (hk : .kernelSpace ∈ S) : Within S k (onInode path input : Code B Unit) :=
  .during hp ((within_blockIo (S := S \ {.osInode path}) ⟨hb, by simp⟩ ⟨hk, by simp⟩).bind fun _ _ => within_store _)

theorem within_read (file : File) (input : Input) : Within .univ k (read file input : Code B Unit) := by
  cases file with
  | stdin => exact within_readStdin input
  | stdout => exact within_pure _
  | inode path _ _ => exact within_onInode input (Set.mem_univ _) (Set.mem_univ _) (Set.mem_univ _)
  | pipeRead pipe => exact within_pipeRound pipe input
  | pipeWrite _ => exact within_pure _

theorem within_write (file : File) (input : Input) : Within .univ k (write file input : Code B Unit) := by
  cases file with
  | stdin => exact within_pure _
  | stdout => exact within_pure _
  | inode path _ _ => exact within_onInode input (Set.mem_univ _) (Set.mem_univ _) (Set.mem_univ _)
  | pipeRead _ => exact within_pure _
  | pipeWrite pipe => exact within_pipeRound pipe input

theorem within_onFile {f : File → Input → Code B Unit} (hf : ∀ file input k, Within .univ k (f file input))
    (file : Option File) (ok : File → Bool) (input : Input) : Within .univ k (onFile file ok f input) := by
  refine (within_currentTask (Set.mem_univ _)).bind fun cur _ => ?_
  refine (within_userToken (Set.mem_univ _) (Set.mem_univ _)).bind fun _ _ => ?_
  refine (within_access (Set.mem_univ _)).bind fun _ _ => ?_
  cases file with
  | none => exact within_pure _
  | some file => exact within_ite (fun _ => hf file input _) fun _ => within_pure _

theorem within_sysFstat (file : Option File) (input : Input) : Within .univ k (sysFstat file input : Code B Unit) := by
  refine (within_currentTask (Set.mem_univ _)).bind fun cur _ => (within_access (Set.mem_univ _)).bind fun _ _ => ?_
  refine (within_userToken (Set.mem_univ _) (Set.mem_univ _)).bind fun _ _ => .during (Set.mem_univ _) ?_
  cases file with
  | none => exact within_pure _
  | some file =>
    cases file with
    | inode path _ _ => exact within_onInode input (by simp) (by simp) (by simp)
    | stdin => exact within_pure _
    | stdout => exact within_pure _
    | pipeRead _ => exact within_pure _
    | pipeWrite _ => exact within_pure _

theorem within_onFdTable : Within .univ k (onFdTable : Code B Unit) :=
  (within_currentTask (Set.mem_univ _)).bind fun _ _ => within_access (Set.mem_univ _)

theorem within_sysOpen : Within .univ k (sysOpen : Code B Unit) := by
  refine (within_currentTask (Set.mem_univ _)).bind fun cur _ => ?_
  refine (within_userToken (Set.mem_univ _) (Set.mem_univ _)).bind fun _ _ => ?_
  exact (within_blockIo (Set.mem_univ _) (Set.mem_univ _)).bind fun _ _ => within_access (Set.mem_univ _)

theorem within_sysPipe (pipe : Nat) (input : Input) : Within .univ k (sysPipe pipe input : Code B Unit) := by
  refine (within_currentTask (Set.mem_univ _)).bind fun cur _ => ?_
  refine (within_userToken (Set.mem_univ _) (Set.mem_univ _)).bind fun _ _ => .during (Set.mem_univ _) ?_
  exact (within_access (by simp)).bind fun _ _ => within_store _

theorem within_onRootInode : Within .univ k (onRootInode : Code B Unit) :=
  within_currentUserToken.bind fun _ _ => within_blockIo (Set.mem_univ _) (Set.mem_univ _)

/-! ## Every step -/

/-- `INITPROC` exits: it asks for it, or it has a signal that ends it. -/
def ExitsInitproc (k : Kernel B) : CodeOp → Prop
  | .kernel (.exit _) _ => k.current = k.initproc
  | .checkSignalsError => k.current = k.initproc ∧
    ∃ a t, k.current = some a ∧ k.tasks a = some t ∧ SignalFlags.checkError t.signals ≠ none
  | _ => False

theorem within_checkSignalsError {i : Nat} (h : k.table.TreeOk i) (hself : Selfless k.table)
    (hexit : ¬ExitsInitproc k .checkSignalsError) : Within .univ k (checkSignalsError : Code B Unit) := by
  refine (within_onCurrent _).bind_wlp ?_
  simp only [erase_onCurrent, Kernel.currentTask, Kernel.task, Comp.wlp_bind, Comp.wlp_get, Comp.wlp_unwrap,
    Comp.wlp_pure]
  intro a ha t ht
  cases herror : SignalFlags.checkError t.signals with
  | none => exact within_pure _
  | some r =>
    refine within_exit h hself (fun hcur => hexit ⟨hcur, a, t, ha, ht, ?_⟩) _
    rw [herror]
    exact Option.some_ne_none r

theorem within_kernelStep {i : Nat} (h : k.table.Ok i) (hself : Selfless k.table) (path : List Char) (op : Op)
    (hexit : ¬ExitsInitproc k (.kernel op path)) : Within .univ k (kernelStep I path op : Code B Int) := by
  cases op with
  | runTasks => exact within_runTasks.bind fun _ _ => within_pure _
  | yield => exact within_suspend.bind fun _ _ => within_pure _
  | exit exitCode => exact (within_exit h.tree hself hexit exitCode).bind fun _ _ => within_pure _
  | fork => exact within_sysFork h.sched
  | exec elf args sstatus => exact within_sysExec path elf args sstatus
  | waitpid pid ptr => exact within_sysWaitpid hself pid ptr
  | setPriority prio => exact within_ite (fun _ => within_pure _) fun _ => within_onCurrent _
  | mmap start len prot => exact within_onMemorySet fun ms => sysMmap ms start len prot
  | munmap start len => exact within_onMemorySet fun ms => sysMunmap ms start len
  | userStore va b => exact (within_comp _).bind fun _ _ => within_pure _
  | kill pid signum => exact within_sysKill pid signum
  | sigprocmask mask => exact within_onCurrent _
  | sigaction signum action oldAction pad => exact within_sysSigaction signum action oldAction pad
  | sigreturn => exact within_onCurrent _
  | addSignal signal => exact (within_onCurrent _).bind fun _ _ => within_pure _
  | checkPendingSignals => exact (within_checkPendingLoop _).bind fun _ _ => within_pure _

theorem within_step {i : Nat} (h : k.table.Ok i) (hself : Selfless k.table) (op : CodeOp)
    (hexit : ¬ExitsInitproc k op) : Within .univ k (step I op : Code B Unit) := by
  cases op with
  | kernel op path => exact (within_kernelStep h hself path op hexit).bind fun _ _ => within_pure _
  | trapCx => exact within_currentUserToken
  | frozenOrKilled => exact (within_onCurrent _).bind fun _ _ => within_pure _
  | checkSignalsError => exact within_checkSignalsError h.tree hself hexit
  | trapReturn => exact within_currentUserToken
  | execNotFound => exact within_onRootInode
  | read file input => exact within_onFile (fun file input _ => within_read file input) file _ input
  | write file input => exact within_onFile (fun file input _ => within_write file input) file _ input
  | resumeRead file input => exact within_read file input
  | resumeWrite file input => exact within_write file input
  | fstat file input => exact within_sysFstat file input
  | closeOrDup => exact within_onFdTable
  | openFile => exact within_sysOpen
  | pipe pipe input => exact within_sysPipe pipe input
  | linkOrUnlink => exact within_onRootInode
  | getTime input => exact within_currentUserToken.bind fun _ _ => within_store _
  | getpid => exact (within_currentTask (Set.mem_univ _)).bind fun _ _ => within_pure _

/-! ## What a step leaves -/

section Leaves

variable {T : Table B}

/-- `x` makes a move of the table. -/
def Moves {α : Type} (x : Comp (Kernel B) α) (T : Table B) : Prop := Ends x (fun _ T' => ∃ op, Table.Move op T T') T

theorem moves_of_still {α : Type} {x : Comp (Kernel B) α} (h : Still x T) : Moves x T :=
  h.mono fun _ _ hT => ⟨.yield, hT ▸ .same _ _⟩

theorem still_currentTask : Still Kernel.currentTask T := ends_currentTask fun _ _ => rfl

theorem moves_bind {α β : Type} {x : Comp (Kernel B) α} {f : α → Comp (Kernel B) β} (hx : Still x T)
    (hf : ∀ a, Moves (f a) T) : Moves (x >>= f) T :=
  ends_bind (hx.mono fun a T' hT => by
    subst hT
    exact hf a)

theorem Moves.bind_pure {α β : Type} {x : Comp (Kernel B) α} (hx : Moves x T) (f : α → β) :
    Moves (x >>= fun a => pure (f a)) T :=
  ends_bind (hx.mono fun _ _ h => ends_pure h)

theorem moves_ite {α : Type} {c : Prop} [Decidable c] {x y : Comp (Kernel B) α} (hx : Moves x T) (hy : Moves y T) :
    Moves (if c then x else y) T := by
  split
  · exact hx
  · exact hy

theorem still_currentUserToken : Still (currentUserToken : Code B Unit).erase T := by
  simp only [currentUserToken, erase_bind, erase_currentTask, erase_access]
  exact still_currentTask.bind fun _ => still_pure _

theorem still_store (mem : Mem) : Still (store mem : Code B Unit).erase T := by
  rw [store, erase_comp]
  exact still_onPhys _

theorem still_onInode (path : List Char) (input : Input) : Still (onInode path input : Code B Unit).erase T := by
  simp only [onInode, erase_during, erase_bind, erase_blockIo]
  exact (still_pure _).bind fun _ => still_store _

theorem moves_suspend : Moves (suspendCurrentAndRunNext : Code B Unit).erase T := by
  rw [erase_suspendCurrentAndRunNext]
  exact ends_suspend.mono fun _ _ hm => ⟨_, hm⟩

theorem moves_readStdin (input : Input) : Moves (readStdin input : Code B Unit).erase T := by
  simp only [readStdin, erase_ite, erase_bind, erase_currentAddSignal]
  refine moves_ite moves_suspend (moves_ite ?_ (moves_of_still (still_store _)))
  exact moves_of_still ((still_currentAddSignal _).bind fun _ => still_store _)

theorem moves_pipeRound (pipe : Nat) (input : Input) : Moves (pipeRound pipe input : Code B Unit).erase T := by
  simp only [pipeRound, erase_during, erase_bind, erase_ite, erase_pure]
  exact moves_bind (still_store _) fun _ => moves_ite moves_suspend (moves_of_still (still_pure _))

theorem moves_read (file : File) (input : Input) : Moves (read file input : Code B Unit).erase T := by
  cases file with
  | stdin => exact moves_readStdin input
  | stdout => exact moves_of_still (still_pure _)
  | inode path _ _ => exact moves_of_still (still_onInode path input)
  | pipeRead pipe => exact moves_pipeRound pipe input
  | pipeWrite _ => exact moves_of_still (still_pure _)

theorem moves_write (file : File) (input : Input) : Moves (write file input : Code B Unit).erase T := by
  cases file with
  | stdin => exact moves_of_still (still_pure _)
  | stdout => exact moves_of_still (still_pure _)
  | inode path _ _ => exact moves_of_still (still_onInode path input)
  | pipeRead _ => exact moves_of_still (still_pure _)
  | pipeWrite pipe => exact moves_pipeRound pipe input

theorem still_fstat (file : File) (input : Input) : Still (fstat file input : Code B Unit).erase T := by
  cases file with
  | inode path _ _ => exact still_onInode path input
  | stdin => exact still_pure _
  | stdout => exact still_pure _
  | pipeRead _ => exact still_pure _
  | pipeWrite _ => exact still_pure _

theorem moves_onFile {f : File → Input → Code B Unit} (hf : ∀ file input, Moves (f file input).erase T)
    (file : Option File) (ok : File → Bool) (input : Input) : Moves (onFile file ok f input).erase T := by
  simp only [onFile, erase_bind, erase_currentTask, erase_userToken, erase_access, Comp.pure_bind]
  refine moves_bind still_currentTask fun _ => ?_
  cases file with
  | none => exact moves_of_still (still_pure _)
  | some file =>
    rw [erase_ite]
    exact moves_ite (hf file input) (moves_of_still (still_pure _))

theorem still_sysFstat (file : Option File) (input : Input) : Still (sysFstat file input : Code B Unit).erase T := by
  simp only [sysFstat, erase_bind, erase_currentTask, erase_userToken, erase_access, erase_during, Comp.pure_bind]
  refine still_currentTask.bind fun _ => ?_
  cases file with
  | none => exact still_pure _
  | some file => exact still_fstat file input

theorem still_onCurrent_read {α : Type} (f : TaskControlBlock → α) :
    Still (onCurrent fun _ t => pure (f t) : Code B α).erase T := by
  rw [erase_onCurrent]
  exact still_currentTask.bind fun _ => Still.bind (ends_task fun _ _ => rfl) fun _ => still_pure _

theorem moves_checkSignalsError {i : Nat} (h : T.Ok i) : Moves (checkSignalsError : Code B Unit).erase T := by
  rw [checkSignalsError, erase_bind]
  refine moves_bind (still_onCurrent_read fun t => SignalFlags.checkError t.signals) fun r => ?_
  cases r with
  | none => exact moves_of_still (still_pure _)
  | some r =>
    rw [erase_exitCurrentAndRunNext]
    exact (ends_exit h _).mono fun _ _ hm => ⟨_, hm⟩

theorem moves_step {i : Nat} (h : T.Ok i) (op : CodeOp) : Moves (step I op : Code B Unit).erase T := by
  cases op with
  | kernel op path =>
    rw [step, erase_bind, erase_kernelStep]
    exact Moves.bind_pure ((ends_step I h op).mono fun _ _ hm => ⟨op, hm⟩) _
  | trapCx => exact moves_of_still still_currentUserToken
  | frozenOrKilled =>
    rw [step, erase_bind]
    exact moves_of_still ((still_onCurrent_read fun t => (t.frozen, t.killed)).bind fun _ => still_pure _)
  | checkSignalsError => exact moves_checkSignalsError h
  | trapReturn => exact moves_of_still still_currentUserToken
  | execNotFound =>
    rw [step, sysExecNotFound, erase_bind, erase_blockIo]
    exact moves_of_still (still_currentUserToken.bind fun _ => still_pure _)
  | read file input => exact moves_onFile moves_read file _ input
  | write file input => exact moves_onFile moves_write file _ input
  | resumeRead file input => exact moves_read file input
  | resumeWrite file input => exact moves_write file input
  | fstat file input => exact moves_of_still (still_sysFstat file input)
  | closeOrDup =>
    rw [step, onFdTable, erase_bind, erase_currentTask]
    exact moves_of_still (still_currentTask.bind fun _ => still_pure _)
  | openFile =>
    simp only [step, sysOpen, erase_bind, erase_currentTask, erase_userToken, erase_blockIo, Comp.pure_bind]
    exact moves_of_still (still_currentTask.bind fun _ => still_pure _)
  | pipe pipe input =>
    simp only [step, sysPipe, erase_bind, erase_currentTask, erase_userToken, erase_during, erase_access, Comp.pure_bind]
    exact moves_of_still (still_currentTask.bind fun _ => still_store _)
  | linkOrUnlink =>
    rw [step, onRootInode, erase_bind, erase_blockIo]
    exact moves_of_still (still_currentUserToken.bind fun _ => still_pure _)
  | getTime input =>
    rw [step, sysGetTime, erase_bind]
    exact moves_of_still (still_currentUserToken.bind fun _ => still_store _)
  | getpid =>
    rw [step, sysGetpid, erase_bind, erase_currentTask]
    exact moves_of_still (still_currentTask.bind fun _ => still_pure _)

end Leaves

/-! ## The exit of `INITPROC` -/

/-- The cell of `INITPROC` is taken while it is held. -/
theorem exit_initproc {i : Nat} (h : k.table.TreeOk i) (hcur : k.current = k.initproc) (exitCode : Int32) :
    ¬(exitCurrentAndRunNext exitCode : Code B Unit).Safe (fun _ _ _ => True) [] k := by
  intro hs
  have hinit : k.initproc = some i := h.init.1
  obtain ⟨e, he, -⟩ := h.init.2
  obtain ⟨t, ht, -⟩ := exists_task he
  simp only [exitCurrentAndRunNext, takeCurrentTask, during, safe_bind, safe_take, safe_comp, safe_release, safe_pure,
    Kernel.takeCurrentTask, Kernel.currentTask, Kernel.task, Comp.wlp_bind, Comp.wlp_get, Comp.wlp_unwrap,
    Comp.wlp_modify, Comp.wlp_pure] at hs
  have htake := hs.2 i (hcur.trans hinit)
  have htwice := (htake.2 t ht i hinit).1
  exact htwice (by simp)

theorem step_initproc {i : Nat} (h : k.table.TreeOk i) (op : CodeOp) (hexit : ExitsInitproc k op) :
    ¬(step I op : Code B Unit).Safe (fun _ _ _ => True) [] k := by
  intro hs
  cases op with
  | kernel op path =>
    cases op with
    | exit exitCode =>
      rw [step, safe_bind, kernelStep, safe_bind] at hs
      exact exit_initproc h hexit exitCode (hs.mono fun _ _ _ _ => trivial)
    | _ => exact hexit
  | checkSignalsError =>
    obtain ⟨hcur, a, t, ha, ht, herror⟩ := hexit
    obtain ⟨r, hr⟩ := Option.ne_none_iff_exists'.mp herror
    simp only [step, checkSignalsError, onCurrent, currentTask, during, safe_bind, safe_take, safe_comp, safe_release,
      safe_pure, Kernel.currentTask, Kernel.task, Comp.wlp_bind, Comp.wlp_get, Comp.wlp_unwrap, Comp.wlp_pure] at hs
    have hmatch := (hs.2 a ha).2 t ht
    rw [hr] at hmatch
    exact exit_initproc h hcur _ (by simpa using hmatch)
  | _ => exact hexit

/-! ## Every run -/

/-- Between two steps no cell is held, and the invariants of the kernel hold. -/
structure Settled (held : List Cell) (k : Kernel B) : Prop where
  held : held = []
  ok : k.table.Ok 0
  selfless : Selfless k.table

theorem Settled.safe_iff {held : List Cell} (h : Settled held k) (op : CodeOp) :
    (step I op : Code B Unit).Safe (fun _ _ _ => True) held k ↔ ¬ExitsInitproc k op := by
  obtain ⟨rfl, hok, hself⟩ := h
  constructor
  · exact fun hs hexit => step_initproc hok.tree op hexit hs
  · exact fun hexit => (within_step hok hself op hexit [] fun c hc => absurd hc List.not_mem_nil).mono
      fun _ _ _ _ => trivial

theorem Settled.step {held held' : List Cell} (h : Settled held k) (op : CodeOp)
    (hrun : (Code.step I op).run held k = .returned () held' k') : Settled held' k' := by
  have hsafe : (Code.step I op : Code B Unit).Safe (fun _ _ _ => True) held k :=
    not_borrowMutError_iff.mp fun c hc => by
      rw [hrun] at hc
      cases hc
  have hexit := (h.safe_iff op).mp hsafe
  have herase := run_erase hrun
  obtain ⟨rfl, hok, hself⟩ := h
  obtain ⟨op', hm⟩ := moves_step (I := I) hok op k rfl () k' herase
  have hwithin := within_step (I := I) hok hself op hexit
  refine ⟨?_, hm.ok hok, hself.move hok hm⟩
  rcases hwithin.run (fun c hc => absurd hc List.not_mem_nil) with ⟨_, _, hret, _⟩ | ⟨hpanic, _⟩
  · rw [hret] at hrun
    cases hrun
    rfl
  · rw [hpanic] at hrun
    cases hrun

theorem Reached.settled {held : List Cell} (hk : Reached I held k) : Settled held k := by
  induction hk with
  | boot h =>
    refine ⟨rfl, ?_, ?_⟩
    · rw [boot_table h]
      exact ok_start B
    · rw [boot_table h]
      intro a e he hmem
      rcases Table.put_some he with ⟨-, rfl⟩ | ⟨-, hnone⟩
      · cases hmem
      · cases hnone
  | step op _ h ih => exact ih.step op h

/-- The kernel without handles does not go on after `INITPROC` exits. -/
theorem exit_stops (hcur : k.current = k.initproc) (exitCode : Int32) :
    (Kernel.exitCurrentAndRunNext exitCode).wlp (fun _ _ => False) k := by
  simp only [Kernel.exitCurrentAndRunNext, Kernel.takeCurrentTask, Kernel.currentTask, Kernel.task, Comp.wlp_bind,
    Comp.wlp_get, Comp.wlp_unwrap, Comp.wlp_modify, Comp.wlp_pure, Comp.wlp_assert]
  intro a ha t _ init hinit hne
  exact absurd (Option.some.inj (hinit.symm.trans (hcur.symm.trans ha))) hne

/-- The states of the kernel without handles are reached. -/
theorem reached_of_kernel {ok : Kernel B → Op → Prop} (hk : Kernel.Reached I ok k) : Reached I [] k := by
  induction hk with
  | boot h => exact .boot h
  | @step k k' r op _ _ h ih =>
    have hexit : ¬ExitsInitproc k (.kernel op []) := by
      intro hexit
      cases op with
      | exit exitCode =>
        obtain ⟨⟨_, s'⟩, hrun, -⟩ := Option.bind_eq_some_iff.mp h
        exact exit_stops hexit exitCode _ s' hrun
      | _ => exact hexit
    have hset := ih.settled
    have herase : (Code.step I (.kernel op []) : Code B Unit).erase.run k = some ((), k') := by
      rw [Code.step, erase_bind, erase_kernelStep, Comp.run_bind, h]
      rfl
    rcases (within_step (I := I) hset.ok hset.selfless _ hexit).run (fun c hc => absurd hc List.not_mem_nil)
      with ⟨_, s', hrun, hdone⟩ | ⟨-, hnone⟩
    · rw [herase] at hdone
      cases hdone
      exact ih.step (.kernel op []) hrun
    · rw [herase] at hnone
      cases hnone

/-- **A cell is borrowed twice exactly if `INITPROC` exits**, in every run of system calls, traps, exits and
rounds of the scheduler. -/
theorem never_borrowed_twice_iff {held : List Cell} (hk : Reached I held k) (op : CodeOp) :
    (∀ c, (step I op).run held k ≠ .borrowMutError c) ↔ ¬ExitsInitproc k op := by
  rw [not_borrowMutError_iff]
  exact hk.settled.safe_iff op

/-- While `INITPROC` is alone. -/
theorem never_borrowed_twice_alone : ∃ k : Kernel listHeap, Reached fourMegabytes [] k ∧
    ((∀ c, (step fourMegabytes (.kernel .fork [])).run [] k ≠ .borrowMutError c) ↔
      ¬ExitsInitproc k (.kernel .fork [])) := by
  obtain ⟨k, a, t, hk, -, -⟩ := exists_alone (fun _ _ => True) fun _ _ => trivial
  exact ⟨k, reached_of_kernel hk, never_borrowed_twice_iff (reached_of_kernel hk) _⟩

/-- `INITPROC` calls `sys_exit`. -/
theorem initproc_borrowed_twice : ∃ (k : Kernel listHeap) (c : Cell), Reached fourMegabytes [] k ∧
    (step fourMegabytes (.kernel (.exit 0) [])).run [] k = .borrowMutError c := by
  obtain ⟨k, a, t, hk, -, halone⟩ := exists_alone (fun _ _ => True) fun _ _ => trivial
  have hreached := reached_of_kernel hk
  have hexit : ExitsInitproc k (.kernel (.exit 0) []) := halone.current.trans halone.initproc.symm
  have hunsafe : ¬(step fourMegabytes (.kernel (.exit 0) []) : Code listHeap Unit).Safe (fun _ _ _ => True) [] k :=
    step_initproc hreached.settled.ok.tree _ hexit
  by_contra hnone
  exact hunsafe (not_borrowMutError_iff.mp fun c hc => hnone ⟨k, c, hreached, hc⟩)

end RCore.Task.Code
