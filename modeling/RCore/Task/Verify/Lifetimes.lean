import RCore.Task.Verify.Scheduling
import RCore.Task.Verify.Stacks

/-!
# The lifetimes of tasks

Runs in which tasks come and go in any order. No two tasks ever have a pid or a page of a stack in common, and whoever
asks for a pid, a stack or their end gets it.
-/

namespace RCore.Task

open RCore Mm

namespace Kernel

variable {B : BinaryHeap} {I : Image} {k k' : Kernel B} {a : Nat} {t u : TaskControlBlock}

/-! ## Runs -/

/-- What the rest of the kernel does: the pids, the stacks and the kernel's address space stay. -/
structure Elsewhere (I : Image) (k k' : Kernel B) : Prop where
  memory : MemOk I false [] [] k'
  starved : k'.phys.starved = false
  kernelSpace : k'.kernelSpace = k.kernelSpace
  pidAllocator : k'.pidAllocator = k.pidAllocator
  next : k'.next = k.next
  tasks : ∀ a, (k'.tasks a).map (fun t => (t.pid, t.kernelStack)) = (k.tasks a).map fun t => (t.pid, t.kernelStack)

/-- The states after a start and any number of creations and drops of tasks, in any order, with anything else between
them. A fork is of a task that has not exited. -/
inductive TaskRun (I : Image) : Kernel B → Prop
  | start {k : Kernel B} {mem : Mem} {dmaCalls : List Nat} {s : Phys}
      (hinit : initMemory I mem = some (k.kernelSpace, s))
      (hdma : (virtioDmaAlloc dmaCalls).run s = some (k.queueFrames, k.phys)) (hpids : k.pidAllocator = ⟨0, []⟩)
      (htasks : k.tasks = fun _ => none) (hnext : k.next = 0) (hstarved : k.phys.starved = false) : TaskRun I k
  | new {k k' : Kernel B} {a : Nat} (elf : ElfFile) (sstatus : Nat) (hk : TaskRun I k)
      (hrun : (new I elf sstatus).run k = some (a, k')) (hplain : Plain k') : TaskRun I k'
  | fork {k k' : Kernel B} {a c : Nat} {t : TaskControlBlock} (hk : TaskRun I k) (ht : k.tasks a = some t)
      (hl : t.taskStatus ≠ .zombie) (hrun : (fork I a).run k = some (c, k')) (hplain : Plain k') : TaskRun I k'
  | drop {k k' : Kernel B} {a : Nat} (hk : TaskRun I k) (hrun : (dropTask a).run k = some ((), k')) : TaskRun I k'
  | elsewhere {k k' : Kernel B} (hk : TaskRun I k) (h : Elsewhere I k k') : TaskRun I k'

/-- What holds in all of them. -/
structure Steady (I : Image) (k : Kernel B) : Prop where
  memory : MemOk I false [] [] k
  kernelStacks : StacksOk [] k
  plain : Plain k

namespace Steady

theorem start {mem : Mem} {dmaCalls : List Nat} {s : Phys} (hinit : initMemory I mem = some (k.kernelSpace, s))
    (hdma : (virtioDmaAlloc dmaCalls).run s = some (k.queueFrames, k.phys)) (hpids : k.pidAllocator = ⟨0, []⟩)
    (htasks : k.tasks = fun _ => none) (hnext : k.next = 0) (hstarved : k.phys.starved = false) : Steady I k := by
  have hnil : pids k = [] := by
    rw [pids, overTasks, hnext]
    rfl
  refine ⟨(memOk_init hinit hdma htasks hnext).resolve_left (by rw [hstarved]; decide), ⟨?_, ?_, ?_⟩, hstarved, ?_⟩
  · rw [hnil, hpids]
    exact ⟨List.nodup_nil, fun _ hx => absurd hx List.not_mem_nil⟩
  · intro a t ht
    rw [htasks] at ht
    cases ht
  · rw [hnil]
    exact ⟨k.kernelSpace.ranges, newKernel_ranges _ _ _ _ hinit, by simp⟩
  · intro pid hpid
    rw [hpids] at hpid
    cases hpid

theorem elsewhere (h : Steady I k) (he : Elsewhere I k k') : Steady I k' := by
  have hids : pids k' = pids k := by
    rw [pids, pids, overTasks, overTasks, he.next]
    refine List.flatMap_congr fun b _ => ?_
    have := congrArg (Option.map fun p : Nat × Nat => [p.1]) (he.tasks b)
    rw [Option.map_map, Option.map_map] at this
    exact congrArg (fun o => o.getD []) this
  refine ⟨he.memory, h.kernelStacks.congr he.kernelSpace he.pidAllocator hids fun b u hu => ?_, he.starved, ?_⟩
  · have hb := he.tasks b
    rw [hu, Option.map_some, eq_comm, Option.map_eq_some_iff] at hb
    obtain ⟨t, ht, heq⟩ := hb
    obtain ⟨hpid, hstack⟩ := Prod.mk.injEq .. ▸ heq
    rw [← hstack, ← hpid]
    exact h.kernelStacks.stack b t ht
  · rw [he.pidAllocator]
    exact h.plain.fits

end Steady

theorem exists_task_of_dropTask (hrun : (dropTask a).run k = some ((), k')) : ∃ t, k.tasks a = some t := by
  have hwlp : (dropTask a).wlp (fun _ _ => ∃ t, k.tasks a = some t) k := by
    rw [dropTask, Comp.wlp_bind, wlp_task]
    exact fun t ht _ _ _ => ⟨t, ht⟩
  exact hwlp _ _ hrun

/-- **The invariant holds in every run.** -/
theorem TaskRun.steady (h : TaskRun I k) : Steady I k := by
  induction h with
  | start hinit hdma hpids htasks hnext hstarved => exact Steady.start hinit hdma hpids htasks hnext hstarved
  | new elf sstatus _ hrun hplain ih =>
    have hnot : ¬ _ = true := Bool.eq_false_iff.mp hplain.starved
    exact ⟨(new_mem ih.memory elf sstatus _ _ hrun).resolve_left hnot,
      (new_stacks ih.kernelStacks (ih.memory.fresh _ (Nat.le_refl _)) elf sstatus _ _ hrun).resolve_left hnot, hplain⟩
  | fork _ ht hl hrun hplain ih =>
    have hnot : ¬ _ = true := Bool.eq_false_iff.mp hplain.starved
    exact ⟨(fork_mem ih.memory ht hl _ _ hrun).1.resolve_left hnot,
      (fork_stacks ih.kernelStacks ih.memory.fresh _ _ _ hrun).resolve_left hnot, hplain⟩
  | drop _ hrun ih =>
    obtain ⟨t, ht⟩ := exists_task_of_dropTask hrun
    obtain ⟨hm, hs, hplain, _⟩ := (dropTask_ok ih.memory ih.kernelStacks ih.plain ht).wlp _ _ hrun
    exact ⟨hm, hs, hplain⟩
  | elsewhere _ he ih => exact ih.elsewhere he

/-! ## No clash -/

/-- Two stacks, with a page that is not mapped between them. -/
def Apart (k : Kernel B) (stack stack' : Nat) : Prop :=
  ∃ guard, k.kernelSpace.translate k.phys.mem guard = none ∧
    ((∀ v ∈ stackPages stack, v < guard) ∧ (∀ v ∈ stackPages stack', guard < v) ∨
      (∀ v ∈ stackPages stack', v < guard) ∧ ∀ v ∈ stackPages stack, guard < v)

/-- The pids and the stacks of the tasks, which do not clash. -/
structure NoClash (k : Kernel B) : Prop where
  pid : ∀ a b t u, k.tasks a = some t → k.tasks b = some u → a ≠ b → t.pid ≠ u.pid
  below : ∀ a t, k.tasks a = some t → (kernelStackPosition t.kernelStack).2 ≤ trampoline ∧
    ∀ v ∈ stackPages t.kernelStack, v < trampolineVpn
  mapped : ∀ a t, k.tasks a = some t →
    ∀ v ∈ stackPages t.kernelStack, k.kernelSpace.translate k.phys.mem v ≠ none
  apart : ∀ a b t u, k.tasks a = some t → k.tasks b = some u → a ≠ b → Apart k t.kernelStack u.kernelStack

namespace Steady

variable {v : Nat}

theorem fits (h : Steady I k) {pid : Nat} (hpid : pid ∈ pids k) : StackFits pid :=
  h.plain.fits pid (h.kernelStacks.ledger.lt_of_mem hpid)

theorem mem_pids (h : Steady I k) (ht : k.tasks a = some t) : t.pid ∈ pids k :=
  Kernel.mem_pids (h.memory.lt_next ht) ht

theorem mapped_iff (h : Steady I k) (hv : v < trampolineVpn) (hv' : 0x80800 ≤ v) :
    k.kernelSpace.translate k.phys.mem v ≠ none ↔ ∃ pid ∈ pids k, v ∈ stackPages pid :=
  h.kernelStacks.ranges.mapped_iff (fun _ hpid => h.fits hpid) h.memory.estate.goodKernel h.memory.estate.full hv hv'

theorem pid_ne (h : Steady I k) {b : Nat} (ht : k.tasks a = some t) (hu : k.tasks b = some u) (hab : a ≠ b) :
    t.pid ≠ u.pid := by
  have hperm : (pids k).Perm (t.pid :: overTasks (fun t => [t.pid]) (Function.update k.tasks a none) k.next) :=
    overTasks_task (h.memory.lt_next ht) ht
  have hmem := mem_overTasks (g := fun t : TaskControlBlock => [t.pid]) (h.memory.lt_next hu)
    ((Function.update_of_ne hab.symm none k.tasks).trans hu) List.mem_cons_self
  intro hc
  exact (List.nodup_cons.mp (hperm.nodup_iff.mp h.kernelStacks.ledger.nodup_held)).1 (hc ▸ hmem)

/-- The page below a stack is not mapped, and the stacks of greater pids lie below it. -/
theorem guard (h : Steady I k) {pid pid' : Nat} (hpid : pid ∈ pids k) (hpid' : pid' ∈ pids k) (hlt : pid < pid') :
    ∃ guard, k.kernelSpace.translate k.phys.mem guard = none ∧ (∀ v ∈ stackPages pid', v < guard) ∧
      ∀ v ∈ stackPages pid, guard < v := by
  have hle := (h.fits hpid).le
  have hle' := (h.fits hpid').le
  have htop : trampolineVpn = 2 ^ 27 - 1 := rfl
  refine ⟨trampolineVpn - 3 * pid - 3, ?_, fun v hv => ?_, fun v hv => ?_⟩
  · by_contra hmapped
    obtain ⟨q, hq, hin⟩ := (h.mapped_iff (by omega) (by omega)).mp hmapped
    have hleq := (h.fits hq).le
    rw [mem_stackPages (h.fits hq)] at hin
    omega
  · rw [mem_stackPages (h.fits hpid')] at hv
    omega
  · rw [mem_stackPages (h.fits hpid)] at hv
    omega

theorem apart (h : Steady I k) {pid pid' : Nat} (hpid : pid ∈ pids k) (hpid' : pid' ∈ pids k) (hne : pid ≠ pid') :
    Apart k pid pid' := by
  rcases Nat.lt_or_gt_of_ne hne with hlt | hlt
  · obtain ⟨g, hg, hbelow, habove⟩ := h.guard hpid hpid' hlt
    exact ⟨g, hg, .inr ⟨hbelow, habove⟩⟩
  · obtain ⟨g, hg, hbelow, habove⟩ := h.guard hpid' hpid hlt
    exact ⟨g, hg, .inl ⟨hbelow, habove⟩⟩

theorem noClash (h : Steady I k) : NoClash k where
  pid _ _ _ _ ht hu hab := h.pid_ne ht hu hab
  below a t ht := by
    have hfit := h.fits (h.mem_pids ht)
    rw [h.kernelStacks.stack a t ht]
    refine ⟨?_, fun v hv => (lt_of_mem_stackPages hfit hv).2⟩
    rw [kernelStackPosition_eq hfit, trampoline]
    omega
  mapped a t ht v hv := by
    have hpid := h.mem_pids ht
    rw [h.kernelStacks.stack a t ht] at hv
    obtain ⟨hle, hlt⟩ := lt_of_mem_stackPages (h.fits hpid) hv
    exact (h.mapped_iff hlt hle).mpr ⟨t.pid, hpid, hv⟩
  apart a b t u ht hu hab := by
    rw [h.kernelStacks.stack a t ht, h.kernelStacks.stack b u hu]
    exact h.apart (h.mem_pids ht) (h.mem_pids hu) (h.pid_ne ht hu hab)

end Steady

/-! ## The next stack -/

/-- The frames that the stack of a pid takes: those of its pages and of the tables that are missing. -/
def stackNeed (k : Kernel B) (pid : Nat) : Nat :=
  (stackPages pid).length + k.kernelSpace.pageTable.missing k.phys.mem (pathsOf (stackPages pid))

/-- The next pid and its stack can be had for these frames, and nothing else changes. -/
def StackReady (k : Kernel B) : Prop :=
  StackFits k.pidAllocator.alloc.1 → k.stackNeed k.pidAllocator.alloc.1 ≤ k.phys.frames.free →
    (do
      let pid ← pidAlloc
      newKernelStack pid).wp (fun stack k' => stack = k.pidAllocator.alloc.1 ∧ ∃ p ks,
        k' = { k with pidAllocator := k.pidAllocator.alloc.2, phys := p, kernelSpace := ks } ∧
        p.starved = k.phys.starved ∧ p.frames.free + k.stackNeed k.pidAllocator.alloc.1 = k.phys.frames.free) k

/-- **Nothing is in the way of the next stack**, whether its pid is new or recycled. -/
theorem stackReady {traps : Bool} {scraps : List Nat} {holdings : List Holding} (hm : MemOk I traps scraps holdings k)
    (h : StacksOk [] k) (hfits : ∀ pid < k.pidAllocator.current, StackFits pid) : StackReady k := by
  intro hfit hfree
  have hgood := hm.estate.goodKernel
  have hnot : k.pidAllocator.alloc.1 ∉ pids k := h.alloc_not_mem
  have hrange := stackRange_eq hfit
  have hle : (VirtAddr.ofUsize (kernelStackPosition k.pidAllocator.alloc.1).1).floor ≤
      (VirtAddr.ofUsize (kernelStackPosition k.pidAllocator.alloc.1).2).ceil := by
    have hl := congrArg Prod.fst hrange
    have hr := congrArg Prod.snd hrange
    simp only [stackRange, addressRange] at hl hr
    omega
  have hnone : ∀ v ∈ stackPages k.pidAllocator.alloc.1, k.kernelSpace.translate k.phys.mem v = none := by
    intro v hv
    obtain ⟨hlow, hhigh⟩ := lt_of_mem_stackPages hfit hv
    by_contra hmapped
    have hfits' : ∀ pid ∈ pids k, StackFits pid := fun pid hpid => hfits pid (h.ledger.lt_of_mem hpid)
    obtain ⟨pid, hpid, hin⟩ := (h.ranges.mapped_iff hfits' hgood hm.estate.full hhigh hlow).mp hmapped
    exact hnot (eq_of_mem_stackPages hfit (hfits' pid hpid) hv hin ▸ hpid)
  let area : MapArea := ⟨⟨_, _, hle⟩, [], .framed, PTEFlags.R ||| PTEFlags.W⟩
  have hneed : area.need k.phys.mem k.kernelSpace.pageTable area.vpnRange.toList =
      k.stackNeed k.pidAllocator.alloc.1 := by
    show 1 * (stackPages k.pidAllocator.alloc.1).length + _ = _
    rw [Nat.one_mul]
    rfl
  have hfresh : Fresh area := fresh_new hle .framed
  obtain ⟨es, p, pt, hes, hrun, hM⟩ := map_fresh_ok hgood.owns hfresh hnone (hneed ▸ hfree)
  simp only [newKernelStack, pidAlloc, Comp.wp_bind, Comp.wp_get, Comp.wp_modify, Comp.wp_pure, wp_onPhys,
    MemorySet.insertFramedArea, MapArea.new, VPNRange.wp_new]
  refine ⟨hle, (Comp.wp_of_run (push_run_none hrun) _).mpr ?_⟩
  simp only [Comp.wp_pure]
  refine ⟨trivial, p, _, rfl, hM.starved, ?_⟩
  have hleft := hM.free
  rw [← List.length_map Prod.fst, hes] at hleft
  rw [← hneed]
  exact hleft

/-! ## Two tasks -/

theorem stackNeed_le (k : Kernel B) {pid : Nat} (h : StackFits pid) : k.stackNeed pid ≤ 6 := by
  have hle := h.le
  have hrange := stackRange_eq h
  have hl := congrArg Prod.fst hrange
  have hr := congrArg Prod.snd hrange
  simp only [stackRange, addressRange] at hl hr
  have htop : trampolineVpn = 2 ^ 27 - 1 := rfl
  have hpages : stackPages pid = List.range' (trampolineVpn - 3 * pid - 2) 2 := by
    rw [stackPages, pagesBetween, hl, hr]
    congr 1
    omega
  have hpaths := card_pathsOf_range (trampolineVpn - 3 * pid - 2) 2
  have hmissing := Finset.card_filter_le (pathsOf (stackPages pid)) fun p =>
    k.kernelSpace.pageTable.table k.phys.mem p = none
  rw [← hpages] at hpaths
  rw [stackNeed, PageTable.missing]
  have hlen : (stackPages pid).length = 2 := by rw [hpages, List.length_range']
  omega

/-- A program of one page gets a task for 25 frames. -/
theorem Steady.new_ok (h : Steady I k) {code : List UInt8} (hcode : code.length ≤ 4096) (sstatus : Nat) {free : Nat}
    (hfree : free + 25 ≤ k.phys.frames.free) (hfit : StackFits k.pidAllocator.alloc.1) :
    (new I (onePage code) sstatus).wp (fun _ k' => ∃ t p ks, k' = { k with
      pidAllocator := k.pidAllocator.alloc.2
      phys := p
      kernelSpace := ks
      tasks := Function.update k.tasks k.next (some t)
      next := k.next + 1 } ∧ p.starved = false ∧ free ≤ p.frames.free) k := by
  obtain ⟨⟨ms, userSp, entry⟩, p, hrun, hsite⟩ := fromElf_ok h.memory.estate.held code hcode (free + 6) (by omega)
  obtain ⟨_, _, ppn, pte, hpte, _⟩ := fromElf_wlp h.memory.estate.held (onePage code) _ _ hrun
  have hready := (fromElf_mem h.memory (onePage code)).mono fun _ _ hr => hr.2.2
  rw [wlp_onPhys] at hready
  obtain ⟨_, hm⟩ := hready _ _ hrun
  have hneed := stackNeed_le { k with phys := p } hfit
  have hleft := hsite.free
  have hsix : 6 ≤ p.frames.free := by omega
  have hstack := stackReady hm (h.kernelStacks.onPhys p) h.plain.fits hfit (hneed.trans hsix)
  rw [Comp.wp_bind] at hstack
  rw [new]
  simp only [Comp.wp_bind, wp_onPhys]
  rw [Comp.wp_of_run hrun]
  simp only [trapCxPpnOf, Comp.wp_bind, Comp.wp_get, Comp.wp_unwrap, Comp.wp_pure, floor_trapContext]
  refine ⟨pte, hpte, hstack.mono fun pid k₁ h₁ => h₁.mono ?_⟩
  rintro stack _ ⟨_, p₁, ks, rfl, hst, hfree₁⟩
  simp only [storePhys, newTask, setTask, Comp.wp_bind, Comp.wp_get, Comp.wp_modify, Comp.wp_pure]
  refine ⟨_, _, ks, rfl, (hst.trans hsite.whole.keeps.starved).trans h.plain.starved, ?_⟩
  simp only at hfree₁ ⊢
  omega

theorem exists_two_tasks : ∃ (k : Kernel listHeap) (t u : TaskControlBlock),
    TaskRun fourMegabytes k ∧ k.tasks 0 = some t ∧ k.tasks 1 = some u := by
  obtain ⟨ks, s, hinit, hks, hfree, _⟩ := initMemory_ok fourMegabytes (by decide) fun _ => 0
  let k₀ : Kernel listHeap := {
    phys := s
    kernelSpace := ks
    queueFrames := []
    pidAllocator := ⟨0, []⟩
    tasks := fun _ => none
    next := 0
    readyQueue := []
    scheduler := listHeap.new
    current := none
    initproc := none }
  have hdma : (virtioDmaAlloc []).run s = some ([], s) := rfl
  have h₀ : TaskRun fourMegabytes k₀ := .start hinit hdma rfl rfl rfl hks.keeps.starved
  have hcode : [(0x73 : UInt8), 0, 0, 0].length ≤ 4096 := by decide
  have hfits : ∀ pid < 2, StackFits pid := by
    intro pid hpid
    have hend : memoryEnd / 4096 = 0x80800 := by decide
    unfold StackFits trampolineVpn
    omega
  have hfree₀ : 25 + 25 ≤ k₀.phys.frames.free := Nat.le_trans (by decide) hfree
  obtain ⟨_, _, hrun₁, t, p₁, ks₁, rfl, hst₁, hfree₁⟩ := h₀.steady.new_ok hcode 0 hfree₀ (hfits 0 (by decide))
  have h₁ := h₀.new _ _ hrun₁ ⟨hst₁, fun pid hpid => hfits pid (Nat.lt_succ_of_lt hpid)⟩
  have hfree₁' : 0 + 25 ≤ p₁.frames.free := by omega
  obtain ⟨_, _, hrun₂, u, p₂, ks₂, rfl, hst₂, _⟩ := h₁.steady.new_ok hcode 0 hfree₁' (hfits 1 (by decide))
  exact ⟨_, t, u, h₁.new _ _ hrun₂ ⟨hst₂, hfits⟩, rfl, rfl⟩

/-! ## The theorem -/

/-- **Pids and kernel stacks never clash.** In every run the pids of the tasks differ, their stacks are mapped, below the
trampoline and apart; the drop of a task unmaps its own stack and nothing else, and once there is an address space for
a new task, nothing but frames can be missing for its stack. -/
theorem stacks_never_clash (h : TaskRun I k) :
    NoClash k ∧
    (∀ a t, k.tasks a = some t → (dropTask a).wp (fun _ k' =>
      k'.tasks = Function.update k.tasks a none ∧ Unmapped t.kernelStack k k') k) ∧
    (∀ elf, (onPhys (MemorySet.fromElf I.toLayout elf)).wlp (fun _ k' => StackReady k') k) ∧
    (∀ a t, k.tasks a = some t → t.taskStatus ≠ .zombie →
      (onPhys (MemorySet.fromExistedUserspace I.toLayout t.memorySet)).wlp (fun _ k' => StackReady k') k) := by
  have hs := h.steady
  refine ⟨hs.noClash, fun a t ht => ?_, fun elf => ?_, fun a t ht hl => ?_⟩
  · exact (dropTask_ok hs.memory hs.kernelStacks hs.plain ht).mono fun _ _ h => h.2.2.2
  · refine (fromElf_mem hs.memory elf).mono ?_
    rintro _ _ ⟨_, ⟨p, rfl⟩, _, hm⟩
    exact stackReady hm (hs.kernelStacks.onPhys p) hs.plain.fits
  · refine (fromExistedUserspace_mem hs.memory ht hl).mono ?_
    rintro _ _ ⟨p, rfl, _, _, hm⟩
    exact stackReady hm (hs.kernelStacks.onPhys p) hs.plain.fits

theorem stacks_never_clash_two : ∃ (k : Kernel listHeap) (t u : TaskControlBlock), TaskRun fourMegabytes k ∧
    k.tasks 0 = some t ∧ k.tasks 1 = some u ∧ Apart k t.kernelStack u.kernelStack := by
  obtain ⟨k, t, u, hk, ht, hu⟩ := exists_two_tasks
  exact ⟨k, t, u, hk, ht, hu, (stacks_never_clash hk).1.apart 0 1 t u ht hu (by decide)⟩

end Kernel

end RCore.Task
