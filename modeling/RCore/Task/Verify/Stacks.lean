import RCore.Lib.Ledger
import RCore.Mm.Verify.Ranges
import RCore.Task.Verify.Boot
import RCore.Task.Verify.Spawn

/-!
# Pids and kernel stacks

The pid allocator is a ledger, and the kernel's address space has a range for the stack of every pid that is out: `StacksOk`.
A stack is two pages and leaves a third, so the ranges of different pids lie apart.
-/

namespace RCore.Task

open RCore Mm

namespace Kernel

variable {B : BinaryHeap} {I : Image} {traps : Bool} {k k' : Kernel B} {a b : Nat} {t u : TaskControlBlock}

/-! ## Where the stacks are -/

/-- The range of a kernel stack. -/
def stackRange (stack : Nat) : Nat × Nat := addressRange (kernelStackPosition stack).1 (kernelStackPosition stack).2

/-- The pages of a kernel stack. -/
def stackPages (stack : Nat) : List Nat :=
  pagesBetween (VirtAddr.ofUsize (kernelStackPosition stack).1) (VirtAddr.ofUsize (kernelStackPosition stack).2)

/-- The stack of a pid lies above the memory that the kernel maps identically. -/
def StackFits (pid : Nat) : Prop := memoryEnd / 4096 + 3 * pid + 2 ≤ trampolineVpn

theorem StackFits.le {pid : Nat} (h : StackFits pid) : 0x80800 + 3 * pid + 2 ≤ 2 ^ 27 - 1 := h

theorem kernelStackPosition_eq {pid : Nat} (h : StackFits pid) :
    kernelStackPosition pid = (2 ^ 64 - 4096 - 12288 * pid - 8192, 2 ^ 64 - 4096 - 12288 * pid) := by
  have hle := h.le
  simp only [kernelStackPosition, usizeSub, usizeMul, trampoline]
  refine Prod.ext ?_ ?_
  · simp only
    omega
  · simp only
    omega

theorem stackRange_eq {pid : Nat} (h : StackFits pid) :
    stackRange pid = (trampolineVpn - 3 * pid - 2, trampolineVpn - 3 * pid) := by
  have hle := h.le
  rw [stackRange, addressRange, kernelStackPosition_eq h, VirtAddr.ceil_eq]
  simp only [VirtAddr.floor, VirtAddr.ofUsize, trampolineVpn]
  refine Prod.ext ?_ ?_
  · simp only
    omega
  · simp only
    omega

theorem mem_stackPages {pid v : Nat} (h : StackFits pid) :
    v ∈ stackPages pid ↔ trampolineVpn - 3 * pid - 2 ≤ v ∧ v < trampolineVpn - 3 * pid := by
  have hrange : stackRange pid = _ := stackRange_eq h
  have hl : (VirtAddr.ofUsize (kernelStackPosition pid).1).floor = trampolineVpn - 3 * pid - 2 := congrArg Prod.fst hrange
  have hr : (VirtAddr.ofUsize (kernelStackPosition pid).2).ceil = trampolineVpn - 3 * pid := congrArg Prod.snd hrange
  rw [stackPages, pagesBetween, hl, hr, List.mem_range'_1]
  omega

/-- Stacks of different pids have no page in common. -/
theorem eq_of_mem_stackPages {pid pid' v : Nat} (h : StackFits pid) (h' : StackFits pid') (hv : v ∈ stackPages pid)
    (hv' : v ∈ stackPages pid') : pid = pid' := by
  have hle := h.le
  have hle' := h'.le
  rw [mem_stackPages h] at hv
  rw [mem_stackPages h'] at hv'
  unfold trampolineVpn at hv hv'
  omega

theorem lt_of_mem_stackPages {pid v : Nat} (h : StackFits pid) (hv : v ∈ stackPages pid) :
    0x80800 ≤ v ∧ v < trampolineVpn := by
  have hle := h.le
  rw [mem_stackPages h] at hv
  unfold trampolineVpn at hv ⊢
  omega

theorem mem_stackRange {pid v : Nat} (h : StackFits pid) :
    (stackRange pid).1 ≤ v ∧ v < (stackRange pid).2 ↔ v ∈ stackPages pid := by
  rw [stackRange_eq h, mem_stackPages h]

/-! ## The ranges of the kernel -/

/-- The ranges of the kernel's address space are those of the identity-mapped memory and of the stacks of `ids`. -/
def StackRanges (ids : List Nat) (ks : MemorySet) : Prop :=
  ∃ base, (∀ p ∈ base, p.2 ≤ 0x80800) ∧ ks.ranges.Perm (base ++ ids.map stackRange)

section StackRanges

variable {ids ids' rest : List Nat} {pid : Nat} {ks ks' : MemorySet} {s s' : Phys} {L : Layout}

theorem StackRanges.perm (h : StackRanges ids ks) (hp : ids.Perm ids') : StackRanges ids' ks := by
  obtain ⟨base, hbase, hperm⟩ := h
  exact ⟨base, hbase, hperm.trans ((hp.map _).append_left base)⟩

/-- A range of a memory set starts before it ends. -/
theorem ranges_le {p : Nat × Nat} (hp : p ∈ ks.ranges) : p.1 ≤ p.2 := by
  obtain ⟨area, -, rfl⟩ := List.mem_map.mp hp
  exact area.vpnRange.le

theorem StackRanges.push (h : StackRanges ids ks) (hks : ks'.ranges = ks.ranges ++ [stackRange pid]) :
    StackRanges (pid :: ids) ks' := by
  obtain ⟨base, hbase, hperm⟩ := h
  refine ⟨base, hbase, ?_⟩
  rw [hks]
  exact ((hperm.append_right _).trans (List.perm_append_singleton _ _)).trans List.perm_middle.symm

/-- **The stack is found** by its first page, and goes away alone. -/
theorem StackRanges.erase (h : StackRanges (pid :: ids) ks) (hfits : ∀ p ∈ pid :: ids, StackFits p)
    (hks : ks'.ranges = match ks.ranges.findIdx? (fun p => p.1 = (stackRange pid).1) with
      | none => ks.ranges
      | some idx => ks.ranges.eraseIdx idx) :
    StackRanges ids ks' ∧ ks.ranges.Perm (stackRange pid :: ks'.ranges) := by
  obtain ⟨base, hbase, hperm⟩ := h
  have hfit := hfits pid List.mem_cons_self
  have hle := hfit.le
  have hmem : stackRange pid ∈ ks.ranges :=
    hperm.symm.subset (List.mem_append_right _ (List.mem_map_of_mem List.mem_cons_self))
  -- only the range of the stack starts there
  have honly : ∀ p ∈ ks.ranges, p.1 = (stackRange pid).1 → p = stackRange pid := by
    intro p hp hl
    rcases List.mem_append.mp (hperm.subset hp) with hp' | hp'
    · have hend := hbase p hp'
      have hp₁ := ranges_le hp
      rw [hl, stackRange_eq hfit] at hp₁
      unfold trampolineVpn at hp₁
      omega
    · obtain ⟨pid', hpid', rfl⟩ := List.mem_map.mp hp'
      have hfit' := hfits pid' hpid'
      have hle' := hfit'.le
      rw [stackRange_eq hfit, stackRange_eq hfit'] at hl
      unfold trampolineVpn at hl
      have hpids : pid' = pid := by omega
      rw [hpids]
  obtain ⟨i, hi⟩ := findIdx?_of_mem (p := fun p => decide (p.1 = (stackRange pid).1)) ⟨_, hmem, decide_eq_true rfl⟩
  obtain ⟨pre, p, post, hsplit, hlen, hp⟩ := findIdx?_split hi
  have hpr : p = stackRange pid := honly p (by rw [hsplit]; simp) (of_decide_eq_true hp)
  have herase : ks'.ranges = pre ++ post := by
    rw [hks, hi, hsplit, ← hlen]
    simp only
    rw [List.eraseIdx_append_of_length_le (Nat.le_refl _), Nat.sub_self, List.eraseIdx_cons_zero]
  have hall : ks.ranges.Perm (stackRange pid :: ks'.ranges) := by
    rw [herase, hsplit, hpr]
    exact List.perm_middle
  exact ⟨⟨base, hbase, ((hall.symm.trans hperm).trans List.perm_middle).cons_inv⟩, hall⟩

/-- The pages above the identity-mapped memory that are mapped are those of the stacks. -/
theorem StackRanges.mapped_iff (h : StackRanges ids ks) (hfits : ∀ pid ∈ ids, StackFits pid) (hg : Good L rest s ks)
    (hfull : ks.Full) {v : Nat} (hv : v < trampolineVpn) (hv' : 0x80800 ≤ v) :
    ks.translate s.mem v ≠ none ↔ ∃ pid ∈ ids, v ∈ stackPages pid := by
  obtain ⟨base, hbase, hperm⟩ := h
  have hlt : v < 2 ^ 27 := Nat.lt_trans hv (by decide)
  rw [hg.mapped_iff hfull hlt]
  constructor
  · rintro (hc | ⟨p, hp, hin⟩)
    · omega
    · rcases List.mem_append.mp (hperm.subset hp) with hp | hp
      · have := hbase p hp
        omega
      · obtain ⟨pid, hpid, rfl⟩ := List.mem_map.mp hp
        exact ⟨pid, hpid, (mem_stackRange (hfits pid hpid)).mp hin⟩
  · rintro ⟨pid, hpid, hin⟩
    refine .inr ⟨stackRange pid, ?_, (mem_stackRange (hfits pid hpid)).mpr hin⟩
    exact hperm.symm.subset (List.mem_append_right _ (List.mem_map_of_mem hpid))

end StackRanges

/-! ## The invariant -/

/-- The pids of the tasks. -/
def pids (k : Kernel B) : List Nat := overTasks (fun t => [t.pid]) k.tasks k.next

/-- **The invariant of pids and kernel stacks**; `mine` are the pids in local variables, with their stacks. -/
structure StacksOk (mine : List Nat) (k : Kernel B) : Prop where
  ledger : Ledger 0 k.pidAllocator.current k.pidAllocator.recycled (mine ++ pids k)
  stack : ∀ a t, k.tasks a = some t → t.kernelStack = t.pid
  ranges : StackRanges (mine ++ pids k) k.kernelSpace

/-- The pids so far are small enough, and no frame has been asked for in vain. -/
structure Plain (k : Kernel B) : Prop where
  starved : k.phys.starved = false
  fits : ∀ pid < k.pidAllocator.current, StackFits pid

variable {mine scraps : List Nat} {holdings : List Holding}

theorem mem_pids (hn : a < k.next) (ht : k.tasks a = some t) : t.pid ∈ pids k :=
  mem_overTasks hn ht List.mem_cons_self

namespace StacksOk

/-- The invariant is about the ranges, the allocator and the pids. -/
theorem congr (h : StacksOk mine k) (hks : k'.kernelSpace = k.kernelSpace) (hp : k'.pidAllocator = k.pidAllocator)
    (hids : pids k' = pids k) (hs : ∀ a t, k'.tasks a = some t → t.kernelStack = t.pid) : StacksOk mine k' := by
  refine ⟨?_, hs, ?_⟩
  · rw [hp, hids]
    exact h.ledger
  · rw [hks, hids]
    exact h.ranges

theorem onPhys (h : StacksOk mine k) (p : Phys) : StacksOk mine { k with phys := p } := h.congr rfl rfl rfl h.stack

/-- The pid that comes next. -/
theorem alloc (h : Ledger 0 k.pidAllocator.current k.pidAllocator.recycled (pids k)) :
    Ledger 0 k.pidAllocator.alloc.2.current k.pidAllocator.alloc.2.recycled (k.pidAllocator.alloc.1 :: pids k) := by
  rw [PidAllocator.alloc]
  cases hrec : k.pidAllocator.recycled with
  | nil => exact (hrec ▸ h).bump (Nat.zero_le _)
  | cons pid rest => exact (hrec ▸ h).reuse

theorem alloc_not_mem (h : StacksOk [] k) : k.pidAllocator.alloc.1 ∉ pids k :=
  (List.nodup_cons.mp (alloc h.ledger).nodup_held).1

/-- **A pid and its stack** come into being together. -/
theorem newKernelStack (h : StacksOk [] k) :
    (newKernelStack k.pidAllocator.alloc.1).wlp (fun stack k' => k'.phys.starved = true ∨
      stack = k.pidAllocator.alloc.1 ∧ StacksOk [stack] k' ∧ ∃ p ks, k' = { k with
        pidAllocator := k.pidAllocator.alloc.2, phys := p, kernelSpace := ks })
      { k with pidAllocator := k.pidAllocator.alloc.2 } := by
  rw [Kernel.newKernelStack]
  simp only [Comp.wlp_bind, Comp.wlp_get, wlp_onPhys, MemorySet.insertFramedArea, MapArea.new, VPNRange.wlp_new,
    Comp.wlp_pure]
  intro hle
  refine (push_ranges k.kernelSpace _ none k.phys).mono ?_
  rintro ⟨r, ks⟩ p hr
  simp only [Comp.wlp_modify]
  cases r with
  | error =>
    simp only [Comp.wlp_pure]
    exact .inl hr.1
  | ok =>
    simp only [Comp.wlp_pure]
    exact .inr ⟨trivial, ⟨alloc h.ledger, h.stack, h.ranges.push hr⟩, p, ks, rfl⟩

/-- A new task takes over the pid and the stack of a local variable. -/
theorem newTask {pid : Nat} (h : StacksOk [pid] k) (hnone : k.tasks k.next = none) (hp : t.pid = pid)
    (hs : t.kernelStack = pid) : (newTask t).wlp (fun _ k' => StacksOk [] k') k := by
  rw [wlp_newTask]
  have hperm : (pids { k with tasks := Function.update k.tasks k.next (some t), next := k.next + 1 }).Perm
      ([pid] ++ pids k) := hp ▸ overTasks_new hnone
  refine ⟨h.ledger.perm hperm.symm, fun b u hu => ?_, h.ranges.perm hperm.symm⟩
  have hu' : Function.update k.tasks k.next (some t) b = some u := hu
  by_cases hb : b = k.next
  · rw [hb, Function.update_self] at hu'
    cases hu'
    rw [hs, hp]
  · rw [Function.update_of_ne hb] at hu'
    exact h.stack b u hu'

/-- A task changes in something else. -/
theorem setTask (h : StacksOk mine k) (ht : k.tasks a = some t) (hp : u.pid = t.pid) (hs : u.kernelStack = t.kernelStack) :
    StacksOk mine { k with tasks := Function.update k.tasks a (some u) } := by
  have hids : pids { k with tasks := Function.update k.tasks a (some u) } = pids k :=
    overTasks_same ht (congrArg (fun pid => [pid]) hp)
  refine h.congr rfl rfl hids fun b w hw => ?_
  have hw' : Function.update k.tasks a (some u) b = some w := hw
  by_cases hb : b = a
  · rw [hb, Function.update_self] at hw'
    cases hw'
    rw [hs, hp]
    exact h.stack a t ht
  · rw [Function.update_of_ne hb] at hw'
    exact h.stack b w hw'

end StacksOk

/-! ## Creation -/

theorem new_stacks (h : StacksOk [] k) (hnone : k.tasks k.next = none) (elf : ElfFile) (sstatus : Nat) :
    (new I elf sstatus).wlp (fun _ k' => k'.phys.starved = true ∨ StacksOk [] k') k := by
  rw [new, Comp.wlp_bind, wlp_onPhys]
  rintro ⟨ms, userSp, entryPoint⟩ p -
  simp only
  rw [Comp.wlp_bind, wlp_trapCxPpnOf]
  intro e _
  rw [Comp.wlp_bind, wlp_pidAlloc, Comp.wlp_bind]
  refine (h.onPhys p).newKernelStack.mono ?_
  rintro stack k₁ (hst | ⟨rfl, hs, p₁, ks, rfl⟩)
  · refine Comp.wlp.mono (Comp.Stable.bind Comp.stable_get (fun _ => ?_) _ hst) fun _ _ h => Or.inl h
    exact (lasting_onPhys (kept_starved.storePhys _ _)).bind fun _ => lasting_newTask _
  · simp only [Comp.wlp_bind, Comp.wlp_get, wlp_storePhys]
    exact ((hs.onPhys _).newTask hnone rfl rfl).mono fun _ _ h => .inr h

theorem fork_stacks (h : StacksOk [] k) (hfresh : ∀ a, k.next ≤ a → k.tasks a = none) (a : Nat) :
    (fork I a).wlp (fun _ k' => k'.phys.starved = true ∨ StacksOk [] k') k := by
  rw [fork, Comp.wlp_bind, wlp_task]
  intro t ht
  rw [Comp.wlp_bind, wlp_onPhys]
  intro c p _
  rw [Comp.wlp_bind, wlp_pidAlloc, Comp.wlp_bind]
  refine (h.onPhys p).newKernelStack.mono ?_
  rintro stack k₁ (hst | ⟨rfl, hs, p₁, ks, rfl⟩)
  · refine Comp.wlp.mono (Comp.Stable.bind (lasting_trapCxPpnOf _) (fun _ => ?_) _ hst) fun _ _ h => Or.inl h
    refine (lasting_onPhys (kept_starved.storePhys _ _)).bind fun _ => (lasting_newTask _).bind fun _ => ?_
    exact (lasting_setTask _ _).bind fun _ => Comp.stable_pure _
  · simp only [Comp.wlp_bind, wlp_trapCxPpnOf, wlp_storePhys, wlp_setTask, Comp.wlp_pure]
    intro e _ b k' hrun
    have hchild := (hs.onPhys _).newTask (hfresh _ (Nat.le_refl _)) rfl rfl b k' hrun
    have hk' := (wlp_newTask _ (fun _ k' => k'.tasks = _) _).mpr rfl b k' hrun
    have hne : a ≠ k.next := by
      rintro rfl
      rw [hfresh _ (Nat.le_refl _)] at ht
      cases ht
    exact .inr (hchild.setTask ((congrFun hk' a).trans ((Function.update_of_ne hne _ _).trans ht)) rfl rfl)

/-! ## Reaping -/

/-- The pages of one stack are not mapped any more, and all others are as before. -/
def Unmapped (stack : Nat) (k k' : Kernel B) : Prop :=
  ∀ v < 2 ^ 27, k'.kernelSpace.translate k'.phys.mem v =
    if v ∈ stackPages stack then none else k.kernelSpace.translate k.phys.mem v

theorem dropKernelStack_ok {ids : List Nat} {pid : Nat} (hm : MemOk I traps scraps holdings k)
    (h : StackRanges (pid :: ids) k.kernelSpace) (hnodup : (pid :: ids).Nodup) (hfits : ∀ p ∈ pid :: ids, StackFits p) :
    (dropKernelStack pid).wp (fun _ k' => MemOk I traps scraps holdings k' ∧ StackRanges ids k'.kernelSpace ∧
      Unmapped pid k k' ∧ k'.phys.starved = k.phys.starved ∧
      ∃ p ks, k' = { k with phys := p, kernelSpace := ks }) k := by
  have hfit := hfits pid List.mem_cons_self
  have halign : (VirtAddr.ofUsize (kernelStackPosition pid).1).pageOffset = 0 := by
    have hle := hfit.le
    rw [kernelStackPosition_eq hfit]
    simp only [VirtAddr.pageOffset, VirtAddr.ofUsize]
    omega
  obtain ⟨p, ks, hrun, hg, hsub, hkeeps⟩ := removeArea_run hm.estate.goodKernel hm.estate.full
    (VirtAddr.ofUsize (kernelStackPosition pid).1).floor
  obtain ⟨hranges, hperm⟩ := h.erase hfits (removeArea_ranges _ _ _ _ _ hrun)
  have hfull : ks.Full := fun area ha => hm.estate.full area (hsub.subset ha)
  have hgood := hm.estate.goodKernel
  rw [dropKernelStack, VirtAddr.toVpn]
  simp only [Comp.wp_bind, Comp.wp_get, Comp.wp_assert, Comp.wp_pure, wp_onPhys, Comp.wp_modify]
  refine ⟨halign, ?_⟩
  rw [Comp.wp_of_run hrun]
  refine ⟨hm.putKernel hg hfull hkeeps.same, hranges, fun v hv => ?_, hkeeps.starved, p, ks, rfl⟩
  by_cases hin : v ∈ stackPages pid
  · rw [if_pos hin]
    by_contra hmapped
    obtain ⟨hle, hlt⟩ := lt_of_mem_stackPages hfit hin
    obtain ⟨pid', hpid', hin'⟩ := (hranges.mapped_iff (fun q hq => hfits q (List.mem_cons_of_mem _ hq)) hg hfull
      hlt hle).mp hmapped
    have hpids := eq_of_mem_stackPages hfit (hfits pid' (List.mem_cons_of_mem _ hpid')) hin hin'
    exact (List.nodup_cons.mp hnodup).1 (hpids ▸ hpid')
  · rw [if_neg hin]
    by_cases hmapped : ks.translate p.mem v = none
    · -- what was mapped before is still mapped
      show ks.translate p.mem v = _
      rw [hmapped, eq_comm]
      by_contra hold
      refine (hg.mapped_iff hfull hv).mpr ?_ hmapped
      refine ((hgood.mapped_iff hm.estate.full hv).mp hold).imp_right ?_
      rintro ⟨q, hq, hqin⟩
      rcases List.mem_cons.mp (hperm.subset hq) with rfl | hq'
      · exact absurd ((mem_stackRange hfit).mp hqin) hin
      · exact ⟨q, hq', hqin⟩
    · exact hgood.translate_of_sublist hg hsub hv hmapped

/-- **The drop of a task** unmaps its own stack and no other page, and gives its pid back. -/
theorem dropTask_ok (hm : MemOk I traps scraps holdings k) (h : StacksOk [] k) (hplain : Plain k)
    (ht : k.tasks a = some t) :
    (dropTask a).wp (fun _ k' => MemOk I traps scraps holdings k' ∧ StacksOk [] k' ∧ Plain k' ∧
      k'.tasks = Function.update k.tasks a none ∧ Unmapped t.kernelStack k k') k := by
  let others : Kernel B := { k with tasks := Function.update k.tasks a none }
  have hperm : (pids k).Perm (t.pid :: pids others) := overTasks_task (hm.lt_next ht) ht
  have hledger : Ledger 0 k.pidAllocator.current k.pidAllocator.recycled (t.pid :: pids others) := h.ledger.perm hperm
  have hothers : ∀ b u, others.tasks b = some u → u.kernelStack = u.pid := by
    intro b u hu
    have hu' : Function.update k.tasks a none b = some u := hu
    by_cases hb : b = a
    · rw [hb, Function.update_self] at hu'
      cases hu'
    · rw [Function.update_of_ne hb] at hu'
      exact h.stack b u hu'
  obtain ⟨fs, hs, hclear, hdrop⟩ := hm.clear ht
  have hfree : MemOk I traps (fs ++ scraps) (hs ++ holdings) { k with
      tasks := Function.update k.tasks a none
      pidAllocator := { k.pidAllocator with recycled := t.pid :: k.pidAllocator.recycled } } :=
    hclear.of_eq rfl rfl rfl rfl rfl
  rw [dropTask]
  simp only [pidDealloc, Comp.wp_bind, wp_task, Comp.wp_modify, Comp.wp_get, Comp.wp_assert]
  refine ⟨t, ht, ⟨hledger.lt_of_mem List.mem_cons_self, hledger.not_mem_free List.mem_cons_self⟩, ?_⟩
  rw [h.stack a t ht]
  refine (dropKernelStack_ok hfree (h.ranges.perm hperm) hledger.nodup_held fun p hp =>
    hplain.fits p (hledger.lt_of_mem hp)).mono ?_
  rintro _ _ ⟨hm₂, hranges, hunmapped, hst, p, ks, rfl⟩
  refine (hdrop _ hm₂).mono ?_
  rintro _ _ ⟨hm₃, ⟨hmem, hst', p', rfl⟩⟩
  refine ⟨hm₃, ⟨hledger.giveBack, hothers, hranges⟩, ⟨(hst'.trans hst).trans hplain.starved, hplain.fits⟩, rfl,
    fun v hv => ?_⟩
  rw [← hunmapped v hv]
  exact congrArg (fun m => ks.translate m v) hmem

end Kernel

end RCore.Task
