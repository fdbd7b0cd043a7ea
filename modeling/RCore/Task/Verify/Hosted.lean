import RCore.Task.Verify.Follows

/-!
# The address spaces of a running kernel

Over a run every process that has not exited has one of the address spaces that a process can have, and the
kernel has one of those that it can have. So the hart can follow all of them in every state. No step changes
the address space of a process other than the one that makes it, or a byte of its frames.
-/

namespace RCore.Task

open RCore Mm

namespace Kernel

variable {B : BinaryHeap} {α : Type} {I : Image} {traps : Bool} {scraps : List Nat} {mine mine' : List Holding}
  {o : Option Nat} {k k' k'' : Kernel B} {a c : Nat} {t u : TaskControlBlock} {h : Holding} {p : Phys}

/-! ## The invariant -/

/-- **Every process that has not exited has an address space that a process can have**, and so do the local
variables, and the kernel has one that the kernel can have. -/
structure Hosted (I : Image) (mine : List Holding) (k : Kernel B) : Prop where
  user : ∀ a t, k.tasks a = some t → t.taskStatus ≠ .zombie →
    ∃ rest, UserSpace I.toLayout rest k.phys t.memorySet
  mine : ∀ h ∈ mine, ∃ rest, UserSpace I.toLayout rest k.phys h.space
  kernel : ∃ rest, KernelSpace I.toLayout rest k.phys k.kernelSpace

namespace Hosted

theorem of_eq (hh : Hosted I mine k) (hp : k'.phys = k.phys) (hks : k'.kernelSpace = k.kernelSpace)
    (ht : k'.tasks = k.tasks) : Hosted I mine k' := by
  constructor
  · rw [hp, ht]
    exact hh.user
  · rw [hp]
    exact hh.mine
  · rw [hp, hks]
    exact hh.kernel

/-- What leaves the tables alone. -/
theorem follows (hh : Hosted I mine k) (hf : Follows o mine k k') (hm : MemOk I traps scraps mine' k')
    (hsub : mine ⊆ mine') : Hosted I mine k' := by
  refine ⟨fun a t' ht' hl' => ?_, fun h hmem => ?_, ?_⟩
  · obtain ⟨t, ht, hl, hms, hs⟩ := hf.user a t' ht' hl'
    obtain ⟨rest, hu⟩ := hh.user a t ht hl
    have hg := hm.goodTask ht' hl'
    rw [hms] at hg ⊢
    exact ⟨_, .other hu hs hg.held⟩
  · obtain ⟨rest, hu⟩ := hh.mine h hmem
    obtain ⟨rest', hg⟩ := hm.estate.good_of_mem (List.mem_append_left _ (hsub hmem))
    exact ⟨_, .other hu (hf.mine h hmem) hg.held⟩
  · obtain ⟨rest, hk⟩ := hh.kernel
    have hg := hm.estate.goodKernel
    rw [hf.space] at hg ⊢
    exact ⟨_, .other hk hf.kernel hg.held⟩

/-- Another address space for the kernel. -/
theorem putKernel (hh : Hosted I mine k) (hm : MemOk I traps scraps mine' k) (hsub : mine ⊆ mine') {ks : MemorySet}
    (hm' : MemOk I traps scraps mine' { k with phys := p, kernelSpace := ks })
    (hk : ∃ rest, KernelSpace I.toLayout rest p ks)
    (hsame : SameOn (userFrames traps scraps mine' k) k.phys.mem p.mem) :
    Hosted I mine { k with phys := p, kernelSpace := ks } := by
  have hin : ∀ {x : Holding}, x ∈ mine' ++ overTasks (TaskControlBlock.holding traps) k.tasks k.next →
      SameOn x.space.pageTable.frames k.phys.mem p.mem := fun hx => hsame.mono fun f hf =>
    List.mem_append_right _ (List.mem_flatMap.mpr ⟨_, hx, List.mem_append_left _ hf⟩)
  refine ⟨fun a t ht hl => ?_, fun h hmem => ?_, hk⟩
  · obtain ⟨rest, hu⟩ := hh.user a t ht hl
    exact ⟨_, .other hu (hin (hm.mem_holding ht hl)) (hm'.goodTask ht hl).held⟩
  · obtain ⟨rest, hu⟩ := hh.mine h hmem
    have hin' := List.mem_append_left (overTasks (TaskControlBlock.holding traps) k.tasks k.next) (hsub hmem)
    obtain ⟨rest', hg⟩ := hm'.estate.good_of_mem hin'
    exact ⟨_, .other hu (hin hin') hg.held⟩

/-- Another address space for a task. -/
theorem putSpace (hh : Hosted I [] k) (hm : MemOk I traps [] [] k) (ht : k.tasks a = some t) {ms : MemorySet}
    (hm' : MemOk I traps [] []
      { k with phys := p, tasks := Function.update k.tasks a (some { t with memorySet := ms }) })
    (hu : ∃ rest, UserSpace I.toLayout rest p ms)
    (hsame : SameOn (otherFrames traps [] [] k a) k.phys.mem p.mem) :
    Hosted I [] { k with phys := p, tasks := Function.update k.tasks a (some { t with memorySet := ms }) } := by
  have hn : ∀ a t, k.tasks a = some t → a < k.next := fun a t ht => hm.lt_next ht
  refine ⟨fun b t' hb hl' => ?_, fun _ hc => absurd hc List.not_mem_nil, ?_⟩
  · have hb' : Function.update k.tasks a (some { t with memorySet := ms }) b = some t' := hb
    by_cases hba : b = a
    · subst hba
      rw [Function.update_self] at hb'
      cases hb'
      exact hu
    · rw [Function.update_of_ne hba] at hb'
      obtain ⟨rest, hu'⟩ := hh.user b t' hb' hl'
      refine ⟨_, .other hu' (hsame.mono fun f hf => ?_) (hm'.goodTask hb hl').held⟩
      exact owned_subset_otherFrames hn hb' hba (List.mem_append_left _ hf)
  · obtain ⟨rest, hk⟩ := hh.kernel
    refine ⟨_, .other hk (hsame.mono fun f hf => ?_) hm'.estate.goodKernel.held⟩
    exact List.mem_append_left _ (List.mem_append_left _ hf)

/-- A new address space in a local variable. -/
theorem addMine (hh : Hosted I mine k) (hm : MemOk I traps scraps mine k)
    (hm' : MemOk I traps scraps (h :: mine) { k with phys := p })
    (hu : ∃ rest, UserSpace I.toLayout rest p h.space)
    (hsame : SameOn (outFrames traps scraps mine k) k.phys.mem p.mem) : Hosted I (h :: mine) { k with phys := p } := by
  have hin : ∀ {x : Holding}, x ∈ mine ++ overTasks (TaskControlBlock.holding traps) k.tasks k.next →
      SameOn x.space.pageTable.frames k.phys.mem p.mem := fun hx => hsame.mono fun f hf =>
    Estate.mem_owned hx (List.mem_append_left _ hf)
  refine ⟨fun a t ht hl => ?_, fun x hx => ?_, ?_⟩
  · obtain ⟨rest, hu'⟩ := hh.user a t ht hl
    exact ⟨_, .other hu' (hin (hm.mem_holding ht hl)) (hm'.goodTask ht hl).held⟩
  · rcases List.mem_cons.mp hx with rfl | hx
    · exact hu
    · obtain ⟨rest, hu'⟩ := hh.mine x hx
      obtain ⟨rest', hg⟩ := hm'.estate.good_of_mem (List.mem_append_left _ (List.mem_cons_of_mem _ hx))
      exact ⟨_, .other hu' (hin (List.mem_append_left _ hx)) hg.held⟩
  · obtain ⟨rest, hk⟩ := hh.kernel
    refine ⟨_, .other hk (hsame.mono fun f hf => ?_) hm'.estate.goodKernel.held⟩
    exact List.mem_append_left _ (List.mem_append_left _ hf)

/-- A task gets the address space of a local variable. -/
theorem give (hh : Hosted I (h :: mine) k) {n : Nat} (hu : u.memorySet = h.space) :
    Hosted I mine { k with tasks := Function.update k.tasks a (some u), next := n } := by
  refine ⟨fun b t' hb hl' => ?_, fun x hx => hh.mine x (List.mem_cons_of_mem _ hx), hh.kernel⟩
  have hb' : Function.update k.tasks a (some u) b = some t' := hb
  by_cases hba : b = a
  · subst hba
    rw [Function.update_self] at hb'
    cases hb'
    rw [hu]
    exact hh.mine h List.mem_cons_self
  · rw [Function.update_of_ne hba] at hb'
    exact hh.user b t' hb' hl'

end Hosted

/-- A step: the address spaces are such ones, the other processes are spared, and the page table of the
kernel has not moved. -/
structure Proceeds (I : Image) (o : Option Nat) (mine : List Holding) (k k' : Kernel B) : Prop where
  hosted : Hosted I mine k'
  spares : Spares o k k'
  token : k'.kernelSpace.token = k.kernelSpace.token

/-- What leaves the tables alone. -/
theorem Hosted.proceeds (hh : Hosted I mine k) (hf : Follows o mine k k') (hm : MemOk I traps scraps mine' k')
    (hsub : mine ⊆ mine') : Proceeds I o mine k k' :=
  ⟨hh.follows hf hm hsub, hf.spares, congrArg MemorySet.token hf.space⟩

theorem Proceeds.trans (h : Proceeds I o mine k k') (h' : Proceeds I o mine' k' k'') : Proceeds I o mine' k k'' :=
  ⟨h'.hosted, h.spares.trans h'.spares, h'.token.trans h.token⟩

/-- Nothing has happened to the frames of the processes. -/
theorem MemOk.spares_users (hm : MemOk I traps scraps mine k) (ht : k'.tasks = k.tasks)
    (hsame : SameOn (userFrames traps scraps mine k) k.phys.mem k'.phys.mem) : Spares o k k' := by
  refine .of_same ht fun b u hu hl _ => hsame.mono fun f hf => ?_
  exact List.mem_append_right _ (List.mem_flatMap.mpr ⟨_, hm.mem_holding hu hl, hf⟩)

/-- Nothing has happened to the frames of the other processes. -/
theorem MemOk.spares_others (hm : MemOk I traps [] [] k) (x : Option TaskControlBlock)
    (hsame : SameOn (otherFrames traps [] [] k a) k.phys.mem p.mem) :
    Spares (some a) k { k with phys := p, tasks := Function.update k.tasks a x } := by
  have hn : ∀ a t, k.tasks a = some t → a < k.next := fun a t ht => hm.lt_next ht
  intro b u hu hl hb
  have hba : b ≠ a := fun hc => hb (congrArg some hc.symm)
  exact ⟨u, (Function.update_of_ne hba _ _).trans hu, hl, rfl, hsame.mono (owned_subset_otherFrames hn hu hba)⟩

/-! ## The other steps -/

theorem onPhys_run (x : Comp Phys α) (k : Kernel B) :
    (onPhys x).wlp (fun r k' => ∃ p, k' = { k with phys := p } ∧ x.run k.phys = some (r, p)) k := by
  rw [wlp_onPhys]
  intro r p hrun
  exact ⟨p, rfl, hrun⟩

theorem newKernelStack_hosted (hm : MemOk I traps scraps mine k) (hh : Hosted I mine k) (pid : Nat) :
    (newKernelStack pid).wlp (fun _ k' => k'.phys.starved = true ∨ Proceeds I o mine k k') k := by
  rw [newKernelStack]
  simp only [Comp.wlp_bind, Comp.wlp_get, wlp_onPhys, Comp.wlp_modify]
  rintro ⟨r, ks⟩ p hrun
  by_cases hle : (VirtAddr.ofUsize (kernelStackPosition pid).1).floor ≤ (VirtAddr.ofUsize (kernelStackPosition pid).2).ceil
  · have hpush := hrun
    rw [insertFramedArea_run hle] at hpush
    have hr := push_wlp hm.estate.goodKernel (fresh_new hle .framed) (fun hc => absurd rfl hc) _ _ hpush
    cases r with
    | error =>
      rw [Comp.wlp_pure]
      exact Or.inl hr.1
    | ok =>
      rw [Comp.wlp_pure]
      obtain ⟨rest, hk⟩ := hh.kernel
      have hm' := hm.putKernel hr.good (hr.full (fresh_new hle .framed) hm.estate.full) hr.keeps.same
      refine Or.inr ⟨?_, hm.spares_users rfl hr.keeps.same, insertFramedArea_root _ _ _ _ _ _ _ hrun⟩
      exact hh.putKernel hm (List.Subset.refl _) hm' ⟨rest, .newStack hk hrun⟩ hr.keeps.same
  · rw [insertFramedArea_reversed hle] at hrun
    cases hrun

theorem dropKernelStack_hosted (hm : MemOk I traps scraps mine k) (hh : Hosted I [] k) (stack : Nat) :
    (dropKernelStack stack).wlp (fun _ k' => Proceeds I o [] k k') k := by
  rw [dropKernelStack, VirtAddr.toVpn]
  simp only [Comp.wlp_bind, Comp.wlp_get, Comp.wlp_assert, Comp.wlp_pure, wlp_onPhys, Comp.wlp_modify]
  intro _
  obtain ⟨p, ks, hrun, hg, hsub, hkeeps⟩ := removeArea_run hm.estate.goodKernel hm.estate.full
    (VirtAddr.ofUsize (kernelStackPosition stack).1).floor
  rw [Comp.wlp_of_run hrun]
  have hm' := hm.putKernel hg (fun area ha => hm.estate.full area (hsub.subset ha)) hkeeps.same
  obtain ⟨rest, hk⟩ := hh.kernel
  refine ⟨?_, hm.spares_users rfl hkeeps.same, removeArea_root _ _ _ _ _ hrun⟩
  exact hh.putKernel hm (List.nil_subset _) hm' ⟨rest, .dropStack hk hrun⟩ hkeeps.same

theorem Freed.follows (hf : Freed k k') : Follows o [] k k' := by
  obtain ⟨p, hp⟩ := hf.phys
  refine .of_eq hf.mem ?_ ?_ <;> rw [hp]

theorem dropTask_hosted (hm : MemOk I traps scraps mine k) (hh : Hosted I [] k) (a : Nat) :
    (dropTask a).wlp (fun _ k' => Proceeds I (some a) [] k k') k := by
  rw [dropTask]
  simp only [pidDealloc, Comp.wlp_bind, wlp_task, Comp.wlp_modify, Comp.wlp_get, Comp.wlp_assert]
  intro t ht _
  obtain ⟨fs, hs, hclear, hdrop⟩ := hm.clear ht
  have hfree : MemOk I traps (fs ++ scraps) (hs ++ mine) { k with
      tasks := Function.update k.tasks a none
      pidAllocator := { k.pidAllocator with recycled := t.pid :: k.pidAllocator.recycled } } :=
    hclear.of_eq rfl rfl rfl rfl rfl
  have hgone : Follows (some a) [] k { k with
      tasks := Function.update k.tasks a none
      pidAllocator := { k.pidAllocator with recycled := t.pid :: k.pidAllocator.recycled } } :=
    Follows.trans (.leave fun _ hc => by cases hc) (.of_eq rfl rfl rfl)
  have hgo := hh.proceeds hgone hfree (List.nil_subset _)
  refine ((dropKernelStack_mem hfree _).and (dropKernelStack_hosted (o := some a) hfree hgo.hosted _)).mono ?_
  rintro _ k₁ ⟨hm₁, hp₁⟩
  refine (hdrop k₁ hm₁).wlp.mono ?_
  rintro _ k₂ ⟨hm₂, hfreed⟩
  exact (hgo.trans hp₁).trans (hp₁.hosted.proceeds hfreed.follows hm₂ (List.nil_subset _))

theorem exit_hosted (hm : Calm I traps k) (ho : k.current = o) (hh : Hosted I [] k) (exitCode : Int32) :
    (exitCurrentAndRunNext exitCode).wlp (fun _ k' => Proceeds I o [] k k') k := by
  rw [exitCurrentAndRunNext]
  simp only [Comp.wlp_bind, wlp_takeCurrentTask, wlp_task, Comp.wlp_get, Comp.wlp_unwrap, Comp.wlp_assert]
  intro a hc t ht init _ hne
  have hoa : o = some a := ho.symm.trans hc
  subst hoa
  have hcur : MemOk I traps [] [] { k with current := none } := hm.mem.of_eq rfl rfl rfl rfl rfl
  refine ((adopt_mem hne t.children hcur).and (adopt_follows (o := some a) t.children _)).mono ?_
  rintro _ k₁ ⟨⟨hm₁, ht₁⟩, hf₁⟩
  have ht₁' : k₁.tasks a = some t := ht₁.trans ht
  have hl := hm.live a t hc ht
  rw [wlp_onPhys]
  obtain ⟨p, hrun, hheld, hmem, _⟩ := recycleDataPages_run (hm₁.goodTask ht₁' hl).held
  rw [Comp.wlp_of_run hrun]
  simp only [wlp_setTask]
  have howned : MemorySet.owned { t.memorySet with areas := [] } = t.memorySet.pageTable.frames :=
    List.append_nil _
  have hz := hm₁.toZombie ht₁' hl (u := { t with
    taskStatus := .zombie, exitCode, children := [], memorySet := { t.memorySet with areas := [] } })
    rfl rfl (by rw [howned]; exact hheld) hmem
  have hrecycled : Follows (some a) [] k₁ { k₁ with phys := p } := .of_eq hmem rfl rfl
  have hleft : Follows (some a) [] { k₁ with phys := p } _ := .leave (x := some { t with
    taskStatus := .zombie, exitCode, children := [], memorySet := { t.memorySet with areas := [] } })
    fun u hu => by cases hu; rfl
  have htaken : Follows (some a) [] k { k with current := none } := .of_eq rfl rfl rfl
  have hgo := hh.proceeds ((htaken.trans hf₁).trans (hrecycled.trans hleft)) hz (List.Subset.refl _)
  split
  · exact (dropTask_hosted hz hgo.hosted a).mono fun _ _ h => hgo.trans h
  · rw [Comp.wlp_pure]
    exact hgo

theorem zombie_of_collects {pid : Int} (hcol : k.collects pid c = true) (hu : k.tasks c = some u) :
    u.taskStatus = .zombie := by
  rw [collects, hu] at hcol
  exact (of_decide_eq_true hcol).1

theorem sysWaitpid_hosted (hm : Calm I traps k) (ho : k.current = o) (hh : Hosted I [] k) (pid : Int)
    (exitCodePtr : Nat) (hin : ∀ a t, k.current = some a → k.tasks a = some t →
      t.children.any (k.collects pid) → exitCodePtr % 4096 ≤ 4092) :
    (sysWaitpid pid exitCodePtr).wlp (fun _ k' => Proceeds I o [] k k') k := by
  have hstay : Proceeds I o [] k k := ⟨hh, .refl o k, rfl⟩
  rw [sysWaitpid]
  simp only [Comp.wlp_bind, wlp_currentTask, wlp_task, Comp.wlp_get]
  intro a hc t ht
  split
  · rw [Comp.wlp_pure]
    exact hstay
  split
  · next idx hidx =>
    simp only [Comp.wlp_bind, Comp.wlp_unwrap, wlp_setTask, Comp.wlp_get, Comp.wlp_assert, wlp_task]
    intro c hget _ u hu
    obtain ⟨hmem, hcol, _⟩ := collects_of_findIdx? hidx hget
    have hoff := hin a t hc ht (List.any_eq_true.mpr ⟨c, hmem, hcol⟩)
    have hset := hm.setTask ht (u := { t with children := t.children.eraseIdx idx })
      ⟨rfl, rfl, Iff.rfl, fun _ => Or.inl⟩
    have hself := Function.update_self a (some { t with children := t.children.eraseIdx idx }) k.tasks
    refine translatedRefmut_task hset.mem hself (hm.live a t hc ht) exitCodePtr fun e he => ?_
    rw [wlp_storePhys]
    have hpa : (e.ppn * 4096 + exitCodePtr % 4096) / 4096 = e.ppn := by omega
    have hfits : (e.ppn * 4096 + exitCodePtr % 4096) % 4096 + (leEncode 4 u.exitCode.toUInt32.toNat).length ≤ 4096 := by
      rw [leEncode_length]
      omega
    have hstore := hset.store hc hself he hpa hfits
    have hf : Follows o [] k _ := .setTask ht (u := { t with children := t.children.eraseIdx idx }) rfl Iff.rfl
    have hgo := hh.proceeds (hf.trans (hset.store_follows ho hc hself he hpa hfits)) hstore.mem (List.Subset.refl _)
    refine (dropTask_hosted hstore.mem hgo.hosted c).mono fun _ _ h => ?_
    rw [Comp.wlp_pure]
    refine hgo.trans ⟨h.hosted, h.spares.of_gone fun w hw => ?_, h.token⟩
    have hca : c ≠ a := fun hca => hm.live a t hc ht (zombie_of_collects hcol (hca ▸ ht))
    exact zombie_of_collects hcol ((Function.update_of_ne hca _ _).symm.trans hw)
  · rw [Comp.wlp_pure]
    exact hstay

theorem mmap_hosted (hm : Calm I traps k) (ho : k.current = o) (hh : Hosted I [] k) (start len prot : Nat) :
    (onMemorySet fun ms => sysMmap ms start len prot).wlp
      (fun _ k' => k'.phys.starved = true ∨ Proceeds I o [] k k') k := by
  refine ((onMemorySet_mmap_mem hm start len prot).and ?_).mono fun _ k' (h : _ ∧ (_ → _)) => h.2 h.1
  rw [onMemorySet]
  simp only [Comp.wlp_bind, wlp_currentTask, wlp_task, wlp_onPhys, wlp_setTask, Comp.wlp_pure]
  rintro a hc t ht ⟨r, ms⟩ p hrun (hst | hm')
  · exact Or.inl hst
  have hoa : o = some a := ho.symm.trans hc
  subst hoa
  have hg := hm.mem.goodTask ht (hm.live a t hc ht)
  rcases sysMmap_wlp hg start len prot _ _ hrun with ⟨hr, rfl⟩ | ⟨_, hst⟩ | ⟨hr, _, _, _, _, hP⟩
  · cases hr
    exact Or.inr (hh.proceeds (.setTask ht rfl Iff.rfl) hm' (List.Subset.refl _))
  · exact Or.inl hst
  · have hr' : r = 0 := hr
    subst hr'
    obtain ⟨rest, hu⟩ := hh.user a t ht (hm.live a t hc ht)
    exact Or.inr ⟨hh.putSpace hm.mem ht hm' ⟨rest, .mmap hu hrun⟩ hP.keeps.same,
      hm.mem.spares_others _ hP.keeps.same, rfl⟩

theorem munmap_hosted (hm : Calm I traps k) (ho : k.current = o) (hh : Hosted I [] k) (start len : Nat)
    (hout : traps = true → trapContextVpn ∉ munmapPages start len) :
    (onMemorySet fun ms => sysMunmap ms start len).wlp (fun _ k' => Proceeds I o [] k k') k := by
  refine ((onMemorySet_munmap_mem hm start len hout).and ?_).mono fun _ k' (h : _ ∧ (_ → _)) => h.2 h.1
  rw [onMemorySet]
  simp only [Comp.wlp_bind, wlp_currentTask, wlp_task, wlp_onPhys, wlp_setTask, Comp.wlp_pure]
  rintro a hc t ht ⟨r, ms⟩ p hrun hm'
  have hoa : o = some a := ho.symm.trans hc
  subst hoa
  have hl := hm.live a t hc ht
  have hg := hm.mem.goodTask ht hl
  have hok := hm.mem.task_ok ht hl
  rcases sysMunmap_wlp hg hok.framed start len _ _ hrun with ⟨hr, rfl⟩ | ⟨hr, hR⟩
  · cases hr
    exact hh.proceeds (.setTask ht rfl Iff.rfl) hm' (List.Subset.refl _)
  · have hr' : r = 0 := hr
    subst hr'
    obtain ⟨rest, hu⟩ := hh.user a t ht hl
    have hsame := hR.same.mono (List.subset_append_right _ _)
    exact ⟨hh.putSpace hm.mem ht hm' ⟨rest, .munmap hu hrun⟩ hsame, hm.mem.spares_others _ hsame, rfl⟩

/-! ## New address spaces -/

theorem fromExistedUserspace_hosted (hm : MemOk I traps [] [] k) (hh : Hosted I [] k) (ht : k.tasks a = some t)
    (hl : t.taskStatus ≠ .zombie) :
    (onPhys (MemorySet.fromExistedUserspace I.toLayout t.memorySet)).wlp (fun c k' => ∃ p ppn, k' = { k with phys := p } ∧
      MemOk I traps [] [⟨c, if traps then some ppn else none⟩] k' ∧
      Proceeds I o [⟨c, if traps then some ppn else none⟩] k k') k := by
  refine ((fromExistedUserspace_mem hm ht hl).and (onPhys_run _ k)).mono ?_
  rintro c _ ⟨⟨p, rfl, hcopy, ppn, hmine⟩, p', hp, hrun⟩
  obtain rfl : p = p' := congrArg Kernel.phys hp
  obtain ⟨rest, hu⟩ := hh.user a t ht hl
  have hsame : SameOn (outFrames traps [] [] k) k.phys.mem p.mem :=
    hcopy.keeps.same.mono (hm.outFrames_perm ht hl).symm.subset
  exact ⟨p, ppn, rfl, hmine, hh.addMine hm hmine ⟨_, .fork hu hrun⟩ hsame,
    hm.spares_users rfl (hsame.mono (List.subset_append_right _ _)), rfl⟩

theorem fromElf_hosted (hm : MemOk I traps [] [] k) (hh : Hosted I [] k) (elf : ElfFile) :
    (onPhys (MemorySet.fromElf I.toLayout elf)).wlp (fun r k' => ∃ p ppn, k' = { k with phys := p } ∧
      MemOk I traps [] [⟨r.1, if traps then some ppn else none⟩] k' ∧
      Proceeds I o [⟨r.1, if traps then some ppn else none⟩] k k' ∧ r.2.1 % 4096 = 0) k := by
  refine ((fromElf_mem hm elf).and (onPhys_run _ k)).mono ?_
  rintro ⟨ms, userSp, entry⟩ _ ⟨⟨hsp, ⟨p, rfl⟩, ppn, hmine⟩, p', hp, hrun⟩
  obtain rfl : p = p' := congrArg Kernel.phys hp
  obtain ⟨hw, _⟩ := fromElf_wlp hm.estate.held elf _ _ hrun
  have hsame : SameOn (outFrames traps [] [] k) k.phys.mem p.mem := hw.keeps.same
  exact ⟨p, ppn, rfl, hmine, ⟨hh.addMine hm hmine ⟨_, .fromElf hm.estate.held hrun⟩ hsame,
    hm.spares_users rfl (hsame.mono (List.subset_append_right _ _)), rfl⟩, hsp⟩

/-- The end of `fork` and of `TaskControlBlock::new`: a store into the trap context of the new address space,
and the task that gets it. -/
theorem storeNew_hosted {c : MemorySet} {ppn pa : Nat} {e : PageTableEntry} {bs : List UInt8}
    (hm : MemOk I traps [] [⟨c, if traps then some ppn else none⟩] k)
    (hh : Hosted I [⟨c, if traps then some ppn else none⟩] k) (he : c.translate k.phys.mem trapContextVpn = some e)
    (hpa : pa / 4096 = e.ppn) (hb : pa % 4096 + bs.length ≤ 4096) (hu : u.memorySet = c)
    (hppn : u.trapCxPpn = e.ppn) (hl : u.taskStatus ≠ .zombie) (hback : u.trapCtxBackup = none) :
    MemOk I traps [] [] { k with
        phys := { k.phys with mem := k.phys.mem.write pa bs }
        tasks := Function.update k.tasks k.next (some u), next := k.next + 1 } ∧
      Proceeds I o [] k { k with
        phys := { k.phys with mem := k.phys.mem.write pa bs }
        tasks := Function.update k.tasks k.next (some u), next := k.next + 1 } := by
  have hmem : (⟨c, if traps then some ppn else none⟩ : Holding) ∈ [⟨c, if traps then some ppn else none⟩] ++
      overTasks (TaskControlBlock.holding traps) k.tasks k.next := List.mem_cons_self
  have hm₂ := hm.store hmem he hpa hb
  have hgo := hh.proceeds (hm.storeMine_follows (o := o) he hpa hb) hm₂ (List.Subset.refl _)
  have hnew : Spares o { k with phys := { k.phys with mem := k.phys.mem.write pa bs } } { k with
      phys := { k.phys with mem := k.phys.mem.write pa bs }
      tasks := Function.update k.tasks k.next (some u), next := k.next + 1 } :=
    Spares.of_gone (.update (some u) (k.next + 1)) fun _ hc => absurd (hm.lt_next hc) (Nat.lt_irrefl _)
  refine ⟨?_, hgo.hosted.give hu, hgo.spares.trans hnew, rfl⟩
  rw [(hm.estate.user _ hmem).trap_eq he, ← hppn, ← hu] at hm₂
  exact hm₂.newTask hl hback

theorem fork_hosted (hm : MemOk I traps [] [] k) (hh : Hosted I [] k) (ht : k.tasks a = some t)
    (hl : t.taskStatus ≠ .zombie) :
    (fork I a).wlp (fun _ k' => k'.phys.starved = true ∨ Proceeds I o [] k k') k := by
  rw [fork, Comp.wlp_bind, wlp_task]
  intro t' ht'
  have htt : t' = t := Option.some.inj (ht'.symm.trans ht)
  subst htt
  rw [Comp.wlp_bind]
  refine (fromExistedUserspace_hosted (o := o) hm hh ht hl).mono ?_
  rintro c _ ⟨p, ppn, rfl, hmine, hgo⟩
  rw [Comp.wlp_bind, wlp_pidAlloc, Comp.wlp_bind]
  have hmine' : MemOk I traps [] [⟨c, if traps then some ppn else none⟩] { k with
      phys := p, pidAllocator := k.pidAllocator.alloc.2 } := hmine.of_eq rfl rfl rfl rfl rfl
  have hgo' : Proceeds I o [⟨c, if traps then some ppn else none⟩] k { k with
      phys := p, pidAllocator := k.pidAllocator.alloc.2 } :=
    hgo.trans (hgo.hosted.proceeds (.of_eq rfl rfl rfl) hmine' (List.Subset.refl _))
  refine ((newKernelStack_mem hmine' _).and (newKernelStack_hosted (o := o) hmine' hgo'.hosted _)).mono ?_
  rintro stack k₁ ⟨⟨hcase, p₁, ks, rfl, _⟩, hcase'⟩
  simp only [Comp.wlp_bind, wlp_trapCxPpnOf, wlp_storePhys, wlp_newTask, wlp_setTask, Comp.wlp_pure]
  intro e' he'
  rcases hcase with hst | hm₁
  · exact Or.inl hst
  rcases hcase' with hst | hp₁
  · exact Or.inl hst
  have hne : a ≠ k.next := Nat.ne_of_lt (hm.lt_next ht)
  have hfits : (e'.ppn * 4096 + 8 * 35) % 4096 + (leEncode 8 (kernelStackTop stack)).length ≤ 4096 := by
    rw [leEncode_length]
    omega
  obtain ⟨hm₂, hp₂⟩ := storeNew_hosted (o := o) (u := t'.forked a c e'.ppn k.pidAllocator.alloc.1 stack) hm₁
    hp₁.hosted he' (by omega) hfits rfl rfl (fun h => by cases h) rfl
  have ha : Function.update k.tasks k.next (some (t'.forked a c e'.ppn k.pidAllocator.alloc.1 stack)) a = some t' :=
    (Function.update_of_ne hne _ _).trans ht
  have hm₃ := hm₂.setTask (u := { t' with children := t'.children ++ [k.next] }) ha
    ⟨rfl, rfl, Iff.rfl, fun _ => Or.inl⟩
  refine Or.inr (Proceeds.trans ((hgo'.trans hp₁).trans hp₂) (hp₂.hosted.proceeds ?_ hm₃ (List.Subset.refl _)))
  exact .setTask ha rfl Iff.rfl

theorem sysFork_hosted (hm : Calm I traps k) (hh : Hosted I [] k) :
    (sysFork I).wlp (fun _ k' => k'.phys.starved = true ∨ Proceeds I o [] k k') k := by
  rw [sysFork, Comp.wlp_bind, wlp_currentTask]
  intro a hc
  rw [Comp.wlp_bind]
  cases ht : k.tasks a with
  | none =>
    rw [fork, Comp.wlp_bind, wlp_task]
    intro t ht'
    rw [ht] at ht'
    cases ht'
  | some t =>
    have hl := hm.live a t hc ht
    refine ((fork_mem hm.mem ht hl).and (fork_hosted (o := o) hm.mem hh ht hl)).mono ?_
    rintro c k₁ ⟨⟨hcase, u, hu, _, rfl, hF⟩, hcase'⟩
    simp only [Comp.wlp_bind, wlp_task, wlp_storePhys, Comp.wlp_pure]
    intro u' hu'
    have huu : u' = u := Option.some.inj (hu'.symm.trans hu)
    subst huu
    have hlu : u'.taskStatus ≠ .zombie := by
      rw [hF.status]
      decide
    have hstarved : ∀ {k₂ : Kernel B}, k₂.phys.starved = true →
        (addTask k.next).wlp (fun _ k' => k'.phys.starved = true ∨ Proceeds I o [] k k') k₂ := fun hst =>
      (lasting_addTask k.next _ hst).mono fun _ _ h => Or.inl h
    rcases hcase with hst | hm₁
    · exact hstarved hst
    rcases hcase' with hst | hp₁
    · exact hstarved hst
    obtain ⟨e', he', hppn⟩ := hF.page
    have hpa : (u'.trapCxPpn * 4096 + 8 * 10) / 4096 = e'.ppn := by omega
    have hfits : (u'.trapCxPpn * 4096 + 8 * 10) % 4096 + (leEncode 8 0).length ≤ 4096 := by
      rw [leEncode_length]
      omega
    have hm₂ := hm₁.store (hm₁.mem_holding hu hlu) he' hpa hfits
    have hp₂ := hp₁.hosted.proceeds (hm₁.storeTask_follows hu hlu he' hpa hfits) hm₂ (List.Subset.refl _)
    refine ((addTask_mem hm₂ k.next).and (addTask_follows (o := o) k.next _)).mono ?_
    rintro _ k₃ ⟨hm₃, hf⟩
    have hp₃ := hp₂.hosted.proceeds hf hm₃ (List.Subset.refl _)
    -- the child was not there before
    have hnone : k.tasks k.next = none := hm.mem.fresh k.next (Nat.le_refl _)
    exact Or.inr ⟨hp₃.hosted, (hp₁.spares.trans_new hp₂.spares hnone).trans hp₃.spares,
      (hp₃.token.trans hp₂.token).trans hp₁.token⟩

/-- The arguments of `exec` are stored in pages of the new address space, and no table changes. -/
structure Pouring (I : Image) (traps : Bool) (o : Option Nat) (h : Holding) (k k' : Kernel B) : Prop extends
    Storing I traps h k k' where
  follows : Follows o [h] k k'

theorem Pouring.store (hs : Pouring I traps o h k k') {v : Nat} {e : PageTableEntry}
    (he : h.space.translate k'.phys.mem v = some e) {pa : Nat} {bs : List UInt8} (hpa : pa / 4096 = e.ppn)
    (hb : pa % 4096 + bs.length ≤ 4096) :
    Pouring I traps o h k { k' with phys := { k'.phys with mem := k'.phys.mem.write pa bs } } :=
  ⟨hs.toStoring.store he hpa hb, hs.follows.trans (hs.mem.storeMine_follows he hpa hb)⟩

theorem Pouring.storeSlot (hs : Pouring I traps o h k k') {pa : Nat} (hslot : Slot h k.phys.mem pa) (v : Nat) :
    Pouring I traps o h k { k' with phys := { k'.phys with mem := k'.phys.mem.write pa (leEncode 8 v) } } := by
  obtain ⟨w, e, he, hpa, hb⟩ := hslot
  exact hs.store ((hs.same w).trans he) hpa (by rw [leEncode_length]; exact hb)

theorem storeArg_pours (cs : List UInt8) (ptr : Nat) (hs : Pouring I traps o h k k') :
    (storeArg h.space.token cs ptr).wlp (fun _ k'' => Pouring I traps o h k k'') k' := by
  induction cs generalizing ptr k' with
  | nil =>
    rw [storeArg, Comp.wlp_bind]
    refine hs.toStoring.translatedRefmut ptr fun e he => ?_
    rw [wlp_storePhys]
    exact hs.store he (by omega) (by rw [List.length_singleton]; omega)
  | cons c cs ih =>
    rw [storeArg, Comp.wlp_bind]
    refine hs.toStoring.translatedRefmut ptr fun e he => ?_
    rw [Comp.wlp_bind, wlp_storePhys]
    exact ih _ (hs.store he (by omega) (by rw [List.length_singleton]; omega))

theorem pushArgs_pours (args : List (List UInt8)) (slots : List Nat) (userSp : Nat)
    (hs : Pouring I traps o h k k') (hslots : ∀ pa ∈ slots, Slot h k.phys.mem pa) :
    (pushArgs h.space.token args slots userSp).wlp (fun _ k'' => Pouring I traps o h k k'') k' := by
  induction args generalizing slots userSp k' with
  | nil =>
    rw [pushArgs, Comp.wlp_pure]
    · exact hs
    · intro _ _ _ _ hc
      cases hc
  | cons arg args ih =>
    cases slots with
    | nil =>
      rw [pushArgs, Comp.wlp_pure]
      · exact hs
      · intro _ _ _ _ _ hc
        cases hc
    | cons slot slots =>
      rw [pushArgs]
      simp only [Comp.wlp_bind, wlp_storePhys]
      have hstore := hs.storeSlot (hslots slot List.mem_cons_self) (usizeSub userSp (arg.length + 1))
      refine (storeArg_pours arg _ hstore).mono fun _ k'' hs' => ?_
      exact ih slots _ hs' fun pa hpa => hslots pa (List.mem_cons_of_mem _ hpa)

theorem exec_hosted (hm : Calm I traps k) (ho : k.current = o) (hh : Hosted I [] k) (elf : ElfFile)
    (args : List (List UInt8)) (sstatus : Nat) :
    (exec I elf args sstatus).wlp (fun _ k' => Proceeds I o [] k k') k := by
  rw [exec, Comp.wlp_bind]
  refine (fromElf_hosted (o := o) hm.mem hh elf).mono ?_
  rintro ⟨ms, userSp, entryPoint⟩ _ ⟨p, ppn, rfl, hmine, hp₁, hsp⟩
  simp only at hsp hmine hp₁ ⊢
  have hbase : usizeSub userSp (usizeMul (args.length + 1) 8) % 8 = 0 := by
    unfold usizeSub usizeMul
    omega
  rw [Comp.wlp_bind]
  refine (argvSlots_mem _ hbase hmine).mono ?_
  rintro argv _ ⟨rfl, hslots⟩
  simp only [Comp.wlp_bind, Comp.wlp_unwrap, wlp_storePhys]
  intro last hlast
  have hs₀ : Pouring I traps o ⟨ms, if traps then some ppn else none⟩ { k with phys := p } { k with phys := p } :=
    ⟨Storing.refl hmine, Follows.refl _ _ _⟩
  have hs₁ := hs₀.storeSlot (hslots last (List.mem_of_getElem? hlast)) 0
  refine (pushArgs_pours args argv _ hs₁ hslots).mono fun userSp' k₂ hs₂ => ?_
  simp only [wlp_trapCxPpnOf, wlp_currentTask, wlp_task, wlp_setTask]
  intro e he a hc t ht
  have hm₂ := hs₂.mem
  have hp₂ := hp₁.hosted.proceeds hs₂.follows hm₂ (List.Subset.refl _)
  obtain ⟨p₂, rfl⟩ := hs₂.phys
  have hoa : o = some a := ho.symm.trans hc
  subst hoa
  rw [(hm₂.estate.user _ List.mem_cons_self).trap_eq he] at hm₂
  have hl : t.taskStatus ≠ .zombie := hm.live a t hc ht
  have hm₃ := hm₂.swapSpace (u := { t with memorySet := ms, trapCxPpn := e.ppn }) ht hl hl rfl
  have hp₃ : Proceeds I (some a) [] { k with phys := p₂ } { k with
      phys := p₂, tasks := Function.update k.tasks a (some { t with memorySet := ms, trapCxPpn := e.ppn }) } :=
    ⟨hp₂.hosted.give rfl, .update _ k.next, rfl⟩
  refine hm₃.dropMine.wlp.mono ?_
  rintro _ _ ⟨hm₄, hfreed⟩
  have hp₄ := hp₃.hosted.proceeds (hfreed.follows (o := some a)) hm₄ (List.Subset.refl _)
  have hpast := ((hp₁.trans hp₂).trans hp₃).trans hp₄
  obtain ⟨hmem, _, p₃, rfl⟩ := hfreed
  simp only [Comp.wlp_get]
  have hself := Function.update_self a (some { t with memorySet := ms, trapCxPpn := e.ppn }) k.tasks
  have he₃ : ms.translate p₃.mem trapContextVpn = some e := by
    have hmem' : p₃.mem = p₂.mem := hmem
    rw [hmem']
    exact he
  have hpa : e.ppn * 4096 / 4096 = e.ppn := Nat.mul_div_cancel _ (by decide)
  have hfits : ∀ cx : TrapContext, e.ppn * 4096 % 4096 + cx.asBytes.length ≤ 4096 := by
    intro cx
    rw [length_asBytes]
    unfold trapContextSize
    omega
  have hm₅ := fun cx : TrapContext => hm₄.store (hm₄.mem_holding hself hl) he₃ hpa (hfits cx)
  exact hpast.trans (hpast.hosted.proceeds (hm₄.storeTask_follows hself hl he₃ hpa (hfits _)) (hm₅ _)
    (List.Subset.refl _))

/-! ## The start -/

theorem new_hosted (hm : MemOk I traps [] [] k) (hh : Hosted I [] k) (elf : ElfFile) (sstatus : Nat) :
    (new I elf sstatus).wlp (fun _ k' => k'.phys.starved = true ∨ Hosted I [] k') k := by
  rw [new, Comp.wlp_bind]
  refine (fromElf_hosted (o := none) hm hh elf).mono ?_
  rintro ⟨ms, userSp, entryPoint⟩ _ ⟨p, ppn, rfl, hmine, hgo, _⟩
  simp only at hmine hgo ⊢
  rw [Comp.wlp_bind, wlp_trapCxPpnOf]
  intro e he
  rw [Comp.wlp_bind, wlp_pidAlloc, Comp.wlp_bind]
  have hmine' : MemOk I traps [] [⟨ms, if traps then some ppn else none⟩] { k with
      phys := p, pidAllocator := k.pidAllocator.alloc.2 } := hmine.of_eq rfl rfl rfl rfl rfl
  have hhmine' : Hosted I [⟨ms, if traps then some ppn else none⟩] { k with
      phys := p, pidAllocator := k.pidAllocator.alloc.2 } := hgo.hosted.of_eq rfl rfl rfl
  refine ((newKernelStack_mem hmine' _).and (newKernelStack_hosted (o := none) hmine' hhmine' _)).mono ?_
  rintro stack k₁ ⟨⟨hcase, p₁, ks, rfl, hsame⟩, hcase'⟩
  simp only [Comp.wlp_bind, Comp.wlp_get, wlp_storePhys, wlp_newTask]
  rcases hcase with hst | hm₁
  · exact Or.inl hst
  rcases hcase' with hst | hp₁
  · exact Or.inl hst
  have hhead : (⟨ms, if traps then some ppn else none⟩ : Holding) ∈ [⟨ms, if traps then some ppn else none⟩] ++
      overTasks (TaskControlBlock.holding traps) k.tasks k.next := List.mem_cons_self
  -- the new kernel stack has not changed the tables of the address space
  have he₁ : ms.translate p₁.mem trapContextVpn = some e := by
    rw [← he]
    refine (hmine.estate.user _ hhead).sound.tables.translate_congr (hsame.mono fun f hf => ?_) _
    exact List.mem_append_right _ (List.mem_flatMap.mpr ⟨_, hhead, List.mem_append_left _ hf⟩)
  have hfits : ∀ cx : TrapContext, e.ppn * 4096 % 4096 + cx.asBytes.length ≤ 4096 := by
    intro cx
    rw [length_asBytes]
    unfold trapContextSize
    omega
  exact Or.inr (storeNew_hosted (o := none) hm₁ hp₁.hosted he₁ (Nat.mul_div_cancel _ (by decide)) (hfits _) rfl rfl
    (fun hc => by cases hc) rfl).2.hosted

theorem addInitproc_hosted (hm : MemOk I traps [] [] k) (hh : Hosted I [] k) (elf : ElfFile) (sstatus : Nat) :
    (addInitproc I elf sstatus).wlp (fun _ k' => k'.phys.starved = true ∨ Hosted I [] k') k := by
  rw [addInitproc]
  simp only [Comp.wlp_bind, Comp.wlp_modify]
  refine ((new_mem hm elf sstatus).and (new_hosted hm hh elf sstatus)).mono fun c k₁ hk₁ => ?_
  rcases hk₁ with ⟨hst | hm₁, hst' | hh₁⟩
  · exact (lasting_addTask c { k₁ with initproc := some c } hst).mono fun _ _ h => Or.inl h
  · exact (lasting_addTask c { k₁ with initproc := some c } hst).mono fun _ _ h => Or.inl h
  · exact (lasting_addTask c { k₁ with initproc := some c } hst').mono fun _ _ h => Or.inl h
  · have hm₂ : MemOk I traps [] [] { k₁ with initproc := some c } := hm₁.of_eq rfl rfl rfl rfl rfl
    have hh₂ : Hosted I [] { k₁ with initproc := some c } := hh₁.of_eq rfl rfl rfl
    refine ((addTask_mem hm₂ c).and (addTask_follows (o := none) c _)).mono ?_
    rintro _ k₃ ⟨hm₃, hf⟩
    exact Or.inr (hh₂.follows hf hm₃ (List.Subset.refl _))

theorem hosted_init {mem : Mem} {dmaCalls : List Nat} {s : Phys} (hinit : initMemory I mem = some (k.kernelSpace, s))
    (hdma : (virtioDmaAlloc dmaCalls).run s = some (k.queueFrames, k.phys)) (htasks : k.tasks = fun _ => none)
    (hst : k.phys.starved = false) (hm : MemOk I traps [] [] k) : Hosted I [] k := by
  have hs : s.starved = false := by
    by_contra hc
    have hlast : k.phys.starved = true :=
      lasting_virtioDmaAlloc dmaCalls s (Bool.eq_true_of_not_eq_false hc) _ _ hdma
    rw [hst] at hlast
    cases hlast
  have hk : KernelSpace I.toLayout [] s k.kernelSpace := .newKernel (held_init I.toLayout) hinit hs
  have hheld := hk.wired.1.good.held
  rw [List.append_nil] at hheld
  obtain ⟨_, hsame⟩ := virtioDmaAlloc_held dmaCalls hheld _ _ hdma
  refine ⟨fun a t ht => ?_, fun _ hc => absurd hc List.not_mem_nil, ?_⟩
  · rw [htasks] at ht
    cases ht
  · exact ⟨_, .other hk (hsame.mono (List.subset_append_left _ _)) hm.estate.goodKernel.held⟩

theorem start_hosted {mem : Mem} {dmaCalls : List Nat} {s : Phys} {elf : ElfFile} {sstatus : Nat}
    (hinit : initMemory I mem = some (k.kernelSpace, s))
    (hdma : (virtioDmaAlloc dmaCalls).run s = some (k.queueFrames, k.phys)) (htasks : k.tasks = fun _ => none)
    (hnext : k.next = 0) (hrun : (addInitproc I elf sstatus).run k = some ((), k')) :
    k'.phys.starved = true ∨ Hosted I [] k' := by
  by_cases hst : k.phys.starved = true
  · exact Or.inl (lasting_addInitproc (I := I) elf sstatus _ hst _ _ hrun)
  · have hmem : _ ∨ MemOk I false [] [] k := memOk_init hinit hdma htasks hnext
    have hm := hmem.resolve_left hst
    exact addInitproc_hosted hm (hosted_init hinit hdma htasks (Bool.eq_false_of_not_eq_true hst) hm) elf sstatus
      _ _ hrun

theorem boot_hosted {mem : Mem} {dmaCalls : List Nat} {elf : ElfFile} {sstatus : Nat}
    (h : boot I mem dmaCalls elf sstatus = some k) : k.phys.starved = true ∨ Hosted I [] k := by
  rw [boot] at h
  simp only [Option.bind_eq_bind, Option.bind_eq_some_iff] at h
  obtain ⟨⟨ks, s₁⟩, hinit, ⟨queueFrames, s₂⟩, hdma, h⟩ := h
  obtain ⟨⟨u, k'⟩, hrun, rfl⟩ := Option.map_eq_some_iff.mp h
  exact start_hosted hinit hdma rfl rfl hrun

/-! ## Runs -/

/-- **A contained step** keeps the address spaces such ones, and spares the processes that do not make it. -/
theorem step_hosted (hok : k.table.Ok 0) (hm : MemOk I traps [] [] k) (hh : Hosted I [] k) {op : Op}
    (hop : Contained traps k op) :
    (step I op).wlp (fun _ k' => k'.phys.starved = true ∨ Proceeds I k.current [] k k') k := by
  have hc : Calm I traps k := ⟨hm, live_of_ok hok⟩
  have ends : ∀ {α : Type} {x : Comp (Kernel B) α}, x.wlp (fun _ k' => Proceeds I k.current [] k k') k →
      x.wlp (fun _ k' => k'.phys.starved = true ∨ Proceeds I k.current [] k k') k :=
    fun hx => hx.mono fun _ _ h => Or.inr h
  have follows : ∀ {α : Type} {x : Comp (Kernel B) α}, x.wlp (fun _ k' => MemOk I traps [] [] k') k →
      x.wlp (fun _ k' => Follows k.current [] k k') k →
      x.wlp (fun _ k' => k'.phys.starved = true ∨ Proceeds I k.current [] k k') k :=
    fun hx hf => (hx.and hf).mono fun _ _ h => Or.inr (hh.proceeds h.2 h.1 (List.Subset.refl _))
  have calm : ∀ {α : Type} {x : Comp (Kernel B) α}, x.wlp (fun _ k' => Calm I traps k') k →
      x.wlp (fun _ k' => Follows k.current [] k k') k →
      x.wlp (fun _ k' => k'.phys.starved = true ∨ Proceeds I k.current [] k k') k :=
    fun hx hf => follows (hx.mono fun _ _ h => h.mem) hf
  cases op with
  | runTasks => exact then_pure (follows (runTasks_mem hok.sched hm) (runTasks_follows hok.sched)) _
  | yield => exact then_pure (follows (suspend_mem hc) (suspend_follows hc.live)) _
  | exit exitCode => exact then_pure (ends (exit_hosted hc rfl hh exitCode)) _
  | fork => exact sysFork_hosted hc hh
  | exec elf args sstatus => exact then_pure (ends (exec_hosted hc rfl hh elf args sstatus)) _
  | waitpid pid ptr => exact ends (sysWaitpid_hosted hc rfl hh pid ptr hop)
  | setPriority prio => exact follows (sysSetPriority_mem hc prio) (sysSetPriority_follows prio k)
  | mmap start len prot => exact mmap_hosted hc rfl hh start len prot
  | munmap start len => exact ends (munmap_hosted hc rfl hh start len hop)
  | userStore va b => exact then_pure (follows (userStore_mem hc va b) (userStore_follows hc rfl va b)) _
  | kill pid signum => exact calm (sysKill_calm hc pid signum) (sysKill_follows pid signum k)
  | sigprocmask mask => exact calm (sysSigprocmask_calm hc mask) (sysSigprocmask_follows mask k)
  | sigaction signum action oldAction pad =>
    exact calm (sysSigaction_calm hc signum action oldAction pad hop)
      (sysSigaction_follows hc rfl signum action oldAction pad hop)
  | sigreturn =>
    have htraps : traps = true := hop
    subst htraps
    exact calm (sysSigreturn_calm hc) (sysSigreturn_follows hc rfl)
  | addSignal signal =>
    exact then_pure (calm (currentAddSignal_calm hc signal) (currentAddSignal_follows signal k)) _
  | checkPendingSignals =>
    have htraps : traps = true := hop
    subst htraps
    exact then_pure (calm (checkPendingLoop_calm _ hc) (checkPendingLoop_follows _ hc rfl)) _

/-- **The hart can follow the address spaces in every state** of a run of contained steps in which
`frame_alloc` never returns `None`. -/
theorem Reached.hosted (h : Reached I (Within traps) k) (hs : k.phys.starved = false) : Hosted I [] k := by
  induction h with
  | boot hb =>
    rcases boot_hosted hb with hst | hh
    · rw [hs] at hst
      cases hst
    · exact hh
  | step op hk hok hrun ih =>
    rcases step_hosted hk.ok (hk.mem hok.1) (ih hok.1) hok.2 _ _ hrun with hst | hgo
    · rw [hs] at hst
      cases hst
    · exact hgo.hosted

end Kernel

end RCore.Task
