import RCore.Task.Verify.Scheduling
import RCore.Task.Verify.Spawn

/-!
# Memory isolation and the trap pages

What `MemOk` says about a state that is reached: which frame is mapped where, and that the trap pages
are in place. A run keeps it as long as every step is `Contained` and `frame_alloc` has not failed.
-/

namespace RCore.Task

open RCore Mm

namespace Kernel

variable {B : BinaryHeap} {I : Image} {traps : Bool} {k k' : Kernel B}

/-! ## Runs -/

/-- The steps that keep the memory in order. With `traps`, the trap contexts must be in place, and are
kept there; without, the steps that store to them by their frame are left out. -/
def Contained (traps : Bool) (k : Kernel B) : Op → Prop
  | .waitpid pid exitCodePtr => ∀ a t, k.current = some a → k.tasks a = some t →
      t.children.any (k.collects pid) → exitCodePtr % 4096 ≤ 4092
  | .sigaction _ _ oldAction _ => oldAction % 4096 ≤ 4080
  | .munmap start len => traps = true → trapContextVpn ∉ munmapPages start len
  | .sigreturn => traps = true
  | .checkPendingSignals => traps = true
  | _ => True

theorem then_pure {α β : Type} {x : Comp (Kernel B) α} {Q : Kernel B → Prop} {k : Kernel B}
    (hx : x.wlp (fun _ => Q) k) (r : β) : (do let _ ← x; pure r).wlp (fun _ => Q) k := by
  rw [Comp.wlp_bind]
  refine hx.mono fun _ k' hk' => ?_
  rw [Comp.wlp_pure]
  exact hk'

/-- **Every contained step keeps the memory in order.** -/
theorem step_mem (hok : k.table.Ok 0) (hm : MemOk I traps [] [] k) {op : Op}
    (hop : Contained traps k op) :
    (step I op).wlp (fun _ k' => k'.phys.starved = true ∨ MemOk I traps [] [] k') k := by
  have hc : Calm I traps k := ⟨hm, live_of_ok hok⟩
  have weaken : ∀ {α : Type} {x : Comp (Kernel B) α}, x.wlp (fun _ k' => MemOk I traps [] [] k') k →
      x.wlp (fun _ k' => k'.phys.starved = true ∨ MemOk I traps [] [] k') k :=
    fun hx => hx.mono fun _ _ h => Or.inr h
  have calm : ∀ {α : Type} {x : Comp (Kernel B) α}, x.wlp (fun _ k' => Calm I traps k') k →
      x.wlp (fun _ k' => k'.phys.starved = true ∨ MemOk I traps [] [] k') k :=
    fun hx => hx.mono fun _ _ h => Or.inr h.mem
  cases op with
  | runTasks => exact then_pure (weaken (runTasks_mem hok.sched hm)) _
  | yield => exact then_pure (weaken (suspend_mem hc)) _
  | exit exitCode => exact then_pure (weaken (exit_mem hc exitCode)) _
  | fork => exact (sysFork_mem hc).mono fun _ _ h => h.1
  | exec elf args sstatus => exact then_pure (weaken (exec_mem hc elf args sstatus)) _
  | waitpid pid ptr => exact weaken (sysWaitpid_mem hc pid ptr hop)
  | setPriority prio => exact weaken (sysSetPriority_mem hc prio)
  | mmap start len prot => exact onMemorySet_mmap_mem hc start len prot
  | munmap start len => exact weaken (onMemorySet_munmap_mem hc start len hop)
  | userStore va b => exact then_pure (weaken (userStore_mem hc va b)) _
  | kill pid signum => exact calm (sysKill_calm hc pid signum)
  | sigprocmask mask => exact calm (sysSigprocmask_calm hc mask)
  | sigaction signum action oldAction pad =>
    exact calm (sysSigaction_calm hc signum action oldAction pad hop)
  | sigreturn =>
    have htraps : traps = true := hop
    subst htraps
    exact calm (sysSigreturn_calm hc)
  | addSignal signal => exact then_pure (calm (currentAddSignal_calm hc signal)) _
  | checkPendingSignals =>
    have htraps : traps = true := hop
    subst htraps
    exact then_pure (calm (checkPendingLoop_calm _ hc)) _

/-- The runs in which every step is contained and `frame_alloc` never returns `None`. -/
abbrev Within (traps : Bool) (k : Kernel B) (op : Op) : Prop :=
  k.phys.starved = false ∧ Contained traps k op

/-- **The memory is in order in every state of such a run.** -/
theorem Reached.mem (h : Reached I (Within traps) k) (hs : k.phys.starved = false) :
    MemOk I traps [] [] k := by
  induction h with
  | boot hb =>
    have hmem : _ ∨ MemOk I traps [] [] _ := boot_mem hb
    rcases hmem with hst | hm
    · rw [hs] at hst
      cases hst
    · exact hm
  | step op hk hok hrun ih =>
    rcases step_mem hk.ok (ih hok.1) hok.2 _ _ hrun with hst | hm
    · rw [hs] at hst
      cases hst
    · exact hm

/-! ## Isolation -/

variable {a b : Nat} {t u : TaskControlBlock}

/-- The frames of the other tasks, whether they have exited or not. -/
theorem owned_subset_otherFrames (hn : ∀ a t, k.tasks a = some t → a < k.next) (hu : k.tasks b = some u)
    (hne : b ≠ a) : u.memorySet.owned ⊆ otherFrames traps [] [] k a := by
  have hu' : Function.update k.tasks a none b = some u := (Function.update_of_ne hne _ _).trans hu
  intro f hf
  by_cases hz : u.taskStatus = .zombie
  · have hhusk : f ∈ overTasks TaskControlBlock.husk (Function.update k.tasks a none) k.next :=
      mem_overTasks (hn b u hu) hu' (by rw [TaskControlBlock.husk_zombie hz]; exact hf)
    exact List.mem_append_right _ (List.mem_append_left _
      (List.mem_append_right _ (List.mem_append_right _ hhusk)))
  · have hhold := mem_overTasks (g := TaskControlBlock.holding traps) (hn b u hu) hu'
      (by rw [TaskControlBlock.holding_live hz]; exact List.mem_cons_self)
    exact Estate.mem_owned (h := ⟨u.memorySet, if traps then some u.trapCxPpn else none⟩) hhold hf

/-- A frame behind a page of a process: it is one of its areas' frames. -/
theorem MemOk.page (hm : MemOk I traps [] [] k) (ht : k.tasks a = some t) (hl : t.taskStatus ≠ .zombie)
    {v : Nat} {e : PageTableEntry} (hv : v < 2 ^ 27) (hvt : v ≠ trampolineVpn)
    (he : t.memorySet.translate k.phys.mem v = some e) :
    e.ppn ∈ t.memorySet.frames ∧ ∃ area ∈ t.memorySet.areas, (v, e.ppn) ∈ area.dataFrames := by
  have hg := hm.goodTask ht hl
  have hfr := (hm.task_ok ht hl).framed
  refine ⟨hg.ppn_mem hfr hv hvt he, ?_⟩
  rcases hg.translate_framed hfr hv he with ⟨hc, _⟩ | ⟨area, ha, f, hf, hppn, _⟩
  · exact absurd hc hvt
  · rw [hppn]
    exact ⟨area, ha, hf⟩

/-- **Memory isolation.** Apart from the trampoline's, the pages of a live process are mapped to the
frames that its own areas hold for them, and to nothing else; such a frame is mapped nowhere else, is
not free, and is no page table. -/
structure Isolated (k : Kernel B) : Prop where
  mapped : ∀ a t v e, k.tasks a = some t → t.taskStatus ≠ .zombie → v < 2 ^ 27 → v ≠ trampolineVpn →
    t.memorySet.translate k.phys.mem v = some e →
      ∃ area ∈ t.memorySet.areas, (v, e.ppn) ∈ area.dataFrames
  held : ∀ a t area v f, k.tasks a = some t → t.taskStatus ≠ .zombie → area ∈ t.memorySet.areas →
    (v, f) ∈ area.dataFrames → ∃ e, t.memorySet.translate k.phys.mem v = some e ∧ e.ppn = f
  alone : ∀ a t v e b u w e', k.tasks a = some t → t.taskStatus ≠ .zombie → v < 2 ^ 27 →
    v ≠ trampolineVpn → t.memorySet.translate k.phys.mem v = some e →
    k.tasks b = some u → u.taskStatus ≠ .zombie → w < 2 ^ 27 → w ≠ trampolineVpn →
    u.memorySet.translate k.phys.mem w = some e' → e.ppn = e'.ppn → a = b ∧ v = w
  out : ∀ a t v e, k.tasks a = some t → t.taskStatus ≠ .zombie → v < 2 ^ 27 → v ≠ trampolineVpn →
    t.memorySet.translate k.phys.mem v = some e →
      e.ppn < k.phys.frames.current ∧ e.ppn ∉ k.phys.frames.recycled
  noTable : ∀ a t v e, k.tasks a = some t → t.taskStatus ≠ .zombie → v < 2 ^ 27 → v ≠ trampolineVpn →
    t.memorySet.translate k.phys.mem v = some e → e.ppn ∉ k.kernelSpace.pageTable.frames ∧
      ∀ b u, k.tasks b = some u → e.ppn ∉ u.memorySet.pageTable.frames

theorem MemOk.isolated (hm : MemOk I traps [] [] k) : Isolated k := by
  have hn : ∀ a t, k.tasks a = some t → a < k.next := fun a t ht => hm.lt_next ht
  have hheld : ∀ {a t}, k.tasks a = some t → t.taskStatus ≠ .zombie → ∀ {f}, f ∈ t.memorySet.frames →
      f ∈ framesOf k.kernelSpace ([] ++ (k.queueFrames ++ overTasks TaskControlBlock.husk k.tasks k.next))
        ([] ++ overTasks (TaskControlBlock.holding traps) k.tasks k.next) :=
    fun ht hl _ hf => Estate.mem_owned (hm.mem_holding ht hl) (List.mem_append_right _ hf)
  constructor
  · intro a t v e ht hl hv hvt he
    exact (hm.page ht hl hv hvt he).2
  · intro a t area v f ht hl ha hf
    obtain ⟨e, he, hppn, _⟩ := (hm.goodTask ht hl).translate_area (hm.task_ok ht hl).framed ha hf
    exact ⟨e, he, hppn⟩
  · intro a t v e b u w e' ht hl hv hvt he hu hl' hw hwt he' hppn
    have hin := (hm.page ht hl hv hvt he).1
    have hin' := (hm.page hu hl' hw hwt he').1
    have hab : a = b := by
      by_contra hne
      refine (hm.goodTask ht hl).frame_apart hin (List.mem_append_right _ ?_)
      rw [hppn]
      exact owned_subset_otherFrames hn hu (Ne.symm hne) (List.mem_append_right _ hin')
    subst hab
    have htu : u = t := Option.some.inj (hu.symm.trans ht)
    subst htu
    exact ⟨rfl, (hm.goodTask ht hl).ppn_inj (hm.task_ok ht hl).framed hv hw he he' hppn⟩
  · intro a t v e ht hl hv hvt he
    have hin := hheld ht hl (hm.page ht hl hv hvt he).1
    exact ⟨hm.estate.held.ledger.lt_of_mem hin, hm.estate.held.ledger.not_mem_free hin⟩
  · intro a t v e ht hl hv hvt he
    have hin := (hm.page ht hl hv hvt he).1
    have hout := (hm.goodTask ht hl).frame_apart hin
    refine ⟨fun hc => ?_, fun b u hu hc => ?_⟩
    · exact hout (List.mem_append_right _ (List.mem_append_left _ (List.mem_append_left _ hc)))
    · by_cases hba : b = a
      · subst hba
        have htu : u = t := Option.some.inj (hu.symm.trans ht)
        subst htu
        exact hout (List.mem_append_left _ hc)
      · exact hout (List.mem_append_right _
          (owned_subset_otherFrames hn hu hba (List.mem_append_left _ hc)))

/-- **Processes are isolated** in every state of a run in which no `sys_waitpid` that collects a child
stores its exit code across the end of a page. -/
theorem processes_isolated (h : Reached I (Within false) k) (hs : k.phys.starved = false) : Isolated k :=
  (h.mem hs).isolated

/-! ## The trap pages -/

/-- The trap pages of a task are in place. -/
structure TrapPages (I : Image) (k : Kernel B) (t : TaskControlBlock) : Prop where
  trampoline : ∃ e, t.memorySet.translate k.phys.mem trampolineVpn = some e ∧ e.ppn = I.trampolinePpn ∧
    e.flags = PTEFlags.R ||| PTEFlags.X ||| PTEFlags.V
  trapContext : ∃ e, t.memorySet.translate k.phys.mem trapContextVpn = some e ∧ e.ppn = t.trapCxPpn ∧
    e.flags = PTEFlags.R ||| PTEFlags.W ||| PTEFlags.V
  out : t.trapCxPpn < k.phys.frames.current ∧ t.trapCxPpn ∉ k.phys.frames.recycled

theorem MemOk.trapPages (hm : MemOk I true [] [] k) (ht : k.tasks a = some t)
    (hl : t.taskStatus ≠ .zombie) : TrapPages I k t := by
  have hg := hm.goodTask ht hl
  have htrap := (hm.task_ok ht hl).trap t.trapCxPpn rfl
  obtain ⟨e, he, hppn, _⟩ := id htrap
  refine ⟨⟨_, hg.translate_trampoline, ?_, ?_⟩, htrap, ?_⟩
  · exact PageTableEntry.ppn_new I.trampolinePpn_lt_pow _
  · exact PageTableEntry.flags_new I.trampolinePpn_lt_pow _
  · rw [← hppn]
    exact hm.isolated.out a t trapContextVpn e ht hl (by decide) (by decide) he

/-- **Every process keeps its trap pages** in every state of a run in which no `sys_munmap` takes the
page of the trap context away and no store of the kernel goes across the end of a page. -/
theorem trap_pages_kept (h : Reached I (Within true) k) (hs : k.phys.starved = false)
    (ht : k.tasks a = some t) (hl : t.taskStatus ≠ .zombie) : TrapPages I k t :=
  (h.mem hs).trapPages ht hl

theorem trap_pages_kept_start : ∃ (k : Kernel listHeap) (a : Nat) (t : TaskControlBlock),
    k.current = some a ∧ k.tasks a = some t ∧ TrapPages fourMegabytes k t := by
  obtain ⟨k, a, t, hk, _, halone⟩ := exists_alone (Within true) fun _ hs => ⟨hs, trivial⟩
  exact ⟨k, a, t, halone.current, halone.task_eq,
    trap_pages_kept hk halone.starved halone.task_eq (by rw [halone.status]; decide)⟩

theorem step_munmap (I : Image) (start len : Nat) : (step I (.munmap start len) : Comp (Kernel B) Int) =
    onMemorySet fun ms => sysMunmap ms start len := rfl

/-- A process can unmap its trap context: `sys_munmap` of that page returns 0, and the process goes on
without it. -/
theorem munmap_trap_context : ∃ (k k' : Kernel listHeap) (a : Nat) (t : TaskControlBlock),
    Reached fourMegabytes (fun _ _ => True) k ∧
    (step fourMegabytes (.munmap trapContext 0x1000)).run k = some (0, k') ∧
    k'.phys.starved = false ∧ k'.current = some a ∧ k'.tasks a = some t ∧ t.taskStatus = .running ∧
    t.memorySet.translate k'.phys.mem trapContextVpn = none := by
  obtain ⟨k, a, t, hk, _, halone⟩ := exists_alone (Within true) fun _ hs => ⟨hs, trivial⟩
  have ht := halone.task_eq
  have hl : t.taskStatus ≠ .zombie := by
    rw [halone.status]
    decide
  have hm := hk.mem halone.starved
  have hg := hm.goodTask ht hl
  have hfr := (hm.task_ok ht hl).framed
  obtain ⟨e, he, _⟩ := (hm.task_ok ht hl).trap _ rfl
  have hkey : trapContextVpn ∈ (t.memorySet.entries fourMegabytes.toLayout).map Prod.fst := by
    by_contra hno
    rw [(hg.translate_none_iff (by decide)).mpr hno] at he
    cases he
  have hpage : trapContextVpn ∈ t.memorySet.pages := (hg.mem_pages hfr).mpr ⟨hkey, by decide⟩
  have hrange : ∀ v ∈ pagesBetween (VirtAddr.ofUsize trapContext)
      (VirtAddr.ofUsize (usizeAdd trapContext (roundUp 0x1000))), v = trapContextVpn := by decide
  obtain ⟨⟨r, ms⟩, p, hrun, hr, _, hR⟩ := sysMunmap_ok hg hfr trapContext 0x1000 (by decide) (by decide)
    fun v hv => (hrange v hv).symm ▸ hpage
  simp only at hr hR
  subst hr
  have hnone : ms.translate p.mem trapContextVpn = none := by
    rw [hR.good.translate_none_iff (by decide)]
    intro hkey'
    have hpage' := (hR.good.mem_pages hR.framed).mpr ⟨hkey', by decide⟩
    exact ((hR.mem_pages hg hfr).mp hpage').2 (by decide)
  have hstep := onMemorySet_run (x := fun ms => sysMunmap ms trapContext 0x1000) halone.current ht hrun
  rw [← step_munmap fourMegabytes] at hstep
  let u : TaskControlBlock := { t with memorySet := ms }
  exact ⟨k, { k with phys := p, tasks := Function.update k.tasks a (some u) }, a, u,
    hk.mono fun _ _ _ => trivial, hstep, hR.starved.trans halone.starved, halone.current,
    Function.update_self _ _ _, halone.status, hnone⟩

end Kernel

end RCore.Task
