import RCore.Mm.Verify.Spaces
import RCore.Task.Verify.Isolation

/-!
# A child

What `fork` gives to a child, and that it gets there: with frames for the copy, `INITPROC` gets its
first child.
-/

namespace RCore.Task

open RCore Mm

namespace Kernel

variable {B : BinaryHeap} {I : Image} {traps : Bool} {k k' : Kernel B} {a : Nat}
  {t : TaskControlBlock}

/-! ## The first child of `INITPROC` -/

/-- The copy of a space that is full, and what it costs. -/
theorem fromExistedUserspace_ok {L : Layout} {rest : List Nat} {s : Phys} {ms : MemorySet} {n : Nat}
    (hp : Good L rest s ms) (hpf : ms.Framed) (hfull : ms.Full) (hfree : ms.copyCost + n ≤ s.frames.free) :
    (MemorySet.fromExistedUserspace L ms).wp (fun c s' => Copying L rest s ms ms.areas s' c ∧
      n ≤ s'.frames.free) s := by
  rcases fromExistedUserspace_run hp hpf with ⟨s', c, hrun, hcopy⟩ | ⟨hbad, _⟩
  · refine ⟨c, s', hrun, hcopy, ?_⟩
    have hcost := hcopy.free
    unfold MemorySet.copyCost at hfree
    omega
  · rcases hbad with hbad | hbad
    · omega
    · exact absurd hfull hbad

/-- **`sys_fork` of the only task returns.** -/
theorem Alone.sysFork_ok (h : Alone k a t) (hm : MemOk I true [] [] k) (hprio : t.priority ≠ 0) :
    (sysFork I).wp (fun r _ => r = 1) k := by
  have ht := h.task_eq
  have hl : t.taskStatus ≠ .zombie := by
    rw [h.status]
    decide
  have hg := hm.goodTask ht hl
  have hfr := (hm.task_ok ht hl).framed
  have hcost : t.memorySet.copyCost + 80 ≤ k.phys.frames.free := by
    have hle := t.memorySet.copyCost_le
    rw [h.roomy.ranges] at hle
    have hfour : (List.map (fun p : Nat × Nat => p.2 - p.1) [(0x10, 0x11), (0x12, 0x14),
      (trapContextVpn, trampolineVpn)]).sum = 4 := by decide
    have hfree := h.roomy.free
    omega
  obtain ⟨c, p, hrun, hcopy, hfree⟩ := fromExistedUserspace_ok hg hfr h.roomy.full hcost
  -- the memory is in order with the copy in a local variable
  have hmine := fromExistedUserspace_mem hm ht hl
  rw [wlp_onPhys] at hmine
  obtain ⟨_, _, _, ppn, hm₁⟩ := hmine c p hrun
  obtain ⟨e, he, _⟩ := (hm₁.estate.user _ List.mem_cons_self).trap ppn rfl
  have hsite : Site I.toLayout _ p p k.kernelSpace k.kernelSpace.ranges (74 + 6) :=
    ⟨⟨hm₁.estate.goodKernel, hm₁.estate.full, Keeps.refl _ _⟩, rfl, hfree⟩
  simp only [sysFork, fork, Comp.wp_bind, currentTask, Comp.wp_get, Comp.wp_unwrap, wp_task, wp_onPhys, pidAlloc,
    Comp.wp_modify, Comp.wp_pure, h.roomy.pids]
  refine ⟨a, h.current, t, ht, (Comp.wp_of_run hrun _).mpr ?_⟩
  refine (newKernelStack_ok (k := { k with phys := p, pidAllocator := ⟨2, []⟩ })
    (l := 2 ^ 27 - 6) (r := 2 ^ 27 - 4) hsite (by decide) (by decide)
    (by decide) (by decide) (fun q hq => ?_) (by decide)).mono ?_
  · rcases h.roomy.kernelStacks q hq with hq | rfl
    · exact Or.inr (hq.trans (by decide))
    · exact Or.inl (by decide)
  rintro stack k₁ ⟨_, ks, p₁, rfl, hs₁⟩
  have hkept : c.translate p₁.mem trapContextVpn = some e := by
    rw [← he]
    refine (hcopy.child.owns.tables).translate_congr (hs₁.whole.keeps.same.mono fun f hf => ?_) _
    exact List.mem_append_right _ (List.mem_flatMap.mpr ⟨_, List.mem_cons_self, List.mem_append_left _ hf⟩)
  simp only [trapCxPpnOf, storePhys, newTask, setTask, addTask, Comp.wp_bind, Comp.wp_get,
    Comp.wp_unwrap, Comp.wp_modify, Comp.wp_pure, Comp.wp_assert, wp_task, floor_trapContext]
  have hne : a ≠ k.next := Nat.ne_of_lt (hm.lt_next ht)
  have hchild : ∀ (x : TaskControlBlock) (y : Option TaskControlBlock),
      Function.update (Function.update k.tasks k.next (some x)) a y k.next = some x := fun x y =>
    (Function.update_of_ne hne.symm _ _).trans (Function.update_self _ _ _)
  exact ⟨e, hkept, _, hchild _ _, _, hchild _ _, hprio, rfl⟩

/-! ## What a child gets -/

/-- **`fork` makes an exact and separate copy.** When `from_existed_userspace` returns, the child's
address space is a copy of its parent's; when `sys_fork` returns, the child's trap context is the
parent's with 0 in `x[10]` and the child's own kernel stack. -/
theorem fork_copies :
    (∀ {L : Layout} {rest : List Nat} {s s' : Phys} {ms c : MemorySet}, UserSpace L rest s ms →
      (MemorySet.fromExistedUserspace L ms).run s = some (c, s') → ExactCopy s s' ms c) ∧
    (∀ {r : Int}, Reached I (Within traps) k → k.phys.starved = false →
      (step I .fork).run k = some (r, k') →
        ∃ a t, k.current = some a ∧ k.tasks a = some t ∧ ForkedAt k t k') := by
  constructor
  · intro L rest s s' ms c h hrun
    obtain ⟨hp, hpf⟩ := h.good
    exact (fromExistedUserspace_wlp hp hpf c s' hrun).exact hp hpf
  · intro r h hs hrun
    have hc : Calm I traps k := ⟨h.mem hs, live_of_ok h.ok⟩
    exact (sysFork_mem hc r k' hrun).2

theorem fork_copies_start :
    (∃ s s' ms c, (MemorySet.fromExistedUserspace smallKernel ms).run s = some (c, s') ∧
      ExactCopy s s' ms c) ∧
    (∃ (k k' : Kernel listHeap) (a : Nat) (t : TaskControlBlock),
      (step fourMegabytes .fork).run k = some (1, k') ∧ k.tasks a = some t ∧ ForkedAt k t k') := by
  obtain ⟨k, a, t, hk, hborn, halone⟩ := exists_alone (Within true) fun _ hs => ⟨hs, trivial⟩
  have hprio : t.priority ≠ 0 := by
    have h16 : t.priority = 16 := hborn.priority
    omega
  obtain ⟨_, k', hrun, rfl⟩ := halone.sysFork_ok (hk.mem halone.starved) hprio
  have hfork := @fork_copies listHeap fourMegabytes true k k'
  obtain ⟨s, ms, hu, _, c, s', hcopy⟩ := fork_returns_loaded
  obtain ⟨b, u, _, hu', hforked⟩ := hfork.2 hk halone.starved hrun
  exact ⟨⟨s, s', ms, c, hcopy, hfork.1 hu hcopy⟩, k, k', b, u, hrun, hu', hforked⟩

end Kernel

end RCore.Task
