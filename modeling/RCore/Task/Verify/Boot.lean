import RCore.Mm.Verify.Spaces
import RCore.Task.Process

/-!
# The kernel starts

A machine whose image leaves enough frames free starts with a program of one page as `INITPROC`:
nothing on the way to `run_tasks` panics, and there is room for a child.
-/

namespace RCore.Task

open RCore Mm

namespace Kernel

variable {B : BinaryHeap} {α : Type} {k : Kernel B}

theorem wp_onPhys (x : Comp Phys α) (Q : α → Kernel B → Prop) (k : Kernel B) :
    (onPhys x).wp Q k ↔ x.wp (fun r p => Q r { k with phys := p }) k.phys := by
  rw [onPhys, Comp.wp_zoom]

theorem wp_task (a : Nat) (Q : TaskControlBlock → Kernel B → Prop) :
    (task a).wp Q k ↔ ∃ t, k.tasks a = some t ∧ Q t k := by
  rw [task]
  simp only [Comp.wp_bind, Comp.wp_get, Comp.wp_unwrap]

/-- Another owner's memory set is still good after what keeps its frames. -/
theorem beside {L : Layout} {s₀ s s' : Phys} {ks ms : MemorySet} (hk : Whole L [] s₀ s ks)
    (hm : Whole L ks.owned s s' ms) : Whole L ms.owned s' s' ks := by
  refine ⟨?_, hk.full, Keeps.refl _ _⟩
  refine hk.good.congr (hm.keeps.same.mono ?_) ?_
  · exact List.subset_append_left _ _
  · exact hm.good.held.perm List.perm_append_comm

/-- A new kernel stack can be mapped next to the others. -/
theorem newKernelStack_ok {L : Layout} {rest : List Nat} {s₀ : Phys} {ranges : List (Nat × Nat)}
    {pid l r free : Nat} (h : Site L rest s₀ k.phys k.kernelSpace ranges (free + 6))
    (hl : (VirtAddr.ofUsize (kernelStackPosition pid).1).floor = l)
    (hr : (VirtAddr.ofUsize (kernelStackPosition pid).2).ceil = r) (hle : l ≤ r)
    (hrt : r ≤ trampolineVpn) (hout : ∀ p ∈ ranges, r ≤ p.1 ∨ p.2 ≤ l) (hn : r - l ≤ 2) :
    (newKernelStack pid).wp (fun stack k' => stack = pid ∧ ∃ ms p,
      k' = { k with phys := p, kernelSpace := ms } ∧ Site L rest s₀ p ms (ranges ++ [(l, r)]) free) k := by
  have hle' : (VirtAddr.ofUsize (kernelStackPosition pid).1).floor ≤
      (VirtAddr.ofUsize (kernelStackPosition pid).2).ceil := by
    rw [hl, hr]
    exact hle
  rw [newKernelStack]
  simp only [Comp.wp_bind, Comp.wp_get, wp_onPhys, MemorySet.insertFramedArea, MapArea.new,
    VPNRange.wp_new, Comp.wp_pure]
  refine ⟨hle', (h.pushArea_ok .framed _ hl hr hrt hout hn (by decide) hle').mono ?_⟩
  rintro ⟨x, ms⟩ p ⟨hok, hs⟩
  simp only at hok
  subst hok
  simp only [Comp.wp_modify, Comp.wp_pure]
  exact ⟨trivial, ms, p, rfl, hs⟩

/-- A task as `TaskControlBlock::new` makes it. -/
structure Newborn (t : TaskControlBlock) : Prop where
  status : t.taskStatus = .ready
  signals : t.signals = 0
  signalMask : t.signalMask = 0
  handlingSig : t.handlingSig = -1
  signalActions : t.signalActions = List.replicate 32 SignalAction.default
  killed : t.killed = false
  frozen : t.frozen = false
  children : t.children = []
  priority : t.priority = 16

/-- There is room for a child of `t`, which has the pages it was loaded with. -/
structure Roomy (k : Kernel B) (t : TaskControlBlock) : Prop where
  full : t.memorySet.Full
  ranges : t.memorySet.ranges = [(0x10, 0x11), (0x12, 0x14), (trapContextVpn, trampolineVpn)]
  kernelStacks : ∀ p ∈ k.kernelSpace.ranges, p.2 ≤ 0x80800 ∨ p = (2 ^ 27 - 3, trampolineVpn)
  pids : k.pidAllocator = ⟨1, []⟩
  free : 100 ≤ k.phys.frames.free

/-- `t`, at the address `a`, is `INITPROC`, the only task, and no task runs. -/
structure Started (k : Kernel B) (a : Nat) (t : TaskControlBlock) : Prop where
  newborn : Newborn t
  starved : k.phys.starved = false
  current : k.current = none
  initproc : k.initproc = some a
  tasks : k.tasks = Function.update (fun _ => none) a (some t)
  readyQueue : k.readyQueue = [(t.pid, a)]
  roomy : Roomy k t

theorem addInitproc_ok (I : Image) {code : List UInt8} (hcode : code.length ≤ 4096) (sstatus : Nat)
    (hpids : k.pidAllocator = ⟨0, []⟩) {s₀ : Phys} (hks : Whole I.toLayout [] s₀ k.phys k.kernelSpace)
    (hranges : ∀ p ∈ k.kernelSpace.ranges, p.2 ≤ 0x80800) (hfree : 125 ≤ k.phys.frames.free)
    (hstarved : k.phys.starved = false) (hcurrent : k.current = none) (htasks : k.tasks = fun _ => none)
    (hready : k.readyQueue = []) :
    (addInitproc I (onePage code) sstatus).wp (fun _ k' => ∃ a t, Started k' a t) k := by
  have hheld : Held I.firstFrame k.phys.frames k.kernelSpace.owned := by
    have hh := hks.good.held
    rwa [List.append_nil] at hh
  rw [addInitproc, new]
  simp only [Comp.wp_bind, wp_onPhys]
  obtain ⟨⟨ms, userSp, entry⟩, s₁, hrun, hs⟩ := fromElf_ok hheld code hcode (100 + 6) hfree
  obtain ⟨_, _, ppn, pte, hpte, _, _⟩ := fromElf_wlp hheld (onePage code) _ _ hrun
  rw [Comp.wp_of_run hrun]
  have hpid : k.pidAllocator.alloc.1 = 0 := by rw [hpids]; rfl
  simp only [trapCxPpnOf, pidAlloc, Comp.wp_bind, Comp.wp_get, Comp.wp_unwrap, Comp.wp_pure,
    Comp.wp_modify, floor_trapContext, hpid]
  refine ⟨pte, hpte, ?_⟩
  have hsite : Site I.toLayout ms.owned s₁ s₁ k.kernelSpace k.kernelSpace.ranges (100 + 6) :=
    ⟨beside hks hs.whole, rfl, hs.free⟩
  refine (newKernelStack_ok (l := 2 ^ 27 - 3) (r := trampolineVpn) hsite (by decide) (by decide)
    (by decide) (by decide) (fun p hp => Or.inr ?_) (by decide)).mono ?_
  · exact (hranges p hp).trans (by decide)
  rintro stack k' ⟨_, ks', p, rfl, hs'⟩
  simp only [storePhys, newTask, setTask, addTask, Comp.wp_bind, Comp.wp_get, Comp.wp_modify,
    Comp.wp_pure, Comp.wp_assert, wp_task]
  have hidem : ∀ x y : Option TaskControlBlock, Function.update (Function.update k.tasks k.next x)
      k.next y = Function.update (fun _ => none) k.next y := by
    intro x y
    rw [htasks, Function.update_idem]
  have hst : p.starved = false :=
    (hs'.whole.keeps.starved.trans hs.whole.keeps.starved).trans hstarved
  refine ⟨_, Function.update_self _ _ _, (by decide : 16 ≠ 0), k.next, _, ?_, hst, hcurrent, rfl,
    hidem _ _, ?_, hs.whole.full, hs.ranges, ?_, ?_, hs'.free⟩
  · constructor <;> rfl
  · rw [hready]
    rfl
  · intro q hq
    have hq' : q ∈ ks'.ranges := hq
    rw [hs'.ranges, List.mem_append, List.mem_singleton] at hq'
    exact hq'.imp_left (hranges q)
  · rw [hpids]
    rfl

/-- `mm::init` leaves 125 frames. -/
theorem initMemory_ok (I : Image) (hI : I.firstFrame + 182 ≤ 0x80800) (mem : Mem) :
    ∃ ks s, initMemory I mem = some (ks, s) ∧
      Whole I.toLayout [] ⟨mem, ⟨I.firstFrame, memoryEnd / 4096, []⟩, false⟩ s ks ∧ 125 ≤ s.frames.free ∧
      ∀ p ∈ ks.ranges, p.2 ≤ 0x80800 := by
  have hfree : 125 + 57 ≤ (⟨I.firstFrame, memoryEnd / 4096, []⟩ : StackFrameAllocator).free := by
    have hend : memoryEnd / 4096 = 0x80800 := by decide
    show 125 + 57 ≤ 0 + (memoryEnd / 4096 - I.firstFrame)
    omega
  obtain ⟨ks, s₁, hrun, hks⟩ :=
    newKernel_ok (s := ⟨mem, ⟨I.firstFrame, memoryEnd / 4096, []⟩, false⟩) (held_init I.toLayout) hfree
  exact ⟨ks, s₁, hrun, hks⟩

theorem exists_boot (B : BinaryHeap) (I : Image) (hI : I.firstFrame + 182 ≤ 0x80800) (mem : Mem)
    (code : List UInt8) (hcode : code.length ≤ 4096) (sstatus : Nat) :
    ∃ (k : Kernel B) (a : Nat) (t : TaskControlBlock),
      boot I mem [] (onePage code) sstatus = some k ∧ Started k a t := by
  obtain ⟨ks, s₁, hinit, hks, hfree₁, hranges⟩ := initMemory_ok I hI mem
  let k₀ : Kernel B := {
    phys := s₁
    kernelSpace := ks
    queueFrames := []
    pidAllocator := ⟨0, []⟩
    tasks := fun _ => none
    next := 0
    readyQueue := []
    scheduler := B.new
    current := none
    initproc := none }
  obtain ⟨_, k, hk, a, t, hstart⟩ := addInitproc_ok (k := k₀) I hcode sstatus rfl hks hranges hfree₁
    hks.keeps.starved rfl rfl rfl
  refine ⟨k, a, t, ?_, hstart⟩
  rw [boot, hinit]
  simp only [Option.bind_eq_bind, Option.bind_some, virtioDmaAlloc, Comp.run_pure]
  rw [hk]
  rfl

/-- An image that leaves four megabytes free. -/
def fourMegabytes : Image := { smallKernel with trapHandler := 0x80202000 }

end Kernel

end RCore.Task
