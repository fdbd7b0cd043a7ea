import RCore.Task.Verify.Confinement

/-!
# Preemption

A timer interrupt takes the hart away from a program: the trampoline stores its registers, the task goes to
the ready queue, and others run. When the task has been taken up again and `trap_return` leads back, the
program goes on where it was, with the same registers and the same memory, whatever the others have done.
-/

namespace RCore.Task

open RCore Mm Riscv

namespace Kernel

variable {B : BinaryHeap} {I : Image} {k k' k₁ k₂ k₃ : Kernel B} {a b : Nat} {t u : TaskControlBlock} {h : Hart}

/-- The spaces of the kernel and of a process are there for the hart. -/
theorem InOrder.hosts (ho : InOrder I true k) (hu : k.tasks b = some u) (hl : u.taskStatus ≠ .zombie) :
    Hosts I.toLayout k.phys.mem u.memorySet k.kernelSpace u.trapCxPpn := by
  have hg := ho.mem.goodTask hu hl
  obtain ⟨_, hw⟩ := ho.hosted.user b u hu hl
  obtain ⟨_, hk⟩ := ho.hosted.kernel
  refine ⟨_, k.phys, rfl, .other hw (SameOn.refl _ _) hg.held, .other hk (SameOn.refl _ _) ?_,
    (ho.mem.task_ok hu hl).trap u.trapCxPpn rfl⟩
  exact hg.held.perm (List.perm_append_comm_assoc _ _ _)

end Kernel

end RCore.Task
