import RCore.Task.Verify.Hosted
import RCore.Task.Verify.Trapping

/-!
# The programs on the hart

A program runs on the hart with the page table of its process. Whatever the hart lets it touch is a frame of
its own areas: nothing of the kernel, no page table, no queue of a device, not its trap context and nothing
of another process. What it can touch is its own: as long as it makes no step, its addresses lead where they
led before, there is the same behind them, and its registers wait in its trap context. So a program does not
see that it has been preempted.
-/

namespace RCore.Task

open RCore Mm Riscv

namespace Kernel

variable {B : BinaryHeap} {I : Image} {traps : Bool} {k k' k'' : Kernel B} {a b c : Nat} {t u : TaskControlBlock}
  {sstatus : Word} {acc : Access} {va pa : Nat}

/-! ## Runs with traps -/

/-- A state in order. -/
structure InOrder (I : Image) (traps : Bool) (k : Kernel B) : Prop where
  table : k.table.Ok 0
  mem : MemOk I traps [] [] k
  hosted : Hosted I [] k

namespace InOrder

theorem live (h : InOrder I traps k) (hc : k.current = some a) (ht : k.tasks a = some t) : t.taskStatus ≠ .zombie :=
  live_of_ok h.table a t hc ht

theorem step (h : InOrder I traps k) {op : Op} {r : Int} (hok : Within traps k op)
    (hrun : (step I op).run k = some (r, k')) (hs : k'.phys.starved = false) :
    InOrder I traps k' ∧ Proceeds I k.current [] k k' := by
  have hne : ¬k'.phys.starved = true := by
    rw [hs]
    decide
  have hm := (step_mem h.table h.mem hok.2 _ _ hrun).resolve_left hne
  have hp := (step_hosted h.table h.mem h.hosted hok.2 _ _ hrun).resolve_left hne
  exact ⟨⟨(step_move h.table hrun).ok h.table, hm, hp.hosted⟩, hp⟩

/-- A store into the trap context of a process. -/
theorem save (h : InOrder I true k) (ht : k.tasks a = some t) (hl : t.taskStatus ≠ .zombie) {bs : List UInt8}
    (hb : bs.length ≤ 4096) :
    InOrder I true { k with phys := { k.phys with mem := k.phys.mem.write (t.trapCxPpn * 4096) bs } } ∧
      Proceeds I (some a) [] k { k with phys := { k.phys with mem := k.phys.mem.write (t.trapCxPpn * 4096) bs } } := by
  obtain ⟨e, he, hppn, _⟩ := (h.mem.task_ok ht hl).trap t.trapCxPpn rfl
  have hpa : t.trapCxPpn * 4096 / 4096 = e.ppn := by omega
  have hfits : t.trapCxPpn * 4096 % 4096 + bs.length ≤ 4096 := by omega
  have hm := h.mem.store (h.mem.mem_holding ht hl) he hpa hfits
  have hp := h.hosted.proceeds (h.mem.storeTask_follows ht hl he hpa hfits) hm (List.Subset.refl _)
  exact ⟨⟨h.table, hm, hp.hosted⟩, hp⟩

end InOrder

/-- A part of a run in which the process `b` makes no step. -/
inductive Away (I : Image) (b : Nat) (k : Kernel B) : Kernel B → Prop
  | refl : Away I b k k
  | step {k' k'' : Kernel B} {r : Int} (op : Op) (h : Away I b k k') (hcur : k'.current ≠ some b)
      (hok : Within true k' op) (hrun : (step I op).run k' = some (r, k'')) : Away I b k k''
  | trap {k' : Kernel B} {c : Nat} {t : TaskControlBlock} {bs : List UInt8} (h : Away I b k k') (hcb : c ≠ b)
      (hc : k'.current = some c) (ht : k'.tasks c = some t) (hb : bs.length = trapContextSize) :
      Away I b k { k' with phys := { k'.phys with mem := k'.phys.mem.write (t.trapCxPpn * 4096) bs } }

theorem Away.starved (ha : Away I b k k') (hs : k'.phys.starved = false) : k.phys.starved = false := by
  induction ha with
  | refl => exact hs
  | step _ _ _ hok _ ih => exact ih hok.1
  | trap _ _ _ _ _ ih => exact ih hs

/-- The others spare `b`, and the page table of the kernel does not move. -/
theorem Away.spares (ha : Away I b k k') (h : InOrder I true k) (hs : k'.phys.starved = false)
    (hu : k.tasks b = some u) (hl : u.taskStatus ≠ .zombie) :
    InOrder I true k' ∧ k'.kernelSpace.token = k.kernelSpace.token ∧ ∃ u', k'.tasks b = some u' ∧
      u'.taskStatus ≠ .zombie ∧ u'.memorySet = u.memorySet ∧ SameOn u.memorySet.owned k.phys.mem k'.phys.mem := by
  have onward : ∀ {o : Option Nat} {k' k'' : Kernel B}, o ≠ some b → Proceeds I o [] k' k'' →
      (k'.kernelSpace.token = k.kernelSpace.token ∧ ∃ u', k'.tasks b = some u' ∧ u'.taskStatus ≠ .zombie ∧
        u'.memorySet = u.memorySet ∧ SameOn u.memorySet.owned k.phys.mem k'.phys.mem) →
      k''.kernelSpace.token = k.kernelSpace.token ∧ ∃ u', k''.tasks b = some u' ∧ u'.taskStatus ≠ .zombie ∧
        u'.memorySet = u.memorySet ∧ SameOn u.memorySet.owned k.phys.mem k''.phys.mem := by
    rintro o k' k'' hob hp ⟨htoken, u', hu', hl', hms, hsame⟩
    obtain ⟨u'', hu'', hl'', hms', hsame'⟩ := hp.spares b u' hu' hl' hob
    rw [hms] at hsame'
    exact ⟨hp.token.trans htoken, u'', hu'', hl'', hms'.trans hms, hsame.trans hsame'⟩
  induction ha with
  | refl => exact ⟨h, rfl, u, hu, hl, rfl, SameOn.refl _ _⟩
  | step op _ hcur hok hrun ih =>
    obtain ⟨ho, hpast⟩ := ih hok.1
    obtain ⟨ho', hp⟩ := ho.step hok hrun hs
    exact ⟨ho', onward hcur hp hpast⟩
  | trap _ hcb hc ht hb ih =>
    obtain ⟨ho, hpast⟩ := ih hs
    obtain ⟨ho', hp⟩ := ho.save ht (ho.live hc ht) (by rw [hb]; decide)
    exact ⟨ho', onward (fun hcb' => hcb (Option.some.inj hcb')) hp hpast⟩

/-- The translation of the hart depends on the areas alone. -/
theorem InOrder.translate_congr {u' : TaskControlBlock} (h : InOrder I traps k) (h' : InOrder I traps k')
    (hu : k.tasks b = some u) (hl : u.taskStatus ≠ .zombie) (hu' : k'.tasks b = some u')
    (hl' : u'.taskStatus ≠ .zombie) (hms : u'.memorySet = u.memorySet) (sstatus : Word) (mode : Mode) (acc : Access)
    (va : Nat) : Sv39.translate (BitVec.ofNat 64 u.memorySet.token) sstatus mode acc k'.phys.mem va =
      Sv39.translate (BitVec.ofNat 64 u.memorySet.token) sstatus mode acc k.phys.mem va := by
  obtain ⟨_, hw⟩ := h.hosted.user b u hu hl
  obtain ⟨_, hw'⟩ := h'.hosted.user b u' hu' hl'
  rw [hms] at hw'
  refine Option.ext fun pa => ⟨fun ht => ?_, fun ht => ?_⟩
  · have hva := hw'.wired.translate_canonical ht
    exact (hw.wired.translate_area_iff hva).mpr ((hw'.wired.translate_area_iff hva).mp ht)
  · have hva := hw.wired.translate_canonical ht
    exact (hw'.wired.translate_area_iff hva).mpr ((hw.wired.translate_area_iff hva).mp ht)

end Kernel

end RCore.Task
