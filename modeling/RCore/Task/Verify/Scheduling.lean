import Mathlib.Logic.Relation
import RCore.Task.Verify.Boot
import RCore.Task.Verify.Steps

/-!
# The scheduler over whole runs

What the invariants of the process table say about every state the kernel reaches. The order of the
heap is a total preorder there, in spite of the wrap-around, so that a fetch returns a task whose pass
is the least; and the ready queue and the heap never disagree, so that no task is lost.
-/

namespace RCore.Task

open RCore Mm

namespace Kernel

variable {B : BinaryHeap} {I : Image} {ok : Kernel B → Op → Prop} {k k' : Kernel B}

/-- The entries of the heap for two ready tasks are compared by the sums behind their passes. -/
theorem partialCmp_ready (h : k.table.SchedOk) {p q : Nat × Nat} (hp : p ∈ k.readyQueue)
    (hq : q ∈ k.readyQueue) : (k.table.stride p).partialCmp (k.table.stride q) =
      some (compare (k.table.ghost q.2) (k.table.ghost p.2)) := by
  have hpass : ∀ x ∈ k.readyQueue, (k.table.stride x).pass = k.table.ghost x.2 % 2 ^ 64 := by
    intro x hx
    obtain ⟨e, he, _⟩ := h.ready x hx
    rw [Table.ghost_of_some he, Table.stride, he]
    exact (h.pass x.2 e he).1
  exact Stride.partialCmp_eq (hpass p hp) (hpass q hq) (h.near p hp q hq)

/-- **Stride scheduling across the wrap-around.** In every state that is reached the passes are the
sums behind them modulo `2 ^ 64`, the sums of the ready tasks differ by at most `BIG_STRIDE / 2` and
are not below that of the running task, the heap compares them in the reversed order, which is a total
preorder on its contents, and a fetch returns a ready task whose sum is the least. -/
theorem stride_scheduling (h : Reached I ok k) :
    (∀ a t, k.tasks a = some t → t.pass = t.ghostPass % 2 ^ 64) ∧
    (∀ p ∈ k.readyQueue, ∀ q ∈ k.readyQueue,
      k.table.ghost p.2 ≤ k.table.ghost q.2 + bigStride / 2) ∧
    (∀ a, k.current = some a → ∀ p ∈ k.readyQueue, k.table.ghost a ≤ k.table.ghost p.2) ∧
    (B.elems k.scheduler).Perm (k.readyQueue.map k.table.stride) ∧
    (∀ p ∈ k.readyQueue, ∀ q ∈ k.readyQueue, (k.table.stride p).partialCmp (k.table.stride q) =
      some (compare (k.table.ghost q.2) (k.table.ghost p.2))) ∧
    TotalOn Stride.Le (B.elems k.scheduler) ∧
    (k.readyQueue ≠ [] → ∃ p ∈ k.readyQueue, ∃ k', fetchTask.run k = some (some p.2, k') ∧
      ∀ q ∈ k.readyQueue, k.table.ghost p.2 ≤ k.table.ghost q.2) := by
  have hs := h.ok.sched
  refine ⟨?_, ?_, ?_, hs.heap, ?_, hs.totalOn.mono hs.heap.subset, ?_⟩
  · intro a t ht
    exact (hs.pass a t.entry (table_task ht)).1
  · intro p hp q hq
    exact (hs.near p hp q hq).1
  · intro a ha p hp
    exact (hs.front a ha p hp).1
  · intro p hp q hq
    exact partialCmp_ready hs hp hq
  · intro hne
    obtain ⟨p, q, hf⟩ := exists_fetches hs hne
    exact ⟨p, hf.mem, _, fetchTask_run hs hf, hf.least⟩

/-- The heap that keeps its entries in a list. -/
abbrev listHeap : BinaryHeap := listQueue Stride.Le

/-- The kernel starts with a program of the one instruction `ecall`. -/
theorem exists_started (ok : Kernel listHeap → Op → Prop) :
    ∃ (k : Kernel listHeap) (a : Nat) (t : TaskControlBlock),
      Reached fourMegabytes ok k ∧ Started k a t := by
  obtain ⟨k, a, t, hk, hstart⟩ := exists_boot listHeap fourMegabytes (by decide) (fun _ => 0)
    [0x73, 0, 0, 0] (by decide) 0
  exact ⟨k, a, t, Reached.boot hk, hstart⟩

theorem reached_start : ∃ k : Kernel listHeap, Reached fourMegabytes (fun _ _ => True) k := by
  obtain ⟨k, _, _, hk, _⟩ := exists_started fun _ _ => True
  exact ⟨k, hk⟩

theorem stride_scheduling_start : ∃ k : Kernel listHeap, Reached fourMegabytes (fun _ _ => True) k ∧
    TotalOn Stride.Le (listHeap.elems k.scheduler) := by
  obtain ⟨k, hk⟩ := reached_start
  exact ⟨k, hk, (stride_scheduling hk).2.2.2.2.2.1⟩

/-- `INITPROC` runs, the only task. -/
structure Alone (k : Kernel B) (a : Nat) (t : TaskControlBlock) : Prop where
  status : t.taskStatus = .running
  starved : k.phys.starved = false
  current : k.current = some a
  initproc : k.initproc = some a
  tasks : k.tasks = Function.update (fun _ => none) a (some t)
  readyQueue : k.readyQueue = []
  roomy : Roomy k t

theorem Alone.task_eq {a : Nat} {t : TaskControlBlock} (h : Alone k a t) : k.tasks a = some t := by
  rw [h.tasks, Function.update_self]

/-- The first round of the idle loop. -/
theorem Started.runTasks {a : Nat} {t : TaskControlBlock} (h : Started k a t) (hs : k.table.SchedOk) :
    ∃ k', (step I .runTasks).run k = some (0, k') ∧ Alone k' a { t with taskStatus := .running } := by
  have hne : k.readyQueue ≠ [] := by
    rw [h.readyQueue]
    exact List.cons_ne_nil _ _
  obtain ⟨p, q, hf⟩ := exists_fetches hs hne
  have hp : p = (t.pid, a) := by
    have hmem := hf.mem
    rw [h.readyQueue] at hmem
    exact List.mem_singleton.mp hmem
  have hfetch := fetchTask_run hs hf
  subst hp
  have ht : k.tasks a = some t := by rw [h.tasks, Function.update_self]
  refine ⟨{ k with
    scheduler := q, readyQueue := k.readyQueue.filter fun e => e.1 ≠ t.pid, current := some a
    tasks := Function.update k.tasks a (some { t with taskStatus := .running }) }, ?_, ?_⟩
  · simp only [step, Kernel.runTasks, Kernel.task, setTask, Comp.run_bind, Comp.run_get, Comp.assert,
      h.current, if_true, Comp.run_pure, Option.bind_some, hfetch, ht, Comp.unwrap, Comp.run_modify]
  · refine ⟨rfl, h.starved, rfl, h.initproc, ?_, ?_, h.roomy.full, h.roomy.ranges, h.roomy.kernelStacks,
      h.roomy.pids, h.roomy.free⟩
    · show Function.update k.tasks a _ = _
      rw [h.tasks, Function.update_idem]
    · show k.readyQueue.filter _ = []
      rw [h.readyQueue]
      simp

/-- A run to a state in which `INITPROC` runs. -/
theorem exists_alone (ok : Kernel listHeap → Op → Prop)
    (hok : ∀ k : Kernel listHeap, k.phys.starved = false → ok k .runTasks) :
    ∃ (k : Kernel listHeap) (a : Nat) (t : TaskControlBlock), Reached fourMegabytes ok k ∧
      Newborn { t with taskStatus := .ready } ∧ Alone k a t := by
  obtain ⟨k, a, t, hk, hstart⟩ := exists_started ok
  obtain ⟨k', hrun, halone⟩ := hstart.runTasks (I := fourMegabytes) hk.ok.sched
  refine ⟨k', a, _, hk.step .runTasks (hok k hstart.starved) hrun, ?_, halone⟩
  constructor
  · rfl
  · exact hstart.newborn.signals
  · exact hstart.newborn.signalMask
  · exact hstart.newborn.handlingSig
  · exact hstart.newborn.signalActions
  · exact hstart.newborn.killed
  · exact hstart.newborn.frozen
  · exact hstart.newborn.children
  · exact hstart.newborn.priority

/-! ## No task is lost -/

/-- A step in which the task at `a` does not exit. -/
def StepsWithout (I : Image) (a : Nat) (k k' : Kernel B) : Prop :=
  ∃ op r, (step I op).run k = some (r, k') ∧ ¬ ∃ exitCode, op = .exit exitCode ∧ k.current = some a

/-- A task that does not exit stays alive. -/
theorem stays_alive {a : Nat} {t : TaskControlBlock} (h : k.table.Ok 0) (ht : k.tasks a = some t)
    (hl : t.taskStatus ≠ .zombie) (hr : Relation.ReflTransGen (StepsWithout I a) k k') :
    k'.table.Ok 0 ∧ ∃ t', k'.tasks a = some t' ∧ t'.taskStatus ≠ .zombie ∧ t'.pid = t.pid := by
  induction hr with
  | refl => exact ⟨h, t, ht, hl, rfl⟩
  | tail _ hs ih =>
    obtain ⟨hok, t₁, ht₁, hl₁, hpid₁⟩ := ih
    obtain ⟨op, r, hrun, hno⟩ := hs
    have hmove := step_move hok hrun
    obtain ⟨e, he, hpid, hst⟩ := (hmove.follows hok (table_task ht₁)).live hl₁
    obtain ⟨t₂, ht₂, rfl⟩ := exists_task he
    exact ⟨hmove.ok hok, t₂, ht₂, fun hc => hno ⟨_, hst hc⟩, hpid.trans hpid₁⟩

/-- Where a task that has not exited is. -/
structure Placed (k : Kernel B) (a : Nat) (t : TaskControlBlock) : Prop where
  place : (k.current = some a ∧ t.taskStatus = .running ∧ (k.readyQueue.map Prod.snd).count a = 0) ∨
    (k.current ≠ some a ∧ t.taskStatus = .ready ∧ (t.pid, a) ∈ k.readyQueue ∧
      (k.readyQueue.map Prod.snd).count a = 1)

theorem placed (h : k.table.SchedOk) {a : Nat} {t : TaskControlBlock} (ht : k.tasks a = some t)
    (hl : t.taskStatus ≠ .zombie) : k.Placed a t := by
  have hnd : (k.readyQueue.map Prod.snd).Nodup := by
    have hready : k.readyQueue.Nodup := List.Nodup.of_map _ h.keys
    rw [List.nodup_map_iff_inj_on hready]
    intro p hp q hq hpq
    obtain ⟨e, he, hep, _⟩ := h.ready p hp
    obtain ⟨f, hf, hfq, _⟩ := h.ready q hq
    rw [hpq, hf] at he
    cases he
    exact Prod.ext (hep.symm.trans hfq) hpq
  rcases h.status a t.entry (table_task ht) with ⟨hst, hmem⟩ | ⟨hst, hcur⟩ | hz
  · refine ⟨Or.inr ⟨fun hc => ?_, hst, hmem, ?_⟩⟩
    · have hrun : t.taskStatus = .running := h.current_running hc (table_task ht)
      have hready : t.taskStatus = .ready := hst
      rw [hrun] at hready
      cases hready
    · exact List.count_eq_one_of_mem hnd (List.mem_map.mpr ⟨_, hmem, rfl⟩)
  · refine ⟨Or.inl ⟨hcur, hst, ?_⟩⟩
    rw [List.count_eq_zero, List.mem_map]
    rintro ⟨p, hp, hpa⟩
    refine h.not_ready (table_task ht) ?_ hp hpa
    rw [hst]
    decide
  · exact absurd hz hl

/-- **No task is lost or duplicated.** In every state that is reached, the heap has the keys of the
ready queue, each once; a task that was created and has not exited is there and is either the current
one or in the ready queue exactly once, a zombie is in neither; a fetch finds nothing only in an empty
queue, and otherwise its loop ends at the first entry of the heap; and `pid2task` finds every live
task. -/
theorem no_task_lost (h : Reached I ok k) :
    ((B.elems k.scheduler).map Stride.id).Perm (k.readyQueue.map Prod.fst) ∧
    (k.readyQueue.map Prod.fst).Nodup ∧
    (∀ a t, k.tasks a = some t → t.taskStatus ≠ .zombie → k.Placed a t) ∧
    (∀ a t, k.tasks a = some t → t.taskStatus = .zombie →
      k.current ≠ some a ∧ a ∉ k.readyQueue.map Prod.snd) ∧
    (∀ a t, k.tasks a = some t → t.taskStatus ≠ .zombie → ∀ k',
      Relation.ReflTransGen (StepsWithout I a) k k' →
        ∃ t', k'.tasks a = some t' ∧ t'.pid = t.pid ∧ k'.Placed a t') ∧
    ((∃ k', fetchTask.run k = some (none, k')) ↔ k.readyQueue = []) ∧
    (k.readyQueue ≠ [] → ∃ s q, B.pop k.scheduler = some (s, q) ∧
      ∀ fuel, (fetchLoop (fuel + 1)).run k = some (some s.id, { k with scheduler := q })) ∧
    (∀ a t, k.tasks a = some t → t.taskStatus ≠ .zombie → ∀ cur, k.current = some cur →
      (pid2task t.pid).run k = some (some a, k)) := by
  have hok := h.ok
  have hs := hok.sched
  refine ⟨?_, hs.keys, fun a t ht hl => placed hs ht hl, ?_, ?_, ?_, ?_, ?_⟩
  · have hmap := hs.heap.map Stride.id
    rw [List.map_map] at hmap
    exact hmap
  · intro a t ht hz
    refine ⟨fun hc => ?_, fun hmem => ?_⟩
    · have hrun : t.taskStatus = .running := hs.current_running hc (table_task ht)
      rw [hrun] at hz
      cases hz
    · obtain ⟨p, hp, hpa⟩ := List.mem_map.mp hmem
      refine hs.not_ready (table_task ht) ?_ hp hpa
      rw [show t.entry.taskStatus = .zombie from hz]
      decide
  · intro a t ht hl k' hr
    obtain ⟨hok', t', ht', hl', hpid⟩ := stays_alive hok ht hl hr
    exact ⟨t', ht', hpid, placed hok'.sched ht' hl'⟩
  · constructor
    · rintro ⟨k', hk'⟩
      by_contra hne
      obtain ⟨p, q, hf⟩ := exists_fetches hs hne
      rw [fetchTask_run hs hf] at hk'
      cases hk'
    · intro hnil
      exact ⟨k, fetchTask_run_empty hs hnil⟩
  · intro hne
    obtain ⟨p, q, hf⟩ := exists_fetches hs hne
    exact ⟨_, q, hf.pop, fun fuel => fetchLoop_run hs hf fuel⟩
  · intro a t ht hl cur hcur
    obtain ⟨e, he, _⟩ := hs.current cur hcur
    obtain ⟨c, hc, rfl⟩ := exists_task he
    simp only [pid2task, currentTask, task, Comp.run_bind, Comp.run_get, Option.bind_some, hcur, hc,
      Comp.unwrap, Comp.run_pure]
    by_cases hpid : t.pid = c.pid
    · have haddr : a = cur := hs.pid_inj a cur _ _ (table_task ht) (table_task hc) hpid
      rw [if_pos hpid, haddr, Comp.run_pure]
    · rw [if_neg hpid]
      rcases (placed hs ht hl).place with ⟨hc', _, _⟩ | ⟨_, _, hmem, _⟩
      · rw [hcur] at hc'
        cases hc'
        rw [ht] at hc
        cases hc
        exact absurd rfl hpid
      · have hlook : k.readyQueue.lookup t.pid = some a := lookup_of_mem hs.keys hmem
        simp only [Comp.run_bind, Comp.run_get, Option.bind_some, Comp.run_pure, hlook]

theorem no_task_lost_start : ∃ k : Kernel listHeap, Reached fourMegabytes (fun _ _ => True) k ∧
    (k.readyQueue.map Prod.fst).Nodup := by
  obtain ⟨k, hk⟩ := reached_start
  exact ⟨k, hk, (no_task_lost hk).2.1⟩

end Kernel

end RCore.Task
