import RCore.Mm.Verify.Estate
import RCore.Task.Verify.Steps

/-!
# The memory of all processes

`MemOk` is the invariant of the kernel's memory: its address space, the frames of the block device,
and the address spaces of all tasks make up an `Estate`. A task that has exited has dropped its data
pages but keeps its tables, which still map them, so that only its frames count. Between two lines of
a system call local variables hold more address spaces (`mine`) and frames (`scraps`).
-/

namespace RCore.Task

open RCore Mm

/-! ## What the tasks hold -/

namespace TaskControlBlock

/-- The address space of a task that has not exited; with `traps`, its trap context is promised to be
where `trap_cx_ppn` says. -/
def holding (traps : Bool) (t : TaskControlBlock) : List Holding :=
  if t.taskStatus = .zombie then []
  else [⟨t.memorySet, if traps then some t.trapCxPpn else none⟩]

/-- The frames of a task that has exited. -/
def husk (t : TaskControlBlock) : List Nat :=
  if t.taskStatus = .zombie then t.memorySet.owned else []

/-- The two tasks hold the same memory; the second may have saved its trap context. -/
structure SameMemory (t u : TaskControlBlock) : Prop where
  memorySet : u.memorySet = t.memorySet
  trapCxPpn : u.trapCxPpn = t.trapCxPpn
  zombie : u.taskStatus = .zombie ↔ t.taskStatus = .zombie
  backup : ∀ bs, u.trapCtxBackup = some bs → t.trapCtxBackup = some bs ∨ bs.length = trapContextSize

variable {t u : TaskControlBlock} {traps : Bool}

theorem SameMemory.holding (h : t.SameMemory u) (traps : Bool) : u.holding traps = t.holding traps := by
  simp only [TaskControlBlock.holding, h.zombie, h.memorySet, h.trapCxPpn]

theorem SameMemory.husk (h : t.SameMemory u) : u.husk = t.husk := by
  simp only [TaskControlBlock.husk, h.zombie, h.memorySet]

theorem holding_live (h : t.taskStatus ≠ .zombie) :
    t.holding traps = [⟨t.memorySet, if traps then some t.trapCxPpn else none⟩] := if_neg h

theorem holding_zombie (h : t.taskStatus = .zombie) : t.holding traps = [] := if_pos h

theorem husk_live (h : t.taskStatus ≠ .zombie) : t.husk = [] := if_neg h

theorem husk_zombie (h : t.taskStatus = .zombie) : t.husk = t.memorySet.owned := if_pos h

end TaskControlBlock

/-- What the tasks below `n` have, in one list. -/
def overTasks {α : Type} (g : TaskControlBlock → List α) (tasks : Nat → Option TaskControlBlock)
    (n : Nat) : List α := (List.range n).flatMap fun a => ((tasks a).map g).getD []

section OverTasks

variable {α : Type} {g : TaskControlBlock → List α} {m : Nat → Option TaskControlBlock}
  {n a : Nat} {t u : TaskControlBlock}

/-- What a task has, and what the others have. -/
theorem overTasks_update (ha : a < n) (x : Option TaskControlBlock) :
    (overTasks g (Function.update m a x) n).Perm
      ((x.map g).getD [] ++ overTasks g (Function.update m a none) n) := by
  have hsplit : (List.range n).Perm (a :: (List.range n).erase a) :=
    List.perm_cons_erase (List.mem_range.mpr ha)
  have hout : ∀ b ∈ (List.range n).erase a, b ≠ a := by
    intro b hb
    exact ((List.nodup_range.mem_erase_iff).mp hb).1
  have hothers : ∀ y : Option TaskControlBlock,
      ((List.range n).erase a).flatMap (fun b => ((Function.update m a y b).map g).getD []) =
        ((List.range n).erase a).flatMap (fun b => ((m b).map g).getD []) := by
    intro y
    apply List.flatMap_congr
    intro b hb
    rw [Function.update_of_ne (hout b hb)]
  have hall : ∀ y : Option TaskControlBlock, (overTasks g (Function.update m a y) n).Perm
      ((y.map g).getD [] ++ ((List.range n).erase a).flatMap fun b => ((m b).map g).getD []) := by
    intro y
    have hp := hsplit.flatMap_right fun b => ((Function.update m a y b).map g).getD []
    rw [List.flatMap_cons, hothers y, Function.update_self] at hp
    exact hp
  exact (hall x).trans ((hall none).symm.append_left _)

theorem overTasks_task (ha : a < n) (h : m a = some t) :
    (overTasks g m n).Perm (g t ++ overTasks g (Function.update m a none) n) := by
  have hp := overTasks_update (g := g) (m := m) ha (some t)
  rw [← h, Function.update_eq_self, h] at hp
  exact hp

/-- A task is replaced by one that has the same. -/
theorem overTasks_same (h : m a = some t) (hg : g u = g t) :
    overTasks g (Function.update m a (some u)) n = overTasks g m n := by
  apply List.flatMap_congr
  intro b _
  by_cases hb : b = a
  · rw [hb, Function.update_self, h, Option.map_some, Option.map_some, hg]
  · rw [Function.update_of_ne hb]

/-- A new task. -/
theorem overTasks_new (h : m n = none) :
    (overTasks g (Function.update m n (some t)) (n + 1)).Perm (g t ++ overTasks g m n) := by
  have hp := overTasks_update (g := g) (m := m) (Nat.lt_succ_self n) (some t)
  rw [← h, Function.update_eq_self] at hp
  have hsucc : overTasks g m (n + 1) = overTasks g m n := by
    rw [overTasks, List.range_succ, List.flatMap_append, List.flatMap_singleton, h]
    exact List.append_nil _
  rw [hsucc] at hp
  exact hp

theorem mem_overTasks {x : α} (ha : a < n) (h : m a = some t) (hx : x ∈ g t) :
    x ∈ overTasks g m n :=
  List.mem_flatMap.mpr ⟨a, List.mem_range.mpr ha, by rw [h]; exact hx⟩

end OverTasks

/-! ## The invariant -/

namespace Kernel

variable {B : BinaryHeap} {α : Type} {I : Image} {traps : Bool} {scraps : List Nat}
  {mine : List Holding} {k : Kernel B} {a : Nat} {t u : TaskControlBlock} {h : Holding} {p : Phys}

/-- **The memory of the kernel and of all processes.** -/
structure MemOk (I : Image) (traps : Bool) (scraps : List Nat) (mine : List Holding) (k : Kernel B) :
    Prop where
  estate : Estate I.toLayout k.phys k.kernelSpace
    (scraps ++ (k.queueFrames ++ overTasks TaskControlBlock.husk k.tasks k.next))
    (mine ++ overTasks (TaskControlBlock.holding traps) k.tasks k.next)
  fresh : ∀ a, k.next ≤ a → k.tasks a = none
  /-- A saved trap context has the size of one. -/
  backup : ∀ a t bs, k.tasks a = some t → t.trapCtxBackup = some bs → bs.length = trapContextSize

/-- All frames that are out. -/
def outFrames (traps : Bool) (scraps : List Nat) (mine : List Holding) (k : Kernel B) : List Nat :=
  framesOf k.kernelSpace (scraps ++ (k.queueFrames ++ overTasks TaskControlBlock.husk k.tasks k.next))
    (mine ++ overTasks (TaskControlBlock.holding traps) k.tasks k.next)

/-- The frames that are out without those of the kernel's address space. -/
def userFrames (traps : Bool) (scraps : List Nat) (mine : List Holding) (k : Kernel B) : List Nat :=
  (scraps ++ (k.queueFrames ++ overTasks TaskControlBlock.husk k.tasks k.next)) ++
    (mine ++ overTasks (TaskControlBlock.holding traps) k.tasks k.next).flatMap fun h => h.space.owned

/-- The frames that are out without those of a task. -/
def otherFrames (traps : Bool) (scraps : List Nat) (mine : List Holding) (k : Kernel B) (a : Nat) :
    List Nat := outFrames traps scraps mine { k with tasks := Function.update k.tasks a none }

/-- Frames have been given back, and nothing else has changed. -/
structure Freed (k k' : Kernel B) : Prop where
  mem : k'.phys.mem = k.phys.mem
  starved : k'.phys.starved = k.phys.starved
  phys : ∃ p, k' = { k with phys := p }

namespace MemOk

theorem lt_next (hm : MemOk I traps scraps mine k) (ht : k.tasks a = some t) : a < k.next := by
  by_contra hge
  rw [hm.fresh a (Nat.le_of_not_lt hge)] at ht
  cases ht

/-- The memory is in order after a change of something else. -/
theorem of_eq (hm : MemOk I traps scraps mine k) {k' : Kernel B} (hp : k'.phys = k.phys)
    (hks : k'.kernelSpace = k.kernelSpace) (hq : k'.queueFrames = k.queueFrames)
    (ht : k'.tasks = k.tasks) (hn : k'.next = k.next) : MemOk I traps scraps mine k' := by
  refine ⟨?_, ?_, ?_⟩
  · rw [hp, hks, hq, ht, hn]
    exact hm.estate
  · rw [ht, hn]
    exact hm.fresh
  · rw [ht]
    exact hm.backup

theorem backup_update (hm : MemOk I traps scraps mine k)
    (hb : ∀ bs, u.trapCtxBackup = some bs → bs.length = trapContextSize) (a : Nat) :
    ∀ b t bs, Function.update k.tasks a (some u) b = some t → t.trapCtxBackup = some bs →
      bs.length = trapContextSize := by
  intro b t bs ht hbs
  by_cases hba : b = a
  · rw [hba, Function.update_self] at ht
    cases ht
    exact hb bs hbs
  · rw [Function.update_of_ne hba] at ht
    exact hm.backup b t bs ht hbs

theorem fresh_update (hm : MemOk I traps scraps mine k) (ht : k.tasks a = some t)
    (x : Option TaskControlBlock) : ∀ b, k.next ≤ b → Function.update k.tasks a x b = none := by
  intro b hb
  have hlt := hm.lt_next ht
  rw [Function.update_of_ne (by omega)]
  exact hm.fresh b hb

/-- **A task changes in something else.** -/
theorem setTask (hm : MemOk I traps scraps mine k) (ht : k.tasks a = some t) (hs : t.SameMemory u) :
    MemOk I traps scraps mine { k with tasks := Function.update k.tasks a (some u) } := by
  refine ⟨?_, hm.fresh_update ht _, ?_⟩
  · simp only [overTasks_same ht hs.husk, overTasks_same ht (hs.holding traps)]
    exact hm.estate
  · apply hm.backup_update
    intro bs hbs
    rcases hs.backup bs hbs with hold | hnew
    · exact hm.backup a t bs ht hold
    · exact hnew

theorem mem_holding (hm : MemOk I traps scraps mine k) (ht : k.tasks a = some t)
    (hl : t.taskStatus ≠ .zombie) : (⟨t.memorySet, if traps then some t.trapCxPpn else none⟩ : Holding) ∈
      mine ++ overTasks (TaskControlBlock.holding traps) k.tasks k.next := by
  apply List.mem_append_right
  apply mem_overTasks (hm.lt_next ht) ht
  rw [TaskControlBlock.holding_live hl]
  exact List.mem_cons_self

theorem task_ok (hm : MemOk I traps scraps mine k) (ht : k.tasks a = some t)
    (hl : t.taskStatus ≠ .zombie) :
    Holding.Ok I.toLayout k.phys.mem ⟨t.memorySet, if traps then some t.trapCxPpn else none⟩ :=
  hm.estate.user _ (hm.mem_holding ht hl)

/-- **A store** into a page of an address space. -/
theorem store (hm : MemOk I traps scraps mine k)
    (hh : h ∈ mine ++ overTasks (TaskControlBlock.holding traps) k.tasks k.next) {v : Nat}
    {e : PageTableEntry} (he : h.space.translate k.phys.mem v = some e) {x : Nat} {b : List UInt8}
    (hpa : x / 4096 = e.ppn) (hb : x % 4096 + b.length ≤ 4096) :
    MemOk I traps scraps mine { k with phys := { k.phys with mem := k.phys.mem.write x b } } :=
  ⟨hm.estate.store hh he hpa hb, hm.fresh, hm.backup⟩

/-- The estate with the address space of a task in front. -/
theorem front (hm : MemOk I traps scraps mine k) (ht : k.tasks a = some t)
    (hl : t.taskStatus ≠ .zombie) :
    Estate I.toLayout k.phys k.kernelSpace
      (scraps ++ (k.queueFrames ++ overTasks TaskControlBlock.husk (Function.update k.tasks a none) k.next))
      (⟨t.memorySet, if traps then some t.trapCxPpn else none⟩ ::
        (mine ++ overTasks (TaskControlBlock.holding traps) (Function.update k.tasks a none) k.next)) := by
  have hlt := hm.lt_next ht
  have hhusk := overTasks_task (g := TaskControlBlock.husk) hlt ht
  have hhold := overTasks_task (g := TaskControlBlock.holding traps) hlt ht
  rw [TaskControlBlock.husk_live hl, List.nil_append] at hhusk
  rw [TaskControlBlock.holding_live hl] at hhold
  refine hm.estate.perm ((hhusk.append_left _).append_left _) ?_
  exact (hhold.append_left mine).trans List.perm_middle

/-- Back from such an estate, with another address space. -/
theorem of_front (hm : MemOk I traps scraps mine k) (ht : k.tasks a = some t)
    (hl : u.taskStatus ≠ .zombie) {ks : MemorySet}
    (hb : ∀ bs, u.trapCtxBackup = some bs → bs.length = trapContextSize)
    (he : Estate I.toLayout p ks
      (scraps ++ (k.queueFrames ++ overTasks TaskControlBlock.husk (Function.update k.tasks a none) k.next))
      (⟨u.memorySet, if traps then some u.trapCxPpn else none⟩ ::
        (mine ++ overTasks (TaskControlBlock.holding traps) (Function.update k.tasks a none) k.next))) :
    MemOk I traps scraps mine
      { k with phys := p, kernelSpace := ks, tasks := Function.update k.tasks a (some u) } := by
  have hlt := hm.lt_next ht
  have hhusk := overTasks_update (g := TaskControlBlock.husk) (m := k.tasks) hlt (some u)
  have hhold := overTasks_update (g := TaskControlBlock.holding traps) (m := k.tasks) hlt (some u)
  rw [Option.map_some, Option.getD_some, TaskControlBlock.husk_live hl, List.nil_append] at hhusk
  rw [Option.map_some, Option.getD_some, TaskControlBlock.holding_live hl] at hhold
  refine ⟨he.perm ((hhusk.symm.append_left _).append_left _) ?_, hm.fresh_update ht _, hm.backup_update hb a⟩
  exact List.perm_middle.symm.trans (hhold.symm.append_left mine)

theorem goodTask (hm : MemOk I traps scraps mine k) (ht : k.tasks a = some t)
    (hl : t.taskStatus ≠ .zombie) : Good I.toLayout (otherFrames traps scraps mine k a) k.phys t.memorySet :=
  (hm.front ht hl).good

/-- **The address space of a task changes.** -/
theorem putSpace (hm : MemOk I traps scraps mine k) (ht : k.tasks a = some t)
    (hl : t.taskStatus ≠ .zombie) {ms : MemorySet}
    (hg : Good I.toLayout (otherFrames traps scraps mine k a) p ms)
    (hsame : SameOn (otherFrames traps scraps mine k a) k.phys.mem p.mem) (hfr : ms.Framed)
    (htrap : traps = true → ms.TrapPage p.mem t.trapCxPpn) :
    MemOk I traps scraps mine
      { k with phys := p, tasks := Function.update k.tasks a (some { t with memorySet := ms }) } := by
  refine hm.of_front ht (u := { t with memorySet := ms }) hl (fun bs hbs => hm.backup a t bs ht hbs)
    ((hm.front ht hl).put hg hsame hfr ?_)
  intro ppn hp
  cases traps with
  | false => cases hp
  | true =>
    cases hp
    exact htrap rfl

/-- **The kernel's address space changes.** -/
theorem putKernel (hm : MemOk I traps scraps mine k) {ks : MemorySet}
    (hg : Good I.toLayout (userFrames traps scraps mine k) p ks) (hfull : ks.Full)
    (hsame : SameOn (userFrames traps scraps mine k) k.phys.mem p.mem) :
    MemOk I traps scraps mine { k with phys := p, kernelSpace := ks } :=
  ⟨hm.estate.putKernel hg hfull hsame, hm.fresh, hm.backup⟩

/-- **A new address space** in a local variable. -/
theorem addMine (hm : MemOk I traps scraps mine k)
    (hg : Good I.toLayout (outFrames traps scraps mine k) p h.space)
    (hsame : SameOn (outFrames traps scraps mine k) k.phys.mem p.mem) (hfr : h.space.Framed)
    (htrap : ∀ ppn, h.trap = some ppn → h.space.TrapPage p.mem ppn) :
    MemOk I traps scraps (h :: mine) { k with phys := p } :=
  ⟨hm.estate.add hg hsame hfr htrap, hm.fresh, hm.backup⟩

/-- The address space in a local variable is dropped. -/
theorem dropMine (hm : MemOk I traps scraps (h :: mine) k) :
    (onPhys h.space.drop).wp (fun _ k' => MemOk I traps scraps mine k' ∧ Freed k k') k := by
  have hheld := hm.estate.good.held
  obtain ⟨p, hrun, hheld', hmem, hst⟩ := drop_run hheld
  rw [onPhys, Comp.wp_zoom, Comp.wp_of_run hrun]
  exact ⟨⟨hm.estate.drop hheld' hmem, hm.fresh, hm.backup⟩, hmem, hst, p, rfl⟩

/-- **A new task** gets the address space of a local variable. -/
theorem newTask (hm : MemOk I traps scraps (⟨t.memorySet, if traps then some t.trapCxPpn else none⟩ :: mine) k)
    (hl : t.taskStatus ≠ .zombie) (hb : t.trapCtxBackup = none) :
    MemOk I traps scraps mine
      { k with tasks := Function.update k.tasks k.next (some t), next := k.next + 1 } := by
  have hnone := hm.fresh k.next (Nat.le_refl _)
  have hhusk := overTasks_new (g := TaskControlBlock.husk) (t := t) hnone
  have hhold := overTasks_new (g := TaskControlBlock.holding traps) (t := t) hnone
  rw [TaskControlBlock.husk_live hl, List.nil_append] at hhusk
  rw [TaskControlBlock.holding_live hl] at hhold
  refine ⟨hm.estate.perm ((hhusk.symm.append_left _).append_left _) ?_, ?_, ?_⟩
  · exact List.perm_middle.symm.trans (hhold.symm.append_left mine)
  · intro b hb
    have hlt : k.next + 1 ≤ b := hb
    show Function.update k.tasks k.next (some t) b = none
    rw [Function.update_of_ne (by omega)]
    exact hm.fresh b (by omega)
  · apply hm.backup_update
    intro bs hbs
    rw [hb] at hbs
    cases hbs

/-- A task gets the address space of a local variable, which gets the old one. -/
theorem swapSpace (hm : MemOk I traps scraps
      (⟨u.memorySet, if traps then some u.trapCxPpn else none⟩ :: mine) k) (ht : k.tasks a = some t)
    (hl : t.taskStatus ≠ .zombie) (hl' : u.taskStatus ≠ .zombie)
    (hb : u.trapCtxBackup = t.trapCtxBackup) :
    MemOk I traps scraps (⟨t.memorySet, if traps then some t.trapCxPpn else none⟩ :: mine)
      { k with tasks := Function.update k.tasks a (some u) } := by
  have hlt := hm.lt_next ht
  have hhusk := overTasks_update (g := TaskControlBlock.husk) (m := k.tasks) hlt (some u)
  have hhold := overTasks_update (g := TaskControlBlock.holding traps) (m := k.tasks) hlt (some u)
  rw [Option.map_some, Option.getD_some, TaskControlBlock.husk_live hl', List.nil_append] at hhusk
  rw [Option.map_some, Option.getD_some, TaskControlBlock.holding_live hl'] at hhold
  refine ⟨(hm.front ht hl).perm ((hhusk.symm.append_left _).append_left _) ?_, hm.fresh_update ht _,
    hm.backup_update (fun bs hbs => hm.backup a t bs ht (hb ▸ hbs)) a⟩
  refine List.Perm.cons _ ?_
  exact List.perm_middle.symm.trans (hhold.symm.append_left mine)

/-- A task that exits keeps its tables and nothing else. -/
theorem toZombie (hm : MemOk I traps scraps mine k) (ht : k.tasks a = some t)
    (hl : t.taskStatus ≠ .zombie) (hz : u.taskStatus = .zombie)
    (hb : u.trapCtxBackup = t.trapCtxBackup)
    (hh : Held I.firstFrame p.frames (u.memorySet.owned ++ otherFrames traps scraps mine k a))
    (hmem : p.mem = k.phys.mem) :
    MemOk I traps scraps mine { k with phys := p, tasks := Function.update k.tasks a (some u) } := by
  have hlt := hm.lt_next ht
  have hhusk := overTasks_update (g := TaskControlBlock.husk) (m := k.tasks) hlt (some u)
  have hhold := overTasks_update (g := TaskControlBlock.holding traps) (m := k.tasks) hlt (some u)
  rw [Option.map_some, Option.getD_some, TaskControlBlock.husk_zombie hz] at hhusk
  rw [Option.map_some, Option.getD_some, TaskControlBlock.holding_zombie hz, List.nil_append] at hhold
  have hstrip := (hm.front ht hl).strip hh hmem
  refine ⟨hstrip.perm ?_ (hhold.symm.append_left mine), hm.fresh_update ht _,
    hm.backup_update (fun bs hbs => hm.backup a t bs ht (hb ▸ hbs)) a⟩
  refine (List.perm_append_comm_assoc _ _ _).trans (List.Perm.append_left _ ?_)
  exact (List.perm_append_comm_assoc _ _ _).trans (hhusk.symm.append_left _)

theorem backup_clear (hm : MemOk I traps scraps mine k) (a : Nat) :
    ∀ b t bs, Function.update k.tasks a none b = some t → t.trapCtxBackup = some bs → bs.length = trapContextSize := by
  intro b u bs hu hbs
  by_cases hba : b = a
  · rw [hba, Function.update_self] at hu
    cases hu
  · rw [Function.update_of_ne hba] at hu
    exact hm.backup b u bs hu hbs

/-- A task that has exited leaves the table; its frames are in a local variable. -/
theorem clearTask (hm : MemOk I traps scraps mine k) (ht : k.tasks a = some t)
    (hz : t.taskStatus = .zombie) :
    MemOk I traps (t.memorySet.owned ++ scraps) mine
      { k with tasks := Function.update k.tasks a none } := by
  have hlt := hm.lt_next ht
  have hhusk := overTasks_task (g := TaskControlBlock.husk) hlt ht
  have hhold := overTasks_task (g := TaskControlBlock.holding traps) hlt ht
  rw [TaskControlBlock.husk_zombie hz] at hhusk
  rw [TaskControlBlock.holding_zombie hz, List.nil_append] at hhold
  refine ⟨hm.estate.perm ?_ (hhold.append_left mine), hm.fresh_update ht _, hm.backup_clear a⟩
  rw [List.append_assoc]
  refine ((hhusk.append_left k.queueFrames).append_left scraps).trans ?_
  exact ((List.perm_append_comm_assoc _ _ _).append_left scraps).trans (List.perm_append_comm_assoc _ _ _)

/-- A task that has not exited leaves the table; its address space is in a local variable. -/
theorem clearLive (hm : MemOk I traps scraps mine k) (ht : k.tasks a = some t) (hl : t.taskStatus ≠ .zombie) :
    MemOk I traps scraps (⟨t.memorySet, if traps then some t.trapCxPpn else none⟩ :: mine)
      { k with tasks := Function.update k.tasks a none } :=
  ⟨hm.front ht hl, hm.fresh_update ht _, hm.backup_clear a⟩

/-- The frames in a local variable are dropped with the memory set they are of. -/
theorem dropScraps {ms : MemorySet} (hm : MemOk I traps (ms.owned ++ scraps) mine k) :
    (onPhys ms.drop).wp (fun _ k' => MemOk I traps scraps mine k' ∧ Freed k k') k := by
  have hperm : (outFrames traps (ms.owned ++ scraps) mine k).Perm
      (ms.owned ++ outFrames traps scraps mine k) := by
    simp only [outFrames, framesOf, List.append_assoc]
    exact List.perm_append_comm_assoc _ _ _
  obtain ⟨p, hrun, hheld', hmem, hst⟩ := drop_run (hm.estate.held.perm hperm)
  rw [onPhys, Comp.wp_zoom, Comp.wp_of_run hrun]
  have he := hm.estate
  rw [List.append_assoc] at he
  exact ⟨⟨he.release hheld' hmem, hm.fresh, hm.backup⟩, hmem, hst, p, rfl⟩

/-- **A task leaves the table**; its address space is in local variables until it is dropped. -/
theorem clear (hm : MemOk I traps scraps mine k) (ht : k.tasks a = some t) :
    ∃ fs hs, MemOk I traps (fs ++ scraps) (hs ++ mine) { k with tasks := Function.update k.tasks a none } ∧
      ∀ k' : Kernel B, MemOk I traps (fs ++ scraps) (hs ++ mine) k' →
        (onPhys t.memorySet.drop).wp (fun _ k'' => MemOk I traps scraps mine k'' ∧ Freed k' k'') k' := by
  by_cases hz : t.taskStatus = .zombie
  · exact ⟨t.memorySet.owned, [], hm.clearTask ht hz, fun _ hm' => hm'.dropScraps⟩
  · exact ⟨[], [⟨t.memorySet, if traps then some t.trapCxPpn else none⟩], hm.clearLive ht hz, fun _ hm' => hm'.dropMine⟩

end MemOk

end Kernel

end RCore.Task
