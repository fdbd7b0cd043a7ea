import RCore.Task.Process
import RCore.Task.Verify.Stride

/-!
# The process table

What the scheduler and the process tree are about, without memory: `Table` has of every task only its
pid, status, pass, parent and children, and the steps of the kernel are a few changes of the table.
`SchedOk` is the invariant of the scheduler. It says at once that the heap is a copy of the ready
queue and that the passes in it lie close together: a heap only keeps its promises while its order is
one, and the order is one only while the passes are close.
-/

namespace RCore.Task

open RCore Mm

/-- A task as the process table has it. -/
structure Entry where
  pid : Nat
  priority : Nat
  pass : Nat
  ghostPass : Nat
  taskStatus : TaskStatus
  parent : Option Nat
  children : List Nat
  exitCode : Int32

/-- The process table. -/
structure Table (B : BinaryHeap) where
  tasks : Nat → Option Entry
  next : Nat
  pids : PidAllocator
  ready : List (Nat × Nat)
  heap : B.Queue
  current : Option Nat
  initproc : Option Nat

def TaskControlBlock.entry (t : TaskControlBlock) : Entry where
  pid := t.pid
  priority := t.priority
  pass := t.pass
  ghostPass := t.ghostPass
  taskStatus := t.taskStatus
  parent := t.parent
  children := t.children
  exitCode := t.exitCode

/-- The process table of a kernel. -/
def Kernel.table {B : BinaryHeap} (k : Kernel B) : Table B where
  tasks a := (k.tasks a).map TaskControlBlock.entry
  next := k.next
  pids := k.pidAllocator
  ready := k.readyQueue
  heap := k.scheduler
  current := k.current
  initproc := k.initproc

namespace Table

variable {B : BinaryHeap}

/-- The sum behind the pass of a task. -/
def ghost (T : Table B) (a : Nat) : Nat := ((T.tasks a).map Entry.ghostPass).getD 0

/-- The entry of the heap that stands for an entry of the ready queue. -/
def stride (T : Table B) (p : Nat × Nat) : Stride :=
  ⟨p.1, ((T.tasks p.2).map Entry.pass).getD 0⟩

/-- Put a task at an address. -/
def put (T : Table B) (a : Nat) (e : Entry) : Table B :=
  { T with tasks := Function.update T.tasks a (some e) }

/-- Take the task at an address away. -/
def erase (T : Table B) (a : Nat) : Table B :=
  { T with tasks := Function.update T.tasks a none }

/-- `TaskManager::add` of the task `e` at `a`. -/
def add (T : Table B) (a : Nat) (e : Entry) : Table B :=
  let pass := usizeAdd e.pass (bigStride / e.priority)
  { T.put a { e with pass, ghostPass := e.ghostPass + bigStride / e.priority } with
    heap := B.push T.heap ⟨e.pid, pass⟩
    ready := insertKey e.pid a T.ready }

/-- **The invariant of the scheduler.** -/
structure SchedOk (T : Table B) : Prop where
  fresh : ∀ a, T.next ≤ a → T.tasks a = none
  recycled : T.pids.recycled.Nodup ∧ ∀ p ∈ T.pids.recycled, p < T.pids.current
  pid : ∀ a e, T.tasks a = some e → e.pid < T.pids.current ∧ e.pid ∉ T.pids.recycled
  pid_inj : ∀ a b e f, T.tasks a = some e → T.tasks b = some f → e.pid = f.pid → a = b
  status : ∀ a e, T.tasks a = some e → (e.taskStatus = .ready ∧ (e.pid, a) ∈ T.ready) ∨
    (e.taskStatus = .running ∧ T.current = some a) ∨ e.taskStatus = .zombie
  current : ∀ a, T.current = some a → ∃ e, T.tasks a = some e ∧ e.taskStatus = .running
  ready : ∀ p ∈ T.ready, ∃ e, T.tasks p.2 = some e ∧ e.pid = p.1 ∧ e.taskStatus = .ready
  keys : (T.ready.map Prod.fst).Nodup
  heap : (B.elems T.heap).Perm (T.ready.map T.stride)
  pass : ∀ a e, T.tasks a = some e → e.pass = e.ghostPass % 2 ^ 64 ∧ 2 ≤ e.priority
  near : ∀ p ∈ T.ready, ∀ q ∈ T.ready, Near (T.ghost p.2) (T.ghost q.2)
  front : ∀ a, T.current = some a → ∀ p ∈ T.ready,
    T.ghost a ≤ T.ghost p.2 ∧ T.ghost p.2 ≤ T.ghost a + maxDistance

end Table

/-! ## Maps with keys -/

theorem insertKey_perm {key value : Nat} {l : List (Nat × Nat)} (h : key ∉ l.map Prod.fst) :
    (insertKey key value l).Perm ((key, value) :: l) := by
  induction l with
  | nil => exact List.Perm.refl _
  | cons e l ih =>
    obtain ⟨k, v⟩ := e
    rw [List.map_cons, List.mem_cons, not_or] at h
    rw [insertKey]
    split
    · exact List.Perm.refl _
    · rw [if_neg h.1]
      exact ((ih h.2).cons _).trans (List.Perm.swap _ _ _)

theorem lookup_of_mem {l : List (Nat × Nat)} (h : (l.map Prod.fst).Nodup) {p : Nat × Nat}
    (hp : p ∈ l) : l.lookup p.1 = some p.2 := by
  induction l with
  | nil => cases hp
  | cons e l ih =>
    rw [List.map_cons, List.nodup_cons] at h
    rcases List.mem_cons.mp hp with rfl | hp'
    · rw [List.lookup_cons_self]
    · have hne : p.1 ≠ e.1 := by
        intro heq
        exact h.1 (heq ▸ List.mem_map.mpr ⟨p, hp', rfl⟩)
      rw [List.lookup_cons, beq_eq_false_iff_ne.mpr hne]
      exact ih h.2 hp'

theorem perm_filter_key {l : List (Nat × Nat)} (h : (l.map Prod.fst).Nodup) {p : Nat × Nat} (hp : p ∈ l) :
    l.Perm (p :: l.filter fun x => x.1 ≠ p.1) := by
  have hnd : l.Nodup := List.Nodup.of_map _ h
  have herase : (l.filter fun x => x.1 ≠ p.1) = l.erase p := by
    rw [hnd.erase_eq_filter]
    apply List.filter_congr
    intro x hx
    by_cases hxp : x = p
    · rw [hxp]
      simp
    · have hne : x.1 ≠ p.1 := fun hc => hxp (List.inj_on_of_nodup_map h hx hp hc)
      rw [decide_eq_true hne, bne_iff_ne.mpr hxp]
  rw [herase]
  exact List.perm_cons_erase hp

namespace Table

variable {B : BinaryHeap} {T : Table B} {a b : Nat} {e f : Entry}

theorem put_same (T : Table B) (a : Nat) (e : Entry) : (T.put a e).tasks a = some e := by
  simp only [put, Function.update_self]

theorem put_ne (h : b ≠ a) : (T.put a e).tasks b = T.tasks b := Function.update_of_ne h _ _

theorem erase_same (T : Table B) (a : Nat) : (T.erase a).tasks a = none := by
  simp only [erase, Function.update_self]

theorem erase_ne (h : b ≠ a) : (T.erase a).tasks b = T.tasks b := Function.update_of_ne h _ _

theorem ghost_congr {T' : Table B} (h : T'.tasks a = T.tasks a) : T'.ghost a = T.ghost a := by
  rw [ghost, h, ghost]

theorem ghost_of_some (h : T.tasks a = some e) : T.ghost a = e.ghostPass := by rw [ghost, h]; rfl

theorem stride_congr {T' : Table B} {p : Nat × Nat} (h : T'.tasks p.2 = T.tasks p.2) :
    T'.stride p = T.stride p := by
  rw [stride, h, stride]

theorem put_some (h : (T.put a e).tasks b = some f) : (b = a ∧ f = e) ∨ (b ≠ a ∧ T.tasks b = some f) := by
  by_cases hb : b = a
  · rw [hb, put_same] at h
    cases h
    exact Or.inl ⟨hb, rfl⟩
  · rw [put_ne hb] at h
    exact Or.inr ⟨hb, h⟩

theorem erase_some (h : (T.erase a).tasks b = some f) : b ≠ a ∧ T.tasks b = some f := by
  have hb : b ≠ a := by
    rintro rfl
    rw [erase_same] at h
    cases h
  rw [erase_ne hb] at h
  exact ⟨hb, h⟩

theorem ne_of_none (ha : T.tasks a = none) (hb : T.tasks b = some e) : b ≠ a := by
  rintro rfl
  rw [ha] at hb
  cases hb

/-- A task that is not in the table, with a pid that no task of the table has. -/
structure Unlisted (T : Table B) (a : Nat) (e : Entry) : Prop where
  none : T.tasks a = none
  lt : a < T.next
  pid : e.pid < T.pids.current ∧ e.pid ∉ T.pids.recycled
  pid_ne : ∀ b f, T.tasks b = some f → f.pid ≠ e.pid
  pass : e.pass = e.ghostPass % 2 ^ 64 ∧ 2 ≤ e.priority

namespace SchedOk

theorem lt_next (h : T.SchedOk) (he : T.tasks a = some e) : a < T.next := by
  by_contra hge
  exact ne_of_none (h.fresh a (Nat.le_of_not_lt hge)) he rfl

theorem current_running (h : T.SchedOk) (hcur : T.current = some a) (he : T.tasks a = some e) :
    e.taskStatus = .running := by
  obtain ⟨f, hf, hrun⟩ := h.current a hcur
  rw [he] at hf
  cases hf
  exact hrun

/-- The task at an address is not in the ready queue unless it is ready. -/
theorem not_ready (h : T.SchedOk) (he : T.tasks a = some e) (hs : e.taskStatus ≠ .ready)
    {p : Nat × Nat} (hp : p ∈ T.ready) : p.2 ≠ a := by
  rintro rfl
  obtain ⟨f, hf, _, hst⟩ := h.ready p hp
  rw [he] at hf
  cases hf
  exact hs hst

/-- The order of the heap is a total preorder on its contents. -/
theorem totalOn (h : T.SchedOk) : TotalOn Stride.Le (T.ready.map T.stride) := by
  apply totalOn_of_near T.stride fun p => T.ghost p.2
  · intro p hp
    obtain ⟨e, he, _, _⟩ := h.ready p hp
    rw [ghost_of_some he, stride, he]
    exact (h.pass p.2 e he).1
  · exact fun p hp q hq => h.near p hp q hq

/-- The task at an address that is not ready goes. -/
theorem erase (h : T.SchedOk) (he : T.tasks a = some e) (hs : e.taskStatus ≠ .ready)
    {c : Option Nat} (hc : ∀ x, c = some x → T.current = some x ∧ x ≠ a) (hr : ∀ x, x ≠ a →
      T.current = some x → c = some x) : SchedOk { T.erase a with current := c } := by
  have hready : ∀ p ∈ T.ready, (T.erase a).tasks p.2 = T.tasks p.2 := fun p hp =>
    erase_ne (h.not_ready he hs hp)
  refine ⟨?_, h.recycled, ?_, ?_, ?_, ?_, ?_, h.keys, ?_, ?_, ?_, ?_⟩
  · intro b hb
    by_cases hba : b = a
    · rw [hba]
      exact erase_same T a
    · exact (erase_ne hba).trans (h.fresh b hb)
  · exact fun b f hf => h.pid b f (erase_some hf).2
  · exact fun b b' f f' hf hf' => h.pid_inj b b' f f' (erase_some hf).2 (erase_some hf').2
  · intro b f hf
    obtain ⟨hb, hf⟩ := erase_some hf
    rcases h.status b f hf with hready' | ⟨hrun, hcur⟩ | hz
    · exact Or.inl hready'
    · exact Or.inr (Or.inl ⟨hrun, hr b hb hcur⟩)
    · exact Or.inr (Or.inr hz)
  · intro b hb
    obtain ⟨hcur, hba⟩ := hc b hb
    obtain ⟨f, hf, hrun⟩ := h.current b hcur
    exact ⟨f, (erase_ne hba).trans hf, hrun⟩
  · intro p hp
    obtain ⟨f, hf, hpid⟩ := h.ready p hp
    exact ⟨f, (hready p hp).trans hf, hpid⟩
  · have hmap : T.ready.map (T.erase a).stride = T.ready.map T.stride :=
      List.map_congr_left fun p hp => stride_congr (hready p hp)
    exact h.heap.trans (List.Perm.of_eq hmap.symm)
  · exact fun b f hf => h.pass b f (erase_some hf).2
  · intro p hp q hq
    have hp' := ghost_congr (hready p hp)
    have hq' := ghost_congr (hready q hq)
    show Near ((T.erase a).ghost p.2) ((T.erase a).ghost q.2)
    rw [hp', hq']
    exact h.near p hp q hq
  · intro b hb p hp
    obtain ⟨hcur, hba⟩ := hc b hb
    have hp' := ghost_congr (hready p hp)
    have hb' : (T.erase a).ghost b = T.ghost b := ghost_congr (erase_ne hba)
    show (T.erase a).ghost b ≤ (T.erase a).ghost p.2 ∧
      (T.erase a).ghost p.2 ≤ (T.erase a).ghost b + maxDistance
    rw [hp', hb']
    exact h.front b hcur p hp

/-- The current task goes. -/
theorem leave (h : T.SchedOk) (hcur : T.current = some a) (he : T.tasks a = some e) :
    SchedOk { T.erase a with current := none } := by
  apply h.erase he
  · rw [h.current_running hcur he]
    decide
  · intro x hx
    cases hx
  · intro x hxa hx
    exact absurd (Option.some.inj (hx.symm.trans hcur)) hxa

theorem ready_ne (h : T.SchedOk) (ha : T.tasks a = none) {p : Nat × Nat} (hp : p ∈ T.ready) :
    p.2 ≠ a := by
  obtain ⟨f, hf, _⟩ := h.ready p hp
  exact ne_of_none ha hf

theorem current_ne (h : T.SchedOk) (ha : T.tasks a = none) {x : Nat} (hx : T.current = some x) : x ≠ a := by
  obtain ⟨f, hf, _⟩ := h.current x hx
  exact ne_of_none ha hf

/-- The first parts of the invariant when a task comes in. -/
theorem put_pids (h : T.SchedOk) (hu : T.Unlisted a e) :
    (∀ b, T.next ≤ b → (T.put a e).tasks b = none) ∧
    (∀ b f, (T.put a e).tasks b = some f → f.pid < T.pids.current ∧ f.pid ∉ T.pids.recycled) ∧
    (∀ b b' f f', (T.put a e).tasks b = some f → (T.put a e).tasks b' = some f' → f.pid = f'.pid →
      b = b') ∧
    ∀ b f, (T.put a e).tasks b = some f → f.pass = f.ghostPass % 2 ^ 64 ∧ 2 ≤ f.priority := by
  refine ⟨?_, ?_, ?_, ?_⟩
  · intro b hb
    have hne : b ≠ a := by
      have hlt := hu.lt
      omega
    exact (put_ne hne).trans (h.fresh b hb)
  · intro b f hf
    rcases put_some hf with ⟨_, rfl⟩ | ⟨_, hf⟩
    · exact hu.pid
    · exact h.pid b f hf
  · intro b b' f f' hf hf' hpid
    rcases put_some hf with ⟨rfl, rfl⟩ | ⟨_, hf₀⟩
    · rcases put_some hf' with ⟨rfl, _⟩ | ⟨_, hf₀'⟩
      · rfl
      · exact absurd hpid.symm (hu.pid_ne b' f' hf₀')
    · rcases put_some hf' with ⟨_, rfl⟩ | ⟨_, hf₀'⟩
      · exact absurd hpid (hu.pid_ne b f hf₀)
      · exact h.pid_inj b b' f f' hf₀ hf₀' hpid
  · intro b f hf
    rcases put_some hf with ⟨_, rfl⟩ | ⟨_, hf⟩
    · exact hu.pass
    · exact h.pass b f hf

/-- A zombie comes in. -/
theorem putZombie (h : T.SchedOk) (hu : T.Unlisted a e) (hz : e.taskStatus = .zombie) :
    SchedOk (T.put a e) := by
  obtain ⟨hfresh, hpid, hinj, hpass⟩ := h.put_pids hu
  have hready : ∀ p ∈ T.ready, (T.put a e).tasks p.2 = T.tasks p.2 := fun p hp =>
    put_ne (h.ready_ne hu.none hp)
  have hcur : ∀ x, T.current = some x → (T.put a e).tasks x = T.tasks x := fun x hx =>
    put_ne (h.current_ne hu.none hx)
  refine ⟨hfresh, h.recycled, hpid, hinj, ?_, ?_, ?_, h.keys, ?_, hpass, ?_, ?_⟩
  · intro b f hf
    rcases put_some hf with ⟨_, rfl⟩ | ⟨_, hf⟩
    · exact Or.inr (Or.inr hz)
    · exact h.status b f hf
  · intro x hx
    obtain ⟨f, hf, hrun⟩ := h.current x hx
    exact ⟨f, (hcur x hx).trans hf, hrun⟩
  · intro p hp
    obtain ⟨f, hf, hpid⟩ := h.ready p hp
    exact ⟨f, (hready p hp).trans hf, hpid⟩
  · have hmap : T.ready.map (T.put a e).stride = T.ready.map T.stride :=
      List.map_congr_left fun p hp => stride_congr (hready p hp)
    exact h.heap.trans (List.Perm.of_eq hmap.symm)
  · intro p hp q hq
    rw [ghost_congr (hready p hp), ghost_congr (hready q hq)]
    exact h.near p hp q hq
  · intro x hx p hp
    rw [ghost_congr (hready p hp), ghost_congr (hcur x hx)]
    exact h.front x hx p hp

theorem near_put (h : T.SchedOk) (hu : T.Unlisted a e)
    (hnear : ∀ p ∈ T.ready, Near e.ghostPass (T.ghost p.2)) :
    ∀ p ∈ (e.pid, a) :: T.ready, ∀ q ∈ (e.pid, a) :: T.ready,
      Near ((T.put a e).ghost p.2) ((T.put a e).ghost q.2) := by
  have hghost : (T.put a e).ghost a = e.ghostPass := ghost_of_some (put_same T a e)
  have hready : ∀ p ∈ T.ready, (T.put a e).ghost p.2 = T.ghost p.2 := fun p hp =>
    ghost_congr (put_ne (h.ready_ne hu.none hp))
  intro p hp q hq
  rcases List.mem_cons.mp hp with rfl | hp <;> rcases List.mem_cons.mp hq with rfl | hq
  · exact Near.refl _
  · rw [hghost, hready q hq]
    exact hnear q hq
  · rw [hghost, hready p hp]
    exact (hnear p hp).symm
  · rw [hready p hp, hready q hq]
    exact h.near p hp q hq

/-- The heap takes the entry of a new task, because its order is one on the new contents. -/
theorem heap_put (h : T.SchedOk) (hu : T.Unlisted a e)
    (hnear : ∀ p ∈ T.ready, Near e.ghostPass (T.ghost p.2)) :
    (B.elems (B.push T.heap ⟨e.pid, e.pass⟩)).Perm (((e.pid, a) :: T.ready).map (T.put a e).stride) := by
  have hready : ∀ p ∈ T.ready, (T.put a e).tasks p.2 = T.tasks p.2 := fun p hp =>
    put_ne (h.ready_ne hu.none hp)
  have hmap : T.ready.map (T.put a e).stride = T.ready.map T.stride :=
    List.map_congr_left fun p hp => stride_congr (hready p hp)
  have hstride : (T.put a e).stride (e.pid, a) = ⟨e.pid, e.pass⟩ := by
    rw [stride, put_same]
    rfl
  have htotal : TotalOn Stride.Le (((e.pid, a) :: T.ready).map (T.put a e).stride) := by
    apply totalOn_of_near _ fun p => (T.put a e).ghost p.2
    · intro p hp
      rcases List.mem_cons.mp hp with rfl | hp
      · rw [hstride, ghost_of_some (put_same T a e)]
        exact hu.pass.1
      · obtain ⟨f, hf, _, _⟩ := h.ready p hp
        rw [ghost_congr (hready p hp), stride_congr (hready p hp), ghost_of_some hf, stride, hf]
        exact (h.pass p.2 f hf).1
    · exact h.near_put hu hnear
  rw [List.map_cons, hstride, hmap] at htotal ⊢
  exact (B.push_perm T.heap _ (htotal.mono (List.cons_subset_cons _ h.heap.subset))).trans (h.heap.cons _)

/-- **A task enters the ready queue.** It has to come within half of the circle of the tasks that
are there, ahead of the running task. -/
theorem add (h : T.SchedOk) (hu : T.Unlisted a e) (hs : e.taskStatus = .ready)
    (hnear : ∀ p ∈ T.ready, Near (e.ghostPass + bigStride / e.priority) (T.ghost p.2))
    (hfront : ∀ x, T.current = some x → T.ghost x ≤ e.ghostPass + bigStride / e.priority ∧
      e.ghostPass + bigStride / e.priority ≤ T.ghost x + maxDistance) : SchedOk (T.add a e) := by
  -- the entry as it enters the queue
  let e' : Entry := { e with
    pass := usizeAdd e.pass (bigStride / e.priority)
    ghostPass := e.ghostPass + bigStride / e.priority }
  have hpass' : e'.pass = e'.ghostPass % 2 ^ 64 := by
    show (e.pass + bigStride / e.priority) % 2 ^ 64 = _
    rw [hu.pass.1, Nat.mod_add_mod]
  have hu' : T.Unlisted a e' := ⟨hu.none, hu.lt, hu.pid, hu.pid_ne, hpass', hu.pass.2⟩
  obtain ⟨hfresh, hpid, hinj, hpass⟩ := h.put_pids hu'
  have hkey : e.pid ∉ T.ready.map Prod.fst := by
    intro hmem
    obtain ⟨p, hp, hpk⟩ := List.mem_map.mp hmem
    obtain ⟨f, hf, hfp, _⟩ := h.ready p hp
    exact hu.pid_ne p.2 f hf (hfp.trans hpk)
  have hperm : (insertKey e.pid a T.ready).Perm ((e.pid, a) :: T.ready) := insertKey_perm hkey
  have hmem : ∀ p, p ∈ insertKey e.pid a T.ready ↔ p = (e.pid, a) ∨ p ∈ T.ready := by
    intro p
    rw [hperm.mem_iff, List.mem_cons]
  have hready : ∀ p ∈ T.ready, (T.put a e').tasks p.2 = T.tasks p.2 := fun p hp =>
    put_ne (h.ready_ne hu.none hp)
  have hcur : ∀ x, T.current = some x → (T.put a e').tasks x = T.tasks x := fun x hx =>
    put_ne (h.current_ne hu.none hx)
  have hghost : (T.put a e').ghost a = e'.ghostPass := ghost_of_some (put_same T a e')
  refine ⟨hfresh, h.recycled, hpid, hinj, ?_, ?_, ?_, ?_, ?_, hpass, ?_, ?_⟩
  · intro b f hf
    rcases put_some hf with ⟨rfl, rfl⟩ | ⟨_, hf⟩
    · exact Or.inl ⟨hs, (hmem _).mpr (Or.inl rfl)⟩
    · rcases h.status b f hf with ⟨hst, hp⟩ | hother
      · exact Or.inl ⟨hst, (hmem _).mpr (Or.inr hp)⟩
      · exact Or.inr hother
  · intro x hx
    obtain ⟨f, hf, hrun⟩ := h.current x hx
    exact ⟨f, (hcur x hx).trans hf, hrun⟩
  · intro p hp
    rcases (hmem p).mp hp with rfl | hp
    · exact ⟨e', put_same T a e', rfl, hs⟩
    · obtain ⟨f, hf, hfp⟩ := h.ready p hp
      exact ⟨f, (hready p hp).trans hf, hfp⟩
  · show ((insertKey e.pid a T.ready).map Prod.fst).Nodup
    rw [(hperm.map Prod.fst).nodup_iff, List.map_cons, List.nodup_cons]
    exact ⟨hkey, h.keys⟩
  · exact (h.heap_put hu' hnear).trans (hperm.symm.map _)
  · intro p hp q hq
    exact h.near_put hu' hnear p (hperm.mem_iff.mp hp) q (hperm.mem_iff.mp hq)
  · intro x hx p hp
    show (T.put a e').ghost x ≤ (T.put a e').ghost p.2 ∧
      (T.put a e').ghost p.2 ≤ (T.put a e').ghost x + maxDistance
    rw [ghost_congr (hcur x hx)]
    rcases (hmem p).mp hp with rfl | hp
    · rw [hghost]
      exact hfront x hx
    · rw [ghost_congr (hready p hp)]
      exact h.front x hx p hp

/-- A pid and an address are handed out. -/
theorem alloc (h : T.SchedOk) :
    SchedOk { T with pids := T.pids.alloc.2, next := T.next + 1 } ∧
      (T.pids.alloc.1 < T.pids.alloc.2.current ∧ T.pids.alloc.1 ∉ T.pids.alloc.2.recycled) ∧
      ∀ b f, T.tasks b = some f → f.pid ≠ T.pids.alloc.1 := by
  have hfresh : ∀ b, T.next + 1 ≤ b → T.tasks b = none := fun b hb => h.fresh b (by omega)
  have hrec := h.recycled
  have hpids := h.pid
  cases hr : T.pids.recycled with
  | nil =>
    have halloc : T.pids.alloc = (T.pids.current, ⟨T.pids.current + 1, []⟩) := by
      rw [PidAllocator.alloc, hr]
    rw [halloc]
    refine ⟨⟨hfresh, ⟨List.nodup_nil, fun p hp => absurd hp List.not_mem_nil⟩, ?_, h.pid_inj, h.status,
      h.current, h.ready, h.keys, h.heap, h.pass, h.near, h.front⟩,
      ⟨Nat.lt_succ_self _, List.not_mem_nil⟩, ?_⟩
    · intro b f hf
      exact ⟨Nat.lt_succ_of_lt (hpids b f hf).1, List.not_mem_nil⟩
    · intro b f hf
      exact Nat.ne_of_lt (hpids b f hf).1
  | cons pid rest =>
    have halloc : T.pids.alloc = (pid, { T.pids with recycled := rest }) := by
      rw [PidAllocator.alloc, hr]
    rw [halloc]
    rw [hr] at hrec
    rw [List.nodup_cons] at hrec
    refine ⟨⟨hfresh, ⟨hrec.1.2, fun p hp => hrec.2 p (List.mem_cons_of_mem _ hp)⟩, ?_, h.pid_inj,
      h.status, h.current, h.ready, h.keys, h.heap, h.pass, h.near, h.front⟩,
      ⟨hrec.2 pid List.mem_cons_self, hrec.1.1⟩, ?_⟩
    · intro b f hf
      refine ⟨(hpids b f hf).1, fun hmem => (hpids b f hf).2 ?_⟩
      rw [hr]
      exact List.mem_cons_of_mem _ hmem
    · intro b f hf heq
      apply (hpids b f hf).2
      rw [hr, heq]
      exact List.mem_cons_self

/-- A pid that no task has goes back. -/
theorem freePid (h : T.SchedOk) {p : Nat} (hlt : p < T.pids.current) (hnot : p ∉ T.pids.recycled)
    (hne : ∀ b f, T.tasks b = some f → f.pid ≠ p) :
    SchedOk { T with pids := { T.pids with recycled := p :: T.pids.recycled } } := by
  refine ⟨h.fresh, ⟨List.nodup_cons.mpr ⟨hnot, h.recycled.1⟩, ?_⟩, ?_, h.pid_inj, h.status, h.current,
    h.ready, h.keys, h.heap, h.pass, h.near, h.front⟩
  · intro q hq
    rcases List.mem_cons.mp hq with rfl | hq
    · exact hlt
    · exact h.recycled.2 q hq
  · intro b f hf
    refine ⟨(h.pid b f hf).1, fun hmem => ?_⟩
    rcases List.mem_cons.mp hmem with heq | hmem
    · exact hne b f hf heq
    · exact (h.pid b f hf).2 hmem

end SchedOk

/-- Two entries are the same to the scheduler. -/
structure Entry.Same (e f : Entry) : Prop where
  pid : f.pid = e.pid
  pass : f.pass = e.pass
  ghostPass : f.ghostPass = e.ghostPass
  taskStatus : f.taskStatus = e.taskStatus
  priority : 2 ≤ f.priority

/-- The scheduler depends on nothing else of the tasks. -/
theorem SchedOk.congr (h : T.SchedOk) {tasks : Nat → Option Entry}
    (hnone : ∀ a, T.tasks a = none → tasks a = none)
    (hsome : ∀ a e, T.tasks a = some e → ∃ f, tasks a = some f ∧ Entry.Same e f) :
    SchedOk { T with tasks := tasks } := by
  have hback : ∀ a f, tasks a = some f → ∃ e, T.tasks a = some e ∧ Entry.Same e f := by
    intro a f hf
    cases he : T.tasks a with
    | none =>
      rw [hnone a he] at hf
      cases hf
    | some e =>
      obtain ⟨f', hf', hsame⟩ := hsome a e he
      rw [hf] at hf'
      cases hf'
      exact ⟨e, rfl, hsame⟩
  have hghost : ∀ a e, T.tasks a = some e →
      ({ T with tasks := tasks } : Table B).ghost a = T.ghost a := by
    intro a e he
    obtain ⟨f, hf, hsame⟩ := hsome a e he
    rw [ghost_of_some he, ghost_of_some hf, hsame.ghostPass]
  have hghost' : ∀ p ∈ T.ready, ({ T with tasks := tasks } : Table B).ghost p.2 = T.ghost p.2 := by
    intro p hp
    obtain ⟨e, he, _⟩ := h.ready p hp
    exact hghost p.2 e he
  refine ⟨fun a ha => hnone a (h.fresh a ha), h.recycled, ?_, ?_, ?_, ?_, ?_, h.keys, ?_, ?_, ?_, ?_⟩
  · intro a f hf
    obtain ⟨e, he, hsame⟩ := hback a f hf
    rw [hsame.pid]
    exact h.pid a e he
  · intro a b f g hf hg hpid
    obtain ⟨e, he, hsame⟩ := hback a f hf
    obtain ⟨e', he', hsame'⟩ := hback b g hg
    rw [hsame.pid, hsame'.pid] at hpid
    exact h.pid_inj a b e e' he he' hpid
  · intro a f hf
    obtain ⟨e, he, hsame⟩ := hback a f hf
    rw [hsame.pid, hsame.taskStatus]
    exact h.status a e he
  · intro a ha
    obtain ⟨e, he, hrun⟩ := h.current a ha
    obtain ⟨f, hf, hsame⟩ := hsome a e he
    exact ⟨f, hf, hsame.taskStatus.trans hrun⟩
  · intro p hp
    obtain ⟨e, he, hpid, hst⟩ := h.ready p hp
    obtain ⟨f, hf, hsame⟩ := hsome p.2 e he
    exact ⟨f, hf, hsame.pid.trans hpid, hsame.taskStatus.trans hst⟩
  · have hmap : T.ready.map ({ T with tasks := tasks } : Table B).stride = T.ready.map T.stride := by
      apply List.map_congr_left
      intro p hp
      obtain ⟨e, he, _⟩ := h.ready p hp
      obtain ⟨f, hf, hsame⟩ := hsome p.2 e he
      rw [stride, stride, he]
      simp only [hf, Option.map_some, Option.getD_some, hsame.pass]
    exact h.heap.trans (List.Perm.of_eq hmap.symm)
  · intro a f hf
    obtain ⟨e, he, hsame⟩ := hback a f hf
    rw [hsame.pass, hsame.ghostPass]
    exact ⟨(h.pass a e he).1, hsame.priority⟩
  · intro p hp q hq
    rw [hghost' p hp, hghost' q hq]
    exact h.near p hp q hq
  · intro a ha p hp
    obtain ⟨e, he, _⟩ := h.current a ha
    rw [hghost' p hp, hghost a e he]
    exact h.front a ha p hp

/-- A task of the table is replaced by one that is the same to the scheduler. -/
theorem SchedOk.replace (h : T.SchedOk) (he : T.tasks a = some e) (hsame : Entry.Same e f) :
    SchedOk (T.put a f) := by
  apply h.congr
  · intro b hb
    rw [Function.update_of_ne (ne_of_none hb he).symm]
    exact hb
  · intro b g hg
    by_cases hb : b = a
    · rw [hb, he] at hg
      cases hg
      rw [hb, Function.update_self]
      exact ⟨f, rfl, hsame⟩
    · rw [Function.update_of_ne hb]
      exact ⟨g, hg, rfl, rfl, rfl, rfl, (h.pass b g hg).2⟩

/-! ## Taking the next task -/

/-- The task with the key `p` of the ready queue runs. -/
def dispatch (T : Table B) (q : B.Queue) (p : Nat × Nat) (e : Entry) : Table B :=
  { T.put p.2 { e with taskStatus := .running } with
    heap := q
    ready := T.ready.filter fun x => x.1 ≠ p.1
    current := some p.2 }

/-- The heap gives an entry of the ready queue whose sum is the least. -/
theorem SchedOk.pop (h : T.SchedOk) (hne : T.ready ≠ []) :
    ∃ p ∈ T.ready, ∃ q, B.pop T.heap = some (T.stride p, q) ∧
      (B.elems T.heap).Perm (T.stride p :: B.elems q) ∧ ∀ x ∈ T.ready, T.ghost p.2 ≤ T.ghost x.2 := by
  have hnil : B.elems T.heap ≠ [] := by
    intro hc
    have hlen := h.heap.length_eq
    rw [hc, List.length_map, List.length_nil] at hlen
    exact hne (List.eq_nil_of_length_eq_zero hlen.symm)
  have htotal : TotalOn Stride.Le (B.elems T.heap) := h.totalOn.mono h.heap.subset
  obtain ⟨s, q, hpop, hperm, hmax⟩ := B.pop_greatest T.heap hnil htotal
  obtain ⟨p, hp, rfl⟩ := List.mem_map.mp
    (h.heap.subset (hperm.symm.subset (List.mem_cons_self (l := B.elems q))))
  refine ⟨p, hp, q, hpop, hperm, fun x hx => ?_⟩
  have hpass : ∀ y ∈ T.ready, (T.stride y).pass = T.ghost y.2 % 2 ^ 64 := by
    intro y hy
    obtain ⟨e, he, _⟩ := h.ready y hy
    rw [ghost_of_some he, stride, he]
    exact (h.pass y.2 e he).1
  rw [← Stride.le_iff (hpass x hx) (hpass p hp) (h.near x hx p hp)]
  exact hmax _ (h.heap.symm.subset (List.mem_map.mpr ⟨x, hx, rfl⟩))

theorem SchedOk.dispatch (h : T.SchedOk) (hcur : T.current = none) {p : Nat × Nat} (hp : p ∈ T.ready)
    (he : T.tasks p.2 = some e) {q : B.Queue} (hperm : (B.elems T.heap).Perm (T.stride p :: B.elems q))
    (hmin : ∀ x ∈ T.ready, T.ghost p.2 ≤ T.ghost x.2) : SchedOk (T.dispatch q p e) := by
  obtain ⟨e₀, he₀, hpid, hst⟩ := h.ready p hp
  rw [he] at he₀
  cases he₀
  have hmem : ∀ x, x ∈ (T.ready.filter fun x => x.1 ≠ p.1) ↔ x ∈ T.ready ∧ x.1 ≠ p.1 := by
    intro x
    rw [List.mem_filter, decide_eq_true_eq]
  -- the address of another entry is another one
  have haddr : ∀ x ∈ T.ready, x.1 ≠ p.1 → x.2 ≠ p.2 := by
    intro x hx hne heq
    obtain ⟨f, hf, hfp, _⟩ := h.ready x hx
    rw [heq, he] at hf
    cases hf
    exact hne (hfp.symm.trans hpid)
  have hkeep : ∀ x ∈ T.ready, x.1 ≠ p.1 →
      (T.put p.2 { e with taskStatus := .running }).tasks x.2 = T.tasks x.2 :=
    fun x hx hne => put_ne (haddr x hx hne)
  have hghost : (T.put p.2 { e with taskStatus := .running }).ghost p.2 = T.ghost p.2 := by
    rw [ghost_of_some he, ghost_of_some (put_same T p.2 _)]
  refine ⟨?_, h.recycled, ?_, ?_, ?_, ?_, ?_, ?_, ?_, ?_, ?_, ?_⟩
  · intro b hb
    exact (put_ne (ne_of_none (h.fresh b hb) he).symm).trans (h.fresh b hb)
  · intro b f hf
    rcases put_some hf with ⟨_, rfl⟩ | ⟨_, hf₀⟩
    · exact h.pid p.2 e he
    · exact h.pid b f hf₀
  · intro b b' f f' hf hf' heq
    rcases put_some hf with ⟨rfl, rfl⟩ | ⟨_, hf₀⟩
    · rcases put_some hf' with ⟨rfl, _⟩ | ⟨_, hf₀'⟩
      · rfl
      · exact h.pid_inj _ b' e f' he hf₀' heq
    · rcases put_some hf' with ⟨rfl, rfl⟩ | ⟨_, hf₀'⟩
      · exact h.pid_inj b _ f e hf₀ he heq
      · exact h.pid_inj b b' f f' hf₀ hf₀' heq
  · intro b f hf
    rcases put_some hf with ⟨rfl, rfl⟩ | ⟨hb, hf₀⟩
    · exact Or.inr (Or.inl ⟨rfl, rfl⟩)
    · rcases h.status b f hf₀ with ⟨hfst, hfm⟩ | ⟨_, hc⟩ | hz
      · refine Or.inl ⟨hfst, (hmem _).mpr ⟨hfm, fun hc => hb ?_⟩⟩
        exact h.pid_inj b p.2 f e hf₀ he (hc.trans hpid.symm)
      · rw [hcur] at hc
        cases hc
      · exact Or.inr (Or.inr hz)
  · intro b hb
    cases hb
    exact ⟨_, put_same T p.2 _, rfl⟩
  · intro x hx
    obtain ⟨hx, hne⟩ := (hmem x).mp hx
    obtain ⟨f, hf, hfp⟩ := h.ready x hx
    exact ⟨f, (hkeep x hx hne).trans hf, hfp⟩
  · exact (List.filter_sublist.map _).nodup h.keys
  · have hmap : (T.ready.filter fun x => x.1 ≠ p.1).map (T.dispatch q p e).stride =
        (T.ready.filter fun x => x.1 ≠ p.1).map T.stride := by
      apply List.map_congr_left
      intro x hx
      obtain ⟨hx, hne⟩ := (hmem x).mp hx
      exact stride_congr (hkeep x hx hne)
    have hall : (T.stride p :: B.elems q).Perm
        (T.stride p :: (T.ready.filter fun x => x.1 ≠ p.1).map T.stride) :=
      hperm.symm.trans (h.heap.trans ((perm_filter_key h.keys hp).map T.stride))
    exact hall.cons_inv.trans (List.Perm.of_eq hmap.symm)
  · intro b f hf
    rcases put_some hf with ⟨_, rfl⟩ | ⟨_, hf₀⟩
    · exact h.pass p.2 e he
    · exact h.pass b f hf₀
  · intro x hx y hy
    obtain ⟨hx, hxne⟩ := (hmem x).mp hx
    obtain ⟨hy, hyne⟩ := (hmem y).mp hy
    show Near ((T.put p.2 _).ghost x.2) ((T.put p.2 _).ghost y.2)
    rw [ghost_congr (hkeep x hx hxne), ghost_congr (hkeep y hy hyne)]
    exact h.near x hx y hy
  · intro b hb x hx
    cases hb
    obtain ⟨hx, hxne⟩ := (hmem x).mp hx
    show (T.put p.2 _).ghost p.2 ≤ (T.put p.2 _).ghost x.2 ∧
      (T.put p.2 _).ghost x.2 ≤ (T.put p.2 _).ghost p.2 + maxDistance
    rw [hghost, ghost_congr (hkeep x hx hxne)]
    exact ⟨hmin x hx, (h.near x hx p hp).1⟩

end Table

end RCore.Task
