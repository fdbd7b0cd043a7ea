import RCore.Task.Verify.Tree

/-!
# The moves of the process table

`Move op T T'` is what the step `op` of the kernel does to the process table. There are few moves:
most system calls leave the table alone. Every move keeps the invariants of the scheduler and of the
tree (`Move.ok`).
-/

namespace RCore.Task

open RCore Mm

/-- The child of the task `e` at `a`, with a new pid. -/
def Entry.child (e : Entry) (a pid : Nat) : Entry :=
  { e with pid, taskStatus := .ready, parent := some a, children := [], exitCode := 0 }

namespace Table

variable {B : BinaryHeap}

/-- What a step does to the table. -/
inductive Move : Op → Table B → Table B → Prop
  | same (op : Op) (T : Table B) : Move op T T
  | setPriority {T : Table B} {a : Nat} {e : Entry} {prio : Nat} (hcur : T.current = some a)
      (he : T.tasks a = some e) (hprio : 2 ≤ prio) :
      Move (.setPriority prio) T (T.put a { e with priority := prio })
  | yield {T : Table B} {a : Nat} {e : Entry} (hcur : T.current = some a) (he : T.tasks a = some e) :
      Move .yield T (({ T with current := none } : Table B).add a { e with taskStatus := .ready })
  | runTasks {T : Table B} {p : Nat × Nat} {e : Entry} {q : B.Queue} (hcur : T.current = none)
      (hp : p ∈ T.ready) (he : T.tasks p.2 = some e)
      (hperm : (B.elems T.heap).Perm (T.stride p :: B.elems q))
      (hmin : ∀ x ∈ T.ready, T.ghost p.2 ≤ T.ghost x.2) : Move .runTasks T (T.dispatch q p e)
  | fork {T : Table B} {a : Nat} {e : Entry} (hcur : T.current = some a) (he : T.tasks a = some e) :
      Move .fork T ((T.spawn a e (e.child a T.pids.alloc.1)).add T.next (e.child a T.pids.alloc.1))
  | exit {T : Table B} {i a : Nat} {e : Entry} (exitCode : Int32) (hinit : T.initproc = some i)
      (hcur : T.current = some a) (he : T.tasks a = some e) (hai : i ≠ a) (hself : a ∉ e.children) :
      Move (.exit exitCode) T (T.exit i a e exitCode)
  | reap {T : Table B} {a c : Nat} {e f : Entry} {cs : List Nat} (pid : Int) (ptr : Nat)
      (hcur : T.current = some a) (he : T.tasks a = some e) (hc : c ∈ e.children)
      (hf : T.tasks c = some f) (hz : f.taskStatus = .zombie) (hcs : cs = e.children.erase c) :
      Move (.waitpid pid ptr) T (T.reap a e cs c f)

/-- Both invariants. -/
structure Ok (T : Table B) (i : Nat) : Prop where
  sched : T.SchedOk
  tree : T.TreeOk i

variable {T T' : Table B} {i a : Nat} {e f : Entry}

theorem SchedOk.yield (h : T.SchedOk) (hcur : T.current = some a) (he : T.tasks a = some e) :
    SchedOk (({ T with current := none } : Table B).add a { e with taskStatus := .ready }) := by
  have hst : e.taskStatus ≠ .ready := by
    rw [h.current_running hcur he]
    decide
  have herase := h.leave hcur he
  have hstride := stride_le (h.pass a e he).2
  have hghost : ∀ p ∈ T.ready, (T.erase a).ghost p.2 = T.ghost p.2 := fun p hp =>
    ghost_congr (erase_ne (h.not_ready he hst hp))
  have hadd := herase.add (a := a) (e := { e with taskStatus := .ready })
    ⟨erase_same T a, h.lt_next he, h.pid a e he, fun b g hg hpid =>
      (erase_some hg).1 (h.pid_inj b a g e (erase_some hg).2 he hpid), h.pass a e he⟩ rfl
    (fun p hp => by
      obtain ⟨hle, hge⟩ := h.front a hcur p hp
      rw [ghost_of_some he] at hle hge
      show Near _ ((T.erase a).ghost p.2)
      rw [hghost p hp]
      have hpos := Nat.zero_le (bigStride / e.priority)
      exact ⟨by simp only; omega, by simp only; omega⟩)
    (fun x hx => by cases hx)
  -- putting the task back hides that it was taken away
  have heq : (({ T.erase a with current := none } : Table B).add a { e with taskStatus := .ready }) =
      (({ T with current := none } : Table B).add a { e with taskStatus := .ready }) := by
    simp only [Table.add, Table.put, Table.erase, Function.update_idem]
  rw [← heq]
  exact hadd

/-- The child enters the queue one stride after the pass of its parent. -/
theorem SchedOk.fork (h : T.SchedOk) (hcur : T.current = some a) (he : T.tasks a = some e) :
    SchedOk ((T.spawn a e (e.child a T.pids.alloc.1)).add T.next (e.child a T.pids.alloc.1)) := by
  have hfresh := h.fresh T.next (Nat.le_refl _)
  have hne : a ≠ T.next := ne_of_none hfresh he
  obtain ⟨halloc, hpid, hpidne⟩ := h.alloc
  have hstride := stride_le (h.pass a e he).2
  have hpos := Nat.zero_le (bigStride / e.priority)
  have hadd := halloc.add (a := T.next) (e := e.child a T.pids.alloc.1)
    ⟨hfresh, Nat.lt_succ_self _, hpid, hpidne, h.pass a e he⟩ rfl
    (fun p hp => by
      obtain ⟨hle, hge⟩ := h.front a hcur p hp
      rw [ghost_of_some he] at hle hge
      show Near (e.ghostPass + bigStride / e.priority) (T.ghost p.2)
      exact ⟨by omega, by omega⟩)
    (fun x hx => by
      have hx' : T.current = some x := hx
      rw [hcur] at hx'
      cases hx'
      show T.ghost a ≤ e.ghostPass + bigStride / e.priority ∧
        e.ghostPass + bigStride / e.priority ≤ T.ghost a + maxDistance
      rw [ghost_of_some he]
      exact ⟨by omega, by omega⟩)
  -- the parent's list of children is nothing to the scheduler
  have hold : (({ T with pids := T.pids.alloc.2, next := T.next + 1 } : Table B).add T.next
      (e.child a T.pids.alloc.1)).tasks a = some e := (put_ne hne).trans he
  have hput := hadd.replace (f := { e with children := e.children ++ [T.next] }) hold
    ⟨rfl, rfl, rfl, rfl, (h.pass a e he).2⟩
  have heq : (({ T with pids := T.pids.alloc.2, next := T.next + 1 } : Table B).add T.next
      (e.child a T.pids.alloc.1)).put a { e with children := e.children ++ [T.next] } =
      (T.spawn a e (e.child a T.pids.alloc.1)).add T.next (e.child a T.pids.alloc.1) := by
    simp only [Table.add, Table.put, Table.spawn]
    rw [Function.update_comm hne, Function.update_idem]
  rw [← heq]
  exact hput

theorem SchedOk.exit (h : T.SchedOk) (hcur : T.current = some a) (he : T.tasks a = some e)
    (exitCode : Int32) : SchedOk (T.exit i a e exitCode) := by
  have herase := h.leave hcur he
  -- adoption is nothing to the scheduler
  have hadopt : SchedOk { (T.erase a).adopt i e.children with current := none } := by
    apply herase.congr
    · exact fun b hb => adopt_none hb
    · intro b g hg
      obtain ⟨_, _, hadopted⟩ := adopt_some hg
      exact ⟨_, hadopted, rfl, rfl, rfl, rfl, (h.pass b g (erase_some hg).2).2⟩
  have hback : ∀ b g, ((T.erase a).adopt i e.children).tasks b = some g →
      ∃ g₀, (T.erase a).tasks b = some g₀ ∧ g.pid = g₀.pid := by
    intro b g hg
    cases hb : (T.erase a).tasks b with
    | none =>
      rw [adopt_none hb] at hg
      cases hg
    | some g₀ =>
      obtain ⟨_, _, hadopted⟩ := adopt_some hb
      rw [hadopted] at hg
      cases hg
      exact ⟨g₀, rfl, rfl⟩
  have hput := hadopt.putZombie (a := a)
    (e := { e with taskStatus := .zombie, exitCode, children := [] })
    ⟨adopt_none (erase_same T a), h.lt_next he, h.pid a e he, fun b g hg hpid => by
      obtain ⟨g₀, hg₀, hgp⟩ := hback b g hg
      obtain ⟨hb, hg₀⟩ := erase_some hg₀
      exact hb (h.pid_inj b a g₀ e hg₀ he (hgp.symm.trans hpid)), h.pass a e he⟩ rfl
  have heq : ({ (T.erase a).adopt i e.children with current := none } : Table B).put a
      { e with taskStatus := .zombie, exitCode, children := [] } = T.exit i a e exitCode := by
    simp only [Table.exit, put, adopt]
    congr 1
    funext b
    by_cases hb : b = a
    · rw [hb, Function.update_self, Function.update_self]
    · rw [Function.update_of_ne hb, Function.update_of_ne hb, erase_ne hb]
  rw [← heq]
  exact hput

theorem SchedOk.reap (h : T.SchedOk) {c : Nat} (he : T.tasks a = some e) (hf : T.tasks c = some f)
    (hca : c ≠ a) (hz : f.taskStatus = .zombie) (cs : List Nat) : SchedOk (T.reap a e cs c f) := by
  have hput : SchedOk (T.put a { e with children := cs }) :=
    h.replace he ⟨rfl, rfl, rfl, rfl, (h.pass a e he).2⟩
  have hf' : (T.put a { e with children := cs }).tasks c = some f := (put_ne hca).trans hf
  have hcur : ∀ x, T.current = some x → x ≠ c := by
    rintro x hx rfl
    rw [h.current_running hx hf] at hz
    cases hz
  have herase : SchedOk ((T.put a { e with children := cs }).erase c) :=
    hput.erase hf' (by rw [hz]; decide) (c := T.current) (fun x hx => ⟨hx, hcur x hx⟩) fun _ _ hx => hx
  apply herase.freePid (h.pid c f hf).1 (h.pid c f hf).2
  intro b g hg hpid
  obtain ⟨hb, hg⟩ := erase_some hg
  exact hb (hput.pid_inj b c g f hg hf' hpid)

/-- **Every move keeps the invariants.** -/
theorem Move.ok {op : Op} (hm : Move op T T') (h : T.Ok i) : T'.Ok i := by
  obtain ⟨hs, ht⟩ := h
  cases hm with
  | same => exact ⟨hs, ht⟩
  | setPriority hcur he hprio =>
    exact ⟨hs.replace he ⟨rfl, rfl, rfl, rfl, hprio⟩, ht.replace rfl rfl he rfl rfl Iff.rfl⟩
  | yield hcur he =>
    refine ⟨hs.yield hcur he, ht.replace rfl rfl he rfl rfl ?_⟩
    rw [hs.current_running hcur he]
    show TaskStatus.ready = .zombie ↔ TaskStatus.running = .zombie
    decide
  | @runTasks _ p e q hcur hp he hperm hmin =>
    refine ⟨hs.dispatch hcur hp he hperm hmin, ht.replace rfl rfl he rfl rfl ?_⟩
    obtain ⟨e₀, he₀, _, hst⟩ := hs.ready p hp
    rw [he] at he₀
    cases he₀
    rw [hst]
    show TaskStatus.running = .zombie ↔ TaskStatus.ready = .zombie
    decide
  | @fork _ a e hcur he =>
    have hfresh := hs.fresh T.next (Nat.le_refl _)
    have hz : e.taskStatus ≠ .zombie := by
      rw [hs.current_running hcur he]
      decide
    have hspawn := ht.spawn hfresh he hz (f := e.child a T.pids.alloc.1) rfl rfl
    exact ⟨hs.fork hcur he, hspawn.replace (e := e.child a T.pids.alloc.1) rfl rfl
      (spawn_new (ne_of_none hfresh he).symm) rfl rfl Iff.rfl⟩
  | @exit _ j a e exitCode hinit hcur he hai hself =>
    have hj : j = i := Option.some.inj (hinit.symm.trans ht.init.1)
    subst hj
    exact ⟨hs.exit hcur he exitCode, ht.exit he hai hself exitCode⟩
  | @reap _ a c e f cs pid ptr hcur he hc hf hz hcs =>
    have hca : c ≠ a := by
      rintro rfl
      rw [hs.current_running hcur hf] at hz
      cases hz
    have hnd := ht.nodup a e he
    refine ⟨hs.reap he hf hca hz cs, ht.reap he hf hca hz ?_ ?_ hc⟩
    · rw [hcs]
      exact hnd.erase c
    · intro x
      rw [hcs, hnd.mem_erase_iff]
      exact And.comm

/-! ## What a move leaves of a task -/

section Follows

variable {op : Op}

/-- What a move leaves of a task: its pid, and its exit code once it has exited. Only its own exit
makes a task a zombie, and only a zombie can go. -/
structure Follows (op : Op) (T : Table B) (a : Nat) (e : Entry) (T' : Table B) : Prop where
  live : e.taskStatus ≠ .zombie → ∃ f, T'.tasks a = some f ∧ f.pid = e.pid ∧
    (f.taskStatus = .zombie → op = .exit f.exitCode ∧ T.current = some a)
  zombie : e.taskStatus = .zombie → ∀ f, T'.tasks a = some f →
    f.taskStatus = .zombie ∧ f.pid = e.pid ∧ f.exitCode = e.exitCode

theorem follows_of_same (he : T'.tasks a = some e) : Follows op T a e T' :=
  ⟨fun hz => ⟨e, he, rfl, fun hc => absurd hc hz⟩, fun hz f hf => by
    rw [he] at hf
    cases hf
    exact ⟨hz, rfl, rfl⟩⟩

/-- The task at `b` is replaced by one with the same pid that is alive if it was. -/
theorem follows_put {b : Nat} {g g' : Entry} (he : T.tasks a = some e) (hg : T.tasks b = some g)
    (hT : T'.tasks = (T.put b g').tasks) (hpid : g'.pid = g.pid) (hcode : g'.exitCode = g.exitCode)
    (hst : g'.taskStatus = .zombie ↔ g.taskStatus = .zombie) : Follows op T a e T' := by
  by_cases hab : a = b
  · subst hab
    have heg : e = g := Option.some.inj (he.symm.trans hg)
    subst heg
    have hnew : T'.tasks a = some g' := by rw [hT, put_same]
    refine ⟨fun hz => ⟨g', hnew, hpid, fun hc => absurd (hst.mp hc) hz⟩, fun hz f hf => ?_⟩
    rw [hnew] at hf
    cases hf
    exact ⟨hst.mpr hz, hpid, hcode⟩
  · apply follows_of_same
    rw [hT, put_ne hab]
    exact he

theorem Move.follows (hm : Move op T T') (h : T.Ok i) (he : T.tasks a = some e) :
    Follows op T a e T' := by
  have hfresh : a ≠ T.next := ne_of_none (h.sched.fresh _ (Nat.le_refl _)) he
  cases hm with
  | same => exact follows_of_same he
  | setPriority hcur hg hprio => exact follows_put he hg rfl rfl rfl Iff.rfl
  | @yield _ b g hcur hg =>
    refine follows_put he hg rfl rfl rfl ?_
    rw [h.sched.current_running hcur hg]
    show TaskStatus.ready = .zombie ↔ TaskStatus.running = .zombie
    decide
  | @runTasks _ p g q hcur hp hg hperm hmin =>
    refine follows_put he hg rfl rfl rfl ?_
    obtain ⟨g₀, hg₀, _, hst⟩ := h.sched.ready p hp
    rw [hg] at hg₀
    cases hg₀
    rw [hst]
    show TaskStatus.running = .zombie ↔ TaskStatus.ready = .zombie
    decide
  | @fork _ b g hcur hg =>
    -- the child is at another address, and of the parent only its children change
    have hchild : ∀ f, ((T.spawn b g (g.child b T.pids.alloc.1)).add T.next f).tasks a =
        (T.put b { g with children := g.children ++ [T.next] }).tasks a := by
      intro f
      refine (put_ne hfresh).trans ?_
      by_cases hab : a = b
      · rw [hab, put_same]
        exact put_same _ b _
      · rw [put_ne hab]
        exact (put_ne hab).trans (put_ne hfresh)
    have hput : Follows .fork T a e (T.put b { g with children := g.children ++ [T.next] }) :=
      follows_put he hg rfl rfl rfl Iff.rfl
    exact ⟨fun hz => by rw [hchild]; exact hput.live hz, fun hz f hf => hput.zombie hz f (by rw [← hchild]; exact hf)⟩
  | @exit _ j b g exitCode hinit hcur hg hjb hself =>
    by_cases hab : a = b
    · subst hab
      rw [hg] at he
      cases he
      refine ⟨fun hz => ⟨_, put_same _ a _, rfl, fun _ => ⟨rfl, hcur⟩⟩, fun hz => ?_⟩
      rw [h.sched.current_running hcur hg] at hz
      cases hz
    · -- adoption changes the parents and the children of others
      have hother : ∃ f, (T.exit j b g exitCode).tasks a = some f ∧ f.pid = e.pid ∧
          f.taskStatus = e.taskStatus ∧ f.exitCode = e.exitCode := by
        obtain ⟨_, _, hadopted⟩ := @adopt_some _ T j a e g.children he
        exact ⟨_, (put_ne hab).trans hadopted, rfl, rfl, rfl⟩
      obtain ⟨f, hf, hpid, hst, hcode⟩ := hother
      refine ⟨fun hz => ⟨f, hf, hpid, fun hc => absurd (hst.symm.trans hc) hz⟩, fun hz f' hf' => ?_⟩
      rw [hf] at hf'
      cases hf'
      exact ⟨hst.trans hz, hpid, hcode⟩
  | @reap _ b c g f cs pid ptr hcur hg hc hf hz hcs =>
    have hput : Follows (.waitpid pid ptr) T a e (T.put b { g with children := cs }) :=
      follows_put he hg rfl rfl rfl Iff.rfl
    by_cases hac : a = c
    · subst hac
      rw [hf] at he
      cases he
      refine ⟨fun hl => absurd hz hl, fun _ f' hf' => ?_⟩
      have hgone : (T.reap b g cs a e).tasks a = none := erase_same _ a
      rw [hgone] at hf'
      cases hf'
    · have hrest : (T.reap b g cs c f).tasks a = (T.put b { g with children := cs }).tasks a :=
        erase_ne hac
      exact ⟨fun hl => by rw [hrest]; exact hput.live hl,
        fun hl f' hf' => hput.zombie hl f' (by rw [← hrest]; exact hf')⟩

/-- A new task is the child of a fork. -/
theorem Move.created (hm : Move op T T') (hnone : T.tasks a = none)
    (he : T'.tasks a = some e) : e.taskStatus = .ready := by
  have hput : ∀ {b : Nat} {g g' : Entry}, T.tasks b = some g → (T.put b g').tasks a = none := by
    intro b g g' hg
    have hab : a ≠ b := by
      rintro rfl
      rw [hg] at hnone
      cases hnone
    rw [put_ne hab]
    exact hnone
  have habs : T'.tasks a = none → e.taskStatus = .ready := by
    intro hc
    rw [he] at hc
    cases hc
  cases hm with
  | same => exact habs hnone
  | setPriority hcur hg hprio => exact habs (hput hg)
  | yield hcur hg => exact habs (hput hg)
  | runTasks hcur hp hg hperm hmin => exact habs (hput hg)
  | @fork _ b g hcur hg =>
    by_cases hnext : a = T.next
    · subst hnext
      rw [show ((T.spawn b g (g.child b T.pids.alloc.1)).add T.next (g.child b T.pids.alloc.1)).tasks
        T.next = some _ from put_same _ T.next _] at he
      cases he
      rfl
    · have hother : ((T.spawn b g (g.child b T.pids.alloc.1)).add T.next
          (g.child b T.pids.alloc.1)).tasks a = none := by
        refine (put_ne hnext).trans ?_
        have hab : a ≠ b := by
          rintro rfl
          rw [hg] at hnone
          cases hnone
        exact (put_ne hab).trans ((put_ne hnext).trans hnone)
      exact habs hother
  | @exit _ j b g exitCode hinit hcur hg hjb hself =>
    apply habs
    have hab : a ≠ b := by
      rintro rfl
      rw [hg] at hnone
      cases hnone
    refine (put_ne hab).trans ?_
    simp only [adopt, hnone, Option.map_none, ite_self]
  | @reap _ b c g f cs pid ptr hcur hg hc hf hz hcs =>
    apply habs
    have hac : a ≠ c := by
      rintro rfl
      rw [hf] at hnone
      cases hnone
    exact (erase_ne hac).trans (hput hg)

end Follows

end Table

end RCore.Task
