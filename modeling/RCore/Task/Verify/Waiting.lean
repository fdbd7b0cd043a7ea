import RCore.Task.Verify.Scheduling

/-!
# The process tree over whole runs

In every state the kernel reaches, a task other than `INITPROC` is in the list of children of one task,
which is its parent and has not exited. A zombie is held by nothing else, so the one that `sys_waitpid`
takes out of the list has no other owner, and what it hands over is the exit code of that task's own
exit.
-/

namespace RCore.Task

open RCore Mm

namespace Table

variable {B : BinaryHeap} {T : Table B} {i a c : Nat} {e f : Entry}

/-- The references to a task from lists of children. -/
def childRefs (T : Table B) : List Nat :=
  (List.range T.next).flatMap fun a => ((T.tasks a).map Entry.children).getD []

/-- A zombie is neither `INITPROC`, nor current, nor ready. -/
theorem Ok.zombie_apart (h : T.Ok i) (hf : T.tasks c = some f) (hz : f.taskStatus = .zombie) :
    T.initproc ≠ some c ∧ T.current ≠ some c ∧ c ∉ T.ready.map Prod.snd := by
  refine ⟨fun hc => ?_, fun hc => ?_, fun hc => ?_⟩
  · obtain ⟨hinit, e, he, hl⟩ := h.tree.init
    have hic : i = c := Option.some.inj (hinit.symm.trans hc)
    rw [hic, hf] at he
    cases he
    exact hl hz
  · rw [h.sched.current_running hc hf] at hz
    cases hz
  · obtain ⟨p, hp, hpc⟩ := List.mem_map.mp hc
    refine h.sched.not_ready hf ?_ hp hpc
    rw [hz]
    decide

theorem count_refs (T : Table B) (hi : T.initproc ≠ some c) (hcur : T.current ≠ some c)
    (hready : c ∉ T.ready.map Prod.snd) : T.refs.count c = T.childRefs.count c := by
  have hi' : T.initproc.toList.count c = 0 := by
    rw [List.count_eq_zero, Option.mem_toList]
    exact hi
  have hcur' : T.current.toList.count c = 0 := by
    rw [List.count_eq_zero, Option.mem_toList]
    exact hcur
  have hready' : (T.ready.map Prod.snd).count c = 0 := List.count_eq_zero.mpr hready
  rw [refs, List.count_append, List.count_append, List.count_append, hi', hcur', hready', Nat.zero_add]
  rfl

/-- A sum with one term. -/
theorem sum_map_eq_single {l : List Nat} {g : Nat → Nat} {p : Nat} (hn : l.Nodup) (hp : p ∈ l)
    (hzero : ∀ q ∈ l, q ≠ p → g q = 0) : (l.map g).sum = g p := by
  have hperm := (List.perm_cons_erase hp).map g
  have hrest : ((l.erase p).map g).sum = 0 := by
    rw [List.sum_eq_zero]
    intro x hx
    obtain ⟨q, hq, rfl⟩ := List.mem_map.mp hx
    exact hzero q (List.mem_of_mem_erase hq) fun hc => (hn.not_mem_erase) (hc ▸ hq)
  rw [hperm.sum_eq, List.map_cons, List.sum_cons, hrest, Nat.add_zero]

/-- **A zombie has one owner.** -/
theorem Ok.count_zombie (h : T.Ok i) (hf : T.tasks c = some f) (hz : f.taskStatus = .zombie) :
    T.refs.count c = 1 := by
  obtain ⟨hi, hcur, hready⟩ := h.zombie_apart hf hz
  have hci : c ≠ i := by
    rintro rfl
    exact hi h.tree.init.1
  obtain ⟨p, e, _, he, hmem⟩ := h.tree.parent c f hf hci
  have hlt : p < T.next := by
    by_contra hge
    rw [h.sched.fresh p (Nat.le_of_not_lt hge)] at he
    cases he
  rw [count_refs T hi hcur hready, childRefs, List.count_flatMap]
  rw [sum_map_eq_single (p := p) List.nodup_range (List.mem_range.mpr hlt)]
  · simp only [Function.comp, he, Option.map_some, Option.getD_some]
    exact List.count_eq_one_of_mem (h.tree.nodup p e he) hmem
  · intro q _ hqp
    simp only [Function.comp]
    rw [List.count_eq_zero]
    cases hq : T.tasks q with
    | none => exact List.not_mem_nil
    | some g =>
      intro hc
      exact hqp (h.tree.child_unique hq he hc hmem)

/-- Taken out of the list of its parent, it has none. -/
theorem Ok.count_collected (h : T.Ok i) (hf : T.tasks c = some f) (hz : f.taskStatus = .zombie)
    (he : T.tasks a = some e) (hc : c ∈ e.children) {cs : List Nat} (hcs : c ∉ cs) :
    (T.put a { e with children := cs }).refs.count c = 0 := by
  obtain ⟨hi, hcur, hready⟩ := h.zombie_apart hf hz
  have hcount : (T.put a { e with children := cs }).refs.count c =
      (T.put a { e with children := cs }).childRefs.count c := count_refs _ hi hcur hready
  rw [hcount, List.count_eq_zero, childRefs, List.mem_flatMap]
  rintro ⟨q, _, hmem⟩
  by_cases hqa : q = a
  · rw [hqa, put_same] at hmem
    exact hcs hmem
  · rw [put_ne hqa] at hmem
    cases hq : T.tasks q with
    | none =>
      rw [hq] at hmem
      cases hmem
    | some g =>
      rw [hq] at hmem
      exact hqa (h.tree.child_unique hq he hmem hc)

end Table

namespace Kernel

variable {B : BinaryHeap} {I : Image} {ok : Kernel B → Op → Prop} {k k' : Kernel B} {cur : Nat}
  {t : TaskControlBlock} {pid : Int} {ptr : Nat}

/-! ## The three results of waitpid -/

/-- What `sys_waitpid` does after it has found the zombie `tc` at `c`, which it takes out of the
children of `t` at `cur`. -/
def collect (cur : Nat) (t : TaskControlBlock) (c : Nat) (tc : TaskControlBlock) (exitCodePtr : Nat) :
    Comp (Kernel B) Int := do
  setTask cur { t with children := t.children.erase c }
  let pa ← onPhys (translatedRefmut t.memorySet.token exitCodePtr)
  onPhys (storePhys pa (leEncode 4 tc.exitCode.toUInt32.toNat))
  dropTask c
  return tc.pid

theorem run_current {α : Type} (hcur : k.current = some cur) (ht : k.tasks cur = some t)
    (f : Nat → TaskControlBlock → Comp (Kernel B) α) :
    (do
      let cur ← currentTask
      let t ← task cur
      f cur t).run k = (f cur t).run k := by
  simp only [currentTask, task, Comp.run_bind, Comp.run_get, Option.bind_some, hcur, ht, Comp.unwrap,
    Comp.run_pure]

theorem sysWaitpid_none (hcur : k.current = some cur) (ht : k.tasks cur = some t)
    (hno : ∀ c ∈ t.children, k.waitsFor pid c = false) :
    (sysWaitpid pid ptr).run k = some (-1, k) := by
  have hany : ¬ t.children.any (k.waitsFor pid) = true := by
    rw [List.any_eq_true]
    rintro ⟨c, hc, hw⟩
    rw [hno c hc] at hw
    cases hw
  rw [sysWaitpid, run_current hcur ht, Comp.run_bind, Comp.run_get, Option.bind_some]
  simp only
  rw [if_pos hany, Comp.run_pure]

theorem sysWaitpid_running (hcur : k.current = some cur) (ht : k.tasks cur = some t)
    (hsome : ∃ c ∈ t.children, k.waitsFor pid c = true)
    (hno : ∀ c ∈ t.children, k.collects pid c = false) :
    (sysWaitpid pid ptr).run k = some (-2, k) := by
  have hany : t.children.any (k.waitsFor pid) = true := List.any_eq_true.mpr hsome
  have hidx : t.children.findIdx? (k.collects pid) = none := List.findIdx?_eq_none_iff.mpr hno
  rw [sysWaitpid, run_current hcur ht, Comp.run_bind, Comp.run_get, Option.bind_some]
  simp only
  rw [if_neg (not_not_intro hany), hidx]
  simp only [Comp.run_pure]

/-- The assertion on the strong count holds. -/
theorem sysWaitpid_collects (ptr : Nat) (h : k.table.Ok 0) (hcur : k.current = some cur)
    (ht : k.tasks cur = some t) (hsome : ∃ c ∈ t.children, k.collects pid c = true) :
    ∃ c tc, c ∈ t.children ∧ k.tasks c = some tc ∧ k.collects pid c = true ∧
      (sysWaitpid pid ptr).run k = (collect cur t c tc ptr).run k := by
  have hany : t.children.any (k.waitsFor pid) = true := by
    obtain ⟨c, hc, hcol⟩ := hsome
    exact List.any_eq_true.mpr ⟨c, hc, (waitsFor_iff k pid c).mpr ((collects_iff k pid c).mp hcol).1⟩
  obtain ⟨idx, hidx⟩ := findIdx?_of_mem hsome
  obtain ⟨hlt, _, _⟩ := List.findIdx?_eq_some_iff_getElem.mp hidx
  have hget : t.children[idx]? = some t.children[idx] := List.getElem?_eq_getElem hlt
  obtain ⟨hmem, hcol, herase⟩ := collects_of_findIdx? hidx hget
  generalize t.children[idx] = c at hget hmem hcol herase
  obtain ⟨_, f, hf, hz⟩ := (collects_iff k pid c).mp hcol
  obtain ⟨tc, htc, rfl⟩ := exists_task hf
  have hnd : t.children.Nodup := h.tree.nodup cur t.entry (table_task ht)
  have hne : c ≠ cur := by
    rintro rfl
    have hrun := h.sched.current_running hcur hf
    rw [hrun] at hz
    cases hz
  have hcount : ({ k with
      tasks := Function.update k.tasks cur (some { t with children := t.children.erase c }) } :
        Kernel B).strongCount c = 0 := by
    rw [strongCount, ← refs_table, table_setTask]
    exact h.count_collected hf hz (table_task ht) hmem hnd.not_mem_erase
  refine ⟨c, tc, hmem, htc, hcol, ?_⟩
  rw [sysWaitpid, run_current hcur ht, Comp.run_bind, Comp.run_get, Option.bind_some]
  simp only
  rw [if_neg (not_not_intro hany), hidx]
  simp only [collect, task, setTask, Comp.run_bind, hget, Comp.unwrap, Comp.run_pure, Option.bind_some,
    Comp.run_modify, Comp.run_get, Comp.assert, herase hnd, hcount, Nat.zero_add, if_true,
    Function.update_of_ne hne, htc]

/-- What a successful collection leaves: the zombie is gone, from the list and from memory, and of the
other tasks nothing else has changed. -/
theorem collect_table {c : Nat} {tc : TaskControlBlock} {r : Int} (htc : k.tasks c = some tc)
    (hne : c ≠ cur) (hrun : (collect cur t c tc ptr).run k = some (r, k')) :
    r = tc.pid ∧ k'.table = k.table.reap cur t.entry (t.children.erase c) c tc.entry := by
  have hends : Ends (collect cur t c tc ptr) (fun r T' => r = tc.pid ∧
      T' = k.table.reap cur t.entry (t.children.erase c) c tc.entry) k.table := by
    refine ends_bind (ends_setTask (ends_bind (ends_onPhys fun pa => ends_bind (ends_onPhys fun _ => ?_))))
    refine ends_bind ((ends_dropTask ((Table.put_ne hne).trans (table_task htc))).mono
      fun _ T' hT => ends_pure ⟨rfl, ?_⟩)
    rw [hT]
    rfl
  exact hends k rfl r k' hrun

/-- A call that finds a zombie, when it returns. -/
theorem sysWaitpid_collected (ptr : Nat) (h : k.table.Ok 0) (hcur : k.current = some cur)
    (ht : k.tasks cur = some t) (hsome : ∃ c ∈ t.children, k.collects pid c = true) :
    ∃ c tc, c ∈ t.children ∧ k.tasks c = some tc ∧ k.collects pid c = true ∧
      (sysWaitpid pid ptr).run k = (collect cur t c tc ptr).run k ∧
      ∀ r k', (sysWaitpid pid ptr).run k = some (r, k') → r = tc.pid ∧
        k'.table = k.table.reap cur t.entry (t.children.erase c) c tc.entry := by
  obtain ⟨c, tc, hmem, htc, hcol, hrun⟩ := sysWaitpid_collects ptr h hcur ht hsome
  refine ⟨c, tc, hmem, htc, hcol, hrun, fun r k' hr => ?_⟩
  have hne : c ≠ cur := by
    rintro rfl
    obtain ⟨_, f, hf, hz⟩ := (collects_iff k pid c).mp hcol
    rw [h.sched.current_running hcur hf] at hz
    cases hz
  rw [hrun] at hr
  exact collect_table htc hne hr

/-- The results -1 and -2 tell the cases apart, since a pid is neither. -/
theorem sysWaitpid_result_iff {r : Int} (h : k.table.Ok 0) (hcur : k.current = some cur)
    (ht : k.tasks cur = some t) (hr : (sysWaitpid pid ptr).run k = some (r, k')) :
    (r = -1 ↔ ∀ c ∈ t.children, k.waitsFor pid c = false) ∧
    (r = -2 ↔ (∃ c ∈ t.children, k.waitsFor pid c = true) ∧
      ∀ c ∈ t.children, k.collects pid c = false) := by
  by_cases hmatch : ∃ c ∈ t.children, k.waitsFor pid c = true
  · have hnot : ¬ ∀ c ∈ t.children, k.waitsFor pid c = false := by
      intro hall
      obtain ⟨c, hc, hw⟩ := hmatch
      rw [hall c hc] at hw
      cases hw
    by_cases hzombie : ∃ c ∈ t.children, k.collects pid c = true
    · obtain ⟨c, tc, hc, _, hcol, _, hres⟩ := sysWaitpid_collected ptr h hcur ht hzombie
      obtain ⟨rfl, _⟩ := hres r k' hr
      refine ⟨iff_of_false (by omega) hnot, iff_of_false (by omega) fun hno => ?_⟩
      rw [hno.2 c hc] at hcol
      cases hcol
    · have hno : ∀ c ∈ t.children, k.collects pid c = false := by
        intro c hc
        by_contra hcol
        exact hzombie ⟨c, hc, Bool.eq_true_of_not_eq_false hcol⟩
      rw [sysWaitpid_running hcur ht hmatch hno] at hr
      cases hr
      exact ⟨iff_of_false (by decide) hnot, iff_of_true rfl ⟨hmatch, hno⟩⟩
  · have hnone : ∀ c ∈ t.children, k.waitsFor pid c = false := by
      intro c hc
      by_contra hw
      exact hmatch ⟨c, hc, Bool.eq_true_of_not_eq_false hw⟩
    rw [sysWaitpid_none hcur ht hnone] at hr
    cases hr
    exact ⟨iff_of_true rfl hnone, iff_of_false (by decide) fun hc => hmatch hc.1⟩

/-! ## Where an exit code comes from -/

/-- Any step. -/
def Steps (I : Image) (k k' : Kernel B) : Prop := ∃ op r, (step I op).run k = some (r, k')

/-- The task at `c` passed `exitCode` to exit on the way to `k`. -/
def ExitedWith (I : Image) (ok : Kernel B → Op → Prop) (c : Nat) (exitCode : Int32) (k : Kernel B) :
    Prop :=
  ∃ k₀ k₁ r, Reached I ok k₀ ∧ k₀.current = some c ∧ (step I (.exit exitCode)).run k₀ = some (r, k₁) ∧
    Relation.ReflTransGen (Steps I) k₁ k

/-- A zombie keeps the code it passed to exit. -/
theorem exitedWith (h : Reached I ok k) {c : Nat} {tc : TaskControlBlock} (hc : k.tasks c = some tc)
    (hz : tc.taskStatus = .zombie) : ExitedWith I ok c tc.exitCode k := by
  induction h generalizing tc with
  | boot hb =>
    have htask := table_task hc
    rw [boot_table hb] at htask
    rcases Table.put_some htask with ⟨_, hinit⟩ | ⟨_, hnone⟩
    · have hready : tc.taskStatus = .ready := congrArg Entry.taskStatus hinit
      rw [hready] at hz
      cases hz
    · cases hnone
  | @step k k' r op hk hok hs ih =>
    have hkok := hk.ok
    have hmove := step_move hkok hs
    cases hold : k.tasks c with
    | none =>
      have hnone : k.table.tasks c = none := by
        simp only [table, hold, Option.map_none]
      have hready : tc.taskStatus = .ready := hmove.created hnone (table_task hc)
      rw [hready] at hz
      cases hz
    | some t₀ =>
      have hfollows := hmove.follows hkok (table_task hold)
      by_cases hz₀ : t₀.taskStatus = .zombie
      · -- it had exited before
        obtain ⟨_, _, hcode⟩ := hfollows.zombie hz₀ tc.entry (table_task hc)
        obtain ⟨k₀, k₁, r₁, hk₀, hcur, hexit, hrun⟩ := ih hold hz₀
        have hcode' : tc.exitCode = t₀.exitCode := hcode
        rw [hcode']
        exact ⟨k₀, k₁, r₁, hk₀, hcur, hexit, hrun.tail ⟨op, r, hs⟩⟩
      · -- it exits now
        obtain ⟨f, hf, _, hst⟩ := hfollows.live hz₀
        rw [table_task hc] at hf
        cases hf
        obtain ⟨rfl, hcur⟩ := hst hz
        exact ⟨k, k', r, hk, hcur, hs, Relation.ReflTransGen.refl⟩

/-! ## The tree -/

/-- **Process-tree integrity.** In every state that is reached, a task other than `INITPROC` is once in
the children of exactly one task, its parent, which has not exited; a zombie is referenced by nothing
but that list; and `sys_waitpid` returns -1 if no child matches, -2 if one matches but none of these has
exited, and otherwise takes exactly one such child out, which passes the assertion on its strong count,
stores the code that task passed to exit and returns its pid. -/
theorem tree_integrity (h : Reached I ok k) :
    (∀ c tc, k.tasks c = some tc → k.initproc ≠ some c → ∃ p tp, k.tasks p = some tp ∧
      tc.parent = some p ∧ tp.taskStatus ≠ .zombie ∧ tp.children.count c = 1 ∧
      ∀ q tq, k.tasks q = some tq → c ∈ tq.children → q = p) ∧
    (∀ c tc, k.tasks c = some tc → tc.taskStatus = .zombie →
      k.initproc ≠ some c ∧ k.current ≠ some c ∧ c ∉ k.readyQueue.map Prod.snd ∧
        k.strongCount c = 1 ∧ ExitedWith I ok c tc.exitCode k) ∧
    (∀ cur t pid ptr, k.current = some cur → k.tasks cur = some t →
      ((∀ c ∈ t.children, k.waitsFor pid c = false) → (sysWaitpid pid ptr).run k = some (-1, k)) ∧
      ((∃ c ∈ t.children, k.waitsFor pid c = true) → (∀ c ∈ t.children, k.collects pid c = false) →
        (sysWaitpid pid ptr).run k = some (-2, k)) ∧
      ((∃ c ∈ t.children, k.collects pid c = true) →
        ∃ c tc, c ∈ t.children ∧ k.tasks c = some tc ∧ k.collects pid c = true ∧
          (sysWaitpid pid ptr).run k = (collect cur t c tc ptr).run k ∧
          ∀ r k', (sysWaitpid pid ptr).run k = some (r, k') → r = tc.pid ∧
            k'.table = k.table.reap cur t.entry (t.children.erase c) c tc.entry) ∧
      ∀ r k', (sysWaitpid pid ptr).run k = some (r, k') →
        (r = -1 ↔ ∀ c ∈ t.children, k.waitsFor pid c = false) ∧
        (r = -2 ↔ (∃ c ∈ t.children, k.waitsFor pid c = true) ∧
          ∀ c ∈ t.children, k.collects pid c = false)) := by
  have hok := h.ok
  refine ⟨?_, ?_, ?_⟩
  · intro c tc hc hi
    have hci : c ≠ 0 := by
      rintro rfl
      exact hi hok.tree.init.1
    obtain ⟨p, e, hpar, he, hmem⟩ := hok.tree.parent c tc.entry (table_task hc) hci
    obtain ⟨tp, htp, rfl⟩ := exists_task he
    refine ⟨p, tp, htp, hpar, fun hz => ?_, ?_, fun q tq hq hcq => ?_⟩
    · rw [hok.tree.leaf p tp.entry he hz] at hmem
      cases hmem
    · exact List.count_eq_one_of_mem (hok.tree.nodup p tp.entry he) hmem
    · exact hok.tree.child_unique (table_task hq) he hcq hmem
  · intro c tc hc hz
    obtain ⟨hi, hcur, hready⟩ := hok.zombie_apart (table_task hc) hz
    refine ⟨hi, hcur, hready, ?_, exitedWith h hc hz⟩
    rw [strongCount, ← refs_table]
    exact hok.count_zombie (table_task hc) hz
  · intro cur t pid ptr hcur ht
    exact ⟨sysWaitpid_none hcur ht, sysWaitpid_running hcur ht, sysWaitpid_collected ptr hok hcur ht,
      fun r k' hr => sysWaitpid_result_iff hok hcur ht hr⟩

theorem tree_integrity_start : ∃ k : Kernel listHeap, Reached fourMegabytes (fun _ _ => True) k ∧
    ∀ c tc, k.tasks c = some tc → tc.taskStatus = .zombie → k.strongCount c = 1 := by
  obtain ⟨k, hk⟩ := reached_start
  exact ⟨k, hk, fun c tc hc hz => ((tree_integrity hk).2.1 c tc hc hz).2.2.2.1⟩

end Kernel

end RCore.Task
