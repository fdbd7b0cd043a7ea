import RCore.Task.Verify.Pending
import RCore.Task.Verify.Scheduling

/-!
# Sending signals

`sys_kill` makes a bit of a signal number by a shift, which takes its amount modulo 32, and does not look at the
number otherwise. `sys_sigaction` refuses a number above `MAX_SIG` first.
-/

namespace RCore.Task

open RCore Mm SignalFlags

namespace Kernel

variable {B : BinaryHeap} {I : Image} {ok : Kernel B → Op → Prop} {k k' : Kernel B} {pid a : Nat}
  {t : TaskControlBlock} {signum : UInt32}

/-! ## Signal numbers -/

/-- The bit of a signal number. -/
theorem ofSignum_mod (signum : UInt32) : ofSignum signum = ofSignum (UInt32.ofNat (signum.toNat % 32)) := by
  have hmod : signum.toNat % 32 % 2 ^ 32 % 32 = signum.toNat % 32 := by omega
  rw [← UInt32.toNat_inj, ofSignum, ofSignum, UInt32.toNat_shiftLeft, UInt32.toNat_shiftLeft, UInt32.toNat_ofNat', hmod]

theorem contains_ofSignum_mod (f : SignalFlags) (signum : UInt32) :
    contains f (ofSignum signum) = f.has (signum.toNat % 32) := by
  rw [ofSignum_mod]
  exact contains_ofSignum (Nat.mod_lt _ (by decide))

theorem has_ofSignum_mod (signum : UInt32) (i : Nat) : (ofSignum signum).has i = decide (signum.toNat % 32 = i) := by
  rw [ofSignum_mod, has, toNat_ofSignum (Nat.mod_lt _ (by decide)), Nat.testBit_two_pow]

/-! ## Live tasks -/

/-- The task at `a` is live, and has the pid. -/
structure LiveAt (k : Kernel B) (pid a : Nat) (t : TaskControlBlock) : Prop where
  task : k.tasks a = some t
  live : t.taskStatus ≠ .zombie
  pid : t.pid = pid

/-- A pid names one live task. -/
theorem LiveAt.unique {b : Nat} {u : TaskControlBlock} (hs : k.table.SchedOk) (h : LiveAt k pid a t)
    (h' : LiveAt k pid b u) : a = b ∧ t = u := by
  have hab : a = b := hs.pid_inj a b _ _ (table_task h.task) (table_task h'.task) (h.pid.trans h'.pid.symm)
  subst hab
  exact ⟨rfl, Option.some.inj (h.task.symm.trans h'.task)⟩

theorem mem_of_lookup {l : List (Nat × Nat)} (h : l.lookup pid = some a) : (pid, a) ∈ l := by
  obtain ⟨l₁, l₂, rfl, _⟩ := List.lookup_eq_some_iff.mp h
  exact List.mem_append_right l₁ List.mem_cons_self

/-- `pid2task` finds nothing if no live task has the pid. -/
theorem pid2task_none (hs : k.table.SchedOk) {cur : Nat} (hcur : k.current = some cur) (hno : ∀ a t, ¬LiveAt k pid a t) :
    (pid2task pid).run k = some (none, k) := by
  obtain ⟨e, he, hrun⟩ := hs.current cur hcur
  obtain ⟨c, hc, rfl⟩ := exists_task he
  have hlive : c.taskStatus ≠ .zombie := by
    have hst : c.taskStatus = .running := hrun
    rw [hst]
    decide
  have hne : pid ≠ c.pid := fun hp => hno cur c ⟨hc, hlive, hp.symm⟩
  have hlook : k.readyQueue.lookup pid = none := by
    by_contra hsome
    obtain ⟨b, hb⟩ := Option.ne_none_iff_exists'.mp hsome
    obtain ⟨f, hf, hpid, hready⟩ := hs.ready (pid, b) (mem_of_lookup hb)
    obtain ⟨u, hu, rfl⟩ := exists_task hf
    refine hno b u ⟨hu, ?_, hpid⟩
    have hst : u.taskStatus = .ready := hready
    rw [hst]
    decide
  simp only [pid2task, currentTask, task, Comp.run_bind, Comp.run_get, Option.bind_some, hcur, hc, Comp.unwrap,
    Comp.run_pure, if_neg hne, hlook]

/-! ## `sys_kill` -/

/-- The signal can be sent to the task at `a`. -/
def CanSend (k : Kernel B) (pid : Nat) (signum : UInt32) (a : Nat) (t : TaskControlBlock) : Prop :=
  LiveAt k pid a t ∧ signum.toNat ≤ 31 ∧ has t.signals signum.toNat = false

/-- One signal has been added to those of the task at `a`, and nothing else has changed. -/
def Adds (k : Kernel B) (a : Nat) (t : TaskControlBlock) (i : Nat) (k' : Kernel B) : Prop :=
  ∃ f : SignalFlags, (∀ j, f.has j = (has t.signals j || decide (i = j))) ∧
    k' = { k with tasks := Function.update k.tasks a (some { t with signals := f }) }

/-- **`sys_kill` validates its arguments**: it returns 0 exactly if a live task has the pid, the number is one of a
signal, and that signal is not pending there, and then adds it; otherwise it returns -1 and changes nothing. -/
def Validates (k : Kernel B) (pid : Nat) (signum : UInt32) : Prop :=
  ∃ r k', (sysKill pid signum).run k = some (r, k') ∧
    ((r = 0 ∧ ∃ a t, CanSend k pid signum a t ∧ Adds k a t signum.toNat k') ∨
      (r = -1 ∧ k' = k ∧ ∀ a t, ¬CanSend k pid signum a t))

theorem sysKill_none (hs : k.table.SchedOk) {cur : Nat} (hcur : k.current = some cur) (hno : ∀ a t, ¬LiveAt k pid a t)
    (signum : UInt32) : (sysKill pid signum).run k = some (-1, k) := by
  simp only [sysKill, Comp.run_bind, pid2task_none hs hcur hno, Option.bind_some, Comp.run_pure]

theorem sysKill_live (hk : Reached I ok k) {cur : Nat} (hcur : k.current = some cur) (h : LiveAt k pid a t)
    (signum : UInt32) : (sysKill pid signum).run k =
      if has t.signals (signum.toNat % 32) = true then some (-1, k)
      else some (0, { k with
        tasks := Function.update k.tasks a (some { t with signals := t.signals ||| ofSignum signum }) }) := by
  have hfind : (pid2task pid).run k = some (some a, k) := by
    obtain ⟨_, _, _, _, _, _, _, hfinds⟩ := no_task_lost hk
    rw [← h.pid]
    exact hfinds a t h.task h.live cur hcur
  simp only [sysKill, Comp.run_bind, hfind, Option.bind_some, task, Comp.run_get, h.task, Comp.unwrap, Comp.run_pure,
    contains_ofSignum_mod]
  split
  · rfl
  · rfl

/-- **When `sys_kill` validates its arguments**: exactly if the number is at most `MAX_SIG`, or no live task has the
pid, or the signal with that number modulo 32 is pending there already. What `sys_sigaction` accepts, `sys_kill`
validates. -/
theorem sysKill_validates_iff (hk : Reached I ok k) {cur : Nat} (hcur : k.current = some cur) :
    (∀ pid signum, Validates k pid signum ↔ signum.toNat ≤ 31 ∨ (∀ a t, ¬LiveAt k pid a t) ∨
      ∃ a t, LiveAt k pid a t ∧ has t.signals (signum.toNat % 32) = true) ∧
    (∀ signum action oldAction pad k', (sysSigaction signum action oldAction pad).run k = some (0, k') →
      signum.toNat ≤ 31 ∧ ∀ pid, Validates k pid signum) := by
  have hs := hk.ok.sched
  have hiff : ∀ pid signum, Validates k pid signum ↔ signum.toNat ≤ 31 ∨ (∀ a t, ¬LiveAt k pid a t) ∨
      ∃ a t, LiveAt k pid a t ∧ has t.signals (signum.toNat % 32) = true := by
    intro pid signum
    by_cases hlive : ∃ a t, LiveAt k pid a t
    · obtain ⟨a, t, h⟩ := hlive
      have hrun := sysKill_live hk hcur h signum
      by_cases hhas : has t.signals (signum.toNat % 32) = true
      · rw [if_pos hhas] at hrun
        refine iff_of_true ⟨-1, k, hrun, Or.inr ⟨rfl, rfl, ?_⟩⟩ (Or.inr (Or.inr ⟨a, t, h, hhas⟩))
        rintro b u ⟨hu, hle, hfree⟩
        obtain ⟨rfl, rfl⟩ := h.unique hs hu
        rw [Nat.mod_eq_of_lt (by omega), hfree] at hhas
        cases hhas
      · rw [if_neg hhas] at hrun
        constructor
        · rintro ⟨r, k', hrun', hout⟩
          rw [hrun, Option.some.injEq, Prod.mk.injEq] at hrun'
          rcases hout with ⟨_, b, u, hcan, _⟩ | ⟨hr, _, _⟩
          · exact Or.inl hcan.2.1
          · rw [hr] at hrun'
            cases hrun'.1
        · rintro (hle | hnone | ⟨b, u, hu, hpend⟩)
          · have hmod : signum.toNat % 32 = signum.toNat := Nat.mod_eq_of_lt (by omega)
            refine ⟨0, _, hrun, Or.inl ⟨rfl, a, t, ⟨h, hle, ?_⟩, _, fun j => ?_, rfl⟩⟩
            · rw [hmod] at hhas
              exact Bool.eq_false_iff.mpr hhas
            · rw [has_or, has_ofSignum_mod, hmod]
          · exact absurd h (hnone a t)
          · obtain ⟨rfl, rfl⟩ := h.unique hs hu
            exact absurd hpend hhas
    · have hno : ∀ a t, ¬LiveAt k pid a t := fun a t h => hlive ⟨a, t, h⟩
      refine iff_of_true ⟨-1, k, sysKill_none hs hcur hno signum, Or.inr ⟨rfl, rfl, ?_⟩⟩ (Or.inr (Or.inl hno))
      exact fun a t hcan => hno a t hcan.1
  refine ⟨hiff, fun signum action oldAction pad k' hrun => ?_⟩
  have hle : signum.toNat ≤ 31 := by
    by_contra hgt
    have hlt : (31 : UInt32) < signum := UInt32.lt_iff_toNat_lt.mpr (by
      show 31 < signum.toNat
      omega)
    have hrefuse : (sysSigaction signum action oldAction pad).wlp (fun r _ => r = -1) k := by
      rw [sysSigaction]
      simp only [Comp.wlp_bind, if_pos hlt, Comp.wlp_pure]
      exact fun _ _ _ _ _ _ => trivial
    cases hrefuse _ _ hrun
  exact ⟨hle, fun pid => (hiff pid signum).mpr (Or.inl hle)⟩

/-- A process sends itself `SIGUSR1`. -/
theorem sysKill_validates_self : ∃ (k : Kernel listHeap) (a : Nat) (t : TaskControlBlock), LiveAt k t.pid a t ∧
    Validates k t.pid 10 := by
  obtain ⟨k, a, t, hk, _, h⟩ := exists_alone (fun _ _ => True) fun _ _ => trivial
  refine ⟨k, a, t, ⟨h.task_eq, by rw [h.status]; decide, rfl⟩, ?_⟩
  exact ((sysKill_validates_iff hk h.current).1 t.pid 10).mpr (Or.inl (by decide))

/-- The number 41 is that of no signal, and sends `SIGKILL`. -/
theorem sysKill_accepts_41 : ∃ (k k' : Kernel listHeap) (a : Nat) (t t' : TaskControlBlock),
    Reached fourMegabytes (fun _ _ => True) k ∧ k.current = some a ∧ LiveAt k t.pid a t ∧
    (sysKill t.pid 41).run k = some (0, k') ∧ k'.tasks a = some t' ∧ has t'.signals 9 = true ∧
    ¬Validates k t.pid 41 := by
  obtain ⟨k, a, t, hk, hnew, h⟩ := exists_alone (fun _ _ => True) fun _ _ => trivial
  have hlive : LiveAt k t.pid a t := ⟨h.task_eq, by rw [h.status]; decide, rfl⟩
  have hsig : t.signals = 0 := hnew.signals
  have hfree : ¬has t.signals ((41 : UInt32).toNat % 32) = true := by
    rw [hsig]
    decide
  have hrun := sysKill_live hk h.current hlive 41
  rw [if_neg hfree] at hrun
  refine ⟨k, _, a, t, _, hk, h.current, hlive, hrun, Function.update_self .., ?_, fun hv => ?_⟩
  · show has (t.signals ||| ofSignum 41) 9 = true
    rw [has_or, has_ofSignum_mod]
    simp
  · obtain ⟨r, k', hrun', hout⟩ := hv
    rw [hrun, Option.some.injEq, Prod.mk.injEq] at hrun'
    rcases hout with ⟨_, b, u, hcan, _⟩ | ⟨hr, _, _⟩
    · exact absurd hcan.2.1 (by decide)
    · rw [hr] at hrun'
      cases hrun'.1

end Kernel

end RCore.Task
