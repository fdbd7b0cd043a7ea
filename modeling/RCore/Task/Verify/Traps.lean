import RCore.Task.Verify.Pending

/-!
# What a step does to a task

A task changes by its own steps, by a signal that another task sends, and in no other way. `Move` says
all that its own steps do, and what holds of every task of a run is proved from it.
-/

namespace RCore.Task

open RCore Mm SignalFlags

namespace TrapSystem

variable {α : Type} {ok : TrapSystem → TrapOp → Prop} {s s' : TrapSystem} {op : TrapOp} {t t' : TaskInner}

/-! ## Functions of one task -/

@[simp] theorem onTask_wlp (pid : Nat) (x : Comp TaskInner α) (Q : α → TrapSystem → Prop) (s : TrapSystem) :
    (onTask pid x).wlp Q s ↔ ∀ t, s.tasks pid = some t → x.wlp (fun a t' =>
      Q a { s with tasks := Function.update s.tasks pid (some t') }) t := by
  simp only [onTask, Comp.wlp_bind, Comp.wlp_get, Comp.wlp_unwrap, Comp.wlp_modify, Comp.wlp_pure]
  constructor
  · intro h t ht a t' hrun
    exact h t ht (a, t') hrun
  · intro h t ht r hrun
    exact h t ht r.1 r.2 hrun

@[simp] theorem currentTask_wlp (Q : Nat → TrapSystem → Prop) (s : TrapSystem) :
    currentTask.wlp Q s ↔ ∀ pid, s.current = some pid → Q pid s := by
  simp only [currentTask, Comp.wlp_bind, Comp.wlp_get, Comp.wlp_unwrap]

/-! ## Moves -/

/-- What a step of the current task can do to it. -/
inductive Move : TrapOp → TaskInner → TaskInner → Prop
  /-- Any trap but a `sigreturn`: it leaves signals, mask and actions of its own, and some trap
  context. -/
  | trap {x : Fin 32 → Nat} {sstatus sepc : Nat} {cause : Cause} {t : TaskInner} (hc : t.control = .user)
      (hne : cause ≠ .userEnvCall .sigreturn) (cx : TrapContext) (flag mask : SignalFlags)
      (actions : List SignalAction) {control : Control} (hcontrol : control = .signals ∨ control = .call) :
      Move (.trap x sstatus sepc cause) t { t with
        trapCx := cx, signals := t.signals ||| flag, signalMask := mask, signalActions := actions, control }
  | sigreturn {x : Fin 32 → Nat} {sstatus sepc : Nat} {t : TaskInner} (hc : t.control = .user)
      {cx : TrapContext} (hb : t.trapCtxBackup = some cx) :
      Move (.trap x sstatus sepc (.userEnvCall .sigreturn)) t { t with
        handlingSig := -1, trapCx := cx.setA0 0, control := .signals,
        log := t.log ++ [.sigreturned (cx.setA0 0)] }
  | wait {t : TaskInner} (hc : t.control = .call) : Move .wait t t
  | callReturns {cx : TrapContext} {r : Int} {t : TaskInner} (hc : t.control = .call) (cx' : TrapContext) :
      Move (.callReturns cx r) t { t with trapCx := cx', control := .signals }
  | handleSignals {t t' : TaskInner} (hc : t.control = .signals) (h : t.Scanned 0 t') :
      Move .handleSignals t { t' with control := .loop }
  /-- The task is frozen. -/
  | pass {t t' : TaskInner} (hc : t.control = .loop) (hf : t.frozen = true) (hk : t.killed = false)
      (h : t.Scanned 0 t') : Move .pass t { t' with control := .loop }
  | resume {t : TaskInner} (hc : t.control = .loop) (hl : t.frozen = false ∨ t.killed = true)
      (he : checkError t.signals = none) :
      Move .pass t { t with control := .user, log := t.log ++ [.resumed t.trapCx] }

/-- How a step can have left the record of a task that it does not run. -/
inductive Bystands (s : TrapSystem) (pid : Nat) : TaskInner → Prop
  | same {t : TaskInner} (ht : s.tasks pid = some t) : Bystands s pid t
  /-- Another task has sent it a signal. -/
  | kill {t : TaskInner} (ht : s.tasks pid = some t) (flag : SignalFlags) :
      Bystands s pid { t with signals := t.signals ||| flag }
  | fork (hfree : s.tasks pid = none) (t : TaskInner) (kernelSp : Nat) : Bystands s pid (t.fork kernelSp)

/-- A step has left the record of the task `pid` like this. -/
def Leaves (s : TrapSystem) (op : TrapOp) (pid : Nat) (u : TaskInner) : Prop :=
  (∃ t, s.current = some pid ∧ s.tasks pid = some t ∧ Move op t u) ∨ s.Bystands pid u

variable {cur : Nat}

/-- A step that changes nothing but the record of the current task. -/
theorem leaves_update (hcur : s.current = some cur) (ht : s.tasks cur = some t)
    (hm : Move op t t') : ∀ pid u, Function.update s.tasks cur (some t') pid = some u → s.Leaves op pid u := by
  intro pid u hu
  by_cases hpid : pid = cur
  · rw [hpid, Function.update_self, Option.some.injEq] at hu
    rw [hpid, ← hu]
    exact Or.inl ⟨t, hcur, ht, hm⟩
  · rw [Function.update_of_ne hpid] at hu
    exact Or.inr (.same hu)

/-- The current task exits. -/
theorem leaves_exit : ∀ pid u, Function.update s.tasks cur none pid = some u → s.Leaves op pid u := by
  intro pid u hu
  by_cases hpid : pid = cur
  · rw [hpid, Function.update_self] at hu
    cases hu
  · rw [Function.update_of_ne hpid] at hu
    exact Or.inr (.same hu)

/-! ## System calls -/

/-- A trap, but for a `sigreturn`, changes these parts of a task. -/
def Trapped (t t' : TaskInner) : Prop :=
  ∃ cx flag mask actions, t' = { t with
    trapCx := cx, signals := t.signals ||| flag, signalMask := mask, signalActions := actions }

theorem trapped_of_cx (t : TaskInner) (cx : TrapContext) : Trapped t { t with trapCx := cx } :=
  ⟨cx, 0, t.signalMask, t.signalActions, by rw [UInt32.or_zero]⟩

theorem Trapped.trans {t₁ t₂ : TaskInner} (h : Trapped t t₁) (h' : Trapped t₁ t₂) : Trapped t t₂ := by
  obtain ⟨cx, flag, mask, actions, rfl⟩ := h
  obtain ⟨cx', flag', mask', actions', rfl⟩ := h'
  exact ⟨cx', flag ||| flag', mask', actions', by rw [UInt32.or_assoc]⟩

/-- A system call has returned to the task `cur`, and has left its record like this. -/
structure Returned (s : TrapSystem) (cur : Nat) (s' : TrapSystem) (t' : TaskInner) : Prop where
  task : s'.tasks cur = some t'
  others : ∀ pid ≠ cur, ∀ u, s'.tasks pid = some u → s.Bystands pid u

theorem returned_update (s : TrapSystem) (cur : Nat) (t' : TaskInner) :
    Returned s cur { s with tasks := Function.update s.tasks cur (some t') } t' := by
  refine ⟨Function.update_self .., fun pid hpid u hu => ?_⟩
  have hu' : Function.update s.tasks cur (some t') pid = some u := hu
  rw [Function.update_of_ne hpid] at hu'
  exact .same hu'

/-- What a system call other than `sigreturn` does. -/
def Called (s : TrapSystem) (cur : Nat) (t : TaskInner) (s' : TrapSystem) : Option Int → Prop
  | some _ => ∃ t', Returned s cur s' t' ∧ Trapped t t'
  | none => (∃ t', Returned s cur s' t' ∧ t' = { t with control := .call }) ∨
      s'.tasks = Function.update s.tasks cur none

theorem kill_wlp (t : TaskInner) (flag : SignalFlags) : (TaskInner.kill flag).wlp
    (fun _ t' => ∃ f, t' = { t with signals := t.signals ||| f }) t := by
  rw [TaskInner.kill]
  simp only [Comp.wlp_bind, Comp.wlp_get]
  split
  · rw [Comp.wlp_pure]
    exact ⟨0, by rw [UInt32.or_zero]⟩
  · simp only [Comp.wlp_bind, Comp.wlp_modify, Comp.wlp_pure]
    exact ⟨flag, rfl⟩

theorem sysSigaction_wlp (t : TaskInner) (signum : UInt32) (action oldAction : Nat) (value : SignalAction) :
    (TaskInner.sysSigaction signum action oldAction value).wlp
      (fun _ t' => ∃ actions, t' = { t with signalActions := actions }) t := by
  rw [TaskInner.sysSigaction]
  split
  · rw [Comp.wlp_pure]
    exact ⟨t.signalActions, rfl⟩
  · split
    · rw [Comp.wlp_pure]
      exact ⟨t.signalActions, rfl⟩
    · simp only [Comp.wlp_bind, Comp.wlp_modify, Comp.wlp_pure]
      exact ⟨_, rfl⟩

theorem syscall_wlp {call : Syscall} (hne : call ≠ .sigreturn) (hcur : s.current = some cur)
    (ht : s.tasks cur = some t) : (syscall call).wlp (fun r s' => s.Called cur t s' r) s := by
  -- a call that leaves the record as it is
  have hsame : ∀ {t'}, t' = t → Trapped t t' := by
    rintro t' rfl
    exact trapped_of_cx t' t'.trapCx
  cases call with
  | kill pid signum =>
    simp only [syscall, Comp.wlp_bind, Comp.wlp_get]
    split
    · simp only [Comp.wlp_bind, onTask_wlp, Comp.wlp_pure]
      intro t₁ ht₁
      refine (kill_wlp t₁ _).mono ?_
      rintro r _ ⟨f, rfl⟩
      by_cases hpid : pid = cur
      · subst hpid
        cases ht.symm.trans ht₁
        exact ⟨_, returned_update s pid _, t.trapCx, f, t.signalMask, t.signalActions, rfl⟩
      · refine ⟨t, ⟨?_, fun p hp u hu => ?_⟩, hsame rfl⟩
        · exact (Function.update_of_ne (Ne.symm hpid) _ _).trans ht
        · have hu' : Function.update s.tasks pid _ p = some u := hu
          by_cases hpp : p = pid
          · rw [hpp, Function.update_self, Option.some.injEq] at hu'
            rw [hpp, ← hu']
            exact .kill ht₁ f
          · rw [Function.update_of_ne hpp] at hu'
            exact .same hu'
    · rw [Comp.wlp_pure]
      exact ⟨t, ⟨ht, fun p _ u hu => .same hu⟩, hsame rfl⟩
  | sigprocmask mask =>
    simp only [syscall, TaskInner.sysSigprocmask, Comp.wlp_bind, Comp.wlp_get, currentTask_wlp, onTask_wlp,
      Comp.wlp_modify, Comp.wlp_pure]
    intro cur' hcur' t' ht'
    cases hcur.symm.trans hcur'
    cases ht.symm.trans ht'
    exact ⟨_, returned_update s cur _, t.trapCx, 0, mask, t.signalActions, by rw [UInt32.or_zero]⟩
  | sigaction signum action oldAction value =>
    simp only [syscall, Comp.wlp_bind, currentTask_wlp, onTask_wlp, Comp.wlp_pure]
    intro cur' hcur' t' ht'
    cases hcur.symm.trans hcur'
    cases ht.symm.trans ht'
    refine (sysSigaction_wlp t signum action oldAction value).mono ?_
    rintro r _ ⟨actions, rfl⟩
    exact ⟨_, returned_update s cur _, t.trapCx, 0, t.signalMask, actions, by rw [UInt32.or_zero]⟩
  | sigreturn => exact absurd rfl hne
  | exit exitCode =>
    simp only [syscall, exitCurrent, Comp.wlp_bind, currentTask_wlp, Comp.wlp_modify, Comp.wlp_pure]
    intro cur' hcur'
    cases hcur.symm.trans hcur'
    exact Or.inr rfl
  | fork child kernelSp =>
    simp only [syscall, Comp.wlp_bind, Comp.wlp_get, Comp.wlp_unwrap, Comp.wlp_assert, currentTask_wlp,
      Comp.wlp_modify, Comp.wlp_pure]
    intro cur' hcur' t' ht' hfree
    have hchild : cur ≠ child := by
      rintro rfl
      rw [ht] at hfree
      cases hfree
    refine ⟨t, ⟨(Function.update_of_ne hchild _ _).trans ht, fun p hp u hu => ?_⟩, hsame rfl⟩
    have hu' : Function.update s.tasks child _ p = some u := hu
    by_cases hpc : p = child
    · rw [hpc, Function.update_self, Option.some.injEq] at hu'
      rw [← hu']
      exact .fork (hpc ▸ Option.isNone_iff_eq_none.mp hfree) t' kernelSp
    · rw [Function.update_of_ne hpc] at hu'
      exact .same hu'
  | blocking =>
    simp only [syscall, suspendCurrent, Comp.wlp_bind, currentTask_wlp, onTask_wlp, Comp.wlp_modify, Comp.wlp_pure]
    intro cur' hcur' t' ht'
    cases hcur.symm.trans hcur'
    cases ht.symm.trans ht'
    obtain ⟨htask, hothers⟩ := returned_update s cur { t with control := .call }
    exact Or.inl ⟨_, ⟨htask, hothers⟩, rfl⟩
  | other cx r =>
    simp only [syscall, Comp.wlp_bind, currentTask_wlp, onTask_wlp, Comp.wlp_modify, Comp.wlp_pure]
    intro cur' hcur' t' ht'
    cases hcur.symm.trans hcur'
    cases ht.symm.trans ht'
    exact ⟨_, returned_update s cur _, trapped_of_cx t cx⟩

/-! ## Steps -/

/-- The state in which the trap of the current task goes on. -/
def entered (s : TrapSystem) (cur : Nat) (t : TaskInner) (cx : TrapContext) : TrapSystem :=
  { s with tasks := Function.update s.tasks cur (some { t with trapCx := cx }) }

theorem Bystands.of_entered {cx : TrapContext} {pid : Nat} {u : TaskInner} (hpid : pid ≠ cur)
    (h : (s.entered cur t cx).Bystands pid u) : s.Bystands pid u := by
  cases h with
  | same h => exact .same ((Function.update_of_ne hpid _ _).symm.trans h)
  | kill h flag => exact .kill ((Function.update_of_ne hpid _ _).symm.trans h) flag
  | fork hfree t kernelSp => exact .fork ((Function.update_of_ne hpid _ _).symm.trans hfree) t kernelSp

/-- **A system call other than `sigreturn`.** -/
theorem trap_wlp {call : Syscall} (hne : call ≠ .sigreturn) (x : Fin 32 → Nat) (sstatus sepc : Nat) :
    (step (.trap x sstatus sepc (.userEnvCall call))).wlp (fun _ s' => ∀ pid u, s'.tasks pid = some u →
      s.Leaves (.trap x sstatus sepc (.userEnvCall call)) pid u) s := by
  simp only [step, TaskInner.allTraps, Comp.wlp_bind, currentTask_wlp, onTask_wlp, Comp.wlp_get, Comp.wlp_assert,
    Comp.wlp_modify, Function.update_self, Option.some.injEq, forall_eq', Function.update_idem]
  intro cur hcur t ht hc
  have hne' : Cause.userEnvCall call ≠ .userEnvCall .sigreturn := fun h => hne (Cause.userEnvCall.inj h)
  have hmove : ∀ {t' control}, Trapped t t' → control = .signals ∨ control = .call → ∀ cx,
      Move (.trap x sstatus sepc (.userEnvCall call)) t { t' with trapCx := cx, control } := by
    rintro _ control ⟨cx', flag, mask, actions, rfl⟩ hcontrol cx
    exact .trap hc hne' cx flag mask actions hcontrol
  refine (syscall_wlp (s := s.entered cur t _) hne hcur (Function.update_self ..)).mono ?_
  intro r s₁ hr
  cases r with
  | none =>
    simp only [Comp.wlp_pure]
    intro pid u hu
    rcases hr with ⟨t₁, hret, rfl⟩ | hexit
    · by_cases hpid : pid = cur
      · subst hpid
        cases hret.task.symm.trans hu
        exact Or.inl ⟨t, hcur, ht, hmove (trapped_of_cx t t.trapCx) (Or.inr rfl) _⟩
      · exact Or.inr (.of_entered hpid (hret.others pid hpid u hu))
    · rw [hexit, entered, Function.update_idem] at hu
      exact leaves_exit pid u hu
  | some r =>
    obtain ⟨t₁, hret, htr⟩ := hr
    simp only [endCall, onTask_wlp, Comp.wlp_modify]
    intro t₂ ht₂ pid u hu
    cases hret.task.symm.trans ht₂
    by_cases hpid : pid = cur
    · rw [hpid, Function.update_self, Option.some.injEq] at hu
      rw [List.append_nil] at hu
      rw [hpid, ← hu]
      exact Or.inl ⟨t, hcur, ht, hmove ((trapped_of_cx t _).trans htr) (Or.inl rfl) _⟩
    · rw [Function.update_of_ne hpid] at hu
      exact Or.inr (.of_entered hpid (hret.others pid hpid u hu))

/-- **One step.** -/
theorem step_leaves (s : TrapSystem) (op : TrapOp) :
    (step op).wlp (fun _ s' => ∀ pid u, s'.tasks pid = some u → s.Leaves op pid u) s := by
  cases op with
  | fetch pid =>
    simp only [step, Comp.wlp_bind, Comp.wlp_get, Comp.wlp_assert, Comp.wlp_modify]
    exact fun _ _ _ hu => Or.inr (.same hu)
  | wait =>
    simp only [step, suspendCurrent, Comp.wlp_bind, Comp.wlp_get, Comp.wlp_unwrap, Comp.wlp_assert, currentTask_wlp,
      onTask_wlp, Comp.wlp_modify]
    intro cur hcur t ht hc cur' hcur' t' ht'
    cases hcur.symm.trans hcur'
    cases ht.symm.trans ht'
    refine leaves_update hcur ht ?_
    rw [← hc]
    exact .wait hc
  | callReturns cx r =>
    simp only [step, endCall, Comp.wlp_bind, Comp.wlp_get, Comp.wlp_unwrap, Comp.wlp_assert, currentTask_wlp,
      onTask_wlp, Comp.wlp_modify, Function.update_self, Option.some.injEq, forall_eq', Function.update_idem,
      List.append_nil]
    intro cur hcur t ht hc t' ht'
    cases ht.symm.trans ht'
    exact leaves_update hcur ht (.callReturns hc _)
  | handleSignals =>
    simp only [step, Comp.wlp_bind, Comp.wlp_get, Comp.wlp_unwrap, Comp.wlp_assert, currentTask_wlp,
      onTask_wlp, Comp.wlp_modify, Function.update_self, Option.some.injEq, forall_eq', Function.update_idem]
    intro cur hcur t ht hc t' ht'
    cases ht.symm.trans ht'
    exact (TaskInner.checkPendingSignals_wlp t).mono fun _ t₁ h => leaves_update hcur ht (.handleSignals hc h)
  | pass =>
    simp only [step, Comp.wlp_bind, Comp.wlp_get, Comp.wlp_unwrap, Comp.wlp_assert, currentTask_wlp]
    intro cur hcur t ht hc
    split
    · next hl =>
      cases he : checkError t.signals with
      | some e =>
        simp only [exitCurrent, Comp.wlp_bind, currentTask_wlp, Comp.wlp_modify]
        exact fun cur' _ => leaves_exit
      | none =>
        simp only [TaskInner.trapReturn, onTask_wlp, Comp.wlp_modify]
        intro t' ht'
        cases ht.symm.trans ht'
        exact leaves_update hcur ht (.resume hc hl he)
    · next hl =>
      rw [not_or, Bool.not_eq_false, Bool.not_eq_true] at hl
      simp only [suspendCurrent, Comp.wlp_bind, onTask_wlp, currentTask_wlp, Comp.wlp_modify]
      intro t' ht'
      cases ht.symm.trans ht'
      refine (TaskInner.checkPendingSignals_wlp t).mono fun _ t₁ h => ?_
      intro cur' hcur' t₂ ht₂
      cases hcur.symm.trans hcur'
      rw [Function.update_self] at ht₂
      cases ht₂
      rw [Function.update_idem]
      exact leaves_update hcur ht (.pass hc hl.1 hl.2 h)
  | trap x sstatus sepc cause =>
    cases cause with
    | userEnvCall call =>
      by_cases hne : call = .sigreturn
      · subst hne
        simp only [step, TaskInner.allTraps, syscall, TaskInner.sysSigreturn, endCall, Comp.wlp_bind, currentTask_wlp,
          onTask_wlp, Comp.wlp_get, Comp.wlp_assert, Comp.wlp_unwrap, Comp.wlp_modify, Comp.wlp_pure,
          Function.update_self, Option.some.injEq, forall_eq', Function.update_idem]
        intro cur hcur t ht hc cur' hcur' t' ht' cx hb t'' ht''
        cases hcur.symm.trans hcur'
        rw [Function.update_self, Option.some.injEq] at ht'
        subst ht'
        rw [Function.update_self, Option.some.injEq] at ht''
        subst ht''
        rw [Function.update_idem, Function.update_idem]
        exact leaves_update hcur ht (.sigreturn hc hb)
      · exact trap_wlp hne x sstatus sepc
    | pageFault =>
      simp only [step, TaskInner.allTraps, TaskInner.currentAddSignal, Comp.wlp_bind, currentTask_wlp, onTask_wlp,
        Comp.wlp_get, Comp.wlp_assert, Comp.wlp_modify, Function.update_self, Option.some.injEq, forall_eq',
        Function.update_idem]
      intro cur hcur t ht hc
      exact leaves_update hcur ht (.trap hc (by simp) _ _ _ _ (Or.inl rfl))
    | illegalInstruction =>
      simp only [step, TaskInner.allTraps, TaskInner.currentAddSignal, Comp.wlp_bind, currentTask_wlp, onTask_wlp,
        Comp.wlp_get, Comp.wlp_assert, Comp.wlp_modify, Function.update_self, Option.some.injEq, forall_eq',
        Function.update_idem]
      intro cur hcur t ht hc
      exact leaves_update hcur ht (.trap hc (by simp) _ _ _ _ (Or.inl rfl))
    | supervisorTimer =>
      simp only [step, TaskInner.allTraps, suspendCurrent, Comp.wlp_bind, currentTask_wlp, onTask_wlp, Comp.wlp_get,
        Comp.wlp_assert, Comp.wlp_modify]
      intro cur hcur t ht hc cur' hcur' t' ht'
      cases hcur.symm.trans hcur'
      rw [Function.update_self, Option.some.injEq] at ht'
      subst ht'
      rw [Function.update_idem]
      have hmove : Move (.trap x sstatus sepc .supervisorTimer) t _ :=
        .trap hc (by simp) (t.trapCx.save x sstatus sepc) 0 t.signalMask t.signalActions (Or.inl rfl)
      rw [UInt32.or_zero] at hmove
      exact leaves_update hcur ht hmove

end TrapSystem

end RCore.Task
