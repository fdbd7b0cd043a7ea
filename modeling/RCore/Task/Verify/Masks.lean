import RCore.Task.Verify.Handlers

/-!
# The signal mask and handlers

A delivery replaces the mask of the task by that of the action, and nothing but `sys_sigprocmask` and the
next delivery changes it again: `sys_sigretrun` ends the handler and gives back the trap context, but not
the mask.
-/

namespace RCore.Task

open RCore Mm SignalFlags

namespace TaskInner

/-- The scan that a step of the current task makes delivers a signal. -/
def TurnsTo (t : TaskInner) (op : TrapOp) (sig : Nat) : Prop :=
  match op with
  | .handleSignals => t.Delivers 0 sig
  | .pass => t.frozen = true ∧ t.killed = false ∧ t.Delivers 0 sig
  | _ => False

theorem Delivers.lt {t : TaskInner} {n i : Nat} (h : t.Delivers n i) : i < 32 := by
  obtain ⟨⟨-, htakes, -⟩, -, -⟩ := h
  rw [takes, Bool.and_eq_true, Bool.and_eq_true] at htakes
  by_contra hle
  have hbit : t.signals.toNat.testBit i = true := htakes.1.1
  have hsmall : t.signals.toNat < 2 ^ i :=
    Nat.lt_of_lt_of_le t.signals.toNat_lt (Nat.pow_le_pow_right (by decide) (Nat.le_of_not_lt hle))
  rw [Nat.testBit_lt_two_pow hsmall] at hbit
  cases hbit

instance (t : TaskInner) (sig : Nat) : (op : TrapOp) → Decidable (t.TurnsTo op sig)
  | .handleSignals => inferInstanceAs (Decidable (t.Delivers 0 sig))
  | .pass => inferInstanceAs (Decidable (t.frozen = true ∧ t.killed = false ∧ t.Delivers 0 sig))
  | .fetch _ => inferInstanceAs (Decidable False)
  | .trap _ _ _ _ => inferInstanceAs (Decidable False)
  | .wait => inferInstanceAs (Decidable False)
  | .callReturns _ _ => inferInstanceAs (Decidable False)

/-- A scan delivers one signal. -/
theorem Delivers.unique {t : TaskInner} {n i j : Nat} (hi : t.Delivers n i) (hj : t.Delivers n j) : i = j := by
  obtain ⟨⟨hni, hti, halli⟩, hki, -⟩ := hi
  obtain ⟨⟨hnj, htj, hallj⟩, hkj, -⟩ := hj
  rcases Nat.lt_trichotomy i j with hlt | heq | hlt
  · rw [hallj i hni hlt hti] at hki
    cases hki
  · exact heq
  · rw [halli j hnj hlt htj] at hkj
    cases hkj

end TaskInner

namespace TrapSystem

variable {s s' : TrapSystem} {op : TrapOp} {pid cur : Nat} {t u : TaskInner} {m last : SignalFlags}

/-! ## System calls -/

theorem syscall_keeps_mask {call : Syscall} (hne : ∀ mask, call ≠ .sigprocmask mask) (hcur : s.current = some cur)
    (ht : s.tasks cur = some t) :
    (syscall call).wlp (fun _ s' => ∀ u, s'.tasks cur = some u → u.signalMask = t.signalMask) s := by
  -- a call that changes the record of one task only
  have hupdate : ∀ {p : Nat} {t₁ t₂ : TaskInner}, s.tasks p = some t₁ → t₂.signalMask = t₁.signalMask →
      ∀ u, Function.update s.tasks p (some t₂) cur = some u → u.signalMask = t.signalMask := by
    intro p t₁ t₂ ht₁ hmask u hu
    by_cases hp : cur = p
    · subst hp
      rw [Function.update_self, Option.some.injEq] at hu
      cases ht.symm.trans ht₁
      rw [← hu, hmask]
    · rw [Function.update_of_ne hp, ht, Option.some.injEq] at hu
      rw [hu]
  have hsame : ∀ u, s.tasks cur = some u → u.signalMask = t.signalMask := by
    intro u hu
    cases ht.symm.trans hu
    rfl
  cases call with
  | kill p signum =>
    simp only [syscall, Comp.wlp_bind, Comp.wlp_get]
    split
    · simp only [Comp.wlp_bind, onTask_wlp, Comp.wlp_pure]
      intro t₁ ht₁
      refine (kill_wlp t₁ _).mono ?_
      rintro r _ ⟨f, rfl⟩
      exact hupdate ht₁ rfl
    · rw [Comp.wlp_pure]
      exact hsame
  | sigprocmask mask => exact absurd rfl (hne mask)
  | sigaction signum action oldAction value =>
    simp only [syscall, Comp.wlp_bind, currentTask_wlp, onTask_wlp, Comp.wlp_pure]
    intro cur' _ t' ht'
    refine (sysSigaction_wlp t' signum action oldAction value).mono ?_
    rintro r _ ⟨actions, rfl⟩
    exact hupdate ht' rfl
  | sigreturn =>
    simp only [syscall, TaskInner.sysSigreturn, Comp.wlp_bind, currentTask_wlp, onTask_wlp, Comp.wlp_get,
      Comp.wlp_unwrap, Comp.wlp_modify, Comp.wlp_pure]
    intro cur' _ t' ht' cx _
    exact hupdate ht' rfl
  | exit exitCode =>
    simp only [syscall, exitCurrent, Comp.wlp_bind, currentTask_wlp, Comp.wlp_modify, Comp.wlp_pure]
    intro cur' hcur' u hu
    cases hcur.symm.trans hcur'
    rw [Function.update_self] at hu
    cases hu
  | fork child kernelSp =>
    simp only [syscall, Comp.wlp_bind, Comp.wlp_get, Comp.wlp_unwrap, Comp.wlp_assert, currentTask_wlp,
      Comp.wlp_modify, Comp.wlp_pure]
    intro cur' _ t' _ hfree u hu
    have hchild : cur ≠ child := by
      rintro rfl
      rw [ht] at hfree
      cases hfree
    rw [Function.update_of_ne hchild] at hu
    exact hsame u hu
  | blocking =>
    simp only [syscall, suspendCurrent, Comp.wlp_bind, currentTask_wlp, onTask_wlp, Comp.wlp_modify, Comp.wlp_pure]
    intro cur' _ t' ht'
    exact hupdate ht' rfl
  | other cx r =>
    simp only [syscall, Comp.wlp_bind, currentTask_wlp, onTask_wlp, Comp.wlp_modify, Comp.wlp_pure]
    intro cur' _ t' ht'
    exact hupdate ht' rfl

/-- A trap that is not a `sys_sigprocmask` leaves the mask as it is. -/
theorem trap_keeps_mask {x : Fin 32 → Nat} {sstatus sepc : Nat} {cause : Cause}
    (hne : ∀ mask, cause ≠ .userEnvCall (.sigprocmask mask)) (hcur : s.current = some cur)
    (ht : s.tasks cur = some t) :
    (step (.trap x sstatus sepc cause)).wlp (fun _ s' => ∀ u, s'.tasks cur = some u → u.signalMask = t.signalMask) s := by
  cases cause with
  | userEnvCall call =>
    simp only [step, TaskInner.allTraps, Comp.wlp_bind, currentTask_wlp, onTask_wlp, Comp.wlp_get, Comp.wlp_assert,
      Comp.wlp_modify, Function.update_self, Option.some.injEq, forall_eq', Function.update_idem]
    intro cur' hcur' t' ht' _
    cases hcur.symm.trans hcur'
    cases ht.symm.trans ht'
    have hcall : ∀ mask, call ≠ .sigprocmask mask := fun mask h => hne mask (congrArg Cause.userEnvCall h)
    refine (syscall_keeps_mask (s := s.entered cur t _) hcall hcur (Function.update_self ..)).mono ?_
    intro r s₁ hmask
    cases r with
    | none =>
      rw [Comp.wlp_pure]
      exact hmask
    | some r =>
      simp only [endCall, onTask_wlp, Comp.wlp_modify, Function.update_self, Option.some.injEq, forall_eq']
      exact fun t₁ ht₁ => hmask t₁ ht₁
  | pageFault =>
    simp only [step, TaskInner.allTraps, TaskInner.currentAddSignal, Comp.wlp_bind, currentTask_wlp, onTask_wlp,
      Comp.wlp_get, Comp.wlp_assert, Comp.wlp_modify, Function.update_self, Option.some.injEq, forall_eq',
      Function.update_idem]
    intro cur' hcur' t' ht' _
    cases hcur.symm.trans hcur'
    cases ht.symm.trans ht'
    rw [Function.update_self]
    rintro u hu
    cases hu
    rfl
  | illegalInstruction =>
    simp only [step, TaskInner.allTraps, TaskInner.currentAddSignal, Comp.wlp_bind, currentTask_wlp, onTask_wlp,
      Comp.wlp_get, Comp.wlp_assert, Comp.wlp_modify, Function.update_self, Option.some.injEq, forall_eq',
      Function.update_idem]
    intro cur' hcur' t' ht' _
    cases hcur.symm.trans hcur'
    cases ht.symm.trans ht'
    rw [Function.update_self]
    rintro u hu
    cases hu
    rfl
  | supervisorTimer =>
    simp only [step, TaskInner.allTraps, suspendCurrent, Comp.wlp_bind, currentTask_wlp, onTask_wlp, Comp.wlp_get,
      Comp.wlp_assert, Comp.wlp_modify]
    intro cur' hcur' t' ht' _ cur₂ hcur₂ t₂ ht₂
    cases hcur.symm.trans hcur'
    cases ht.symm.trans ht'
    cases hcur.symm.trans hcur₂
    rw [Function.update_self, Option.some.injEq] at ht₂
    subst ht₂
    rw [Function.update_idem, Function.update_self]
    rintro u hu
    cases hu
    rfl

/-! ## Steps -/

/-- A `sys_sigprocmask` call. -/
def masks : TrapOp → Bool
  | .trap _ _ _ (.userEnvCall (.sigprocmask _)) => true
  | _ => false

/-- A scan that delivers nothing leaves the mask as it is. -/
theorem scanned_keeps_mask (h : t.Scanned 0 u) (hno : ∀ sig, ¬t.Delivers 0 sig) : u.signalMask = t.signalMask := by
  rcases h.delivery with ⟨i, _, hd, -⟩ | ⟨-, hst⟩
  · exact absurd hd (hno i)
  · exact hst.mask

/-- One that delivers a signal sets it to that of the action. -/
theorem scanned_sets_mask {sig : Nat} {action : SignalAction} (h : t.Scanned 0 u) (hd : t.Delivers 0 sig)
    (ha : t.signalActions[sig]? = some action) : u.signalMask = action.mask := by
  rcases h.delivery with ⟨i, _, hd', hturn⟩ | ⟨hno, -⟩
  · obtain ⟨action', ha', hm, -⟩ := hturn.mask
    rw [hd'.unique hd, ha, Option.some.injEq] at ha'
    rw [hm, ha']
  · exact absurd hd (hno sig hd.lt)

/-- A step of the current task that neither delivers a signal nor is a `sys_sigprocmask`. -/
theorem step_keeps_mask (hne : masks op = false) (hcur : s.current = some pid) (ht : s.tasks pid = some t)
    (hno : ∀ sig, ¬t.TurnsTo op sig) :
    (step op).wlp (fun _ s' => ∀ u, s'.tasks pid = some u → u.signalMask = t.signalMask) s := by
  cases op with
  | fetch p =>
    simp only [step, Comp.wlp_bind, Comp.wlp_get, Comp.wlp_assert, Comp.wlp_modify]
    intro hidle
    rw [hcur] at hidle
    cases hidle.1
  | trap x sstatus sepc cause =>
    refine trap_keeps_mask ?_ hcur ht
    rintro mask rfl
    cases hne
  | wait =>
    simp only [step, suspendCurrent, Comp.wlp_bind, Comp.wlp_get, Comp.wlp_unwrap, Comp.wlp_assert, currentTask_wlp,
      onTask_wlp, Comp.wlp_modify]
    intro cur' hcur' t' ht' _ cur₂ hcur₂ t₂ ht₂
    cases hcur.symm.trans hcur₂
    cases ht.symm.trans ht₂
    rw [Function.update_self]
    rintro u hu
    cases hu
    rfl
  | callReturns cx r =>
    simp only [step, endCall, Comp.wlp_bind, Comp.wlp_get, Comp.wlp_unwrap, Comp.wlp_assert, currentTask_wlp,
      onTask_wlp, Comp.wlp_modify, Function.update_self, Option.some.injEq, forall_eq', Function.update_idem]
    intro cur' hcur' t' ht' _ t₂ ht₂
    cases hcur.symm.trans hcur'
    cases ht.symm.trans ht₂
    rw [Function.update_self]
    rintro u hu
    cases hu
    rfl
  | handleSignals =>
    simp only [step, Comp.wlp_bind, Comp.wlp_get, Comp.wlp_unwrap, Comp.wlp_assert, currentTask_wlp,
      onTask_wlp, Comp.wlp_modify, Function.update_self, Option.some.injEq, forall_eq', Function.update_idem]
    intro cur' hcur' t' ht' _ t₂ ht₂
    cases hcur.symm.trans hcur'
    cases ht.symm.trans ht₂
    refine (TaskInner.checkPendingSignals_wlp t).mono fun _ t₁ hscan u hu => ?_
    rw [Function.update_self, Option.some.injEq] at hu
    rw [← hu]
    show t₁.signalMask = t.signalMask
    exact scanned_keeps_mask hscan hno
  | pass =>
    simp only [step, Comp.wlp_bind, Comp.wlp_get, Comp.wlp_unwrap, Comp.wlp_assert, currentTask_wlp]
    intro cur' hcur' t' ht' _
    cases hcur.symm.trans hcur'
    cases ht.symm.trans ht'
    split
    · cases checkError t.signals with
      | some e =>
        simp only [exitCurrent, Comp.wlp_bind, currentTask_wlp, Comp.wlp_modify]
        intro cur₂ hcur₂ u hu
        cases hcur.symm.trans hcur₂
        rw [Function.update_self] at hu
        cases hu
      | none =>
        simp only [TaskInner.trapReturn, onTask_wlp, Comp.wlp_modify]
        intro t₂ ht₂ u hu
        cases ht.symm.trans ht₂
        rw [Function.update_self, Option.some.injEq] at hu
        rw [← hu]
    · next hl =>
      rw [not_or, Bool.not_eq_false, Bool.not_eq_true] at hl
      simp only [suspendCurrent, Comp.wlp_bind, onTask_wlp, currentTask_wlp, Comp.wlp_modify]
      intro t₂ ht₂
      cases ht.symm.trans ht₂
      refine (TaskInner.checkPendingSignals_wlp t).mono fun _ t₁ hscan => ?_
      intro cur₂ hcur₂ t₃ ht₃ u hu
      cases hcur.symm.trans hcur₂
      rw [Function.update_self] at ht₃
      cases ht₃
      rw [Function.update_self, Option.some.injEq] at hu
      rw [← hu]
      show t₁.signalMask = t.signalMask
      exact scanned_keeps_mask hscan fun sig hd => hno sig ⟨hl.1, hl.2, hd⟩

/-- A step that delivers a signal. -/
theorem step_sets_mask {sig : Nat} {action : SignalAction} (hcur : s.current = some pid) (ht : s.tasks pid = some t)
    (hsig : t.TurnsTo op sig) (ha : t.signalActions[sig]? = some action) :
    (step op).wlp (fun _ s' => ∃ u, s'.tasks pid = some u ∧ u.signalMask = action.mask) s := by
  cases op with
  | handleSignals =>
    simp only [step, Comp.wlp_bind, Comp.wlp_get, Comp.wlp_unwrap, Comp.wlp_assert, currentTask_wlp,
      onTask_wlp, Comp.wlp_modify, Function.update_self, Option.some.injEq, forall_eq', Function.update_idem]
    intro cur' hcur' t' ht' _ t₂ ht₂
    cases hcur.symm.trans hcur'
    cases ht.symm.trans ht₂
    refine (TaskInner.checkPendingSignals_wlp t).mono fun _ t₁ hscan => ?_
    refine ⟨_, Function.update_self .., ?_⟩
    show t₁.signalMask = action.mask
    exact scanned_sets_mask hscan hsig ha
  | pass =>
    obtain ⟨hf, hk, hd⟩ := hsig
    simp only [step, suspendCurrent, Comp.wlp_bind, Comp.wlp_get, Comp.wlp_unwrap, Comp.wlp_assert, currentTask_wlp]
    intro cur' hcur' t' ht' _
    cases hcur.symm.trans hcur'
    cases ht.symm.trans ht'
    rw [if_neg (by rw [hf, hk]; simp)]
    simp only [Comp.wlp_bind, onTask_wlp, currentTask_wlp, Comp.wlp_modify]
    intro t₂ ht₂
    cases ht.symm.trans ht₂
    refine (TaskInner.checkPendingSignals_wlp t).mono fun _ t₁ hscan => ?_
    intro cur₂ hcur₂ t₃ ht₃
    cases hcur.symm.trans hcur₂
    rw [Function.update_self] at ht₃
    cases ht₃
    refine ⟨_, Function.update_self .., ?_⟩
    show t₁.signalMask = action.mask
    exact scanned_sets_mask hscan hd ha
  | _ => exact hsig.elim

/-- A step of another task leaves the mask as it is. -/
theorem step_mask_other (hcur : s.current ≠ some pid) (ht : s.tasks pid = some t) (h : (step op).run s = some ((), s'))
    (hu : s'.tasks pid = some u) : u.signalMask = t.signalMask := by
  rcases step_leaves s op _ _ h pid u hu with ⟨_, hc, -, -⟩ | hby
  · exact absurd hc hcur
  · cases hby with
    | same ht₀ =>
      cases ht.symm.trans ht₀
      rfl
    | kill ht₀ flag =>
      cases ht.symm.trans ht₀
      rfl
    | fork hfree =>
      rw [ht] at hfree
      cases hfree

/-! ## The run of a handler -/

/-- **A handler of the task `pid` runs**: a signal was delivered while no handler ran and the mask was `m`,
and since then the task has not called `sys_sigprocmask`. `last` is the mask of the action that was turned to
last. -/
inductive HandlerRun (pid : Nat) (m : SignalFlags) : SignalFlags → TrapSystem → Prop
  | delivered {s s' : TrapSystem} {op : TrapOp} {t : TaskInner} {sig : Nat} {action : SignalAction}
      (hs : Reached (fun _ _ => True) s) (hcur : s.current = some pid) (ht : s.tasks pid = some t)
      (hidle : t.handlingSig = -1) (hm : t.signalMask = m) (hsig : t.TurnsTo op sig)
      (ha : t.signalActions[sig]? = some action) (h : (step op).run s = some ((), s')) :
      HandlerRun pid m action.mask s'
  /-- Another signal is delivered. -/
  | again {s s' : TrapSystem} {op : TrapOp} {t : TaskInner} {sig : Nat} {action : SignalAction} {last : SignalFlags}
      (hr : HandlerRun pid m last s) (hcur : s.current = some pid) (ht : s.tasks pid = some t)
      (hsig : t.TurnsTo op sig) (ha : t.signalActions[sig]? = some action)
      (h : (step op).run s = some ((), s')) : HandlerRun pid m action.mask s'
  /-- Any other step, of this task or another, but for the exit of this one. -/
  | other {s s' : TrapSystem} {op : TrapOp} {last : SignalFlags} (hr : HandlerRun pid m last s)
      (hquiet : s.current = some pid → masks op = false ∧ ∀ t, s.tasks pid = some t → ∀ sig, ¬t.TurnsTo op sig)
      (h : (step op).run s = some ((), s')) (hlive : s'.tasks pid ≠ none) : HandlerRun pid m last s'

/-- The mask is that of the action that was turned to last. -/
theorem HandlerRun.mask (hr : HandlerRun pid m last s) : ∃ t, s.tasks pid = some t ∧ t.signalMask = last := by
  induction hr with
  | delivered _ hcur ht _ _ hsig ha h => exact step_sets_mask hcur ht hsig ha _ _ h
  | again _ hcur ht hsig ha h _ => exact step_sets_mask hcur ht hsig ha _ _ h
  | @other s _ _ _ _ hquiet h hlive ih =>
    obtain ⟨t, ht, hmask⟩ := ih
    obtain ⟨u, hu⟩ := Option.ne_none_iff_exists'.mp hlive
    refine ⟨u, hu, ?_⟩
    rw [← hmask]
    by_cases hcur : s.current = some pid
    · obtain ⟨hne, hno⟩ := hquiet hcur
      exact step_keeps_mask hne hcur ht (hno t ht) _ _ h u hu
    · exact step_mask_other hcur ht h hu

theorem sigreturn_lives {x : Fin 32 → Nat} {sstatus sepc : Nat} (hcur : s.current = some pid) :
    (step (.trap x sstatus sepc (.userEnvCall .sigreturn))).wlp (fun _ s' => s'.tasks pid ≠ none) s := by
  simp only [step, TaskInner.allTraps, syscall, TaskInner.sysSigreturn, endCall, Comp.wlp_bind, currentTask_wlp,
    onTask_wlp, Comp.wlp_get, Comp.wlp_assert, Comp.wlp_unwrap, Comp.wlp_modify, Comp.wlp_pure,
    Function.update_self, Option.some.injEq, forall_eq', Function.update_idem]
  intro cur hcur₁ t _ _ cur₂ _ t₂ _ cx _ t₃ _
  cases hcur.symm.trans hcur₁
  rw [Function.update_self]
  exact Option.some_ne_none _

/-- **When the mask survives a handler.** After a `sigreturn` in the run of a handler it is the mask `m` from
before the delivery exactly if the action that was turned to last has that mask. -/
theorem sigreturn_keeps_mask_iff {x : Fin 32 → Nat} {sstatus sepc : Nat} (hr : HandlerRun pid m last s)
    (hcur : s.current = some pid) (h : (step (.trap x sstatus sepc (.userEnvCall .sigreturn))).run s = some ((), s')) :
    (∃ t, s'.tasks pid = some t ∧ t.signalMask = m) ↔ last = m := by
  have hno : ∀ (t : TaskInner) sig, ¬t.TurnsTo (.trap x sstatus sepc (.userEnvCall .sigreturn)) sig := fun _ _ hc => hc
  have hr' : HandlerRun pid m last s' :=
    hr.other (fun _ => ⟨rfl, fun t _ => hno t⟩) h (sigreturn_lives hcur _ _ h)
  obtain ⟨u, hu, hmask⟩ := hr'.mask
  constructor
  · rintro ⟨t, ht, hm⟩
    cases hu.symm.trans ht
    rw [← hmask, hm]
  · intro heq
    exact ⟨u, hu, hmask.trans heq⟩

/-- The task is at a delivery of signal 10 to an action with this mask. -/
def before (mask : SignalFlags) (t : TaskInner) : Bool :=
  t.handlingSig = -1 && t.signalMask = 0 && t.TurnsTo .handleSignals 10 &&
    t.signalActions[10]?.any fun action => action.mask = mask

/-- A handler that runs and returns, from such a task on. -/
theorem exists_handlerRun (mask : SignalFlags) (ops : List TrapOp)
    (h : (runs (fun _ _ => true) ops (lone ⟨fun _ => 0, 0, 0, 0, 0, 0⟩)).any (fun s =>
      s.current = some 0 && (s.tasks 0).any (before mask) && ((step .handleSignals).run s).any fun r₁ =>
        (r₁.2.tasks 0).any (fun t => t.frozen = false) && ((step .pass).run r₁.2).any fun r₂ =>
          r₂.2.current = some 0 && (r₂.2.tasks 0).isSome &&
            ((step (.trap (fun _ => 0) 0 0 (.userEnvCall .sigreturn))).run r₂.2).isSome) = true) :
    ∃ s s', HandlerRun 0 0 mask s ∧ s.current = some 0 ∧
      (step (.trap (fun _ => 0) 0 0 (.userEnvCall .sigreturn))).run s = some ((), s') := by
  obtain ⟨s, hs, hrest⟩ := exists_run (fun _ _ => true) _ ops h
  simp only [Bool.and_eq_true, decide_eq_true_eq, Option.any_eq_true] at hrest
  obtain ⟨⟨hcur, t, ht, hbefore⟩, ⟨_, s₁⟩, hrun₁, ⟨t₁, ht₁, hfrozen⟩, ⟨_, s₂⟩, hrun₂, ⟨hcur₂, hlive⟩, hret⟩ := hrest
  simp only [before, Bool.and_eq_true, decide_eq_true_eq, Option.any_eq_true] at hbefore
  obtain ⟨⟨⟨hidle, hmask⟩, hsig⟩, action, ha, rfl⟩ := hbefore
  obtain ⟨⟨_, s₃⟩, hrun₃⟩ := Option.isSome_iff_exists.mp hret
  have hr₁ : HandlerRun 0 0 action.mask s₁ :=
    .delivered (hs.mono fun _ _ _ => trivial) hcur ht hidle hmask hsig ha hrun₁
  refine ⟨s₂, s₃, hr₁.other (fun _ => ⟨rfl, ?_⟩) hrun₂ (Option.isSome_iff_ne_none.mp hlive), hcur₂, hrun₃⟩
  rintro t' ht' sig ⟨hf, -, -⟩
  cases ht₁.symm.trans ht'
  rw [hfrozen] at hf
  cases hf

/-- The action has the mask that the task has. -/
theorem sigreturn_keeps_mask_same : ∃ s t, HandlerRun 0 0 0 s ∧ t.signalMask = 0 ∧
    ∃ s', (step (.trap (fun _ => 0) 0 0 (.userEnvCall .sigreturn))).run s = some ((), s') ∧ s'.tasks 0 = some t := by
  obtain ⟨s, s', hr, hcur, h⟩ := exists_handlerRun 0
    (.fetch 0 :: ecall (.sigaction 10 1 1 ⟨4096, 0⟩) ++ [.trap (fun _ => 0) 0 0 (.userEnvCall (.kill 0 10))])
    (by decide +kernel)
  obtain ⟨t, ht, hmask⟩ := (sigreturn_keeps_mask_iff hr hcur h).mpr rfl
  exact ⟨s, t, hr, hmask, s', h, ht⟩

/-- An action that masks signal 12, which the task does not: it stays masked. -/
theorem sigreturn_leaves_mask : ∃ s t, HandlerRun 0 0 4096 s ∧ t.signalMask ≠ 0 ∧
    ∃ s', (step (.trap (fun _ => 0) 0 0 (.userEnvCall .sigreturn))).run s = some ((), s') ∧ s'.tasks 0 = some t := by
  obtain ⟨s, s', hr, hcur, h⟩ := exists_handlerRun 4096
    (.fetch 0 :: ecall (.sigaction 10 1 1 ⟨4096, 4096⟩) ++ [.trap (fun _ => 0) 0 0 (.userEnvCall (.kill 0 10))])
    (by decide +kernel)
  have hno : ∀ (t : TaskInner) sig, ¬t.TurnsTo (.trap (fun _ => 0) 0 0 (.userEnvCall .sigreturn)) sig :=
    fun _ _ hc => hc
  have hr' : HandlerRun 0 0 4096 s' := hr.other (fun _ => ⟨rfl, fun t _ => hno t⟩) h (sigreturn_lives hcur _ _ h)
  obtain ⟨t, ht, hmask⟩ := hr'.mask
  refine ⟨s, t, hr, ?_, s', h, ht⟩
  rw [hmask]
  decide

end TrapSystem

end RCore.Task
