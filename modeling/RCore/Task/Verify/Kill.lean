import RCore.Task.Verify.Handlers

/-!
# Killed tasks

A task ends in two ways: a kernel signal sets `killed`, which takes it out of the loop of
`handle_signals`, and `check_error` finds a signal for which the task exits. The first looks at masks
and comes behind the user signals with a lower number, and the second does not know `SIGDEF`.
-/

namespace RCore.Task

open RCore Mm SignalFlags

/-! ## The signals that a task exits for -/

/-- The signals that `check_error` knows. -/
def errorSigs : List Nat := [2, 4, 6, 8, 9, 11]

/-- `check_error` names the first signal that it knows. -/
theorem checkError_find (f : SignalFlags) :
    (checkError f).map Prod.fst = (errorSigs.find? f.has).map fun i : Nat => -(i : Int) := by
  have hbit : ∀ i < 32, contains f (ofSignum (UInt32.ofNat i)) = f.has i := fun i hi => contains_ofSignum hi
  have h2 : contains f SIGINT = f.has 2 := hbit 2 (by decide)
  have h4 : contains f SIGILL = f.has 4 := hbit 4 (by decide)
  have h6 : contains f SIGABRT = f.has 6 := hbit 6 (by decide)
  have h8 : contains f SIGFPE = f.has 8 := hbit 8 (by decide)
  have h9 : contains f SIGKILL = f.has 9 := hbit 9 (by decide)
  have h11 : contains f SIGSEGV = f.has 11 := hbit 11 (by decide)
  simp only [checkError, h2, h4, h6, h8, h9, h11, errorSigs, List.find?_cons, List.find?_nil]
  cases f.has 2 with
  | true => rfl
  | false =>
    cases f.has 4 with
    | true => rfl
    | false =>
      cases f.has 6 with
      | true => rfl
      | false =>
        cases f.has 8 with
        | true => rfl
        | false =>
          cases f.has 9 with
          | true => rfl
          | false =>
            cases f.has 11 with
            | true => rfl
            | false => rfl

theorem checkError_eq_none_iff (s : SignalFlags) : checkError s = none ↔ ∀ i ∈ errorSigs, s.has i = false := by
  have hmap : checkError s = none ↔ (checkError s).map Prod.fst = none := Option.map_eq_none_iff.symm
  rw [hmap, checkError_find, Option.map_eq_none_iff, List.find?_eq_none]
  simp only [Bool.not_eq_true]

theorem checkError_ne_none_iff (s : SignalFlags) : checkError s ≠ none ↔ ∃ i ∈ errorSigs, s.has i = true := by
  rw [ne_eq, checkError_eq_none_iff]
  push Not
  simp only [Bool.not_eq_false]

theorem checkError_or {s : SignalFlags} (h : checkError s ≠ none) (flag : SignalFlags) :
    checkError (s ||| flag) ≠ none := by
  obtain ⟨i, hi, hs⟩ := (checkError_ne_none_iff s).mp h
  refine (checkError_ne_none_iff _).mpr ⟨i, hi, ?_⟩
  rw [has_or, hs, Bool.true_or]

namespace TaskInner

variable {t t' : TaskInner}

/-- A scan leaves a signal that is neither delivered to the program nor one that stops or continues. -/
theorem Scanned.keeps {i : Nat} (h : t.Scanned 0 t') (hi : i < 32) (hhas : t.signals.has i = true)
    (hne : i ≠ 18 ∧ i ≠ 19) (hd : ¬t.Delivers 0 i) : t'.signals.has i = true := by
  rw [h.signals i hi]
  refine ⟨hhas, ?_⟩
  rintro (⟨rfl | rfl, _⟩ | hdel)
  · exact hne.1 rfl
  · exact hne.2 rfl
  · exact hd hdel

theorem not_delivers_of_kernelSig {i : Nat} (hk : kernelSig i = true) : ¬t.Delivers 0 i := by
  rintro ⟨_, hu, _⟩
  rw [hk] at hu
  cases hu

theorem has_of_takes {i : Nat} (h : t.takes i = true) : t.signals.has i = true := by
  rw [takes, Bool.and_eq_true, Bool.and_eq_true] at h
  exact h.1.1

theorem Scanned.sigkill (h : t.Scanned 0 t') (hkill : t.signals.has 9 = true) : t'.signals.has 9 = true :=
  h.keeps (by decide) hkill (by decide) (not_delivers_of_kernelSig (by decide))

end TaskInner

namespace TrapSystem

variable {ok : TrapSystem → TrapOp → Prop} {s s' : TrapSystem} {op : TrapOp} {pid : Nat} {t : TaskInner}

/-! ## SIGKILL -/

/-- Outside of the loop of `handle_signals`, a task that is frozen is killed. -/
theorem Reached.unfrozen (hs : Reached ok s) (ht : s.tasks pid = some t) :
    t.control ≠ .loop → t.frozen = true → t.killed = true := by
  refine hs.task (P := fun t => t.control ≠ .loop → t.frozen = true → t.killed = true) ht ?_ ?_ ?_ ?_
  · intro _ _ hf
    cases hf
  · intro _ _ _ hf
    cases hf
  · exact fun _ _ h => h
  · intro s op pid t u _ _ _ h hm hu hf
    cases hm with
    | trap hc _ _ _ _ _ _ => exact h (by rw [hc]; decide) hf
    | sigreturn hc _ => exact h (by rw [hc]; decide) hf
    | wait hc => exact h hu hf
    | callReturns hc _ => exact h (by rw [hc]; decide) hf
    | handleSignals _ _ => exact absurd rfl hu
    | pass _ _ _ _ => exact absurd rfl hu
    | resume _ hl _ =>
      have hf' : t.frozen = true := hf
      rcases hl with hl | hl
      · rw [hl] at hf'
        cases hf'
      · exact hl

/-- A task leaves the loop of `handle_signals` in its next pass. -/
def LeavesLoop (t : TaskInner) : Prop :=
  match t.control with
  | .loop => t.frozen = false ∨ t.killed = true
  | _ => t.killed = true ∨ t.takes 0 = true ∨ t.takes 9 = true ∨ ¬Gets t.takes 0 19

/-- **A pass of a task with `SIGKILL` pending.** -/
theorem pass_wlp (hcur : s.current = some pid) (ht : s.tasks pid = some t) (hkill : t.signals.has 9 = true) :
    (step .pass).wlp (fun _ s' => s'.tasks pid = none ↔ t.frozen = false ∨ t.killed = true) s := by
  have herror : checkError t.signals ≠ none := (checkError_ne_none_iff _).mpr ⟨9, by decide, hkill⟩
  simp only [step, Comp.wlp_bind, Comp.wlp_get, Comp.wlp_unwrap, Comp.wlp_assert, currentTask_wlp]
  intro cur hcur' t' ht' hc
  cases hcur.symm.trans hcur'
  cases ht.symm.trans ht'
  split
  · next hl =>
    obtain ⟨⟨errno, msg⟩, he⟩ := Option.ne_none_iff_exists'.mp herror
    rw [he]
    simp only [exitCurrent, Comp.wlp_bind, currentTask_wlp, Comp.wlp_modify]
    intro cur hcur'
    cases hcur.symm.trans hcur'
    exact iff_of_true (Function.update_self ..) hl
  · next hl =>
    simp only [suspendCurrent, Comp.wlp_bind, onTask_wlp, currentTask_wlp, Comp.wlp_modify]
    intro t' ht'
    cases ht.symm.trans ht'
    refine (TaskInner.checkPendingSignals_wlp t).mono fun _ t₁ _ => ?_
    intro cur hcur' t₂ _
    cases hcur.symm.trans hcur'
    refine iff_of_false (fun hnone => ?_) hl
    rw [Function.update_self] at hnone
    cases hnone

theorem handleSignals_wlp (hcur : s.current = some pid) (ht : s.tasks pid = some t) :
    (step .handleSignals).wlp (fun _ s' => s'.current = some pid ∧ ∃ t', t.Scanned 0 t' ∧
      s'.tasks pid = some { t' with control := .loop }) s := by
  simp only [step, Comp.wlp_bind, Comp.wlp_get, Comp.wlp_unwrap, Comp.wlp_assert, currentTask_wlp,
    onTask_wlp, Comp.wlp_modify, Function.update_self, Option.some.injEq, forall_eq', Function.update_idem]
  intro cur hcur' t' ht' hc t'' ht''
  cases hcur.symm.trans hcur'
  cases ht.symm.trans ht'
  cases ht.symm.trans ht''
  exact (TaskInner.checkPendingSignals_wlp t).mono fun _ t₁ h => ⟨hcur, t₁, h, Function.update_self ..⟩

/-- `SIGKILL` stays pending, and keeps a task from its program. -/
theorem Move.sigkill {u : TaskInner} (hm : Move op t u) (hkill : t.signals.has 9 = true) (hc : t.control ≠ .user) :
    u.signals.has 9 = true ∧ u.control ≠ .user := by
  cases hm with
  | trap hc' _ _ _ _ _ _ => exact absurd hc' hc
  | sigreturn hc' _ => exact absurd hc' hc
  | wait _ => exact ⟨hkill, hc⟩
  | callReturns _ _ => exact ⟨hkill, by simp⟩
  | handleSignals _ h => exact ⟨h.sigkill hkill, by simp⟩
  | pass _ _ _ h => exact ⟨h.sigkill hkill, by simp⟩
  | resume _ _ he => exact absurd he ((checkError_ne_none_iff _).mpr ⟨9, by decide, hkill⟩)

/-- Whether the first pass after a scan leaves the loop. -/
theorem Scanned.leaves_iff {u : TaskInner} (h : t.Scanned 0 u) (hf : t.frozen = true → t.killed = true) :
    (u.frozen = false ∨ u.killed = true) ↔
      (t.killed = true ∨ t.takes 0 = true ∨ t.takes 9 = true ∨ ¬Gets t.takes 0 19) := by
  have h0 : t.takes 0 = true → Gets t.takes 0 0 := fun ht =>
    ⟨Nat.le_refl 0, ht, fun u _ hlt => absurd hlt (Nat.not_lt_zero u)⟩
  have h9 : t.takes 9 = true → Gets t.takes 0 19 → Gets t.takes 0 9 := fun ht hg =>
    ⟨Nat.zero_le 9, ht, fun u hu hlt => hg.2.2 u hu (Nat.lt_trans hlt (by decide))⟩
  have hg0 : Gets t.takes 0 0 → t.takes 0 = true := fun hg => hg.2.1
  have hg9 : Gets t.takes 0 9 → t.takes 9 = true := fun hg => hg.2.1
  rw [← Bool.not_eq_true, h.frozen, h.killed]
  grind

/-- **Whether `SIGKILL` ends a task.** -/
theorem sigkill_exits_iff (hs : Reached (fun _ _ => True) s) (ht : s.tasks pid = some t)
    (hkill : t.signals.has 9 = true) :
    (t.control = .loop → s.current = some pid → ∀ s', (step .pass).run s = some ((), s') →
      (s'.tasks pid = none ↔ LeavesLoop t)) ∧
    (t.control = .signals → s.current = some pid → ∀ s₁ s', (step .handleSignals).run s = some ((), s₁) →
      (step .pass).run s₁ = some ((), s') → (s'.tasks pid = none ↔ LeavesLoop t)) ∧
    (t.control ≠ .user → ∀ op s', (step op).run s = some ((), s') → ∀ u, s'.tasks pid = some u →
      u.signals.has 9 = true ∧ u.control ≠ .user) := by
  refine ⟨fun hc hcur s' hrun => ?_, fun hc hcur s₁ s' hrun₁ hrun => ?_, fun hc op s' hrun u hu => ?_⟩
  · refine (pass_wlp hcur ht hkill _ _ hrun).trans ?_
    rw [LeavesLoop, hc]
  · obtain ⟨hcur₁, t₁, hscan, ht₁⟩ := handleSignals_wlp hcur ht _ _ hrun₁
    refine (pass_wlp hcur₁ ht₁ (hscan.sigkill hkill) _ _ hrun).trans ?_
    rw [LeavesLoop, hc]
    have hleaves := Scanned.leaves_iff hscan (hs.unfrozen ht (by rw [hc]; decide))
    exact hleaves
  · rcases step_leaves s op _ _ hrun pid u hu with ⟨t₀, _, ht₀, hm⟩ | hby
    · cases ht.symm.trans ht₀
      exact hm.sigkill hkill hc
    · cases hby with
      | same ht₀ =>
        cases ht.symm.trans ht₀
        exact ⟨hkill, hc⟩
      | kill ht₀ flag =>
        cases ht.symm.trans ht₀
        refine ⟨?_, hc⟩
        show has (t.signals ||| flag) 9 = true
        rw [has_or, hkill, Bool.true_or]
      | fork hfree _ _ => cases ht.symm.trans hfree

/-- A task that kills itself exits. -/
theorem sigkill_exits_self : ∃ s s₁ s' : TrapSystem, (step .handleSignals).run s = some ((), s₁) ∧
    (step .pass).run s₁ = some ((), s') ∧ s'.tasks 0 = none := by
  obtain ⟨s, hs, hp⟩ := exists_run (fun _ _ => true)
    (fun s => s.current = some 0 ∧ ((s.tasks 0).any fun t =>
        t.signals.has 9 && t.takes 9 && decide (t.control = .signals)) = true ∧
      (((step .handleSignals).run s).bind fun r => (step .pass).run r.2).isSome = true)
    [.fetch 0, .trap (fun _ => 0) 0 0 (.userEnvCall (.kill 0 9))] (by decide +kernel)
  obtain ⟨hcur, htask, hruns⟩ := of_decide_eq_true hp
  obtain ⟨t, ht, hp⟩ := (Option.any_eq_true _ _).mp htask
  rw [Bool.and_eq_true, Bool.and_eq_true] at hp
  obtain ⟨⟨hkill, htakes⟩, hc⟩ := hp
  obtain ⟨⟨⟨⟩, s'⟩, hruns⟩ := Option.isSome_iff_exists.mp hruns
  obtain ⟨⟨⟨⟩, s₁⟩, hrun₁, hrun⟩ := Option.bind_eq_some_iff.mp hruns
  have hc' : t.control = .signals := of_decide_eq_true hc
  refine ⟨s, s₁, s', hrun₁, hrun, ?_⟩
  refine ((sigkill_exits_iff (hs.mono fun _ _ _ => trivial) ht hkill).2.1 hc' hcur s₁ s' hrun₁ hrun).mpr ?_
  rw [LeavesLoop, hc']
  exact Or.inr (Or.inr (Or.inl htakes))

/-- A task that has masked `SIGKILL`, and is frozen when it gets it, is suspended again. -/
theorem frozen_task_outlives_sigkill : ∃ s t s' t', Reached (fun _ _ => True) s ∧ s.current = some 0 ∧
    s.tasks 0 = some t ∧ t.control = .loop ∧ t.signals.has 9 = true ∧
    (step .pass).run s = some ((), s') ∧ s'.tasks 0 = some t' ∧ s'.current = none ∧ t'.control = .loop ∧
    t'.frozen = true ∧ t'.killed = false := by
  obtain ⟨s, hs, hp⟩ := exists_run (fun _ _ => true)
    (fun s => s.current = some 0 ∧ ((s.tasks 0).any fun t => t.control = .loop ∧ t.signals.has 9 = true) = true ∧
      (((step .pass).run s).any fun r => r.2.current = none ∧ ((r.2.tasks 0).any fun t =>
        t.control = .loop ∧ t.frozen = true ∧ t.killed = false) = true) = true)
    (.fetch 0 :: ecall (.fork 1 0) ++ ecall (.sigprocmask 512) ++
      [.trap (fun _ => 0) 0 0 .supervisorTimer, .fetch 1] ++ ecall (.kill 0 19) ++
      [.trap (fun _ => 0) 0 0 .supervisorTimer, .fetch 0, .handleSignals, .pass, .fetch 1, .handleSignals, .pass] ++
      ecall (.kill 0 9) ++ [.trap (fun _ => 0) 0 0 .supervisorTimer, .fetch 0]) (by decide +kernel)
  obtain ⟨hcur, htask, hpass⟩ := of_decide_eq_true hp
  obtain ⟨t, ht, hp⟩ := (Option.any_eq_true _ _).mp htask
  obtain ⟨hc, hkill⟩ := of_decide_eq_true hp
  obtain ⟨⟨⟨⟩, s'⟩, hrun, hp⟩ := (Option.any_eq_true _ _).mp hpass
  obtain ⟨hcur', htask'⟩ := of_decide_eq_true hp
  obtain ⟨t', ht', hp⟩ := (Option.any_eq_true _ _).mp htask'
  obtain ⟨hc', hf, hk⟩ := of_decide_eq_true hp
  exact ⟨s, t, s', t', hs.mono fun _ _ _ => trivial, hcur, ht, hc, hkill, hrun, ht', hcur', hc', hf, hk⟩

/-! ## The default signal -/

/-- A scan does not take `SIGDEF`, unless a signal that `check_error` knows stays pending. -/
def spares (t : TaskInner) : Bool :=
  t.takes 0 = false ∨ ∃ i ∈ errorSigs, t.signals.has i = true ∧ ¬t.Delivers 0 i

/-- No scan takes `SIGDEF`, unless the task exits for another signal. -/
def noDefault (s : TrapSystem) : TrapOp → Bool
  | .handleSignals => s.currentInner.all spares
  | .pass => s.currentInner.all fun t => t.frozen = false ∨ t.killed = true ∨ spares t = true
  | _ => true

/-- A scan that kills a task leaves it a signal to exit for. -/
theorem Scanned.error {u : TaskInner} (h : t.Scanned 0 u) (hspares : spares t = true) (hk : t.killed = false)
    (hu : u.killed = true) : checkError u.signals ≠ none := by
  rw [checkError_ne_none_iff]
  have hlt : ∀ i ∈ errorSigs, i < 32 ∧ i ≠ 18 ∧ i ≠ 19 := by decide
  rcases h.killed.mp hu with hold | hg | hg
  · rw [hk] at hold
    cases hold
  · rcases of_decide_eq_true hspares with hno | ⟨i, hi, hhas, hd⟩
    · rw [hg.2.1] at hno
      cases hno
    · exact ⟨i, hi, h.keeps (hlt i hi).1 hhas (hlt i hi).2 hd⟩
  · exact ⟨9, by decide, h.sigkill (TaskInner.has_of_takes hg.2.1)⟩

/-- A task that is killed is in the loop of `handle_signals`, and exits when it leaves it. -/
def Doomed (t : TaskInner) : Prop := t.killed = true → t.control = .loop ∧ checkError t.signals ≠ none

theorem Doomed.move {u : TaskInner} (h : Doomed t) (hm : Move op t u) (hcur : s.currentInner = some t)
    (hok : s.noDefault op = true) : Doomed u := by
  -- a task that is not in the loop is not killed
  have halive : t.control ≠ .loop → t.killed = false := by
    intro hc
    by_contra hk
    exact hc (h (Bool.not_eq_false _ ▸ hk)).1
  cases hm with
  | trap hc _ _ _ _ _ _ =>
    have hk := halive (by rw [hc]; decide)
    intro hu
    rw [hk] at hu
    cases hu
  | sigreturn hc _ =>
    have hk := halive (by rw [hc]; decide)
    intro hu
    rw [hk] at hu
    cases hu
  | wait hc => exact h
  | callReturns hc _ =>
    have hk := halive (by rw [hc]; decide)
    intro hu
    rw [hk] at hu
    cases hu
  | handleSignals hc hscan =>
    rw [noDefault, hcur] at hok
    intro hu
    have herror := Scanned.error hscan hok (halive (by rw [hc]; decide)) hu
    exact ⟨rfl, herror⟩
  | pass _ hf hk hscan =>
    rw [noDefault, hcur] at hok
    have hor := of_decide_eq_true hok
    rw [hf, hk] at hor
    simp only [Bool.true_eq_false, Bool.false_eq_true, false_or] at hor
    intro hu
    have herror := Scanned.error hscan hor hk hu
    exact ⟨rfl, herror⟩
  | resume _ _ he => exact fun hu => absurd he (h hu).2

/-- **A task that goes back to its program has not been killed.** -/
theorem not_killed (hs : Reached (fun s op => s.noDefault op = true) s) (ht : s.tasks pid = some t)
    (huser : t.control = .user) : t.killed = false := by
  have hdoomed : Doomed t := by
    refine hs.task ht (fun _ hk => by cases hk) (fun _ _ hk => by cases hk) ?_ ?_
    · exact fun t flag h hk => ⟨(h hk).1, checkError_or (h hk).2 flag⟩
    · intro s op pid t u hok hcur ht h hm
      refine h.move hm ?_ hok
      rw [currentInner, hcur]
      exact ht
  by_contra hk
  have hc := (hdoomed (Bool.not_eq_false _ ▸ hk)).1
  rw [huser] at hc
  cases hc

/-- A task that sends itself a signal without a handler. -/
theorem not_killed_run : ∃ t : TaskInner, t.control = .user ∧ t.signals.has 10 = true ∧ t.killed = false := by
  obtain ⟨s, t, hs, ht, hp⟩ := exists_task noDefault (fun t => t.control = .user ∧ t.signals.has 10 = true)
    (.fetch 0 :: ecall (.kill 0 10)) (by decide +kernel)
  obtain ⟨huser, hsig⟩ := of_decide_eq_true hp
  exact ⟨t, huser, hsig, not_killed hs ht huser⟩

/-- A task that sends itself `SIGDEF` is killed, and goes back to its program. -/
theorem killed_task_runs_on : ∃ s t, Reached (fun _ _ => True) s ∧ s.tasks 0 = some t ∧ t.control = .user ∧
    t.killed = true := by
  obtain ⟨s, t, hs, ht, hp⟩ := exists_task (fun _ _ => true) (fun t => t.control = .user ∧ t.killed = true)
    (.fetch 0 :: ecall (.kill 0 0)) (by decide +kernel)
  obtain ⟨huser, hk⟩ := of_decide_eq_true hp
  exact ⟨s, t, hs.mono fun _ _ _ => trivial, ht, huser, hk⟩

end TrapSystem

end RCore.Task
