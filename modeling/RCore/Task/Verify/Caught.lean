import RCore.Task.Verify.Kill
import RCore.Task.Verify.Masks

/-!
# Signals that end a task behind its handlers

`check_error` comes after the scans of `handle_signals` and knows neither masks nor handlers. A pending `SIGINT` or
`SIGABRT` ends the task at the end of the signal phase unless a scan of that phase has delivered it.
-/

namespace RCore.Task

open RCore Mm SignalFlags

namespace TrapSystem

variable {s s' : TrapSystem} {pid i : Nat} {t u : TaskInner}

/-- A task has not lost a signal: it is pending if it was, or it has been delivered. -/
def Kept (i : Nat) (t t' : TaskInner) : Prop :=
  ∃ l, t'.log = t.log ++ l ∧ (t.signals.has i = true → t'.signals.has i = true ∨ ∃ cx, .delivered i cx ∈ l)

theorem kept_of_eq (hlog : u.log = t.log) (hsig : t.signals.has i = true → u.signals.has i = true) : Kept i t u :=
  ⟨[], by rw [hlog, List.append_nil], fun h => Or.inl (hsig h)⟩

theorem Kept.trans {v : TaskInner} (h : Kept i t u) (h' : Kept i u v) : Kept i t v := by
  obtain ⟨l, hl, hsig⟩ := h
  obtain ⟨l', hl', hsig'⟩ := h'
  refine ⟨l ++ l', by rw [hl', hl, List.append_assoc], fun hi => ?_⟩
  rcases hsig hi with hu | ⟨cx, hcx⟩
  · rcases hsig' hu with hv | ⟨cx, hcx⟩
    · exact Or.inl hv
    · exact Or.inr ⟨cx, List.mem_append_right l hcx⟩
  · exact Or.inr ⟨cx, List.mem_append_left l' hcx⟩

theorem Kept.scanned (h : t.Scanned 0 u) (hi : i < 32) (hne : i ≠ 18 ∧ i ≠ 19) (control : Control) :
    Kept i t { u with control } := by
  rcases h.delivery with ⟨j, hj, hd, hturn⟩ | ⟨hno, hst⟩
  · refine ⟨[.delivered j t.trapCx], hturn.log, fun hhas => ?_⟩
    by_cases hij : i = j
    · rw [hij]
      exact Or.inr ⟨_, List.mem_singleton_self _⟩
    · exact Or.inl (h.keeps hi hhas hne fun hd' => hij (TaskInner.Delivers.unique hd' hd))
  · exact kept_of_eq hst.log fun hhas => h.keeps hi hhas hne (hno i hi)

/-- The task `pid` exits for a signal. -/
def ExitsFor (pid i : Nat) (s s' : TrapSystem) : Prop :=
  s'.tasks pid = none ∧ s'.exits = s.exits ++ [(pid, -(i : Int))]

/-- The task exits for `SIGINT` whenever it is pending, and for `SIGABRT` if neither `SIGINT` nor `SIGILL` is. -/
theorem find_errorSigs_iff (f : SignalFlags) (hi : i = 2 ∨ i = 6) : errorSigs.find? f.has = some i ↔
    f.has i = true ∧ (i = 6 → f.has 2 = false ∧ f.has 4 = false) := by
  constructor
  · intro h
    refine ⟨List.find?_some h, ?_⟩
    rintro rfl
    cases h2 : f.has 2 with
    | true =>
      rw [errorSigs, List.find?_cons_of_pos h2] at h
      cases h
    | false =>
      cases h4 : f.has 4 with
      | true =>
        rw [errorSigs, List.find?_cons_of_neg (by rw [h2]; decide), List.find?_cons_of_pos h4] at h
        cases h
      | false => exact ⟨rfl, rfl⟩
  · rintro ⟨hhas, hfirst⟩
    rcases hi with rfl | rfl
    · exact List.find?_cons_of_pos hhas
    · obtain ⟨h2, h4⟩ := hfirst rfl
      rw [errorSigs, List.find?_cons_of_neg (by rw [h2]; decide), List.find?_cons_of_neg (by rw [h4]; decide)]
      exact List.find?_cons_of_pos hhas

/-- What a pass of the loop comes to. -/
inductive Outcome (pid : Nat) (t : TaskInner) (s s' : TrapSystem) : Prop
  | exits (hl : t.frozen = false ∨ t.killed = true) {e : Int × String} (he : checkError t.signals = some e)
      (hgone : s'.tasks pid = none) (hexits : s'.exits = s.exits ++ [(pid, e.1)])
  | lives (hl : t.frozen = true ∧ t.killed = false ∨ checkError t.signals = none) {t' : TaskInner}
      (ht' : s'.tasks pid = some t') (hkept : ∀ i < 32, i ≠ 18 ∧ i ≠ 19 → Kept i t t')

theorem pass_outcome (hcur : s.current = some pid) (ht : s.tasks pid = some t) :
    (step .pass).wlp (fun _ s' => Outcome pid t s s') s := by
  simp only [step, Comp.wlp_bind, Comp.wlp_get, Comp.wlp_unwrap, Comp.wlp_assert, currentTask_wlp]
  intro cur hcur' t' ht' _
  cases hcur.symm.trans hcur'
  cases ht.symm.trans ht'
  split
  · next hl =>
    cases he : checkError t.signals with
    | some e =>
      simp only [exitCurrent, Comp.wlp_bind, currentTask_wlp, Comp.wlp_modify]
      intro cur hcur'
      cases hcur.symm.trans hcur'
      exact .exits hl he (Function.update_self ..) rfl
    | none =>
      simp only [TaskInner.trapReturn, onTask_wlp, Comp.wlp_modify]
      intro t' ht'
      cases ht.symm.trans ht'
      exact .lives (Or.inr he) (Function.update_self ..) fun i _ _ => ⟨[.resumed t.trapCx], rfl, Or.inl⟩
  · next hl =>
    rw [not_or, Bool.not_eq_false, Bool.not_eq_true] at hl
    simp only [suspendCurrent, Comp.wlp_bind, onTask_wlp, currentTask_wlp, Comp.wlp_modify]
    intro t' ht'
    cases ht.symm.trans ht'
    refine (TaskInner.checkPendingSignals_wlp t).mono fun _ t₁ hscan => ?_
    intro cur hcur' t₂ ht₂
    cases hcur.symm.trans hcur'
    rw [Function.update_self] at ht₂
    cases ht₂
    exact .lives (Or.inl hl) (Function.update_self ..) fun i hi hne => Kept.scanned hscan hi hne .loop

/-- **A signal phase**: the task `pid` has come to `handle_signals` in `s`, and is in its loop in `s₁`. -/
inductive SignalPhase (pid : Nat) (s : TrapSystem) : TrapSystem → Prop
  | scan {s₁ : TrapSystem} (hcur : s.current = some pid) (h : (step .handleSignals).run s = some ((), s₁)) :
      SignalPhase pid s s₁
  /-- Any step, of this task or of another, that leaves it there. -/
  | stay {s₁ s₂ : TrapSystem} {op : TrapOp} (hp : SignalPhase pid s s₁) (h : (step op).run s₁ = some ((), s₂))
      {t : TaskInner} (ht : s₂.tasks pid = some t) (hc : t.control = .loop) : SignalPhase pid s s₂

/-- No signal is lost in a signal phase. -/
theorem SignalPhase.kept {s₁ : TrapSystem} (hp : SignalPhase pid s s₁) (ht : s.tasks pid = some t) (hi : i < 32)
    (hne : i ≠ 18 ∧ i ≠ 19) : ∃ t₁, s₁.tasks pid = some t₁ ∧ t₁.control = .loop ∧ Kept i t t₁ := by
  induction hp with
  | scan hcur h =>
    obtain ⟨_, t₁, hscan, ht₁⟩ := handleSignals_wlp hcur ht _ _ h
    exact ⟨_, ht₁, rfl, Kept.scanned hscan hi hne .loop⟩
  | @stay s₁ s₂ op _ h u hu hc ih =>
    obtain ⟨t₁, ht₁, hc₁, hkept⟩ := ih
    refine ⟨u, hu, hc, hkept.trans ?_⟩
    rcases step_leaves s₁ op _ _ h pid u hu with ⟨t₂, _, ht₂, hm⟩ | hby
    · cases ht₁.symm.trans ht₂
      cases hm with
      | trap hc' => cases hc₁.symm.trans hc'
      | sigreturn hc' => cases hc₁.symm.trans hc'
      | wait hc' => cases hc₁.symm.trans hc'
      | callReturns hc' => cases hc₁.symm.trans hc'
      | handleSignals hc' _ => cases hc₁.symm.trans hc'
      | pass _ _ _ hscan => exact Kept.scanned hscan hi hne .loop
      | resume => cases hc
    · cases hby with
      | same ht₂ =>
        cases ht₁.symm.trans ht₂
        exact kept_of_eq rfl id
      | kill ht₂ flag =>
        cases ht₁.symm.trans ht₂
        refine kept_of_eq rfl fun hhas => ?_
        show has (t₁.signals ||| flag) i = true
        rw [has_or, hhas, Bool.true_or]
      | fork hfree => cases ht₁.symm.trans hfree

/-- A task has survived the pass from `s` to `s'` at the end of a signal phase that it entered as `t`: it has not
exited for the signal, and it has not lost it. -/
def Spared (pid i : Nat) (t : TaskInner) (s s' : TrapSystem) : Prop :=
  ¬ExitsFor pid i s s' ∧ ∀ t', s'.tasks pid = some t' → Kept i t t'

/-- **When a pass spares a task.** -/
theorem spared_iff {s₁ : TrapSystem} {t₁ : TaskInner} (hi : i = 2 ∨ i = 6) (hcur : s₁.current = some pid)
    (ht₁ : s₁.tasks pid = some t₁) (hkept : Kept i t t₁) (hrun : (step .pass).run s₁ = some ((), s')) :
    Spared pid i t s₁ s' ↔ (t₁.frozen = true ∧ t₁.killed = false) ∨ t₁.signals.has i = false ∨
      (i = 6 ∧ (t₁.signals.has 2 = true ∨ t₁.signals.has 4 = true)) := by
  have hfind := find_errorSigs_iff t₁.signals hi
  have hcode := checkError_find t₁.signals
  have hlt : i < 32 := by omega
  cases pass_outcome hcur ht₁ _ _ hrun with
  | exits hl he hgone hexits =>
    rw [he, Option.map_some] at hcode
    obtain ⟨j, hj, hje⟩ := Option.map_eq_some_iff.mp hcode.symm
    have hexit : ExitsFor pid i s₁ s' ↔ errorSigs.find? t₁.signals.has = some i := by
      rw [ExitsFor, hexits, hj, Option.some.injEq, ← hje]
      constructor
      · rintro ⟨_, heq⟩
        have hpair := (List.cons.inj (List.append_cancel_left heq)).1
        have hcodes := congrArg Prod.snd hpair
        simp only at hcodes
        omega
      · rintro rfl
        exact ⟨hgone, rfl⟩
    have hlives : ∀ t', s'.tasks pid = some t' → Kept i t t' := by
      intro t' ht'
      rw [hgone] at ht'
      cases ht'
    rw [Spared, and_iff_left hlives, hexit, hfind]
    grind
  | lives hl ht' hkept' =>
    have hno : ¬ExitsFor pid i s₁ s' := fun hc => by
      rw [hc.1] at ht'
      cases ht'
    have hlives : ∀ t'', s'.tasks pid = some t'' → Kept i t t'' := by
      intro t'' ht''
      cases ht'.symm.trans ht''
      exact hkept.trans (hkept' i hlt (by omega))
    refine iff_of_true ⟨hno, hlives⟩ ?_
    rcases hl with hl | hl
    · exact Or.inl hl
    · have hmem : i ∈ errorSigs := by
        rcases hi with rfl | rfl
        · decide
        · decide
      exact Or.inr (Or.inl ((checkError_eq_none_iff _).mp hl i hmem))

/-- **When `SIGINT` and `SIGABRT` end a task**, whatever its mask and its handlers. At the end of a signal phase the
task exits for a signal that was pending at its start, and otherwise the signal still is or has been delivered. It
does not exit for it exactly if the task stays in the loop, the signal is no longer pending, or it is `SIGABRT` and
`SIGINT` or `SIGILL` is pending too. If the phase is not suspended, that is the case exactly if the task does not
leave the loop, the first scan delivers the signal, or it is `SIGABRT` and that scan leaves `SIGINT` or `SIGILL`. -/
theorem spared_in_phase_iff (hi : i = 2 ∨ i = 6) (hs : Reached (fun _ _ => True) s) (ht : s.tasks pid = some t)
    (hhas : t.signals.has i = true) :
    (∀ s₁ s' t₁, SignalPhase pid s s₁ → s₁.current = some pid → s₁.tasks pid = some t₁ →
      (step .pass).run s₁ = some ((), s') →
      (Spared pid i t s₁ s' ↔ (t₁.frozen = true ∧ t₁.killed = false) ∨ t₁.signals.has i = false ∨
        (i = 6 ∧ (t₁.signals.has 2 = true ∨ t₁.signals.has 4 = true)))) ∧
    (∀ s₁ s', s.current = some pid → t.control = .signals → (step .handleSignals).run s = some ((), s₁) →
      (step .pass).run s₁ = some ((), s') →
      (Spared pid i t s₁ s' ↔ ¬LeavesLoop t ∨ t.Delivers 0 i ∨
        (i = 6 ∧ ∃ j, (j = 2 ∨ j = 4) ∧ t.signals.has j = true ∧ ¬t.Delivers 0 j))) := by
  have hlt : i < 32 := by omega
  refine ⟨fun s₁ s' t₁ hp hcur ht₁ hrun => ?_, fun s₁ s' hcur hc hrun₁ hrun => ?_⟩
  · obtain ⟨t₂, ht₂, _, hkept⟩ := hp.kept ht hlt (by omega)
    cases ht₁.symm.trans ht₂
    exact spared_iff hi hcur ht₁ hkept hrun
  · obtain ⟨hcur₁, t₁, hscan, ht₁⟩ := handleSignals_wlp hcur ht _ _ hrun₁
    rw [spared_iff hi hcur₁ ht₁ (Kept.scanned hscan hlt (by omega) .loop) hrun]
    have hleaves : t₁.frozen = false ∨ t₁.killed = true ↔ LeavesLoop t := by
      rw [LeavesLoop, hc]
      exact Scanned.leaves_iff hscan (hs.unfrozen ht (by rw [hc]; decide))
    -- what the scan leaves pending
    have hleft : ∀ j, j = 2 ∨ j = 4 ∨ j = 6 → (t₁.signals.has j = true ↔ t.signals.has j = true ∧ ¬t.Delivers 0 j) := by
      intro j hj
      rw [hscan.signals j (by omega)]
      have hns : ¬((j = 18 ∨ j = 19) ∧ Gets t.takes 0 j) := fun hc => by omega
      exact and_congr_right fun _ => not_congr (or_iff_right hns)
    have h2 := hleft 2 (by omega)
    have h4 := hleft 4 (by omega)
    have hi' := hleft i (by omega)
    have hstay : t₁.frozen = true ∧ t₁.killed = false ↔ ¬LeavesLoop t := by
      rw [← hleaves, not_or, Bool.not_eq_false, Bool.not_eq_true]
    have hgone : t₁.signals.has i = false ↔ t.Delivers 0 i := by
      rw [← Bool.not_eq_true, hi', not_and, not_not]
      exact ⟨fun h => h hhas, fun h _ => h⟩
    show t₁.frozen = true ∧ t₁.killed = false ∨ t₁.signals.has i = false ∨
      (i = 6 ∧ (t₁.signals.has 2 = true ∨ t₁.signals.has 4 = true)) ↔ _
    rw [hstay, hgone, h2, h4]
    simp only [exists_eq_or_imp, exists_eq_left]

/-- A run of the signal phase of the current task. -/
def phaseRun (s : TrapSystem) : Option (TrapSystem × TrapSystem) := do
  let (_, s₁) ← (step .handleSignals).run s
  let (_, s') ← (step .pass).run s₁
  return (s₁, s')

theorem phaseRun_eq_some {s₁ : TrapSystem} (h : s.phaseRun = some (s₁, s')) :
    (step .handleSignals).run s = some ((), s₁) ∧ (step .pass).run s₁ = some ((), s') := by
  obtain ⟨⟨⟨⟩, s₂⟩, hrun₁, h⟩ := Option.bind_eq_some_iff.mp h
  obtain ⟨⟨⟨⟩, s₃⟩, hrun, h⟩ := Option.bind_eq_some_iff.mp h
  cases h
  exact ⟨hrun₁, hrun⟩

/-- A `SIGINT` whose handler is turned to at once. -/
theorem sigint_delivered : ∃ s t s₁ s', s.tasks 0 = some t ∧ t.signals.has 2 = true ∧ t.handler 2 ≠ 0 ∧
    (step .handleSignals).run s = some ((), s₁) ∧ (step .pass).run s₁ = some ((), s') ∧ Spared 0 2 t s₁ s' := by
  obtain ⟨s, hs, hp⟩ := exists_run (fun _ _ => true)
    (fun s => (s.current = some 0 ∧ s.phaseRun.isSome = true) ∧ ((s.tasks 0).any fun t =>
      (t.signals.has 2 = true ∧ t.handler 2 ≠ 0) ∧ t.control = .signals ∧ t.Delivers 0 2) = true)
    (.fetch 0 :: ecall (.sigaction 2 1 1 ⟨4096, 0⟩) ++ [.trap (fun _ => 0) 0 0 (.userEnvCall (.kill 0 2))])
    (by decide +kernel)
  obtain ⟨⟨hcur, hphase⟩, htask⟩ := of_decide_eq_true hp
  obtain ⟨t, ht, hp⟩ := (Option.any_eq_true _ _).mp htask
  obtain ⟨⟨h2, hh⟩, hc, hd⟩ := of_decide_eq_true hp
  obtain ⟨⟨s₁, s'⟩, hrun⟩ := Option.isSome_iff_exists.mp hphase
  obtain ⟨hrun₁, hrun⟩ := phaseRun_eq_some hrun
  refine ⟨s, t, s₁, s', ht, h2, hh, hrun₁, hrun, ?_⟩
  exact ((spared_in_phase_iff (Or.inl rfl) (hs.mono fun _ _ _ => trivial) ht h2).2 s₁ s' hcur hc hrun₁ hrun).mpr
    (Or.inr (Or.inl hd))

/-- A `SIGINT` with a handler, behind a `SIGHUP` without one, ends the task. -/
theorem sigint_behind_sighup : ∃ s t s₁ s', Reached (fun _ _ => True) s ∧ s.current = some 0 ∧ s.tasks 0 = some t ∧
    t.signals.has 2 = true ∧ t.signalMask.has 2 = false ∧ t.handler 2 ≠ 0 ∧ t.handlingSig = -1 ∧
    (step .handleSignals).run s = some ((), s₁) ∧ (step .pass).run s₁ = some ((), s') ∧ ExitsFor 0 2 s₁ s' := by
  obtain ⟨s, hs, hp⟩ := exists_run (fun _ _ => true)
    (fun s => (s.current = some 0 ∧ (s.phaseRun.any fun r =>
        (r.2.tasks 0).isNone && decide (r.2.exits = r.1.exits ++ [(0, -2)])) = true) ∧
      ((s.tasks 0).any fun t =>
        t.signals.has 2 = true ∧ t.signalMask.has 2 = false ∧ t.handler 2 ≠ 0 ∧ t.handlingSig = -1) = true)
    (.fetch 0 :: ecall (.sigaction 2 1 1 ⟨4096, 0⟩) ++ ecall (.kill 0 1) ++
      [.trap (fun _ => 0) 0 0 (.userEnvCall (.kill 0 2))]) (by decide +kernel)
  obtain ⟨⟨hcur, hphase⟩, htask⟩ := of_decide_eq_true hp
  obtain ⟨t, ht, hp⟩ := (Option.any_eq_true _ _).mp htask
  obtain ⟨h2, hm, hh, hidle⟩ := of_decide_eq_true hp
  obtain ⟨⟨s₁, s'⟩, hrun, hexit⟩ := (Option.any_eq_true _ _).mp hphase
  obtain ⟨hrun₁, hrun⟩ := phaseRun_eq_some hrun
  obtain ⟨hgone, hexits⟩ := Bool.and_eq_true_iff.mp hexit
  exact ⟨s, t, s₁, s', hs.mono fun _ _ _ => trivial, hcur, ht, h2, hm, hh, hidle, hrun₁, hrun,
    Option.isNone_iff_eq_none.mp hgone, of_decide_eq_true hexits⟩

end TrapSystem

end RCore.Task
