import RCore.Task.Verify.Kill

/-!
# Signals behind others

`check_pending_signals` returns at the first user signal it takes. If that signal has no handler nothing is
done, and the signals with a greater number are not looked at, in this scan or in any later one.
-/

namespace RCore.Task

open RCore Mm SignalFlags

/-! ## Tables of actions -/

/-- There is an action for every signal, and no handler for the two that `sys_sigaction` refuses. -/
structure TableOk (t : TaskInner) : Prop where
  length : t.signalActions.length = 32
  kill : t.handler 9 = 0
  stop : t.handler 19 = 0

theorem TableOk.congr {t u : TaskInner} (h : TableOk t) (ha : u.signalActions = t.signalActions) : TableOk u :=
  ⟨ha ▸ h.length, (TaskInner.handler_congr ha 9).trans h.kill, (TaskInner.handler_congr ha 19).trans h.stop⟩

theorem tableOk_new (cx : TrapContext) : TableOk (.new cx) := ⟨rfl, rfl, rfl⟩

theorem TableOk.fork {t : TaskInner} (h : TableOk t) (kernelSp : Nat) : TableOk (t.fork kernelSp) := h.congr rfl

/-- A change of a task keeps the table in order. -/
theorem stable_tableOk {f : TaskInner → TaskInner} (h : ∀ t, (f t).signalActions = t.signalActions) :
    Comp.Stable TableOk (Comp.modify f) := Comp.stable_modify fun t ht => ht.congr (h t)

theorem stable_kill (flag : SignalFlags) : Comp.Stable TableOk (TaskInner.kill flag) :=
  Comp.stable_get.bind fun _ => Comp.stable_ite (Comp.stable_pure _)
    ((stable_tableOk fun _ => by rfl).bind fun _ => Comp.stable_pure _)

theorem stable_sysSigaction (signum : UInt32) (action oldAction : Nat) (value : SignalAction) :
    Comp.Stable TableOk (TaskInner.sysSigaction signum action oldAction value) := by
  intro t ht
  rw [TaskInner.sysSigaction]
  split
  · rw [Comp.wlp_pure]
    exact ht
  split
  · rw [Comp.wlp_pure]
    exact ht
  next hbad =>
    simp only [Comp.wlp_bind, Comp.wlp_modify, Comp.wlp_pure]
    have hne : ∀ i : Nat, ofSignum (UInt32.ofNat i) = SIGKILL ∨ ofSignum (UInt32.ofNat i) = SIGSTOP →
        signum.toNat ≠ i := by
      rintro i hi rfl
      rw [UInt32.ofNat_toNat] at hi
      refine hbad ?_
      rw [Kernel.checkSigactionError, decide_eq_true_iff]
      exact Or.inr (Or.inr hi)
    have hkept : ∀ i : Nat, signum.toNat ≠ i →
        TaskInner.handler { t with signalActions := t.signalActions.set signum.toNat value } i = t.handler i := by
      intro i hi
      unfold TaskInner.handler
      rw [List.getElem?_set_ne hi]
    exact ⟨(List.length_set ..).trans ht.length, (hkept 9 (hne 9 (by decide))).trans ht.kill,
      (hkept 19 (hne 19 (by decide))).trans ht.stop⟩

theorem stable_checkPendingSignals : Comp.Stable TableOk TaskInner.checkPendingSignals := fun t ht =>
  (TaskInner.checkPendingSignals_wlp t).mono fun _ _ h => ht.congr h.actions

namespace TrapSystem

variable {s s' : TrapSystem} {pid : Nat} {t : TaskInner}

/-- The tables of all tasks are in order. -/
def TablesOk (s : TrapSystem) : Prop := ∀ pid t, s.tasks pid = some t → TableOk t

theorem TablesOk.update (h : s.TablesOk) {o : Option TaskInner} (ho : ∀ t, o = some t → TableOk t) (pid : Nat) :
    ∀ p t, Function.update s.tasks pid o p = some t → TableOk t := by
  intro p t ht
  by_cases hp : p = pid
  · rw [hp, Function.update_self] at ht
    exact ho t ht
  · rw [Function.update_of_ne hp] at ht
    exact h p t ht

theorem stable_onTask {α : Type} (pid : Nat) {x : Comp TaskInner α} (hx : Comp.Stable TableOk x) :
    Comp.Stable TablesOk (onTask pid x) := by
  intro s hs
  rw [onTask_wlp]
  intro t ht
  refine (hx t (hs pid t ht)).mono fun _ u hu => ?_
  refine hs.update ?_ pid
  rintro _ ⟨⟩
  exact hu

theorem stable_currentTask : Comp.Stable TablesOk currentTask :=
  Comp.stable_get.bind fun _ => Comp.stable_unwrap _

/-- Another task runs, or none. -/
theorem stable_setCurrent (f : TrapSystem → TrapSystem) (h : ∀ s, (f s).tasks = s.tasks) :
    Comp.Stable TablesOk (Comp.modify f) := Comp.stable_modify fun s hs pid t ht => hs pid t (h s ▸ ht)

theorem stable_suspendCurrent (control : Control) : Comp.Stable TablesOk (suspendCurrent control) :=
  stable_currentTask.bind fun cur => (stable_onTask cur (stable_tableOk fun _ => by rfl)).bind fun _ =>
    stable_setCurrent _ fun _ => by rfl

theorem stable_exitCurrent (exitCode : Int) : Comp.Stable TablesOk (exitCurrent exitCode) :=
  stable_currentTask.bind fun cur => Comp.stable_modify fun s hs => hs.update (o := none) (fun _ h => by cases h) cur

theorem stable_syscall (call : Syscall) : Comp.Stable TablesOk (syscall call) := by
  cases call with
  | kill pid signum =>
    refine Comp.stable_get.bind fun s => Comp.stable_ite ?_ (Comp.stable_pure _)
    exact (stable_onTask pid (stable_kill _)).bind fun _ => Comp.stable_pure _
  | sigprocmask mask =>
    refine stable_currentTask.bind fun cur => (stable_onTask cur ?_).bind fun _ => Comp.stable_pure _
    exact Comp.stable_get.bind fun _ => (stable_tableOk fun _ => by rfl).bind fun _ => Comp.stable_pure _
  | sigaction signum action oldAction value =>
    exact stable_currentTask.bind fun cur => (stable_onTask cur (stable_sysSigaction signum action oldAction value)).bind
      fun _ => Comp.stable_pure _
  | sigreturn =>
    refine stable_currentTask.bind fun cur => (stable_onTask cur ?_).bind fun _ => Comp.stable_pure _
    exact (stable_tableOk fun _ => by rfl).bind fun _ => Comp.stable_get.bind fun _ => (Comp.stable_unwrap _).bind fun _ =>
      (stable_tableOk fun _ => by rfl).bind fun _ => Comp.stable_pure _
  | exit exitCode => exact (stable_exitCurrent _).bind fun _ => Comp.stable_pure _
  | fork child kernelSp =>
    intro s hs
    simp only [syscall, Comp.wlp_bind, Comp.wlp_get, Comp.wlp_unwrap, Comp.wlp_assert, currentTask_wlp, Comp.wlp_modify,
      Comp.wlp_pure]
    intro cur _ t ht _
    refine hs.update ?_ child
    rintro _ ⟨⟩
    exact (hs cur t ht).fork kernelSp
  | blocking => exact (stable_suspendCurrent _).bind fun _ => Comp.stable_pure _
  | other cx r =>
    exact stable_currentTask.bind fun cur => (stable_onTask cur (stable_tableOk fun _ => by rfl)).bind fun _ =>
      Comp.stable_pure _

/-- **A step keeps the tables in order.** -/
theorem stable_step (op : TrapOp) : Comp.Stable TablesOk (step op) := by
  have hmodify : ∀ cur (f : TaskInner → TaskInner), (∀ t, (f t).signalActions = t.signalActions) →
      Comp.Stable TablesOk (onTask cur (Comp.modify f)) := fun cur f hf => stable_onTask cur (stable_tableOk hf)
  cases op with
  | fetch pid =>
    exact Comp.stable_get.bind fun _ => (Comp.stable_assert _).bind fun _ => stable_setCurrent _ fun _ => by rfl
  | trap x sstatus sepc cause =>
    refine stable_currentTask.bind fun cur => ?_
    have hsave : Comp.Stable TablesOk (onTask cur (TaskInner.allTraps x sstatus sepc)) := by
      refine stable_onTask cur (Comp.stable_get.bind fun _ => (Comp.stable_assert _).bind fun _ => ?_)
      exact stable_tableOk fun _ => by rfl
    refine hsave.bind fun _ => ?_
    cases cause with
    | userEnvCall call =>
      refine (hmodify cur _ fun _ => by rfl).bind fun _ => (stable_syscall call).bind fun r => ?_
      cases r with
      | some r => exact hmodify cur _ fun _ => by rfl
      | none => exact Comp.stable_pure _
    | pageFault => exact (hmodify cur _ fun _ => by rfl).bind fun _ => hmodify cur _ fun _ => by rfl
    | illegalInstruction => exact (hmodify cur _ fun _ => by rfl).bind fun _ => hmodify cur _ fun _ => by rfl
    | supervisorTimer => exact stable_suspendCurrent _
  | wait =>
    exact stable_currentTask.bind fun _ => Comp.stable_get.bind fun _ => (Comp.stable_unwrap _).bind fun _ =>
      (Comp.stable_assert _).bind fun _ => stable_suspendCurrent _
  | callReturns cx r =>
    exact stable_currentTask.bind fun cur => Comp.stable_get.bind fun _ => (Comp.stable_unwrap _).bind fun _ =>
      (Comp.stable_assert _).bind fun _ => (hmodify cur _ fun _ => by rfl).bind fun _ => hmodify cur _ fun _ => by rfl
  | handleSignals =>
    exact stable_currentTask.bind fun cur => Comp.stable_get.bind fun _ => (Comp.stable_unwrap _).bind fun _ =>
      (Comp.stable_assert _).bind fun _ => (stable_onTask cur stable_checkPendingSignals).bind fun _ =>
        hmodify cur _ fun _ => by rfl
  | pass =>
    refine stable_currentTask.bind fun cur => Comp.stable_get.bind fun _ => (Comp.stable_unwrap _).bind fun t =>
      (Comp.stable_assert _).bind fun _ => Comp.stable_ite ?_ ?_
    · cases checkError t.signals with
      | some e => exact stable_exitCurrent _
      | none => exact hmodify cur _ fun _ => by rfl
    · exact (stable_onTask cur stable_checkPendingSignals).bind fun _ => stable_suspendCurrent _

theorem Reached.tablesOk {ok : TrapSystem → TrapOp → Prop} (hs : Reached ok s) : s.TablesOk := by
  induction hs with
  | start p cx =>
    intro pid t ht
    have ht' : (if pid = p then some (TaskInner.new cx) else none) = some t := ht
    split at ht'
    · cases ht'
      exact tableOk_new cx
    · cases ht'
  | step op _ _ h ih => exact stable_step op _ ih () _ h

end TrapSystem

/-! ## What a scan leaves undone -/

namespace TaskInner

variable {t t' : TaskInner} {i j : Nat}

/-- A signal is pending, and not masked. -/
def unmasked (t : TaskInner) (i : Nat) : Bool := t.signals.has i && !t.signalMask.has i

theorem takes_idle (h : t.handlingSig = -1) : t.takes = t.unmasked := by
  funext i
  rw [takes, excluded, unmasked, h]
  simp

theorem callKernelSignalHandler_wp (signal : SignalFlags) (t : TaskInner) : (callKernelSignalHandler signal).wp
    (fun _ u => u.signalActions = t.signalActions ∧ u.handlingSig = t.handlingSig) t := by
  rw [callKernelSignalHandler]
  split
  · rw [Comp.wp_modify]
    exact ⟨rfl, rfl⟩
  split
  · rw [Comp.wp_bind, Comp.wp_get]
    split
    · rw [Comp.wp_modify]
      exact ⟨rfl, rfl⟩
    · rw [Comp.wp_pure]
      exact ⟨rfl, rfl⟩
  · rw [Comp.wp_modify]
    exact ⟨rfl, rfl⟩

/-- `check_pending_signals` of a task without a handler that runs does not panic. -/
theorem checkPendingLoop_wp (sigs : List Nat) (hall : ∀ i ∈ sigs, i < 32) (hok : TableOk t)
    (hidle : t.handlingSig = -1) : (checkPendingLoop sigs).wp (fun _ _ => True) t := by
  induction sigs generalizing t with
  | nil =>
    rw [checkPendingLoop, Comp.wp_pure]
    trivial
  | cons sig sigs ih =>
    have hrest : ∀ {u : TaskInner}, u.signalActions = t.signalActions → u.handlingSig = t.handlingSig →
        (checkPendingLoop sigs).wp (fun _ _ => True) u := fun ha hh =>
      ih (fun i hi => hall i (List.mem_cons_of_mem _ hi)) (hok.congr ha) (hh.trans hidle)
    simp only [checkPendingLoop, Comp.wp_bind, Comp.wp_get]
    split
    · rw [Comp.wp_bind, Comp.wp_pure, if_neg Bool.false_ne_true]
      split
      · rw [Comp.wp_bind]
        exact (callKernelSignalHandler_wp _ t).mono fun _ u h => hrest h.1 h.2
      · simp only [callUserSignalHandler, Comp.wp_bind, Comp.wp_get, Comp.wp_unwrap]
        have hlt : sig < t.signalActions.length := by
          rw [hok.length]
          exact hall sig List.mem_cons_self
        refine ⟨_, List.getElem?_eq_getElem hlt, ?_⟩
        split
        · rw [Comp.wp_modify]
          trivial
        · rw [Comp.wp_pure]
          trivial
    · exact hrest rfl rfl

theorem exists_scanned (hok : TableOk t) (hidle : t.handlingSig = -1) :
    ∃ t', checkPendingSignals.run t = some ((), t') ∧ t.Scanned 0 t' := by
  obtain ⟨⟨⟩, t', hrun, -⟩ := checkPendingLoop_wp (List.range 32) (fun i hi => List.mem_range.mp hi) hok hidle
  exact ⟨t', hrun, checkPendingSignals_wlp t () t' hrun⟩

/-- The first unmasked pending signal that is not for the kernel. -/
def FirstUser (t : TaskInner) (i : Nat) : Prop := Gets t.unmasked 0 i ∧ kernelSig i = false

instance (t : TaskInner) (i : Nat) : Decidable (t.FirstUser i) := inferInstanceAs (Decidable (_ ∧ _))

/-- A kernel signal that no scan gets to has a user signal before it. -/
theorem exists_firstUser (hi : t.unmasked i = true) (hno : ¬Gets t.unmasked 0 i) : ∃ u, t.FirstUser u ∧ u < i := by
  have hex : ∃ u, t.unmasked u = true ∧ kernelSig u = false ∧ u < i := by
    by_contra hnone
    refine hno ⟨Nat.zero_le i, hi, fun u _ hlt hu => ?_⟩
    by_contra hk
    exact hnone ⟨u, hu, Bool.eq_false_iff.mpr hk, hlt⟩
  obtain ⟨hu, hk, hlt⟩ := Nat.find_spec hex
  refine ⟨Nat.find hex, ⟨⟨Nat.zero_le _, hu, fun v _ hv hvu => ?_⟩, hk⟩, hlt⟩
  by_contra hvk
  exact Nat.find_min hex hv ⟨hvu, Bool.eq_false_iff.mpr hvk, hv.trans hlt⟩

/-- No scan gets past the first user signal. -/
theorem FirstUser.le (hu : t.FirstUser i) (hg : Gets t.unmasked 0 j) : j ≤ i := by
  by_contra hlt
  have hk := hg.2.2 i (Nat.zero_le i) (Nat.lt_of_not_le hlt) hu.1.2.1
  rw [hu.2] at hk
  cases hk

/-- What was to be done about an unmasked pending signal has been done, without a turn to a handler: the signals
that kill have killed, those that stop and continue are no longer pending, and another has no handler. -/
def ActedOn (t' : TaskInner) (i : Nat) : Prop :=
  (i = 0 ∨ i = 9 → t'.killed = true) ∧ (i = 18 ∨ i = 19 → t'.signals.has i = false) ∧
    (kernelSig i = false → t'.handler i = 0)

/-- A scan from `t` to `t'` has handled a signal. -/
def Handles (t t' : TaskInner) (i : Nat) : Prop := t.signals.has i = true ∧ t'.signals.has i = false

/-- **No signal has hidden another** from a scan that leaves `t'` and turns to no handler. -/
structure NoneHidden (t t' : TaskInner) : Prop where
  stops : ∀ i, i = 18 ∨ i = 19 → t'.unmasked i = false
  frozen : t'.frozen = true ↔ t.Handles t' 19 ∨ (t.frozen = true ∧ ¬t.Handles t' 18)
  handlers : ∀ i < 32, t'.unmasked i = true → t'.handler i = 0
  later : ∀ i j, i < j → j < 32 → t.unmasked i = true → t.handler i = 0 → t.unmasked j = true → t'.ActedOn j
  unfrozen : t.frozen = true → t.unmasked 18 = true → t'.frozen = false

/-- There is something to be done about a signal with a number above 0 when it is pending and unmasked. -/
def Matters (t : TaskInner) (i : Nat) : Prop :=
  t.handler i ≠ 0 ∨ i = 18 ∨ i = 19 ∨ (i = 9 ∧ t.killed = false ∧ t.unmasked 0 = false)

instance (t : TaskInner) (i : Nat) : Decidable (t.Matters i) := inferInstanceAs (Decidable (_ ∨ _ ∨ _ ∨ _))

/-- Nothing is to be done behind the first unmasked pending user signal. -/
def NothingBehind (t : TaskInner) : Prop :=
  ∀ u < 32, t.FirstUser u → ∀ j < 32, u < j → t.unmasked j = true → ¬t.Matters j

instance (t : TaskInner) : Decidable t.NothingBehind :=
  inferInstanceAs (Decidable (∀ u < 32, t.FirstUser u → ∀ j < 32, u < j → t.unmasked j = true → ¬t.Matters j))

/-- A pending `SIGDEF` has no handler either, and a frozen task is not to continue and to stop at once. -/
def InTheOpen (t : TaskInner) : Prop :=
  t.NothingBehind ∧ (t.unmasked 0 = true → t.handler 0 = 0) ∧
    ¬(t.frozen = true ∧ t.unmasked 18 = true ∧ t.unmasked 19 = true)

instance (t : TaskInner) : Decidable t.InTheOpen := inferInstanceAs (Decidable (_ ∧ _ ∧ _))

theorem has_of_unmasked (h : t.unmasked i = true) : t.signals.has i = true := by
  rw [unmasked, Bool.and_eq_true] at h
  exact h.1

/-- What a scan that delivers nothing leaves pending and unmasked. -/
theorem Scanned.unmasked (h : t.Scanned 0 t') (hidle : t.handlingSig = -1) (hno : ∀ i < 32, ¬t.Delivers 0 i)
    (hst : t.Straight t') (hi : i < 32) :
    t'.unmasked i = true ↔ t.unmasked i = true ∧ ¬((i = 18 ∨ i = 19) ∧ Gets t.unmasked 0 i) := by
  have hhas := h.signals i hi
  rw [takes_idle hidle] at hhas
  rw [TaskInner.unmasked, TaskInner.unmasked, hst.mask, Bool.and_eq_true, Bool.and_eq_true, hhas]
  have := hno i hi
  tauto

/-- A scan handles a stop or continue signal that it gets to. -/
theorem Scanned.handles_iff (h : t.Scanned 0 t') (hidle : t.handlingSig = -1) (hi : i = 18 ∨ i = 19) :
    t.Handles t' i ↔ Gets t.unmasked 0 i := by
  have hlt : i < 32 := by omega
  have hk : kernelSig i = true := by
    rcases hi with rfl | rfl
    · decide
    · decide
  have hhas := h.signals i hlt
  rw [takes_idle hidle] at hhas
  have hnd : ¬t.Delivers 0 i := not_delivers_of_kernelSig hk
  rw [Handles, ← Bool.not_eq_true, hhas]
  constructor
  · rintro ⟨hp, hn⟩
    by_contra hg
    exact hn ⟨hp, by tauto⟩
  · intro hg
    exact ⟨has_of_unmasked hg.2.1, fun hn => hn.2 (Or.inl ⟨hi, hg⟩)⟩

/-- **When a scan hides no signal.** -/
theorem Scanned.noneHidden_iff (h : t.Scanned 0 t') (hok : TableOk t) (hidle : t.handlingSig = -1)
    (hback : t'.handlingSig = -1) : NoneHidden t t' ↔ t.InTheOpen := by
  obtain ⟨hno, hst⟩ : (∀ i < 32, ¬t.Delivers 0 i) ∧ t.Straight t' := by
    rcases h.delivery with ⟨i, _, _, hturn⟩ | hrest
    · rw [hturn.handlingSig] at hback
      omega
    · exact hrest
  have htakes := takes_idle hidle
  have hkilled := h.killed
  have hfrozen := h.frozen
  rw [htakes] at hkilled hfrozen
  have hleft : ∀ i < 32, t'.unmasked i = true ↔ t.unmasked i = true ∧ ¬((i = 18 ∨ i = 19) ∧ Gets t.unmasked 0 i) :=
    fun i hi => h.unmasked hidle hno hst hi
  have hhandler : ∀ i, t'.handler i = t.handler i := handler_congr h.actions
  have h0 : t.unmasked 0 = true → Gets t.unmasked 0 0 := fun h0 =>
    ⟨Nat.le_refl 0, h0, fun u _ hlt => absurd hlt (Nat.not_lt_zero u)⟩
  -- the first user signal has no handler: it would have been delivered
  have hfirst : ∀ u < 32, t.FirstUser u → t.handler u = 0 := by
    intro u hu hf
    by_contra hh
    exact hno u hu ⟨htakes ▸ hf.1, hf.2, hh⟩
  constructor
  · intro hn
    refine ⟨fun u hu hf j hj hlt huj => ?_, fun h0' => ?_, ?_⟩
    · have hng : ¬Gets t.unmasked 0 j := fun hg => absurd (hf.le hg) (Nat.not_le_of_lt hlt)
      obtain ⟨hkill, hstop, huser⟩ := hn.later u j hlt hj hf.1.2.1 (hfirst u hu hf) huj
      have hzero : j = 18 ∨ j = 19 → False := by
        intro hj'
        have hmask := (hleft j hj).mpr ⟨huj, fun hg => hng hg.2⟩
        rw [hn.stops j hj'] at hmask
        cases hmask
      rintro (hh | hj' | hj' | ⟨rfl, hk, hd⟩)
      · cases hk : kernelSig j with
        | false => exact hh ((hhandler j).symm.trans (huser hk))
        | true =>
          have hcases : j = 0 ∨ j = 9 ∨ j = 18 ∨ j = 19 := by simpa [kernelSig] using hk
          rcases hcases with rfl | rfl | hj' | hj'
          · exact Nat.not_lt_zero u hlt
          · exact hh hok.kill
          · exact hzero (Or.inl hj')
          · exact hzero (Or.inr hj')
      · exact hzero (Or.inl hj')
      · exact hzero (Or.inr hj')
      · rcases hkilled.mp (hkill (Or.inr rfl)) with hold | hg | hg
        · rw [hk] at hold
          cases hold
        · rw [hg.2.1] at hd
          cases hd
        · exact hng hg
    · rw [← hhandler 0]
      exact hn.handlers 0 (by decide) ((hleft 0 (by decide)).mpr ⟨h0', by omega⟩)
    · rintro ⟨hf, h18, h19⟩
      have hfalse := hn.unfrozen hf h18
      have hg : Gets t.unmasked 0 19 := by
        by_contra hng
        have hmask := (hleft 19 (by decide)).mpr ⟨h19, fun hg => hng hg.2⟩
        rw [hn.stops 19 (Or.inr rfl)] at hmask
        cases hmask
      rw [hfrozen.mpr (Or.inl hg)] at hfalse
      cases hfalse
  · rintro ⟨hbehind, hdef, hboth⟩
    -- a stop or continue signal that is pending is got to
    have hgets : ∀ i, i = 18 ∨ i = 19 → t.unmasked i = true → Gets t.unmasked 0 i := by
      intro i hi hui
      by_contra hng
      obtain ⟨u, hf, hlt⟩ := exists_firstUser hui hng
      refine hbehind u (by omega) hf i (by omega) hlt hui ?_
      rcases hi with rfl | rfl
      · exact Or.inr (Or.inl rfl)
      · exact Or.inr (Or.inr (Or.inl rfl))
    have huser : ∀ j < 32, kernelSig j = false → t.unmasked j = true → t.handler j = 0 := by
      intro j hj hk huj
      by_cases hg : Gets t.unmasked 0 j
      · exact hfirst j hj ⟨hg, hk⟩
      · obtain ⟨u, hf, hlt⟩ := exists_firstUser huj hg
        by_contra hh
        exact hbehind u (hlt.trans hj) hf j hj hlt huj (Or.inl hh)
    refine ⟨fun i hi => ?_, ?_, fun i hi hui => ?_, fun i j hlt hj _ _ huj => ⟨?_, ?_, ?_⟩, fun hf h18 => ?_⟩
    · have hlt : i < 32 := by omega
      rw [← Bool.not_eq_true, hleft i hlt]
      rintro ⟨hui, hng⟩
      exact hng ⟨hi, hgets i hi hui⟩
    · rw [hfrozen, h.handles_iff hidle (Or.inr rfl), h.handles_iff hidle (Or.inl rfl)]
    · obtain ⟨hui', hng⟩ := (hleft i hi).mp hui
      rw [hhandler]
      cases hk : kernelSig i with
      | false => exact huser i hi hk hui'
      | true =>
        have hcases : i = 0 ∨ i = 9 ∨ i = 18 ∨ i = 19 := by simpa [kernelSig] using hk
        rcases hcases with rfl | rfl | hi' | hi'
        · exact hdef hui'
        · exact hok.kill
        · exact absurd ⟨Or.inl hi', hgets i (Or.inl hi') hui'⟩ hng
        · exact absurd ⟨Or.inr hi', hgets i (Or.inr hi') hui'⟩ hng
    · rintro (rfl | rfl)
      · exact absurd hlt (Nat.not_lt_zero i)
      · by_cases hg : Gets t.unmasked 0 9
        · exact hkilled.mpr (Or.inr (Or.inr hg))
        · obtain ⟨u, hf, hlt⟩ := exists_firstUser huj hg
          by_contra hk
          refine hbehind u (hlt.trans (by decide)) hf 9 (by decide) hlt huj (Or.inr (Or.inr (Or.inr ⟨rfl, ?_, ?_⟩)))
          · exact Bool.eq_false_iff.mpr fun hold => hk (hkilled.mpr (Or.inl hold))
          · exact Bool.eq_false_iff.mpr fun hd => hk (hkilled.mpr (Or.inr (Or.inl (h0 hd))))
    · intro hj'
      exact ((h.handles_iff hidle hj').mpr (hgets j hj' huj)).2
    · intro hk
      exact (hhandler j).trans (huser j hj hk huj)
    · rw [← Bool.not_eq_true, hfrozen]
      rintro (hg | ⟨_, hng⟩)
      · exact hboth ⟨hf, h18, hg.2.1⟩
      · exact hng (hgets 18 (Or.inl rfl) h18)

end TaskInner

namespace TrapSystem

variable {s s' : TrapSystem} {pid : Nat} {t : TaskInner}

/-- **When a scan hides no signal.** `check_pending_signals` of a task without a handler that runs returns. If it
has not turned to a handler, no signal has hidden another exactly if nothing is to be done behind the first unmasked
pending user signal, an unmasked pending `SIGDEF` has no handler, and the task is not frozen with `SIGCONT` and
`SIGSTOP` pending and unmasked. -/
theorem none_hidden_iff (hs : Reached (fun _ _ => True) s) (ht : s.tasks pid = some t) (hidle : t.handlingSig = -1) :
    ∃ t', TaskInner.checkPendingSignals.run t = some ((), t') ∧
      (t'.handlingSig = -1 → (t.NoneHidden t' ↔ t.InTheOpen)) := by
  have hok := hs.tablesOk pid t ht
  obtain ⟨t', hrun, hscan⟩ := TaskInner.exists_scanned hok hidle
  exact ⟨t', hrun, hscan.noneHidden_iff hok hidle⟩

/-- A task that has sent itself `SIGUSR1`, which has no handler. -/
theorem none_hidden_alone : ∃ t t', TaskInner.checkPendingSignals.run t = some ((), t') ∧ t.signals.has 10 = true ∧
    TaskInner.NoneHidden t t' := by
  obtain ⟨s, t, hs, ht, hp⟩ := exists_task (fun _ _ => true)
    (fun t => (t.handlingSig = -1 ∧ t.signals.has 10 = true ∧ t.InTheOpen) ∧
      (TaskInner.checkPendingSignals.run t).any (fun r => r.2.handlingSig = -1) = true)
    [.fetch 0, .trap (fun _ => 0) 0 0 (.userEnvCall (.kill 0 10))] (by decide +kernel)
  obtain ⟨⟨hidle, h10, hopen⟩, hany⟩ := of_decide_eq_true hp
  obtain ⟨t', hrun, hiff⟩ := none_hidden_iff (hs.mono fun _ _ _ => trivial) ht hidle
  rw [hrun] at hany
  exact ⟨t, t', hrun, h10, (hiff (of_decide_eq_true hany)).mpr hopen⟩

/-- A frozen task with a pending `SIGUSR1`, which has no handler, is not unfrozen by `SIGCONT`. -/
theorem sigcont_hidden : ∃ s t t', Reached (fun _ _ => True) s ∧ s.tasks 0 = some t ∧ t.handlingSig = -1 ∧
    t.frozen = true ∧ t.signals.has 18 = true ∧ t.signalMask = 0 ∧
    TaskInner.checkPendingSignals.run t = some ((), t') ∧ t'.handlingSig = -1 ∧ t'.frozen = true ∧
    ¬TaskInner.NoneHidden t t' := by
  obtain ⟨s, t, hs, ht, hp⟩ := exists_task (fun _ _ => true)
    (fun t => (t.handlingSig = -1 ∧ t.frozen = true ∧ t.signals.has 18 = true ∧ t.signalMask = 0) ∧
      (TaskInner.checkPendingSignals.run t).any (fun r => r.2.handlingSig = -1 ∧ r.2.frozen = true) = true)
    (.fetch 0 :: ecall (.fork 1 0) ++ [.trap (fun _ => 0) 0 0 .supervisorTimer, .fetch 1] ++ ecall (.kill 0 19) ++
      [.trap (fun _ => 0) 0 0 .supervisorTimer, .fetch 0, .handleSignals, .pass, .fetch 1, .handleSignals, .pass] ++
      ecall (.kill 0 10) ++ ecall (.kill 0 18)) (by decide +kernel)
  obtain ⟨⟨hidle, hf, h18, hmask⟩, hany⟩ := of_decide_eq_true hp
  obtain ⟨⟨⟨⟩, t'⟩, hrun, hp⟩ := (Option.any_eq_true _ _).mp hany
  obtain ⟨hback, hf'⟩ := of_decide_eq_true hp
  refine ⟨s, t, t', hs.mono fun _ _ _ => trivial, ht, hidle, hf, h18, hmask, hrun, hback, hf', fun hn => ?_⟩
  have hu : t.unmasked 18 = true := by
    rw [TaskInner.unmasked, h18, hmask]
    decide
  have hf'' : t'.frozen = true := hf'
  rw [hn.unfrozen hf hu] at hf''
  cases hf''

end TrapSystem

end RCore.Task
