import RCore.Task.Trap
import Mathlib.Data.Nat.Bitwise

/-!
# What check_pending_signals does

The loop goes through the signals in order and takes those that are pending and neither masked nor
excluded by the handler that runs. It handles kernel signals on the way, and it ends at the first user
signal it takes, whether that has a handler or not: signals behind it are not looked at.
-/

namespace RCore.Task

open RCore Mm

/-! ## Sets of signals -/

namespace SignalFlags

variable {s : SignalFlags} {i j : Nat}

/-- The signal with a number is in the set. -/
def has (s : SignalFlags) (i : Nat) : Bool := s.toNat.testBit i

theorem toNat_ofSignum (h : i < 32) : (ofSignum (UInt32.ofNat i)).toNat = 2 ^ i := by
  have hlt : 2 ^ i < 2 ^ 32 := Nat.pow_lt_pow_right (by decide) h
  have hmod : i % 2 ^ 32 % 32 = i := by omega
  rw [ofSignum, UInt32.toNat_shiftLeft, UInt32.toNat_ofNat', hmod, UInt32.toNat_one, Nat.shiftLeft_eq, Nat.one_mul,
    Nat.mod_eq_of_lt hlt]

theorem contains_ofSignum (h : i < 32) : contains s (ofSignum (UInt32.ofNat i)) = s.has i := by
  have hpos : 0 ≠ 2 ^ i := (Nat.two_pow_pos i).ne
  have hiff : s &&& ofSignum (UInt32.ofNat i) = ofSignum (UInt32.ofNat i) ↔ s.has i = true := by
    rw [← UInt32.toNat_inj, UInt32.toNat_and, toNat_ofSignum h, Nat.and_two_pow, has]
    cases s.toNat.testBit i with
    | false => simp [hpos]
    | true => simp
  rw [contains, Bool.eq_iff_iff, decide_eq_true_iff, hiff]

theorem has_or (i : Nat) (t : SignalFlags) : (s ||| t).has i = (s.has i || t.has i) := by
  rw [has, UInt32.toNat_or, Nat.testBit_or]
  rfl

theorem has_xor (hj : j < 32) :
    (s ^^^ ofSignum (UInt32.ofNat j)).has i = (s.has i ^^ decide (j = i)) := by
  rw [has, UInt32.toNat_xor, Nat.testBit_xor, toNat_ofSignum hj, Nat.testBit_two_pow]
  rfl

end SignalFlags

open SignalFlags

/-- The numbers of the kernel signals. -/
def kernelSig (i : Nat) : Bool := i = 0 ∨ i = 9 ∨ i = 18 ∨ i = 19

theorem isKernelSignal_ofSignum {i : Nat} (h : i < 32) :
    Kernel.isKernelSignal (ofSignum (UInt32.ofNat i)) = kernelSig i := by
  have hall : ∀ j < 32, Kernel.isKernelSignal (ofSignum (UInt32.ofNat j)) = kernelSig j := by decide
  exact hall i h

/-! ## A scan that ends at the first user signal -/

/-- A scan from `n` on that takes the signals of `p` gets to `i` and takes it. -/
def Gets (p : Nat → Bool) (n i : Nat) : Prop :=
  n ≤ i ∧ p i = true ∧ ∀ u, n ≤ u → u < i → p u = true → kernelSig u = true

instance (p : Nat → Bool) (n i : Nat) : Decidable (Gets p n i) := inferInstanceAs (Decidable (_ ∧ _ ∧ _))

section Gets

variable {p q : Nat → Bool} {n i : Nat}

theorem gets_skip (h : p n = false) : Gets p n i ↔ Gets p (n + 1) i := by
  constructor
  · rintro ⟨hle, hi, hall⟩
    have hne : n ≠ i := by
      rintro rfl
      exact Bool.false_ne_true (h.symm.trans hi)
    exact ⟨Nat.lt_of_le_of_ne hle hne, hi, fun u hu => hall u (Nat.le_of_succ_le hu)⟩
  · rintro ⟨hle, hi, hall⟩
    refine ⟨Nat.le_of_succ_le hle, hi, fun u hu hlt hpu => ?_⟩
    have hne : n ≠ u := by
      rintro rfl
      exact Bool.false_ne_true (h.symm.trans hpu)
    exact hall u (Nat.lt_of_le_of_ne hu hne) hlt hpu

theorem gets_kernel (h : p n = true) (hk : kernelSig n = true) : Gets p n i ↔ i = n ∨ Gets p (n + 1) i := by
  constructor
  · rintro ⟨hle, hi, hall⟩
    rcases Nat.eq_or_lt_of_le hle with rfl | hlt
    · exact Or.inl rfl
    · exact Or.inr ⟨hlt, hi, fun u hu => hall u (Nat.le_of_succ_le hu)⟩
  · rintro (rfl | ⟨hle, hi, hall⟩)
    · exact ⟨Nat.le_refl _, h, fun u hu hlt => absurd hlt (Nat.not_lt_of_le hu)⟩
    · refine ⟨Nat.le_of_succ_le hle, hi, fun u hu hlt hpu => ?_⟩
      rcases Nat.eq_or_lt_of_le hu with rfl | hnu
      · exact hk
      · exact hall u hnu hlt hpu

theorem gets_user (h : p n = true) (hk : kernelSig n = false) : Gets p n i ↔ i = n := by
  constructor
  · rintro ⟨hle, _, hall⟩
    rcases Nat.eq_or_lt_of_le hle with rfl | hlt
    · rfl
    · exact absurd (hall n (Nat.le_refl _) hlt h) (by rw [hk]; exact Bool.false_ne_true)
  · rintro rfl
    exact ⟨Nat.le_refl _, h, fun u hu hlt => absurd hlt (Nat.not_lt_of_le hu)⟩

theorem gets_congr (h : ∀ u, n ≤ u → p u = q u) : Gets p n i ↔ Gets q n i := by
  constructor
  · rintro ⟨hle, hi, hall⟩
    refine ⟨hle, (h i hle).symm.trans hi, fun u hu hlt hqu => ?_⟩
    exact hall u hu hlt ((h u hu).trans hqu)
  · rintro ⟨hle, hi, hall⟩
    refine ⟨hle, (h i hle).trans hi, fun u hu hlt hpu => ?_⟩
    exact hall u hu hlt ((h u hu).symm.trans hpu)

end Gets

/-! ## The loop -/

namespace TaskInner

variable {t t' : TaskInner} {n i : Nat}

/-- The handler that runs excludes a signal. -/
def excluded (t : TaskInner) (i : Nat) : Bool :=
  t.handlingSig ≠ -1 && (t.signalActions[t.handlingSig.toNat]?).any fun action => has action.mask i

/-- A signal is pending, and neither masked nor excluded. -/
def takes (t : TaskInner) (i : Nat) : Bool := t.signals.has i && !t.signalMask.has i && !t.excluded i

/-- The handler that is installed for a signal. -/
def handler (t : TaskInner) (i : Nat) : Nat := (t.signalActions[i]?.map SignalAction.handler).getD 0

/-- A scan from `n` on delivers a signal to the program. -/
def Delivers (t : TaskInner) (n i : Nat) : Prop := Gets t.takes n i ∧ kernelSig i = false ∧ t.handler i ≠ 0

instance (t : TaskInner) (n i : Nat) : Decidable (t.Delivers n i) := inferInstanceAs (Decidable (_ ∧ _ ∧ _))

/-- The record after the delivery of a signal. -/
structure Turned (t : TaskInner) (i : Nat) (t' : TaskInner) : Prop where
  mask : ∃ action, t.signalActions[i]? = some action ∧ t'.signalMask = action.mask ∧
    t'.trapCx = { t.trapCx.setA0 i with sepc := action.handler }
  handlingSig : t'.handlingSig = i
  backup : t'.trapCtxBackup = some t.trapCx
  log : t'.log = t.log ++ [.delivered i t.trapCx]

/-- What a delivery changes has not changed. -/
structure Straight (t t' : TaskInner) : Prop where
  mask : t'.signalMask = t.signalMask
  handlingSig : t'.handlingSig = t.handlingSig
  backup : t'.trapCtxBackup = t.trapCtxBackup
  trapCx : t'.trapCx = t.trapCx
  log : t'.log = t.log

/-- The record after a scan from `n` on. -/
structure Scanned (n : Nat) (t t' : TaskInner) : Prop where
  killed : t'.killed = true ↔ t.killed = true ∨ Gets t.takes n 0 ∨ Gets t.takes n 9
  frozen : t'.frozen = true ↔ Gets t.takes n 19 ∨ (t.frozen = true ∧ ¬Gets t.takes n 18)
  signals : ∀ i < 32, t'.signals.has i = true ↔
    t.signals.has i = true ∧ ¬(((i = 18 ∨ i = 19) ∧ Gets t.takes n i) ∨ t.Delivers n i)
  actions : t'.signalActions = t.signalActions
  control : t'.control = t.control
  delivery : (∃ i < 32, t.Delivers n i ∧ t.Turned i t') ∨ ((∀ i < 32, ¬t.Delivers n i) ∧ t.Straight t')

theorem Straight.takes (h : t.Straight t') (ha : t'.signalActions = t.signalActions)
    (hs : t'.signals.has i = t.signals.has i) : t'.takes i = t.takes i := by
  unfold TaskInner.takes excluded
  rw [hs, h.mask, h.handlingSig, ha]

theorem handler_congr (ha : t'.signalActions = t.signalActions) (i : Nat) : t'.handler i = t.handler i := by
  unfold handler
  rw [ha]

/-- What the kernel's handling of a signal does. -/
structure Handled (n : Nat) (t t' : TaskInner) : Prop where
  killed : t'.killed = true ↔ t.killed = true ∨ n = 0 ∨ n = 9
  frozen : t'.frozen = true ↔ n = 19 ∨ (t.frozen = true ∧ n ≠ 18)
  signals : ∀ i, t'.signals.has i = true ↔ t.signals.has i = true ∧ ¬((i = 18 ∨ i = 19) ∧ i = n)
  actions : t'.signalActions = t.signalActions
  control : t'.control = t.control
  straight : t.Straight t'

theorem callKernelSignalHandler_wlp (hk : kernelSig n = true) (hn : t.signals.has n = true) :
    (callKernelSignalHandler (ofSignum (UInt32.ofNat n))).wlp (fun _ t' => Handled n t t') t := by
  have hclear : ∀ {j i}, j < 32 → t.signals.has j = true →
      ((t.signals ^^^ ofSignum (UInt32.ofNat j)).has i = true ↔ t.signals.has i = true ∧ i ≠ j) := by
    intro j i hj hhas
    rw [has_xor hj]
    by_cases hij : j = i
    · subst hij
      simp [hhas]
    · simp [hij, Ne.symm hij]
  have hcases : n = 0 ∨ n = 9 ∨ n = 18 ∨ n = 19 := by simpa [kernelSig] using hk
  rcases hcases with rfl | rfl | rfl | rfl
  · rw [callKernelSignalHandler, if_neg (by decide), if_neg (by decide), Comp.wlp_modify]
    refine ⟨by simp, by simp, fun i => ?_, rfl, rfl, ⟨rfl, rfl, rfl, rfl, rfl⟩⟩
    exact (and_iff_left fun hc => by omega).symm
  · rw [callKernelSignalHandler, if_neg (by decide), if_neg (by decide), Comp.wlp_modify]
    refine ⟨by simp, by simp, fun i => ?_, rfl, rfl, ⟨rfl, rfl, rfl, rfl, rfl⟩⟩
    exact (and_iff_left fun hc => by omega).symm
  · have hcont : contains t.signals SIGCONT = true := (contains_ofSignum (i := 18) (by decide)).trans hn
    rw [callKernelSignalHandler, if_neg (by decide), if_pos (by decide), Comp.wlp_bind, Comp.wlp_get, if_pos hcont,
      Comp.wlp_modify]
    refine ⟨by simp, by simp, fun i => ?_, rfl, rfl, ⟨rfl, rfl, rfl, rfl, rfl⟩⟩
    rw [show SIGCONT = ofSignum (UInt32.ofNat 18) by decide, hclear (by decide) hn]
    exact and_congr_right fun _ => by omega
  · rw [callKernelSignalHandler, if_pos (by decide), Comp.wlp_modify]
    refine ⟨by simp, by simp, fun i => ?_, rfl, rfl, ⟨rfl, rfl, rfl, rfl, rfl⟩⟩
    rw [show SIGSTOP = ofSignum (UInt32.ofNat 19) by decide, hclear (by decide) hn]
    exact and_congr_right fun _ => by omega

/-- A kernel signal on the way. -/
theorem Scanned.kernel {t₁ : TaskInner} (hn : n < 32) (ht : t.takes n = true) (hk : kernelSig n = true)
    (h₁ : Handled n t t₁) (h : Scanned (n + 1) t₁ t') : Scanned n t t' := by
  have htakes : ∀ u, n + 1 ≤ u → t₁.takes u = t.takes u := by
    intro u hu
    refine h₁.straight.takes h₁.actions ?_
    rw [Bool.eq_iff_iff, h₁.signals]
    exact and_iff_left fun hc => absurd hc.2 (by omega)
  have hgets : ∀ i, Gets t.takes n i ↔ i = n ∨ Gets t₁.takes (n + 1) i := by
    intro i
    rw [gets_kernel ht hk, gets_congr htakes]
  have hdelivers : ∀ i, t.Delivers n i ↔ t₁.Delivers (n + 1) i := by
    intro i
    unfold Delivers
    rw [hgets, handler_congr h₁.actions]
    constructor
    · rintro ⟨rfl | hg, hu, hh⟩
      · exact absurd hk (by rw [hu]; exact Bool.false_ne_true)
      · exact ⟨hg, hu, hh⟩
    · rintro ⟨hg, hu, hh⟩
      exact ⟨Or.inr hg, hu, hh⟩
  have hcases : n = 0 ∨ n = 9 ∨ n = 18 ∨ n = 19 := by simpa [kernelSig] using hk
  have hlate : ∀ i, Gets t₁.takes (n + 1) i → n + 1 ≤ i := fun i hg => hg.1
  refine ⟨?_, ?_, ?_, h.actions.trans h₁.actions, h.control.trans h₁.control, ?_⟩
  · rw [h.killed, h₁.killed, hgets 0, hgets 9, or_assoc, @eq_comm _ 0 n, @eq_comm _ 9 n]
    grind
  · rw [h.frozen, h₁.frozen, hgets 18, hgets 19, @eq_comm _ 18 n, @eq_comm _ 19 n]
    have h18 := hlate 18
    have h19 : n = 19 → ¬Gets t₁.takes (n + 1) 18 := by
      intro hc hg
      have := hlate 18 hg
      omega
    grind
  · intro i hi
    rw [h.signals i hi, h₁.signals i, hgets i, hdelivers i]
    grind
  · rcases h.delivery with ⟨i, hi, hd, hturn⟩ | ⟨hno, hst⟩
    · refine Or.inl ⟨i, hi, (hdelivers i).mpr hd, ?_⟩
      obtain ⟨⟨action, ha, hm, hcx⟩, hsig, hb, hlog⟩ := hturn
      rw [h₁.straight.trapCx] at hcx hb hlog
      rw [h₁.straight.log] at hlog
      exact ⟨⟨action, h₁.actions ▸ ha, hm, hcx⟩, hsig, hb, hlog⟩
    · refine Or.inr ⟨fun i hi hd => hno i hi ((hdelivers i).mp hd), ?_⟩
      have h₀ := h₁.straight
      exact ⟨hst.mask.trans h₀.mask, hst.handlingSig.trans h₀.handlingSig, hst.backup.trans h₀.backup,
        hst.trapCx.trans h₀.trapCx, hst.log.trans h₀.log⟩

/-- A signal that is not taken. -/
theorem Scanned.skip (ht : t.takes n = false) (h : Scanned (n + 1) t t') : Scanned n t t' := by
  have hgets : ∀ i, Gets t.takes n i ↔ Gets t.takes (n + 1) i := fun i => gets_skip ht
  have hdelivers : ∀ i, t.Delivers n i ↔ t.Delivers (n + 1) i := by
    intro i
    unfold Delivers
    rw [hgets]
  refine ⟨?_, ?_, ?_, h.actions, h.control, ?_⟩
  · rw [h.killed, hgets, hgets]
  · rw [h.frozen, hgets, hgets]
  · intro i hi
    rw [h.signals i hi, hgets, hdelivers]
  · simp only [hdelivers]
    exact h.delivery

theorem callUserSignalHandler_wlp (hn : n < 32) (ht : t.takes n = true) (hk : kernelSig n = false) :
    (callUserSignalHandler n (ofSignum (UInt32.ofNat n))).wlp (fun _ t' => Scanned n t t') t := by
  have hgets : ∀ i, Gets t.takes n i ↔ i = n := fun i => gets_user ht hk
  have hne : ∀ {i}, kernelSig i = true → ¬Gets t.takes n i := by
    intro i hi hg
    rw [(hgets i).mp hg, hk] at hi
    exact Bool.false_ne_true hi
  have hhas : t.signals.has n = true := by
    rw [takes, Bool.and_eq_true, Bool.and_eq_true] at ht
    exact ht.1.1
  unfold callUserSignalHandler
  simp only [Comp.wlp_bind, Comp.wlp_get, Comp.wlp_unwrap]
  intro action ha
  have hhandler : t.handler n = action.handler := by
    unfold handler
    rw [ha]
    rfl
  split
  · next hh =>
    rw [Comp.wlp_modify]
    have hd : ∀ i, t.Delivers n i ↔ i = n := by
      intro i
      unfold Delivers
      rw [hgets]
      constructor
      · exact fun h => h.1
      · rintro rfl
        exact ⟨rfl, hk, hhandler ▸ hh⟩
    refine ⟨?_, ?_, ?_, rfl, rfl, Or.inl ⟨n, hn, (hd n).mpr rfl, ⟨⟨action, ha, rfl, rfl⟩, rfl, rfl, rfl⟩⟩⟩
    · simp [hne (i := 0) (by decide), hne (i := 9) (by decide)]
    · simp [hne (i := 18) (by decide), hne (i := 19) (by decide)]
    · intro i hi
      show (t.signals ^^^ ofSignum (UInt32.ofNat n)).has i = true ↔ _
      rw [has_xor hn, hd, hgets]
      by_cases hin : n = i
      · subst hin
        simp [hhas]
      · simp [hin, Ne.symm hin]
  · next hh =>
    rw [Comp.wlp_pure]
    have hno : ∀ i, ¬t.Delivers n i := by
      rintro i ⟨hg, _, hh'⟩
      rw [(hgets i).mp hg, hhandler] at hh'
      exact hh hh'
    refine ⟨?_, ?_, ?_, rfl, rfl, Or.inr ⟨fun i _ => hno i, ⟨rfl, rfl, rfl, rfl, rfl⟩⟩⟩
    · simp [hne (i := 0) (by decide), hne (i := 9) (by decide)]
    · simp [hne (i := 18) (by decide), hne (i := 19) (by decide)]
    · intro i hi
      have hnk : ¬((i = 18 ∨ i = 19) ∧ Gets t.takes n i) := by
        rintro ⟨rfl | rfl, hg⟩
        · exact hne (by decide) hg
        · exact hne (by decide) hg
      simp [hno i, hnk]

/-- **The loop.** -/
theorem checkPendingLoop_wlp (m : Nat) (hnm : n + m = 32) :
    (checkPendingLoop (List.range' n m)).wlp (fun _ t' => Scanned n t t') t := by
  induction m generalizing n t with
  | zero =>
    rw [List.range'_zero, checkPendingLoop, Comp.wlp_pure]
    have hno : ∀ {i}, i < 32 → ¬Gets t.takes n i := fun hi hg => absurd hg.1 (by omega)
    refine ⟨?_, ?_, ?_, rfl, rfl, Or.inr ⟨fun i hi hd => hno hi hd.1, ⟨rfl, rfl, rfl, rfl, rfl⟩⟩⟩
    · simp [hno (i := 0) (by decide), hno (i := 9) (by decide)]
    · simp [hno (i := 18) (by decide), hno (i := 19) (by decide)]
    · intro i hi
      simp [hno hi, Delivers]
  | succ m ih =>
    have hn : n < 32 := by omega
    have hrest : ∀ {t₁ : TaskInner}, (checkPendingLoop (List.range' (n + 1) m)).wlp
        (fun _ t' => Scanned (n + 1) t₁ t') t₁ := ih (by omega)
    rw [List.range'_succ, checkPendingLoop]
    simp only [Comp.wlp_bind, Comp.wlp_get, contains_ofSignum hn]
    split
    · next hpend =>
      have hgo : ∀ b, b = t.excluded n → (if b = true then checkPendingLoop (List.range' (n + 1) m)
          else if Kernel.isKernelSignal (ofSignum (UInt32.ofNat n)) = true then do
            callKernelSignalHandler (ofSignum (UInt32.ofNat n))
            checkPendingLoop (List.range' (n + 1) m)
          else callUserSignalHandler n (ofSignum (UInt32.ofNat n))).wlp (fun _ t' => Scanned n t t') t := by
        rintro b rfl
        split
        · next hex =>
          have ht : t.takes n = false := by simp [takes, hex]
          exact hrest.mono fun _ _ h => h.skip ht
        · next hex =>
          have ht : t.takes n = true := by simp [takes, hpend.1, hpend.2, hex]
          rw [isKernelSignal_ofSignum hn]
          split
          · next hk =>
            rw [Comp.wlp_bind]
            refine (callKernelSignalHandler_wlp hk hpend.1).mono fun _ t₂ h₁ => ?_
            exact hrest.mono fun _ _ h => h.kernel hn ht hk h₁
          · next hk => exact callUserSignalHandler_wlp hn ht (Bool.eq_false_iff.mpr hk)
      split
      · next hnone =>
        rw [Comp.wlp_bind, Comp.wlp_pure]
        exact hgo false (by simp [excluded, hnone])
      · next hsome =>
        simp only [Comp.wlp_bind, Comp.wlp_unwrap, Comp.wlp_pure]
        intro action ha
        exact hgo _ (by simp [excluded, hsome, ha])
    · next hpend =>
      have ht : t.takes n = false := by
        rw [takes]
        cases hs : t.signals.has n with
        | false => simp
        | true => simp [hs] at hpend; simp [hpend]
      exact hrest.mono fun _ _ h => h.skip ht

/-- **What `check_pending_signals` does.** -/
theorem checkPendingSignals_wlp (t : TaskInner) : checkPendingSignals.wlp (fun _ t' => Scanned 0 t t') t := by
  rw [checkPendingSignals, List.range_eq_range']
  exact checkPendingLoop_wlp 32 rfl

end TaskInner

end RCore.Task
