import RCore.Mm.Verify.UserStruct
import RCore.Task.Verify.MemorySteps

/-!
# Structures by address

`sys_get_time`, `sys_fstat` and `sys_sigaction` reach a structure of the user through the address of its first
byte. Where that is right, for what they store and for the action that `sys_sigaction` reads.
-/

namespace RCore.Task

open RCore Mm

namespace Kernel

variable {B : BinaryHeap} {L : Layout} {rest : List Nat} {s : Phys} {ms : MemorySet} {m : Mem} {k k' : Kernel B}
  {a p : Nat} {t : TaskControlBlock} {signum pad : UInt32} {action oldAction : Nat} {e e' : PageTableEntry}

/-! ## Actions in user memory -/

theorem length_actionBytes (old : SignalAction) (pad : UInt32) : (actionBytes old pad).length = 16 := by
  rw [actionBytes, List.length_append, List.length_append, leEncode_length, leEncode_length, leEncode_length]

/-- The number in `n` bytes of the user, on whatever pages. -/
def userWord (m : Mem) (ms : MemorySet) (p n : Nat) : Option Nat :=
  ((List.range n).mapM fun i => userByte m (PageTable.fromToken ms.token) (usizeAdd p i)).map leDecode

/-- The `SignalAction` at a virtual address. -/
def userAction (m : Mem) (ms : MemorySet) (p : Nat) : Option SignalAction := do
  let handler ← userWord m ms p 8
  let mask ← userWord m ms (usizeAdd p 8) 4
  return ⟨handler, UInt32.ofNat mask⟩

/-- The mask of an action whose last eight bytes are on the next page is the same there and in the frame behind
that of the page of `p`. -/
def MaskAlreadyThere (m : Mem) (ms : MemorySet) (p : Nat) : Prop :=
  ∃ e e', ms.translate m (pageOf p) = some e ∧ ms.translate m (nextPage p) = some e' ∧
    m.word 4 (e'.ppn * 4096) = m.word 4 ((e.ppn + 1) * 4096)

/-- Where the read of an action at the address of its first byte is right. -/
def ReadRight (m : Mem) (ms : MemorySet) (p : Nat) : Prop :=
  p % 4096 + 16 ≤ 4096 ∨ FramesFollow m ms p ∨ MaskAlreadyThere m ms p

/-- A number on one page. -/
theorem userWord_eq (h : Good L rest s ms) (he : ms.translate m (pageOf p) = some e) {n : Nat}
    (hfits : p % 4096 + n ≤ 4096) : userWord m ms p n = some (m.word n (e.ppn * 4096 + p % 4096)) := by
  have hbytes : (List.range n).mapM (fun i => userByte m (PageTable.fromToken ms.token) (usizeAdd p i)) =
      some (m.bytes (e.ppn * 4096 + p % 4096) n) := by
    apply mapM_some
    intro i hi
    rw [List.mem_range] at hi
    rw [userByte, h.translateVa_first he (by omega), Option.map_some, Nat.add_assoc]
  rw [userWord, hbytes]
  rfl

/-- A number on a page that is not mapped. -/
theorem userWord_none (h : Good L rest s ms) (hnone : ms.translate m (pageOf p) = none) (n : Nat) :
    userWord m ms p (n + 1) = none := by
  have hbyte : userByte m (PageTable.fromToken ms.token) (usizeAdd p 0) = none := by
    have hpage : (VirtAddr.ofUsize (usizeAdd p 0)).floor = pageOf p := by
      apply pageOf_first
      omega
    rw [userByte, h.translateVa_eq, hpage, hnone]
    rfl
  rw [userWord, List.range_succ_eq_map, List.mapM_cons, hbyte]
  rfl

/-- An action on one page. -/
theorem userAction_fits (h : Good L rest s ms) (he : ms.translate m (pageOf p) = some e)
    (hfits : p % 4096 + 16 ≤ 4096) : userAction m ms p = some (readAction m (e.ppn * 4096 + p % 4096)) := by
  have hpage : pageOf (usizeAdd p 8) = pageOf p := pageOf_first (by omega)
  have hoff : usizeAdd p 8 % 4096 = p % 4096 + 8 := by
    unfold usizeAdd
    omega
  rw [userAction, userWord_eq h he (by omega), userWord_eq h (hpage ▸ he) (by omega), hoff, ← Nat.add_assoc]
  rfl

/-- **When the read of an action at the address of its first byte is right.** -/
theorem userAction_iff (h : Good L rest s ms) (he : ms.translate m (pageOf p) = some e) (halign : p % 8 = 0) :
    userAction m ms p = some (readAction m (e.ppn * 4096 + p % 4096)) ↔ ReadRight m ms p := by
  by_cases hfits : p % 4096 + 16 ≤ 4096
  · exact iff_of_true (userAction_fits h he hfits) (Or.inl hfits)
  · have hhandler : userWord m ms p 8 = some (m.word 8 (e.ppn * 4096 + p % 4096)) := userWord_eq h he (by omega)
    rw [userAction, hhandler]
    simp only [Option.bind_eq_bind, Option.bind_some]
    have hpage : pageOf (usizeAdd p 8) = nextPage p := pageOf_next (by omega) (by omega)
    have hoff : usizeAdd p 8 % 4096 = 0 := by
      unfold usizeAdd
      omega
    have hbehind : e.ppn * 4096 + p % 4096 + 8 = (e.ppn + 1) * 4096 := by omega
    cases hnext : ms.translate m (nextPage p) with
    | none =>
      rw [userWord_none h (hpage ▸ hnext)]
      refine iff_of_false (fun hc => by cases hc) ?_
      rintro (hc | ⟨d, d', -, hd', -⟩ | ⟨d, d', -, hd', -⟩)
      · exact hfits hc
      · rw [hnext] at hd'
        cases hd'
      · rw [hnext] at hd'
        cases hd'
    | some e' =>
      rw [userWord_eq h (hpage ▸ hnext) (by omega), hoff, Nat.add_zero, readAction, hbehind]
      simp only [Option.bind_some]
      have hlt : ∀ x, m.word 4 x < UInt32.size := fun x => Mem.word_lt m 4 x
      constructor
      · intro hsame
        have hmask := congrArg (fun a => a.mask.toNat) (Option.some.inj hsame)
        simp only at hmask
        rw [UInt32.toNat_ofNat_of_lt' (hlt _), UInt32.toNat_ofNat_of_lt' (hlt _)] at hmask
        exact Or.inr (Or.inr ⟨e, e', he, hnext, hmask⟩)
      · rintro (hc | ⟨d, d', hd, hd', hfollow⟩ | ⟨d, d', hd, hd', hmask⟩)
        · exact absurd hc hfits
        · cases he.symm.trans hd
          cases hnext.symm.trans hd'
          rw [hfollow]
          rfl
        · cases he.symm.trans hd
          cases hnext.symm.trans hd'
          rw [hmask]
          rfl

/-! ## `sys_sigaction` -/

/-- The memory when `sys_sigaction` reads the new action: the old one has been stored, if it was ever set. -/
def oldStored (m : Mem) (ms : MemorySet) (old : SignalAction) (oldAction : Nat) (pad : UInt32) : Mem :=
  match ms.translate m (pageOf oldAction) with
  | some e => if old.mask ≠ 40 then m.write (e.ppn * 4096 + oldAction % 4096) (actionBytes old pad) else m
  | none => m

/-- What `sys_sigaction` of the task `t` at `a` has stored and installed when it returns 0. -/
def Installed (k : Kernel B) (a : Nat) (t : TaskControlBlock) (signum : UInt32) (action oldAction : Nat) (pad : UInt32)
    (k' : Kernel B) : Prop :=
  ∃ old e e', t.signalActions[signum.toNat]? = some old ∧
    t.memorySet.translate k.phys.mem (pageOf oldAction) = some e ∧
    k'.phys.mem = oldStored k.phys.mem t.memorySet old oldAction pad ∧
    t.memorySet.translate k'.phys.mem (pageOf action) = some e' ∧
    k'.tasks a = some { t with
      signalActions := t.signalActions.set signum.toNat (readAction k'.phys.mem (e'.ppn * 4096 + action % 4096)) }

theorem sysSigaction_installed (h : Good L rest k.phys t.memorySet) (hc : k.current = some a)
    (ht : k.tasks a = some t) : (sysSigaction signum action oldAction pad).wlp
      (fun r k' => r = 0 → Installed k a t signum action oldAction pad k') k := by
  rw [sysSigaction]
  simp only [Comp.wlp_bind, wlp_currentTask, wlp_task]
  intro b hb u hu
  have hab : b = a := Option.some.inj (hb.symm.trans hc)
  subst hab
  have htu : u = t := Option.some.inj (hu.symm.trans ht)
  subst htu
  split
  · rw [Comp.wlp_pure]
    intro hr
    cases hr
  split
  · rw [Comp.wlp_pure]
    intro hr
    cases hr
  simp only [Comp.wlp_bind, Comp.wlp_unwrap]
  intro old hold
  refine (onPhys_translatedRefmut h oldAction k).mono ?_
  rintro _ k ⟨rfl, e, he, rfl⟩
  change u.memorySet.translate k.phys.mem (pageOf oldAction) = some e at he
  -- what is left, once the old action has been stored or not
  have hrest : ∀ k₁ : Kernel B, k₁.phys.mem = oldStored k.phys.mem u.memorySet old oldAction pad → (do
      let pa ← onPhys (translatedRefmut u.memorySet.token action)
      let k ← Comp.get
      let a' := readAction k.phys.mem pa
      setTask b { u with signalActions := u.signalActions.set signum.toNat a' }
      pure (0 : Int)).wlp (fun r k' => r = 0 → Installed k b u signum action oldAction pad k') k₁ := by
    intro k₁ hmem
    rw [Comp.wlp_bind]
    refine (onPhys_translatedRefmut h action k₁).mono ?_
    rintro _ k₁ ⟨rfl, e', he', rfl⟩
    simp only [Comp.wlp_bind, Comp.wlp_get, wlp_setTask, Comp.wlp_pure]
    intro _
    exact ⟨old, e, e', hold, he, hmem, he', Function.update_self b _ _⟩
  split
  · next hset =>
    rw [Comp.wlp_bind, wlp_storePhys]
    apply hrest
    rw [oldStored, he]
    exact (if_pos hset).symm
  · next hset =>
    apply hrest
    rw [oldStored, he]
    exact (if_neg hset).symm

/-! ## When structures are right -/

/-- The structures that `sys_sigaction` writes and reads. -/
theorem sysSigaction_structures (h : Good L rest s ms) (hfr : ms.Framed) (hphys : k.phys = s) (hc : k.current = some a)
    (ht : k.tasks a = some t) (hms : t.memorySet = ms) (halign : action % 8 = 0)
    (hmapped : MappedAt s.mem ms oldAction 16)
    (hrun : (sysSigaction signum action oldAction pad).run k = some (0, k')) :
    ∃ old new, t.signalActions[signum.toNat]? = some old ∧
      k'.tasks a = some { t with signalActions := t.signalActions.set signum.toNat new } ∧
      (old.mask ≠ 40 → (CopiedOut s.mem k'.phys.mem ms oldAction (actionBytes old pad) ↔
        StoredRight s.mem ms oldAction (actionBytes old pad))) ∧
      (old.mask = 40 → k'.phys.mem = s.mem) ∧
      (userAction k'.phys.mem ms action = some new ↔ ReadRight (oldStored s.mem ms old oldAction pad) ms action) := by
  subst hphys hms
  obtain ⟨old, e, e', hold, he, hmem, he', htask⟩ := sysSigaction_installed h hc ht _ _ hrun rfl
  have hlen : (actionBytes old pad).length = 16 := length_actionBytes old pad
  refine ⟨old, _, hold, htask, fun hset => ?_, fun hunset => ?_, ?_⟩
  · rw [hmem, oldStored, he]
    simp only [hset, ne_eq, not_false_iff, if_true]
    exact copiedOut_store_iff h hfr (hlen.symm ▸ hmapped) (by omega) he
  · rw [hmem, oldStored, he]
    simp only [hunset, ne_eq, not_true, if_false]
  · rw [← hmem]
    exact userAction_iff h he' halign

end Kernel

/-- **When the structures of a system call are right.** `sys_get_time` and `sys_fstat` that return 0, and
`sys_sigaction` for the old action, have stored the structure at the virtual addresses, and nothing else, exactly if
it ends on the page it starts on, or the next page's frame follows in physical memory, or nothing behind the page
had to change. `sys_sigaction` installs the action at the virtual addresses exactly under the same condition on the
mask of the action. -/
theorem structures_by_address_iff {L : Layout} {rest : List Nat} {s : Phys} {ms : MemorySet}
    (hu : UserSpace L rest s ms) :
    (∀ fuel p us s', MappedAt s.mem ms p 16 → (sysGetTime fuel ms.token p us).run s = some (some 0, s') →
      (CopiedOut s.mem s'.mem ms p (TimeVal.asBytes ⟨us / 1000000, us % 1000000⟩) ↔
        StoredRight s.mem ms p (TimeVal.asBytes ⟨us / 1000000, us % 1000000⟩))) ∧
    (∀ (File : Type) (fdTable : List (Option File)) (fstat : File → Stat) fuel fd p s', MappedAt s.mem ms p 80 →
      (sysFstat fdTable fstat fuel ms.token fd p).run s = some (some 0, s') →
      ∃ file, fdTable[fd]? = some (some file) ∧
        (CopiedOut s.mem s'.mem ms p (fstat file).asBytes ↔ StoredRight s.mem ms p (fstat file).asBytes)) ∧
    (∀ (B : BinaryHeap) (k k' : Kernel B) a t signum action oldAction pad, k.phys = s → k.current = some a →
      k.tasks a = some t → t.memorySet = ms → action % 8 = 0 → MappedAt s.mem ms oldAction 16 →
      (Kernel.sysSigaction signum action oldAction pad).run k = some (0, k') →
      ∃ old new, t.signalActions[signum.toNat]? = some old ∧
        k'.tasks a = some { t with signalActions := t.signalActions.set signum.toNat new } ∧
        (old.mask ≠ 40 → (CopiedOut s.mem k'.phys.mem ms oldAction (Kernel.actionBytes old pad) ↔
          StoredRight s.mem ms oldAction (Kernel.actionBytes old pad))) ∧
        (old.mask = 40 → k'.phys.mem = s.mem) ∧
        (Kernel.userAction k'.phys.mem ms action = some new ↔
          Kernel.ReadRight (Kernel.oldStored s.mem ms old oldAction pad) ms action)) := by
  obtain ⟨h, hfr⟩ := hu.good
  refine ⟨fun fuel p us s' hmapped hrun => ?_, fun File fdTable fstat fuel fd p s' hmapped hrun => ?_, ?_⟩
  · obtain ⟨e, he, hmem⟩ := sysGetTime_stored h hrun
    have hlen : (TimeVal.asBytes ⟨us / 1000000, us % 1000000⟩).length = 16 := length_timeVal _
    rw [hmem]
    exact copiedOut_store_iff h hfr (hlen.symm ▸ hmapped) (by omega) he
  · obtain ⟨file, e, hfile, he, hmem⟩ := sysFstat_stored h hrun
    have hlen : (fstat file).asBytes.length = 80 := length_stat _
    refine ⟨file, hfile, ?_⟩
    rw [hmem]
    exact copiedOut_store_iff h hfr (hlen.symm ▸ hmapped) (by omega) he
  · intro B k k' a t signum action oldAction pad hphys hc ht hms halign hmapped hrun
    exact Kernel.sysSigaction_structures h hfr hphys hc ht hms halign hmapped hrun

/-- On one page, all is well. -/
theorem structures_by_address_inside : ∃ s ms s', UserSpace smallKernel [] s ms ∧
    (sysGetTime 2 ms.token 0x12000 5000000).run s = some (some 0, s') ∧
    CopiedOut s.mem s'.mem ms 0x12000 (TimeVal.asBytes ⟨5, 0⟩) := by
  obtain ⟨s, ms, hu, h⟩ := exists_loaded
  have hpage : ∀ a, 0x12000 ≤ a → a < 0x12000 + 16 →
      (PageTable.fromToken ms.token).translate s.mem (pageOf a) ≠ none := by
    intro a ha halt
    refine h.mapped hu.good.2 (p := (0x12, 0x14)) (by decide) ?_
    show 0x12 ≤ a % 2 ^ 39 / 4096 ∧ a % 2 ^ 39 / 4096 < 0x14
    omega
  have hmapped : MappedAt s.mem ms 0x12000 16 := by
    intro i hi
    have haddr : usizeAdd 0x12000 i = 0x12000 + i := Nat.mod_eq_of_lt (by omega)
    rw [haddr, ← hu.good.1.translate_token]
    exact hpage _ (by omega) (by omega)
  obtain ⟨s', hrun⟩ := sysGetTime_returns (by decide) hpage
  refine ⟨s, ms, s', hu, hrun, ?_⟩
  exact ((structures_by_address_iff hu).1 2 0x12000 5000000 s' hmapped hrun).mpr
    (Or.inl (by rw [length_timeVal]; decide))

/-- Across the two pages of a stack on frames that do not follow each other: the second half of the time goes to
another frame, and the program still reads 1 there. -/
theorem sysGetTime_not_copied : ∃ s ms s', UserSpace smallKernel oddFrames s ms ∧ MappedAt s.mem ms 0x12ff8 16 ∧
    (sysGetTime 2 ms.token 0x12ff8 5000000).run s = some (some 0, s') ∧
    ¬CopiedOut s.mem s'.mem ms 0x12ff8 (TimeVal.asBytes ⟨5, 0⟩) := by
  obtain ⟨s, ms, e, e', hu, he, he', hapart, hone⟩ := exists_scattered
  obtain ⟨h, hfr⟩ := hu.good
  have hmapped : MappedAt s.mem ms 0x12ff8 16 := by
    intro i hi
    by_cases hlt : i < 8
    · rw [pageOf_first (by omega)]
      exact fun hc => by cases hc.symm.trans he
    · rw [pageOf_next (by omega) (by omega)]
      exact fun hc => by cases hc.symm.trans he'
  have hpage : ∀ a, 0x12ff8 ≤ a → a < 0x12ff8 + 16 →
      (PageTable.fromToken ms.token).translate s.mem (pageOf a) ≠ none := by
    intro a ha halt
    have haddr : usizeAdd 0x12ff8 (a - 0x12ff8) = a := by
      unfold usizeAdd
      omega
    rw [h.translate_token, ← haddr]
    exact hmapped _ (by omega)
  obtain ⟨s', hrun⟩ := sysGetTime_returns (by decide) hpage
  refine ⟨s, ms, s', hu, hmapped, hrun, ?_⟩
  obtain ⟨d, hd, hmem⟩ := sysGetTime_stored h hrun
  have htime : TimeVal.asBytes ⟨5000000 / 1000000, 5000000 % 1000000⟩ = TimeVal.asBytes ⟨5, 0⟩ := by decide
  have hlen : (TimeVal.asBytes ⟨5, 0⟩).length = 16 := length_timeVal _
  rw [htime] at hmem
  rw [hmem, copiedOut_store_iff h hfr (hlen.symm ▸ hmapped) (by omega) hd]
  rintro (hc | ⟨d, d', hd, hd', hfollow⟩ | ⟨d, d', hd, hd', hthere⟩)
  · omega
  · cases he.symm.trans hd
    cases he'.symm.trans hd'
    exact hapart hfollow
  · cases he'.symm.trans hd'
    have hbehind : 4096 - 0x12ff8 % 4096 + 0 < (TimeVal.asBytes ⟨5, 0⟩).length := by omega
    have hsecond := List.getElem?_eq_getElem hbehind
    rw [← (hthere 0 hbehind).1, Nat.add_zero (e'.ppn * 4096), hone] at hsecond
    exact absurd hsecond (by decide)

end RCore.Task
