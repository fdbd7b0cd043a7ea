import RCore.Task.Verify.MemorySteps

/-!
# New address spaces

`fork`, `exec` and the start of the kernel make an address space in a local variable and give it to a
task. Here too the memory stays in order, and the trap context of a child is its parent's but for the
two words that `fork` sets.
-/

namespace RCore.Task

open RCore Mm

/-- The task that `fork` makes of `t`, at `a`. -/
def TaskControlBlock.forked (t : TaskControlBlock) (a : Nat) (memorySet : MemorySet)
    (trapCxPpn pid kernelStack : Nat) : TaskControlBlock where
  pid := pid
  kernelStack := kernelStack
  trapCxPpn := trapCxPpn
  baseSize := t.baseSize
  priority := t.priority
  pass := t.pass
  ghostPass := t.ghostPass
  taskStatus := .ready
  memorySet := memorySet
  parent := some a
  children := []
  exitCode := 0
  signals := 0
  signalMask := t.signalMask
  handlingSig := -1
  signalActions := t.signalActions
  killed := false
  frozen := false
  trapCtxBackup := none

/-- The trap context at a physical address. -/
def readTrapContext (m : Mem) (pa : Nat) : TrapContext where
  x i := m.word 8 (pa + 8 * i.val)
  sstatus := m.word 8 (pa + 8 * 32)
  sepc := m.word 8 (pa + 8 * 33)
  kernelSatp := m.word 8 (pa + 8 * 34)
  kernelSp := m.word 8 (pa + 8 * 35)
  trapHandler := m.word 8 (pa + 8 * 36)

namespace Kernel

variable {B : BinaryHeap} {α : Type} {I : Image} {traps : Bool} {scraps : List Nat}
  {mine : List Holding} {k : Kernel B} {a : Nat} {t u : TaskControlBlock}

/-! ## Fork -/

/-- The frames of a task and of the others are all that are out. -/
theorem MemOk.outFrames_perm (hm : MemOk I traps scraps mine k) (ht : k.tasks a = some t)
    (hl : t.taskStatus ≠ .zombie) :
    (t.memorySet.owned ++ otherFrames traps scraps mine k a).Perm (outFrames traps scraps mine k) := by
  have hlt := hm.lt_next ht
  have hhusk := overTasks_task (g := TaskControlBlock.husk) hlt ht
  have hhold := overTasks_task (g := TaskControlBlock.holding traps) hlt ht
  rw [TaskControlBlock.husk_live hl, List.nil_append] at hhusk
  rw [TaskControlBlock.holding_live hl] at hhold
  refine (Estate.framesOf_cons _ _ ⟨t.memorySet, if traps then some t.trapCxPpn else none⟩ _).symm.trans ?_
  refine List.Perm.append_left _ (List.Perm.append ((hhusk.symm.append_left _).append_left _) ?_)
  exact (List.perm_middle.symm.trans (hhold.symm.append_left mine)).flatMap_right _

/-- The memory set of a child, as `fork` gets it. -/
theorem fromExistedUserspace_mem (hm : MemOk I traps scraps mine k) (ht : k.tasks a = some t)
    (hl : t.taskStatus ≠ .zombie) :
    (onPhys (MemorySet.fromExistedUserspace I.toLayout t.memorySet)).wlp (fun c k' =>
      ∃ p, k' = { k with phys := p } ∧
        Copying I.toLayout (otherFrames traps scraps mine k a) k.phys t.memorySet t.memorySet.areas p c ∧
        ∃ ppn, MemOk I traps scraps (⟨c, if traps then some ppn else none⟩ :: mine) k') k := by
  have hg := hm.goodTask ht hl
  have hok := hm.task_ok ht hl
  rw [wlp_onPhys]
  refine (fromExistedUserspace_wlp hg hok.framed).mono fun c p hcopy => ⟨p, rfl, hcopy, ?_⟩
  have hperm := hm.outFrames_perm ht hl
  have hsame := hcopy.keeps.same.mono hperm.symm.subset
  cases traps with
  | false =>
    refine ⟨0, hm.addMine (hcopy.child.perm hperm) hsame hcopy.framed ?_⟩
    intro ppn hp
    cases hp
  | true =>
    obtain ⟨ppn, hppn⟩ := hcopy.trapPage hg hok.framed (hok.trap _ rfl)
    refine ⟨ppn, hm.addMine (hcopy.child.perm hperm) hsame hcopy.framed ?_⟩
    intro ppn' hp
    cases hp
    exact hppn

/-- What `fork` of the task `t` leaves: the child `u`, and its trap context in the memory `m`. -/
structure Forked (k : Kernel B) (t : TaskControlBlock) (m : Mem) (u : TaskControlBlock) : Prop where
  status : u.taskStatus = .ready
  page : ∃ e, u.memorySet.translate m trapContextVpn = some e ∧ e.ppn = u.trapCxPpn
  bytes : ∃ e, t.memorySet.translate k.phys.mem trapContextVpn = some e ∧
    ∀ off, off < 4096 → off < 8 * 35 ∨ 8 * 35 + 8 ≤ off →
      m (u.trapCxPpn * 4096 + off) = k.phys.mem (e.ppn * 4096 + off)
  kernelSp : m.word 8 (u.trapCxPpn * 4096 + 8 * 35) = kernelStackTop u.kernelStack % 256 ^ 8

/-- The child of a copy, when its new kernel stack has been mapped and stored in its trap context. -/
theorem forked_of_copy {rest : List Nat} {c : MemorySet} {p p₁ : Phys}
    (hg : Good I.toLayout rest k.phys t.memorySet) (hfr : t.memorySet.Framed)
    (hcopy : Copying I.toLayout rest k.phys t.memorySet t.memorySet.areas p c)
    (hsame : SameOn c.owned p.mem p₁.mem) {e' : PageTableEntry}
    (he' : c.translate p₁.mem trapContextVpn = some e') (a pid stack : Nat) :
    Forked k t (p₁.mem.setWord 8 (e'.ppn * 4096 + 8 * 35) (kernelStackTop stack))
      (t.forked a c e'.ppn pid stack) := by
  have htables : c.translate p₁.mem trapContextVpn = c.translate p.mem trapContextVpn :=
    hcopy.child.owns.tables.translate_congr (hsame.mono (List.subset_append_left _ _)) _
  have htc : c.translate p.mem trapContextVpn = some e' := htables.symm.trans he'
  have hin : e'.ppn ∈ c.frames := hcopy.child.ppn_mem hcopy.framed (by decide) (by decide) htc
  refine ⟨rfl, ⟨e', ?_, rfl⟩, ?_, Mem.word_setWord_same _ _ _ _⟩
  · -- the store is not in a table of the child
    have hout : e'.ppn ∉ c.pageTable.frames := fun hc =>
      hcopy.child.frame_apart hin (List.mem_append_left _ hc)
    have hstore : SameOn c.pageTable.frames p.mem
        (p₁.mem.setWord 8 (e'.ppn * 4096 + 8 * 35) (kernelStackTop stack)) := by
      refine (hsame.mono (List.subset_append_left _ _)).trans (SameOn.write hout ?_ ?_ p₁.mem)
      · omega
      · rw [leEncode_length]
        omega
    rw [← htc]
    exact hcopy.child.owns.tables.translate_congr hstore _
  · have hflags := hcopy.flags hg hfr (v := trapContextVpn) (by decide)
    rw [htc, Option.map_some] at hflags
    obtain ⟨e, he, _⟩ := Option.map_eq_some_iff.mp hflags.symm
    refine ⟨e, he, fun off hoff hout => ?_⟩
    have hwrite : p₁.mem.setWord 8 (e'.ppn * 4096 + 8 * 35) (kernelStackTop stack)
        (e'.ppn * 4096 + off) = p₁.mem (e'.ppn * 4096 + off) := by
      apply Mem.write_of_not_mem
      rw [leEncode_length]
      omega
    show p₁.mem.setWord 8 _ _ (e'.ppn * 4096 + off) = _
    rw [hwrite, hsame e'.ppn (List.mem_append_right _ hin) _ (by omega)]
    exact hcopy.bytes trapContextVpn e e' (by decide) (by decide) he htc off hoff

theorem fork_mem (hm : MemOk I traps [] [] k) (ht : k.tasks a = some t) (hl : t.taskStatus ≠ .zombie) :
    (fork I a).wlp (fun c k' => (k'.phys.starved = true ∨ MemOk I traps [] [] k') ∧
      ∃ u, k'.tasks c = some u ∧ u.parent = some a ∧ c = k.next ∧ Forked k t k'.phys.mem u) k := by
  rw [fork, Comp.wlp_bind, wlp_task]
  intro t' ht'
  have htt : t' = t := Option.some.inj (ht'.symm.trans ht)
  subst htt
  rw [Comp.wlp_bind]
  refine (fromExistedUserspace_mem hm ht hl).mono ?_
  rintro c _ ⟨p, rfl, hcopy, ppn, hmine⟩
  rw [Comp.wlp_bind, wlp_pidAlloc, Comp.wlp_bind]
  have hmine' : MemOk I traps [] [⟨c, if traps then some ppn else none⟩] { k with
      phys := p, pidAllocator := k.pidAllocator.alloc.2 } := hmine.of_eq rfl rfl rfl rfl rfl
  have hmem : (⟨c, if traps then some ppn else none⟩ : Holding) ∈
      [⟨c, if traps then some ppn else none⟩] ++ overTasks (TaskControlBlock.holding traps) k.tasks k.next :=
    List.mem_cons_self
  refine (newKernelStack_mem hmine' _).mono ?_
  rintro stack k₁ ⟨hcase, p₁, ks, rfl, hsame⟩
  simp only [Comp.wlp_bind, wlp_trapCxPpnOf, wlp_storePhys, wlp_newTask, wlp_setTask, Comp.wlp_pure]
  intro e' he'
  have hne : a ≠ k.next := Nat.ne_of_lt (hm.lt_next ht)
  have hchild : SameOn c.owned p.mem p₁.mem :=
    hsame.mono fun f hf => List.mem_append_right _ (List.mem_flatMap.mpr ⟨_, hmem, hf⟩)
  refine ⟨hcase.imp_right fun hm₁ => ?_, t'.forked a c e'.ppn k.pidAllocator.alloc.1 stack,
    (Function.update_of_ne hne.symm _ _).trans (Function.update_self _ _ _), rfl, trivial,
    forked_of_copy (hm.goodTask ht hl) (hm.task_ok ht hl).framed hcopy hchild he' a _ stack⟩
  have hppn := (hm₁.estate.user _ hmem).trap_eq he'
  have hpa : (e'.ppn * 4096 + 8 * 35) / 4096 = e'.ppn := by omega
  have hfits : (e'.ppn * 4096 + 8 * 35) % 4096 + (leEncode 8 (kernelStackTop stack)).length ≤ 4096 := by
    rw [leEncode_length]
    omega
  have hm₂ := hm₁.store hmem he' hpa hfits
  rw [hppn] at hm₂
  have hm₃ := MemOk.newTask (t := t'.forked a c e'.ppn k.pidAllocator.alloc.1 stack) hm₂
    (fun h => by cases h) rfl
  exact hm₃.setTask (u := { t' with children := t'.children ++ [k.next] })
    ((Function.update_of_ne hne _ _).trans ht) ⟨rfl, rfl, Iff.rfl, fun _ => Or.inl⟩

/-- The words of the trap context of a child, when `sys_fork` has set its return value. -/
theorem Forked.readTrapContext {m : Mem} (h : Forked k t m u) :
    ∃ e, t.memorySet.translate k.phys.mem trapContextVpn = some e ∧
      Task.readTrapContext (m.setWord 8 (u.trapCxPpn * 4096 + 8 * 10) 0) (u.trapCxPpn * 4096) =
        { Task.readTrapContext k.phys.mem (e.ppn * 4096) with
          x := Function.update (Task.readTrapContext k.phys.mem (e.ppn * 4096)).x 10 0
          kernelSp := kernelStackTop u.kernelStack % 2 ^ 64 } := by
  obtain ⟨e, he, hbytes⟩ := h.bytes
  refine ⟨e, he, ?_⟩
  -- every other word is copied
  have hword : ∀ i, i < 37 → i ≠ 10 → i ≠ 35 →
      (m.setWord 8 (u.trapCxPpn * 4096 + 8 * 10) 0).word 8 (u.trapCxPpn * 4096 + 8 * i) =
        k.phys.mem.word 8 (e.ppn * 4096 + 8 * i) := by
    intro i hi h10 h35
    rw [Mem.word_setWord_of_disjoint (by omega)]
    apply Mem.word_congr
    intro j hj
    have := hbytes (8 * i + j) (by omega) (by omega)
    rw [← Nat.add_assoc, ← Nat.add_assoc] at this
    exact this
  have hpow : 256 ^ 8 = 2 ^ 64 := by decide
  have hsp : (m.setWord 8 (u.trapCxPpn * 4096 + 8 * 10) 0).word 8 (u.trapCxPpn * 4096 + 8 * 35) =
      kernelStackTop u.kernelStack % 2 ^ 64 := by
    rw [Mem.word_setWord_of_disjoint (by omega), h.kernelSp, hpow]
  unfold Task.readTrapContext
  rw [TrapContext.mk.injEq]
  refine ⟨?_, ?_, ?_, ?_, hsp, ?_⟩
  · funext i
    by_cases hi : i = 10
    · subst hi
      rw [Function.update_self]
      show (m.setWord 8 _ 0).word 8 (u.trapCxPpn * 4096 + 8 * 10) = 0
      rw [Mem.word_setWord_same, Nat.zero_mod]
    · rw [Function.update_of_ne hi]
      have hne : i.val ≠ 10 := fun hc => hi (Fin.ext hc)
      exact hword i.val (by omega) hne (by omega)
  · exact hword 32 (by decide) (by decide) (by decide)
  · exact hword 33 (by decide) (by decide) (by decide)
  · exact hword 34 (by decide) (by decide) (by decide)
  · exact hword 36 (by decide) (by decide) (by decide)

/-- What `sys_fork` of the task `t` leaves at the address of the child. -/
def ForkedAt (k : Kernel B) (t : TaskControlBlock) (k' : Kernel B) : Prop :=
  ∃ u e, k'.tasks k.next = some u ∧ t.memorySet.translate k.phys.mem trapContextVpn = some e ∧
    Task.readTrapContext k'.phys.mem (u.trapCxPpn * 4096) =
      { Task.readTrapContext k.phys.mem (e.ppn * 4096) with
        x := Function.update (Task.readTrapContext k.phys.mem (e.ppn * 4096)).x 10 0
        kernelSp := kernelStackTop u.kernelStack % 2 ^ 64 }

theorem sysFork_mem (hm : Calm I traps k) : (sysFork I).wlp (fun _ k' =>
    (k'.phys.starved = true ∨ MemOk I traps [] [] k') ∧
      ∃ a t, k.current = some a ∧ k.tasks a = some t ∧ ForkedAt k t k') k := by
  rw [sysFork, Comp.wlp_bind, wlp_currentTask]
  intro a hc
  rw [Comp.wlp_bind]
  cases ht : k.tasks a with
  | none =>
    rw [fork, Comp.wlp_bind, wlp_task]
    intro t ht'
    rw [ht] at ht'
    cases ht'
  | some t =>
    refine (fork_mem hm.mem ht (hm.live a t hc ht)).mono ?_
    rintro c k₁ ⟨hcase, u, hu, _, rfl, hF⟩
    simp only [Comp.wlp_bind, wlp_task, wlp_storePhys, Comp.wlp_pure]
    intro u' hu'
    have huu : u' = u := Option.some.inj (hu'.symm.trans hu)
    subst huu
    have hl : u'.taskStatus ≠ .zombie := by
      rw [hF.status]
      decide
    obtain ⟨e', he', hppn⟩ := hF.page
    obtain ⟨e, he, hread⟩ := hF.readTrapContext
    have hkept := addTask_kept k.next { k₁ with phys := { k₁.phys with
      mem := k₁.phys.mem.write (u'.trapCxPpn * 4096 + 8 * 10) (leEncode 8 0) } }
    intro x k₂ hrun
    obtain ⟨hphys, hfiled⟩ := hkept x k₂ hrun
    obtain ⟨w, hw, htrap, hstack⟩ := hfiled u' hu
    refine ⟨?_, a, t, hc, ht, w, e, hw, he, ?_⟩
    · rcases hcase with hst | hm₁
      · left
        rw [hphys]
        exact hst
      · right
        have hm₂ := hm₁.store (hm₁.mem_holding hu hl) he' (x := u'.trapCxPpn * 4096 + 8 * 10)
          (b := leEncode 8 0) (by omega) (by rw [leEncode_length]; omega)
        exact addTask_mem hm₂ k.next x k₂ hrun
    · rw [hphys, htrap, hstack]
      exact hread

/-! ## Exec -/

/-- The address space in a local variable while the arguments of `exec` are stored there: only
physical memory changes, and none of its translations. -/
structure Storing (I : Image) (traps : Bool) (h : Holding) (k k' : Kernel B) : Prop where
  mem : MemOk I traps [] [h] k'
  phys : ∃ p, k' = { k with phys := p }
  same : ∀ v, h.space.translate k'.phys.mem v = h.space.translate k.phys.mem v

variable {h : Holding} {k' : Kernel B}

theorem Storing.refl (hm : MemOk I traps [] [h] k) : Storing I traps h k k :=
  ⟨hm, ⟨k.phys, rfl⟩, fun _ => rfl⟩

theorem Storing.store (hs : Storing I traps h k k') {v : Nat} {e : PageTableEntry}
    (he : h.space.translate k'.phys.mem v = some e) {pa : Nat} {bs : List UInt8}
    (hpa : pa / 4096 = e.ppn) (hb : pa % 4096 + bs.length ≤ 4096) :
    Storing I traps h k { k' with phys := { k'.phys with mem := k'.phys.mem.write pa bs } } := by
  have hmem : h ∈ [h] ++ overTasks (TaskControlBlock.holding traps) k'.tasks k'.next :=
    List.mem_cons_self
  obtain ⟨p, rfl⟩ := hs.phys
  refine ⟨hs.mem.store hmem he hpa hb, ⟨_, rfl⟩, fun w => ?_⟩
  exact (hs.mem.estate.store_translate hmem he hpa hb hmem w).trans (hs.same w)

theorem Storing.translatedRefmut (hs : Storing I traps h k k') (ptr : Nat) {Q : Nat → Kernel B → Prop}
    (hQ : ∀ e, h.space.translate k'.phys.mem (VirtAddr.ofUsize ptr).floor = some e →
      Q (e.ppn * 4096 + ptr % 4096) k') : (onPhys (translatedRefmut h.space.token ptr)).wlp Q k' := by
  obtain ⟨rest, hg⟩ := hs.mem.estate.good_of_mem
    (List.mem_cons_self : h ∈ [h] ++ overTasks (TaskControlBlock.holding traps) k'.tasks k'.next)
  refine (onPhys_translatedRefmut hg ptr k').mono ?_
  rintro _ _ ⟨rfl, e, he, rfl⟩
  exact hQ e he

theorem storeArg_mem (cs : List UInt8) (ptr : Nat) (hs : Storing I traps h k k') :
    (storeArg h.space.token cs ptr).wlp (fun _ k'' => Storing I traps h k k'') k' := by
  induction cs generalizing ptr k' with
  | nil =>
    rw [storeArg, Comp.wlp_bind]
    refine hs.translatedRefmut ptr fun e he => ?_
    rw [wlp_storePhys]
    exact hs.store he (by omega) (by rw [List.length_singleton]; omega)
  | cons c cs ih =>
    rw [storeArg, Comp.wlp_bind]
    refine hs.translatedRefmut ptr fun e he => ?_
    rw [Comp.wlp_bind, wlp_storePhys]
    exact ih _ (hs.store he (by omega) (by rw [List.length_singleton]; omega))

/-- A place for a pointer in a page of the address space. -/
def Slot (h : Holding) (m : Mem) (pa : Nat) : Prop :=
  ∃ v e, h.space.translate m v = some e ∧ pa / 4096 = e.ppn ∧ pa % 4096 + 8 ≤ 4096

theorem Storing.storeSlot (hs : Storing I traps h k k') {pa : Nat} (hslot : Slot h k.phys.mem pa)
    (v : Nat) :
    Storing I traps h k { k' with phys := { k'.phys with mem := k'.phys.mem.write pa (leEncode 8 v) } } := by
  obtain ⟨w, e, he, hpa, hb⟩ := hslot
  exact hs.store ((hs.same w).trans he) hpa (by rw [leEncode_length]; exact hb)

theorem pushArgs_mem (args : List (List UInt8)) (slots : List Nat) (userSp : Nat)
    (hs : Storing I traps h k k') (hslots : ∀ pa ∈ slots, Slot h k.phys.mem pa) :
    (pushArgs h.space.token args slots userSp).wlp (fun _ k'' => Storing I traps h k k'') k' := by
  induction args generalizing slots userSp k' with
  | nil =>
    rw [pushArgs, Comp.wlp_pure]
    · exact hs
    · intro _ _ _ _ hc
      cases hc
  | cons arg args ih =>
    cases slots with
    | nil =>
      rw [pushArgs, Comp.wlp_pure]
      · exact hs
      · intro _ _ _ _ _ hc
        cases hc
    | cons slot slots =>
      rw [pushArgs]
      simp only [Comp.wlp_bind, wlp_storePhys]
      have hstore := hs.storeSlot (hslots slot List.mem_cons_self) (usizeSub userSp (arg.length + 1))
      refine (storeArg_mem arg _ hstore).mono fun _ k'' hs' => ?_
      exact ih slots _ hs' fun pa hpa => hslots pa (List.mem_cons_of_mem _ hpa)

theorem argvSlots_mem (args : List Nat) {argvBase : Nat} (hbase : argvBase % 8 = 0)
    (hm : MemOk I traps [] [h] k) :
    (argvSlots h.space.token argvBase args).wlp
      (fun slots k' => k' = k ∧ ∀ pa ∈ slots, Slot h k.phys.mem pa) k := by
  induction args with
  | nil =>
    rw [argvSlots, Comp.wlp_pure]
    exact ⟨rfl, fun _ hpa => absurd hpa List.not_mem_nil⟩
  | cons arg args ih =>
    rw [argvSlots, Comp.wlp_bind]
    refine (Storing.refl hm).translatedRefmut _ fun e he => ?_
    rw [Comp.wlp_bind]
    refine ih.mono ?_
    rintro slots k' ⟨rfl, hslots⟩
    rw [Comp.wlp_pure]
    refine ⟨rfl, fun pa hpa => ?_⟩
    rcases List.mem_cons.mp hpa with rfl | hpa
    · refine ⟨_, e, he, ?_, ?_⟩
      · omega
      · unfold usizeAdd usizeMul
        omega
    · exact hslots pa hpa

/-- The memory set of a program, as `exec` and the start get it. -/
theorem fromElf_mem (hm : MemOk I traps scraps mine k) (elf : ElfFile) :
    (onPhys (MemorySet.fromElf I.toLayout elf)).wlp (fun r k' => r.2.1 % 4096 = 0 ∧
      (∃ p, k' = { k with phys := p }) ∧
        ∃ ppn, MemOk I traps scraps (⟨r.1, if traps then some ppn else none⟩ :: mine) k') k := by
  rw [wlp_onPhys]
  intro r p hrun
  obtain ⟨hw, hfr, ppn, hppn⟩ := fromElf_wlp hm.estate.held elf r p hrun
  refine ⟨fromElf_userSp _ elf _ r p hrun, ⟨p, rfl⟩, ppn, hm.addMine hw.good hw.keeps.same hfr ?_⟩
  intro ppn' hp
  cases traps with
  | false => cases hp
  | true =>
    cases hp
    exact hppn

theorem length_asBytes (cx : TrapContext) : cx.asBytes.length = trapContextSize := by
  have hwords : cx.words.length = 37 := by
    rw [TrapContext.words, List.length_append, List.length_ofFn]
    rfl
  rw [TrapContext.asBytes, length_flatMap_packed (leEncode_length 8), hwords]
  rfl

theorem exec_mem (hm : Calm I traps k) (elf : ElfFile) (args : List (List UInt8)) (sstatus : Nat) :
    (exec I elf args sstatus).wlp (fun _ k' => MemOk I traps [] [] k') k := by
  rw [exec, Comp.wlp_bind]
  refine (fromElf_mem hm.mem elf).mono ?_
  rintro ⟨ms, userSp, entryPoint⟩ _ ⟨hsp, ⟨p, rfl⟩, ppn, hmine⟩
  simp only at hsp hmine ⊢
  have hbase : usizeSub userSp (usizeMul (args.length + 1) 8) % 8 = 0 := by
    unfold usizeSub usizeMul
    omega
  rw [Comp.wlp_bind]
  refine (argvSlots_mem _ hbase hmine).mono ?_
  rintro argv _ ⟨rfl, hslots⟩
  simp only [Comp.wlp_bind, Comp.wlp_unwrap, wlp_storePhys]
  intro last hlast
  have hs₁ := (Storing.refl hmine).storeSlot (hslots last (List.mem_of_getElem? hlast)) 0
  refine (pushArgs_mem args argv _ hs₁ hslots).mono fun userSp' k₂ hs₂ => ?_
  simp only [wlp_trapCxPpnOf, wlp_currentTask, wlp_task, wlp_setTask]
  intro e he a hc t ht
  have hm₂ := hs₂.mem
  obtain ⟨p₂, rfl⟩ := hs₂.phys
  rw [(hm₂.estate.user _ List.mem_cons_self).trap_eq he] at hm₂
  have hl : t.taskStatus ≠ .zombie := hm.live a t hc ht
  have hm₃ := hm₂.swapSpace (u := { t with memorySet := ms, trapCxPpn := e.ppn }) ht hl hl rfl
  refine hm₃.dropMine.wlp.mono ?_
  rintro _ _ ⟨hm₄, ⟨hmem, _, p₃, rfl⟩⟩
  simp only [Comp.wlp_get]
  have hself := Function.update_self a (some { t with memorySet := ms, trapCxPpn := e.ppn }) k.tasks
  refine hm₄.store (hm₄.mem_holding hself hl) (v := trapContextVpn) (e := e) ?_ ?_ ?_
  · have hmem' : p₃.mem = p₂.mem := hmem
    show ms.translate p₃.mem trapContextVpn = some e
    rw [hmem']
    exact he
  · omega
  · rw [length_asBytes]
    unfold trapContextSize
    omega

/-! ## The start -/

theorem virtioDmaLoop_held {lo : Nat} {held : List Nat} (base : Option Nat) (i pages : Nat) {s : Phys}
    (hh : Held lo s.frames held) : (virtioDmaLoop base i pages).wlp
      (fun fs s' => Held lo s'.frames (fs ++ held) ∧ SameOn held s.mem s'.mem) s := by
  induction pages generalizing base i s held with
  | zero =>
    rw [virtioDmaLoop, Comp.wlp_pure]
    exact ⟨hh, SameOn.refl _ _⟩
  | succ pages ih =>
    rw [virtioDmaLoop, Comp.wlp_bind]
    rcases frameAlloc_cases hh with ⟨_, hrun⟩ | ⟨f, s₁, hrun, htaken⟩
    · rw [Comp.wlp_of_run hrun, Comp.wlp_bind, Comp.wlp_unwrap]
      intro f hf
      cases hf
    · rw [Comp.wlp_of_run hrun]
      simp only [Comp.wlp_bind, Comp.wlp_unwrap, Comp.wlp_assert]
      intro g hg _
      cases hg
      refine (ih _ _ htaken.held).mono ?_
      rintro fs s₂ ⟨hheld, hsame⟩
      rw [Comp.wlp_pure]
      refine ⟨hheld.perm List.perm_middle, htaken.same.trans (hsame.mono (List.subset_cons_self _ _))⟩

theorem virtioDmaAlloc_held {lo : Nat} {held : List Nat} (calls : List Nat) {s : Phys}
    (hh : Held lo s.frames held) : (virtioDmaAlloc calls).wlp
      (fun fs s' => Held lo s'.frames (fs ++ held) ∧ SameOn held s.mem s'.mem) s := by
  induction calls generalizing s held with
  | nil =>
    rw [virtioDmaAlloc, Comp.wlp_pure]
    exact ⟨hh, SameOn.refl _ _⟩
  | cons pages calls ih =>
    rw [virtioDmaAlloc, Comp.wlp_bind]
    refine (virtioDmaLoop_held none 0 pages hh).mono ?_
    rintro fs s₁ ⟨hheld₁, hsame₁⟩
    rw [Comp.wlp_bind]
    refine (ih hheld₁).mono ?_
    rintro gs s₂ ⟨hheld₂, hsame₂⟩
    rw [Comp.wlp_pure]
    refine ⟨hheld₂.perm ?_, hsame₁.trans (hsame₂.mono (List.subset_append_right _ _))⟩
    rw [List.append_assoc]
    exact List.perm_append_comm_assoc _ _ _

theorem lasting_virtioDmaLoop (base : Option Nat) (i pages : Nat) : Lasting (virtioDmaLoop base i pages) := by
  induction pages generalizing base i with
  | zero => exact Comp.stable_pure _
  | succ pages ih =>
    refine kept_starved.frameAlloc.bind fun _ => (Comp.stable_unwrap _).bind fun _ => ?_
    exact (Comp.stable_assert _).bind fun _ => (ih _ _).bind fun _ => Comp.stable_pure _

theorem lasting_virtioDmaAlloc (calls : List Nat) : Lasting (virtioDmaAlloc calls) := by
  induction calls with
  | nil => exact Comp.stable_pure _
  | cons pages calls ih =>
    exact (lasting_virtioDmaLoop _ _ _).bind fun _ => ih.bind fun _ => Comp.stable_pure _

theorem lasting_newKernelStack (pid : Nat) : LastingK (newKernelStack pid : Comp (Kernel B) Nat) := by
  refine Comp.stable_get.bind fun k => ?_
  refine (lasting_onPhys (kept_starved.insertFramedArea _ _ _ _)).bind fun r => ?_
  refine Comp.Stable.bind (Comp.stable_modify fun _ hk => hk) fun _ => ?_
  split
  · exact Comp.stable_pure _
  · exact Comp.stable_pure _

theorem lasting_new (elf : ElfFile) (sstatus : Nat) : LastingK (new I elf sstatus : Comp (Kernel B) Nat) := by
  refine (lasting_onPhys (kept_starved.fromElf _ _)).bind fun _ => (lasting_trapCxPpnOf _).bind fun _ => ?_
  refine Comp.Stable.bind (Comp.stable_get.bind fun _ => Comp.Stable.bind
    (Comp.stable_modify fun _ hk => hk) fun _ => Comp.stable_pure _) fun _ => ?_
  refine (lasting_newKernelStack _).bind fun _ => Comp.stable_get.bind fun _ => ?_
  exact (lasting_onPhys (kept_starved.storePhys _ _)).bind fun _ => lasting_newTask _

theorem lasting_addInitproc (elf : ElfFile) (sstatus : Nat) :
    LastingK (addInitproc I elf sstatus : Comp (Kernel B) Unit) :=
  (lasting_new elf sstatus).bind fun _ => Comp.Stable.bind (Comp.stable_modify fun _ hk => hk) fun _ => lasting_addTask _

theorem newTask_mem (hm : MemOk I traps scraps
      (⟨t.memorySet, if traps then some t.trapCxPpn else none⟩ :: mine) k) (hl : t.taskStatus ≠ .zombie)
    (hb : t.trapCtxBackup = none) :
    (newTask t).wlp (fun _ k' => MemOk I traps scraps mine k') k := by
  rw [wlp_newTask]
  exact hm.newTask hl hb

/-- **A new task** has the address space of its program. -/
theorem new_mem (hm : MemOk I traps [] [] k) (elf : ElfFile) (sstatus : Nat) :
    (new I elf sstatus).wlp (fun _ k' => k'.phys.starved = true ∨ MemOk I traps [] [] k') k := by
  rw [new, Comp.wlp_bind]
  refine (fromElf_mem hm elf).mono ?_
  rintro ⟨ms, userSp, entryPoint⟩ _ ⟨_, ⟨p, rfl⟩, ppn, hmine⟩
  simp only at hmine ⊢
  rw [Comp.wlp_bind, wlp_trapCxPpnOf]
  intro e he
  rw [(hmine.estate.user _ List.mem_cons_self).trap_eq he] at hmine
  rw [Comp.wlp_bind, wlp_pidAlloc, Comp.wlp_bind]
  have hmine' : MemOk I traps [] [⟨ms, if traps then some e.ppn else none⟩] { k with
      phys := p, pidAllocator := k.pidAllocator.alloc.2 } := hmine.of_eq rfl rfl rfl rfl rfl
  refine (newKernelStack_mem hmine' _).mono ?_
  rintro stack k₁ ⟨hst | hm₁, p₁, ks, rfl, hsame⟩
  · refine Comp.wlp.mono (Comp.Stable.bind Comp.stable_get (fun _ => ?_) _ hst) fun _ _ h => Or.inl h
    exact (lasting_onPhys (kept_starved.storePhys _ _)).bind fun _ => lasting_newTask _
  · simp only [Comp.wlp_bind, Comp.wlp_get, wlp_storePhys]
    have hhead : (⟨ms, if traps then some e.ppn else none⟩ : Holding) ∈
        [⟨ms, if traps then some e.ppn else none⟩] ++
          overTasks (TaskControlBlock.holding traps) k.tasks k.next := List.mem_cons_self
    -- the new kernel stack has not changed the tables of the address space
    have he₁ : ms.translate p₁.mem trapContextVpn = some e := by
      rw [← he]
      refine (hmine.estate.user _ hhead).sound.tables.translate_congr (hsame.mono fun f hf => ?_) _
      exact List.mem_append_right _ (List.mem_flatMap.mpr ⟨_, hhead, List.mem_append_left _ hf⟩)
    refine Comp.wlp.mono (newTask_mem ?_ ?_ ?_) fun _ _ h => Or.inr h
    · refine hm₁.store hhead he₁ ?_ ?_
      · omega
      · rw [length_asBytes]
        unfold trapContextSize
        omega
    · exact fun hc => by cases hc
    · rfl

theorem addInitproc_mem (hm : MemOk I traps [] [] k) (elf : ElfFile) (sstatus : Nat) :
    (addInitproc I elf sstatus).wlp
      (fun _ k' => k'.phys.starved = true ∨ MemOk I traps [] [] k') k := by
  rw [addInitproc]
  simp only [Comp.wlp_bind, Comp.wlp_modify]
  refine (new_mem hm elf sstatus).mono fun c k₁ hk₁ => ?_
  rcases hk₁ with hst | hm₁
  · exact (lasting_addTask c { k₁ with initproc := some c } hst).mono fun _ _ h => Or.inl h
  · have hm₂ : MemOk I traps [] [] { k₁ with initproc := some c } := hm₁.of_eq rfl rfl rfl rfl rfl
    exact (addTask_mem hm₂ c).mono fun _ _ h => Or.inr h

/-- The memory before the first task. -/
theorem memOk_init {mem : Mem} {dmaCalls : List Nat} {s : Phys}
    (hinit : initMemory I mem = some (k.kernelSpace, s))
    (hdma : (virtioDmaAlloc dmaCalls).run s = some (k.queueFrames, k.phys)) (htasks : k.tasks = fun _ => none)
    (hnext : k.next = 0) : k.phys.starved = true ∨ MemOk I traps [] [] k := by
  rcases newKernel_wlp (held_init I.toLayout) k.kernelSpace s hinit with hst | hw
  · exact .inl (lasting_virtioDmaAlloc dmaCalls s hst _ _ hdma)
  · have hheld := hw.good.held
    rw [List.append_nil] at hheld
    obtain ⟨hheld₂, hsame⟩ := virtioDmaAlloc_held dmaCalls hheld _ _ hdma
    refine .inr ⟨⟨?_, ?_, hw.full, ?_⟩, fun _ _ => by rw [htasks], fun _ _ _ hc => by rw [htasks] at hc; cases hc⟩
    · refine hheld₂.perm ?_
      simp only [framesOf, overTasks, hnext, List.range_zero, List.flatMap_nil, List.append_nil, List.nil_append]
      exact List.perm_append_comm
    · exact hw.good.sound.congr (hsame.mono (List.subset_append_left _ _))
    · intro x hx
      simp [overTasks, hnext] at hx

/-- **The memory is in order when the kernel has started.** -/
theorem boot_mem {mem : Mem} {dmaCalls : List Nat} {elf : ElfFile} {sstatus : Nat}
    (h : boot I mem dmaCalls elf sstatus = some k) :
    k.phys.starved = true ∨ MemOk I traps [] [] k := by
  rw [boot] at h
  simp only [Option.bind_eq_bind, Option.bind_eq_some_iff] at h
  obtain ⟨⟨ks, s₁⟩, hinit, ⟨queueFrames, s₂⟩, hdma, h⟩ := h
  obtain ⟨⟨u, k'⟩, hrun, rfl⟩ := Option.map_eq_some_iff.mp h
  refine Or.elim ?_ (fun hst => .inl (lasting_addInitproc (I := I) elf sstatus _ hst _ _ hrun))
    fun hm => addInitproc_mem hm elf sstatus _ _ hrun
  exact memOk_init hinit hdma rfl rfl

end Kernel

end RCore.Task
