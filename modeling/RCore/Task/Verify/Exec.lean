import RCore.Lib.Strings
import RCore.Mm.Verify.UserStack
import RCore.Task.Exec
import RCore.Task.Verify.Boot
import RCore.Task.Verify.Spawn

/-!
# The arguments of a new program

`exec` stores the arguments and their addresses on the stack of the address space it has built, which is
not the active one: every byte goes through a translation of its own. The stack is followed as a memory with
virtual addresses.
-/

namespace RCore.Task

open RCore Mm

namespace Kernel

variable {B : BinaryHeap} {I : Image} {L : Layout} {rest : List Nat} {m₀ : Mem} {ms : MemorySet} {top slot : Nat}
  {M : Mem} {k : Kernel B}

/-! ## Rules -/

theorem wp_currentTask (Q : Nat → Kernel B → Prop) (k : Kernel B) :
    currentTask.wp Q k ↔ ∃ a, k.current = some a ∧ Q a k := by
  rw [currentTask]
  simp only [Comp.wp_bind, Comp.wp_get, Comp.wp_unwrap]

theorem wp_setTask (a : Nat) (t : TaskControlBlock) (Q : Unit → Kernel B → Prop) (k : Kernel B) :
    (setTask a t).wp Q k ↔ Q () { k with tasks := Function.update k.tasks a (some t) } := by
  rw [setTask, Comp.wp_modify]

theorem wp_storePhys (pa : Nat) (bs : List UInt8) (Q : Unit → Kernel B → Prop) (k : Kernel B) :
    (onPhys (storePhys pa bs)).wp Q k ↔
      Q () { k with phys := { k.phys with mem := k.phys.mem.write pa bs } } := by
  rw [wp_onPhys, storePhys, Comp.wp_modify]

theorem wp_trapCxPpnOf (ms : MemorySet) (Q : Nat → Kernel B → Prop) (k : Kernel B) :
    (trapCxPpnOf ms).wp Q k ↔ ∃ e, ms.translate k.phys.mem trapContextVpn = some e ∧ Q e.ppn k := by
  rw [trapCxPpnOf]
  simp only [Comp.wp_bind, Comp.wp_get, Comp.wp_unwrap, Comp.wp_pure, floor_trapContext]

/-! ## The strings -/

/-- Only the stack has changed, to `M`. -/
def OnlyStack (L : Layout) (rest : List Nat) (m₀ : Mem) (ms : MemorySet) (top : Nat) (k : Kernel B) (M : Mem)
    (k' : Kernel B) : Prop :=
  ∃ p, k' = { k with phys := p } ∧ OnStack L rest m₀ ms top p M

/-- The physical address of the word at a virtual one. -/
def SlotAt (m₀ : Mem) (ms : MemorySet) (a pa : Nat) : Prop :=
  ∃ e, ms.translate m₀ (VirtAddr.ofUsize a).floor = some e ∧ pa = e.ppn * 4096 + a % 4096

/-- A store of one byte through a translation. -/
theorem storeByte_wp (h : OnStack L rest m₀ ms top k.phys M) {a : Nat} (hle : top - 8192 ≤ a) (hlt : a < top)
    (b : UInt8) {Q : Unit → Kernel B → Prop}
    (hQ : ∀ p, OnStack L rest m₀ ms top p (M.write a [b]) → Q () { k with phys := p }) :
    (onPhys (translatedRefmut ms.token a)).wp (fun pa k' => (onPhys (storePhys pa [b])).wp Q k') k := by
  obtain ⟨e, he, -⟩ := h.page hle hlt
  rw [wp_onPhys, Comp.wp_of_run (translatedRefmut_run h.good he), wp_storePhys]
  apply hQ
  exact h.store hle hlt (by rw [List.length_singleton]; omega) he

theorem storeArg_wp (cs : List UInt8) {a : Nat} (h : OnStack L rest m₀ ms top k.phys M) (hle : top - 8192 ≤ a)
    (hlt : a + (cs.length + 1) ≤ top) :
    (storeArg ms.token cs a).wp (fun _ k' => OnlyStack L rest m₀ ms top k (M.write a (cs ++ [0])) k') k := by
  induction cs generalizing a M k with
  | nil =>
    rw [storeArg, Comp.wp_bind]
    exact storeByte_wp h hle (by omega) 0 fun p hp => ⟨p, rfl, hp⟩
  | cons c cs ih =>
    rw [List.length_cons] at hlt
    have hlow := h.stack.lt
    have hnext : usizeAdd a 1 = a + 1 := Nat.mod_eq_of_lt (by omega)
    rw [storeArg, Comp.wp_bind]
    simp only [Comp.wp_bind]
    refine storeByte_wp h hle (by omega) c fun p hp => ?_
    rw [hnext]
    have hrest := ih (k := { k with phys := p }) (a := a + 1) hp (by omega) (by omega)
    rw [List.cons_append, ← List.singleton_append, Mem.write_append]
    exact hrest

/-! ## The pointers -/

theorem argvSlots_wp (idx : List Nat) {base : Nat} (h : OnStack L rest m₀ ms top k.phys M)
    (hle : top - 8192 ≤ base) (hidx : ∀ i ∈ idx, base + 8 * i < top) :
    (argvSlots ms.token base idx).wp
      (fun slots k' => k' = k ∧ List.Forall₂ (fun i pa => SlotAt m₀ ms (base + 8 * i) pa) idx slots) k := by
  have hlow := h.stack.lt
  induction idx with
  | nil =>
    rw [argvSlots, Comp.wp_pure]
    exact ⟨rfl, .nil⟩
  | cons i idx ih =>
    have hlt := hidx i List.mem_cons_self
    have haddr : usizeAdd base (usizeMul i 8) = base + 8 * i := by
      unfold usizeAdd usizeMul
      omega
    obtain ⟨e, he, -⟩ := h.page (a := base + 8 * i) (by omega) hlt
    rw [argvSlots, haddr, Comp.wp_bind, wp_onPhys, Comp.wp_of_run (translatedRefmut_run h.good he), Comp.wp_bind]
    refine (ih fun j hj => hidx j (List.mem_cons_of_mem _ hj)).mono ?_
    rintro slots k' ⟨rfl, hslots⟩
    rw [Comp.wp_pure]
    exact ⟨rfl, .cons ⟨e, (h.same _).symm.trans he, rfl⟩ hslots⟩

/-- A pointer is stored in its place. -/
theorem storeSlot_wp (h : OnStack L rest m₀ ms top k.phys M) (hle : top - 8192 ≤ slot) (hlt : slot + 8 ≤ top)
    (halign : slot % 8 = 0) {pa : Nat} (hslot : SlotAt m₀ ms slot pa) (v : Nat) {Q : Unit → Kernel B → Prop}
    (hQ : ∀ p, OnStack L rest m₀ ms top p (M.setWord 8 slot v) → Q () { k with phys := p }) :
    (onPhys (storePhys pa (leEncode 8 v))).wp Q k := by
  obtain ⟨e, he, rfl⟩ := hslot
  rw [wp_storePhys]
  apply hQ
  exact h.store hle (by omega) (by rw [leEncode_length]; omega) ((h.same _).trans he)

/-- **The loop over the arguments** pushes them. -/
theorem pushArgs_wp (args : List (List UInt8)) (slots : List Nat) (slot : Nat) {sp : Nat}
    (h : OnStack L rest m₀ ms top k.phys M) (hsp : top - 8192 + Mem.stringsSize args ≤ sp) (hle : sp ≤ slot)
    (hslot : slot + 8 * args.length ≤ top) (halign : slot % 8 = 0)
    (hslots : ∀ i, i < args.length → ∃ pa, slots[i]? = some pa ∧ SlotAt m₀ ms (slot + 8 * i) pa) :
    (pushArgs ms.token args slots sp).wp (fun sp' k' => sp' = sp - Mem.stringsSize args ∧
      OnlyStack L rest m₀ ms top k (M.pushStrings slot sp args) k') k := by
  induction args generalizing slots slot sp M k with
  | nil =>
    rw [pushArgs, Comp.wp_pure]
    · exact ⟨rfl, k.phys, rfl, h⟩
    · intro _ _ _ _ hc
      cases hc
  | cons arg args ih =>
    rw [Mem.stringsSize_cons] at hsp ⊢
    rw [List.length_cons] at hslot hslots
    have hlow := h.stack.lt
    have hsub : usizeSub sp (arg.length + 1) = sp - (arg.length + 1) := by
      unfold usizeSub
      omega
    obtain ⟨pa, hpa, hat⟩ := hslots 0 (Nat.succ_pos _)
    cases slots with
    | nil => cases hpa
    | cons pa' slots =>
      cases hpa
      rw [pushArgs, hsub]
      simp only [Comp.wp_bind]
      refine storeSlot_wp h (by omega) (by omega) halign hat _ fun p hp => ?_
      refine (storeArg_wp (k := { k with phys := p }) arg hp (by omega) (by omega)).mono ?_
      rintro _ _ ⟨p', rfl, hp'⟩
      refine (ih (k := { k with phys := p' }) slots (slot + 8) hp' (by omega) (by omega) (by omega) (by omega) ?_).mono ?_
      · intro i hi
        obtain ⟨pa, hpa, hat⟩ := hslots (i + 1) (by omega)
        refine ⟨pa, hpa, ?_⟩
        rw [Nat.add_assoc, Nat.add_comm 8]
        exact hat
      · rintro sp' k' ⟨rfl, p'', rfl, hp''⟩
        exact ⟨by omega, p'', rfl, hp''⟩

/-! ## The trap context -/

theorem length_words (cx : TrapContext) : cx.words.length = 37 := by
  rw [TrapContext.words, List.length_append, List.length_ofFn]
  rfl

/-- The registers of a trap context that has been stored. -/
theorem readTrapContext_write (m : Mem) (pa : Nat) (cx : TrapContext) (i : Fin 32) :
    (readTrapContext (m.write pa cx.asBytes) pa).x i = cx.x i % 256 ^ 8 := by
  have hi : i.val < cx.words.length := by
    rw [length_words]
    omega
  have hword : cx.words[i.val] = cx.x i := by
    have hofFn : i.val < (List.ofFn cx.x).length := by
      rw [List.length_ofFn]
      exact i.isLt
    simp only [TrapContext.words]
    rw [List.getElem_append_left hofFn, List.getElem_ofFn]
  rw [← hword]
  exact Mem.word_write_packed hi

/-! ## The new program -/

/-- The address of `argv` when there are `n` arguments. -/
def argvBase (top n : Nat) : Nat := top - 8 * (n + 1)

/-- The task `u` is about to start: its arguments are on its stack, and its registers are set for them. -/
structure Entered (L : Layout) (rest : List Nat) (m₀ : Mem) (top : Nat) (args : List (List UInt8)) (k : Kernel B)
    (u : TaskControlBlock) : Prop where
  page : u.memorySet.TrapPage k.phys.mem u.trapCxPpn
  laid : ∃ M, OnStack L rest m₀ u.memorySet top k.phys M ∧
    M.Laid (argvBase top args.length) (argvBase top args.length) args ∧ M.word 8 (top - 8) = 0
  argc : (readTrapContext k.phys.mem (u.trapCxPpn * 4096)).x 10 = args.length
  argv : (readTrapContext k.phys.mem (u.trapCxPpn * 4096)).x 11 = argvBase top args.length
  sp : (readTrapContext k.phys.mem (u.trapCxPpn * 4096)).x 2 =
    (argvBase top args.length - Mem.stringsSize args) / 8 * 8

variable {a : Nat} {t u : TaskControlBlock} {elf : ElfFile} {entry : Nat} {p : Phys}

/-- The pointers and the strings on the stack. -/
theorem pushed_wp (h : OnStack L rest m₀ ms top k.phys M) (args : List (List UInt8))
    (hsize : 8 * (args.length + 1) + Mem.stringsSize args ≤ 8192) {Q : Nat → Kernel B → Prop}
    (hQ : ∀ p M, OnStack L rest m₀ ms top p M →
      M.Laid (argvBase top args.length) (argvBase top args.length) args → M.word 8 (top - 8) = 0 →
      Q (argvBase top args.length - Mem.stringsSize args) { k with phys := p }) :
    (argvSlots ms.token (argvBase top args.length) (List.range (args.length + 1))).wp (fun slots k₁ =>
      (Comp.unwrap slots[args.length]?).wp (fun last k₂ => (onPhys (storePhys last (leEncode 8 0))).wp (fun _ k₃ =>
        (pushArgs ms.token args slots (argvBase top args.length)).wp Q k₃) k₂) k₁) k := by
  have hroom := h.stack.room
  have hlow := h.stack.lt
  have haligned := h.stack.aligned
  have hbase : argvBase top args.length + 8 * (args.length + 1) = top := by
    unfold argvBase
    omega
  refine (argvSlots_wp _ h (by omega) fun i hi => ?_).mono ?_
  · rw [List.mem_range] at hi
    omega
  rintro slots k' ⟨rfl, hslots⟩
  have hat : ∀ i, i < args.length + 1 →
      ∃ pa, slots[i]? = some pa ∧ SlotAt m₀ ms (argvBase top args.length + 8 * i) pa := by
    intro i hi
    have hlen := hslots.length_eq
    rw [List.length_range] at hlen
    have hlt : i < slots.length := by omega
    have hget := hslots.get (by rw [List.length_range]; exact hi) hlt
    rw [List.get_eq_getElem, List.get_eq_getElem, List.getElem_range] at hget
    exact ⟨_, List.getElem?_eq_getElem hlt, hget⟩
  obtain ⟨last, hlast, hend⟩ := hat args.length (Nat.lt_succ_self _)
  have htop : argvBase top args.length + 8 * args.length = top - 8 := by omega
  rw [htop] at hend
  rw [Comp.wp_unwrap]
  refine ⟨last, hlast, ?_⟩
  refine storeSlot_wp h (by omega) (by omega) (by omega) hend 0 fun p hp => ?_
  refine (pushArgs_wp (k := { k' with phys := p }) args slots (argvBase top args.length) hp (by omega)
    (Nat.le_refl _) (by omega) (by omega) fun i hi => hat i (by omega)).mono ?_
  rintro _ _ ⟨rfl, p', rfl, hp'⟩
  refine hQ p' _ hp' (Mem.laid_pushStrings (by omega) (Nat.le_refl _) (by omega)) ?_
  rw [Mem.word_congr fun j hj => Mem.pushStrings_of_not_mem (by omega) (by omega) (by omega), Mem.word_setWord_same]
  rfl

/-- The store of the registers of a new program. -/
theorem entered_store {M : Mem} {p : Phys} (h : OnStack L rest m₀ ms top p M) {args : List (List UInt8)}
    (hlaid : M.Laid (argvBase top args.length) (argvBase top args.length) args) (hlast : M.word 8 (top - 8) = 0)
    (hsize : 8 * (args.length + 1) + Mem.stringsSize args ≤ 8192) (hu : u.memorySet = ms)
    (hpage : ms.TrapPage p.mem u.trapCxPpn) {cx : TrapContext} (hargc : cx.x 10 = args.length)
    (hargv : cx.x 11 = argvBase top args.length)
    (hsp : cx.x 2 = (argvBase top args.length - Mem.stringsSize args) / 8 * 8)
    (hk : k.phys = { p with mem := p.mem.write (u.trapCxPpn * 4096) cx.asBytes }) :
    Entered L rest m₀ top args k u := by
  subst hu
  obtain ⟨e, he, hppn, hflags⟩ := hpage
  have hlow := h.stack.lt
  have hpow : 256 ^ 8 = 2 ^ 64 := by decide
  have hne : e.flags ≠ stackFlags := by
    rw [hflags]
    decide
  have hpa : u.trapCxPpn * 4096 / 4096 = e.ppn := by omega
  have hfits : u.trapCxPpn * 4096 % 4096 + cx.asBytes.length ≤ 4096 := by
    rw [length_asBytes]
    unfold trapContextSize
    omega
  have hstore := h.storeOther (v := trapContextVpn) (by decide) he hne hpa hfits
  have hbase : argvBase top args.length ≤ top := Nat.sub_le _ _
  rw [← hk] at hstore
  refine ⟨⟨e, ?_, hppn, hflags⟩, ⟨M, hstore, hlaid, hlast⟩, ?_, ?_, ?_⟩
  · rw [hstore.same, ← h.same]
    exact he
  · rw [hk, readTrapContext_write, hargc, Nat.mod_eq_of_lt (by omega)]
  · rw [hk, readTrapContext_write, hargv, Nat.mod_eq_of_lt (by omega)]
  · rw [hk, readTrapContext_write, hsp, Nat.mod_eq_of_lt (by omega)]

/-- **`exec` of a program that is loaded** returns, and has laid out its arguments. -/
theorem exec_wp (hc : k.current = some a) (ht : k.tasks a = some t)
    (hh : Held I.firstFrame k.phys.frames (t.memorySet.owned ++ rest))
    (hload : (MemorySet.fromElf I.toLayout elf).run k.phys = some ((ms, top, entry), p))
    (args : List (List UInt8)) (hsize : 8 * (args.length + 1) + Mem.stringsSize args ≤ 8192) (sstatus : Nat) :
    (exec I elf args sstatus).wp (fun _ k' => k'.current = some a ∧ ∃ u, k'.tasks a = some u ∧ u.memorySet = ms ∧
      Entered I.toLayout rest p.mem top args k' u) k := by
  obtain ⟨hwhole, hfr, ppn, e, he, hppn, hflags⟩ := fromElf_wlp hh elf _ _ hload
  have hstack := fromElf_stack hh elf _ _ hload
  simp only at hwhole hfr he hstack
  obtain ⟨M, hon⟩ := OnStack.start hwhole.good hfr hstack
  have hlow := hstack.lt
  have hroom := hstack.room
  have hbase : usizeSub top (usizeMul (args.length + 1) 8) = argvBase top args.length := by
    unfold usizeSub usizeMul argvBase
    omega
  rw [exec]
  simp only [Comp.wp_bind]
  rw [wp_onPhys, Comp.wp_of_run hload]
  simp only [hbase]
  refine pushed_wp (k := { k with phys := p }) hon args hsize fun p₁ M₁ hon₁ hlaid hlast => ?_
  have he₁ : ms.translate p₁.mem trapContextVpn = some e := (hon₁.same _).trans he
  simp only [wp_trapCxPpnOf, wp_currentTask, wp_task, wp_setTask]
  refine ⟨e, he₁, a, hc, t, ht, ?_⟩
  have hheld : Held I.firstFrame p₁.frames (t.memorySet.owned ++ (ms.owned ++ rest)) := by
    refine hon₁.good.held.perm ?_
    exact List.perm_append_comm_assoc _ _ _
  obtain ⟨p₂, hdrop, hheld₂, hmem₂, -⟩ := drop_run hheld
  rw [wp_onPhys, Comp.wp_of_run hdrop]
  simp only [Comp.wp_get, wp_storePhys]
  have hon₂ := hon₁.other hmem₂ hheld₂
  have he₂ : ms.translate p₂.mem trapContextVpn = some e := by
    rw [hmem₂]
    exact he₁
  refine ⟨hc, _, Function.update_self a _ _, rfl, entered_store hon₂ hlaid hlast hsize rfl
    ⟨e, he₂, rfl, hflags⟩ ?_ ?_ ?_ rfl⟩
  · simp only [↓reduceIte]
  · simp only [Fin.reduceEq, ↓reduceIte]
  · simp only [TrapContext.appInitContext, Fin.reduceEq, ↓reduceIte]
    unfold usizeSub argvBase
    omega

/-- **The result that `trap_handler` stores** changes nothing. -/
theorem storeResult_wp {args : List (List UInt8)} (h : Entered L rest m₀ top args k u) (hc : k.current = some a)
    (hu : k.tasks a = some u) :
    (storeResult args.length).wp (fun _ k' => k'.current = some a ∧ k'.tasks a = some u ∧
      Entered L rest m₀ top args k' u) k := by
  obtain ⟨e, he, hppn, hflags⟩ := h.page
  obtain ⟨M, hon, hlaid, hlast⟩ := h.laid
  have hpow : 256 ^ 8 = 2 ^ 64 := by decide
  have hargc := h.argc
  have hlt : args.length < 256 ^ 8 := by
    rw [← hargc]
    exact Mem.word_lt _ _ _
  have hresult : ((args.length : Int) % 2 ^ 64).toNat = args.length := by omega
  have hne : e.flags ≠ stackFlags := by
    rw [hflags]
    decide
  rw [storeResult, hresult]
  simp only [Comp.wp_bind, wp_currentTask, wp_task, wp_storePhys]
  refine ⟨a, hc, u, hu, hc, hu, ?_⟩
  have hpa : (u.trapCxPpn * 4096 + 8 * 10) / 4096 = e.ppn := by omega
  have hfits : (u.trapCxPpn * 4096 + 8 * 10) % 4096 + (leEncode 8 args.length).length ≤ 4096 := by
    rw [leEncode_length]
    omega
  have hstore := hon.storeOther (v := trapContextVpn) (by decide) he hne hpa hfits
  have hother : ∀ i : Fin 32, i ≠ 10 → (readTrapContext (k.phys.mem.setWord 8 (u.trapCxPpn * 4096 + 8 * 10)
      args.length) (u.trapCxPpn * 4096)).x i = (readTrapContext k.phys.mem (u.trapCxPpn * 4096)).x i := by
    intro i hi
    have hval : i.val ≠ 10 := fun hc => hi (Fin.ext hc)
    exact Mem.word_setWord_of_disjoint (by omega)
  refine ⟨⟨e, ?_, hppn, hflags⟩, ⟨M, hstore, hlaid, hlast⟩, ?_, ?_, ?_⟩
  · rw [hstore.same, ← hon.same]
    exact he
  · have hself := Mem.word_setWord_same k.phys.mem (u.trapCxPpn * 4096 + 8 * 10) 8 args.length
    rw [Nat.mod_eq_of_lt hlt] at hself
    exact hself
  · exact (hother 11 (by decide)).trans h.argv
  · exact (hother 2 (by decide)).trans h.sp

end Kernel

end RCore.Task
