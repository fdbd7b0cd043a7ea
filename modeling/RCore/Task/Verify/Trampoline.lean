import RCore.Task.Trampoline
import RCore.Task.Trap
import RCore.Task.Verify.Spawn

/-!
# Traps in and out

What `__alltraps` and `__restore` do on a hart whose address spaces map the trampoline at the same
address: `__alltraps` saves the registers of the program in its trap context and arrives in
`trap_handler` on the kernel's stack and page table; `__restore` gives the program the registers of its
trap context. The code runs from the trampoline's page on while `satp` changes under it.
-/

namespace RCore.Task

open RCore Mm Riscv

/-- The page of the trampoline. -/
def trampolineWindow (L : Layout) : Window where
  va := trampoline
  pa := L.trampolinePpn * 4096
  size := 4096
  fits := by decide

/-- The trap context of a process. -/
def contextWindow (ppn : Nat) : Window where
  va := trapContext
  pa := ppn * 4096
  size := trapContextSize
  fits := by decide

/-- The address space under `satp` has the trampoline, whatever is in the trap context. -/
abbrev Trampled (M : Machine) (L : Layout) (ppn : Nat) (m : Mem) (satp : Word) : Prop :=
  (trampolineWindow L).In M satp .fetch (contextWindow ppn) m

/-- The address space of the user under `satp`. -/
structure UserMaps (M : Machine) (L : Layout) (ppn : Nat) (m : Mem) (satp : Word) : Prop where
  fetch : Trampled M L ppn m satp
  load : (contextWindow ppn).In M satp .load (contextWindow ppn) m
  store : (contextWindow ppn).In M satp .store (contextWindow ppn) m

/-- The trap context behind a frame. -/
abbrev contextAt (m : Mem) (ppn : Nat) : TrapContext := readTrapContext m (ppn * 4096)

/-- What `__alltraps` does to a hart `h` that has trapped. -/
structure Entered (ppn : Nat) (h h' : Hart) : Prop where
  pc : h'.pc = (contextAt h.mem ppn).trapHandler / 2 * 2
  mode : h'.mode = .supervisor
  context : contextAt h'.mem ppn = (contextAt h.mem ppn).save (fun r => (h.reg r).toNat)
    (h.csr .sstatus).toNat (h.csr .sepc).toNat
  beside : (contextWindow ppn).Beside h.mem h'.mem
  sp : (h'.reg Reg.sp).toNat = (contextAt h.mem ppn).kernelSp
  reg : ∀ r, r ∉ [Reg.sp, Reg.t0, Reg.t1, Reg.t2] → h'.reg r = h.reg r
  satp : (h'.csr .satp).toNat = (contextAt h.mem ppn).kernelSatp
  sscratch : h'.csr .sscratch = h.reg Reg.sp
  csr : ∀ c, c ≠ .satp → c ≠ .sscratch → h'.csr c = h.csr c

/-- What `__restore` does to a hart `h` of the kernel. -/
structure Resumed (ppn : Nat) (h h' : Hart) : Prop where
  pc : h'.pc = (contextAt h.mem ppn).sepc / 2 * 2
  mode : h'.mode = Status.previous (BitVec.ofNat 64 (contextAt h.mem ppn).sstatus)
  reg : ∀ r, r ≠ 0 → r ≠ 4 → (h'.reg r).toNat = (contextAt h.mem ppn).x r
  tp : h'.reg 4 = h.reg 4
  mem : h'.mem = h.mem
  satp : h'.csr .satp = h.reg Reg.a1
  sscratch : h'.csr .sscratch = h.reg Reg.a0
  stvec : h'.csr .stvec = h.csr .stvec

namespace Trampoline

/-- The registers that are saved and restored one after the other. -/
def general : List Reg := 1 :: 3 :: repeated

theorem mem_general (r : Reg) : r ∈ general ↔ r ≠ 0 ∧ r ≠ 2 ∧ r ≠ 4 := by
  revert r
  decide

theorem nodup_general : (general.map Fin.val).Nodup := by decide

theorem slot_le {ppn j : Nat} (hj : j < 37) : 8 * j + 8 ≤ (contextWindow ppn).size := by
  have hsize : (contextWindow ppn).size = 296 := rfl
  rw [hsize]
  omega

theorem slot_general {ppn : Nat} : ∀ r ∈ general, 8 * r.val + 8 ≤ (contextWindow ppn).size := by
  intro r _
  have hr := r.isLt
  exact slot_le (by omega)

/-- The memory behind `__alltraps`. -/
def saved (pa : Nat) (reg : Reg → Word) (sstatus sepc : Word) (m : Mem) : Mem :=
  (((saveRegs Fin.val pa reg m general).setWord 8 (pa + 8 * 32) sstatus.toNat).setWord 8 (pa + 8 * 33)
    sepc.toNat).setWord 8 (pa + 8 * 2) (reg Reg.sp).toNat

variable {pa : Nat} {reg : Reg → Word} {sstatus sepc : Word} {m : Mem}

/-- A doubleword that `__alltraps` does not write. -/
theorem word_saved {j : Nat} (hj : j ∉ general.map Fin.val) (h2 : j ≠ 2) (h32 : j ≠ 32) (h33 : j ≠ 33) :
    (saved pa reg sstatus sepc m).word 8 (pa + 8 * j) = m.word 8 (pa + 8 * j) := by
  rw [saved, word_setWord_slot _ _ h2.symm, word_setWord_slot _ _ h33.symm, word_setWord_slot _ _ h32.symm,
    word_saveRegs_of_not_mem hj]

theorem word_saved_sp : (saved pa reg sstatus sepc m).word 8 (pa + 8 * 2) = (reg Reg.sp).toNat := by
  rw [saved, word_setWord_reg]

theorem word_saved_general {r : Reg} (hr : r ∈ general) :
    (saved pa reg sstatus sepc m).word 8 (pa + 8 * r.val) = (reg r).toNat := by
  have hlt := r.isLt
  have hval : r.val ≠ 2 := fun hc => ((mem_general r).mp hr).2.1 (Fin.ext hc)
  rw [saved, word_setWord_slot _ _ hval.symm, word_setWord_slot _ _ (by omega), word_setWord_slot _ _ (by omega),
    word_saveRegs nodup_general hr]

theorem word_saved_reg (r : Reg) : (saved pa reg sstatus sepc m).word 8 (pa + 8 * r.val) =
    if r = 0 ∨ r = 4 then m.word 8 (pa + 8 * r.val) else (reg r).toNat := by
  have hlt := r.isLt
  by_cases hr : r ∈ general
  · have hne := (mem_general r).mp hr
    rw [if_neg (not_or.mpr ⟨hne.1, hne.2.2⟩), word_saved_general hr]
  · by_cases h2 : r = 2
    · subst h2
      rw [if_neg (by decide)]
      exact word_saved_sp
    · have h04 : r = 0 ∨ r = 4 := by
        rw [mem_general] at hr
        tauto
      have hval : r.val ≠ 2 := fun hc => h2 (Fin.ext hc)
      rw [if_pos h04]
      refine word_saved ?_ hval (by omega) (by omega)
      intro hmem
      obtain ⟨q, hq, hqr⟩ := List.mem_map.mp hmem
      exact hr (Fin.ext hqr ▸ hq)

theorem word_saved_kernel {j : Nat} (hj : 34 ≤ j) :
    (saved pa reg sstatus sepc m).word 8 (pa + 8 * j) = m.word 8 (pa + 8 * j) := by
  refine word_saved ?_ (by omega) (by omega) (by omega)
  intro hmem
  obtain ⟨q, _, hqj⟩ := List.mem_map.mp hmem
  have hq := q.isLt
  omega

theorem readTrapContext_saved : readTrapContext (saved pa reg sstatus sepc m) pa =
    (readTrapContext m pa).save (fun r => (reg r).toNat) sstatus.toNat sepc.toNat := by
  have h32 : (saved pa reg sstatus sepc m).word 8 (pa + 8 * 32) = sstatus.toNat := by
    rw [saved, word_setWord_slot _ _ (by decide), word_setWord_slot _ _ (by decide), word_setWord_reg]
  have h33 : (saved pa reg sstatus sepc m).word 8 (pa + 8 * 33) = sepc.toNat := by
    rw [saved, word_setWord_slot _ _ (by decide), word_setWord_reg]
  simp only [readTrapContext, TrapContext.save, word_saved_reg, h32, h33, word_saved_kernel (Nat.le_refl 34),
    word_saved_kernel (Nat.le_add_right 34 1), word_saved_kernel (Nat.le_add_right 34 2)]

theorem beside_saved {ppn : Nat} : (contextWindow ppn).Beside m (saved (ppn * 4096) reg sstatus sepc m) := by
  have hregs : (contextWindow ppn).Beside m (saveRegs Fin.val (ppn * 4096) reg m general) :=
    fun x hx => saveRegs_of_outside slot_general hx
  exact ((hregs.setWord (slot_le (by decide)) _).setWord (slot_le (by decide)) _).setWord (slot_le (by decide)) _

/-! ## In -/

/-- The hart when `sp` and `sscratch` have changed places. -/
def turned (h : Hart) : Hart := (h.setCsr .sscratch (h.reg Reg.sp)).setReg Reg.sp (h.csr .sscratch)

/-- The hart when the general registers are saved. -/
def saving (ppn : Nat) (h : Hart) : Hart :=
  { turned h with mem := saveRegs Fin.val (ppn * 4096) (turned h).reg h.mem general }

/-- The hart when the trap context is complete. -/
def complete (ppn : Nat) (h : Hart) : Hart :=
  { (((turned h).setReg Reg.t0 (h.csr .sstatus)).setReg Reg.t1 (h.csr .sepc)).setReg Reg.t2 (h.reg Reg.sp) with
    mem := saved (ppn * 4096) h.reg (h.csr .sstatus) (h.csr .sepc) h.mem }

/-- A doubleword of the trap context. -/
def contextWord (ppn : Nat) (m : Mem) (j : Nat) : Word := BitVec.ofNat 64 (m.word 8 (ppn * 4096 + 8 * j))

/-- The hart at the jump. -/
def leaving (ppn : Nat) (h : Hart) : Hart :=
  ((((complete ppn h).setReg Reg.t0 (contextWord ppn h.mem 34)).setReg Reg.t1 (contextWord ppn h.mem 36)).setReg
    Reg.sp (contextWord ppn h.mem 35)).setCsr .satp (contextWord ppn h.mem 34)

section

variable {M : Machine} {L : Layout} {ppn : Nat} {h : Hart} {m : Mem} {satp : Word}

theorem pa_context (ppn : Nat) : (contextWindow ppn).pa = ppn * 4096 := rfl

theorem align_context (ppn : Nat) : (contextWindow ppn).va % 8 = 0 := by
  have hva : (contextWindow ppn).va = trapContext := rfl
  rw [hva]
  decide

theorem reg_turned {r : Reg} (hr : r ≠ Reg.sp) : (turned h).reg r = h.reg r := Hart.reg_setReg_of_ne _ hr _

theorem sp_turned : (turned h).reg Reg.sp = h.csr .sscratch := Hart.reg_setReg_self _ (by decide) _

theorem csr_turned {c : Csr} (hc : c ≠ .sscratch) : (turned h).csr c = h.csr c := Hart.csr_setCsr_of_ne _ hc _

theorem sscratch_turned : (turned h).csr .sscratch = h.reg Reg.sp := h.csr_setCsr_self .sscratch _

theorem csr_saving (ppn : Nat) (h : Hart) : (saving ppn h).csr = (turned h).csr := rfl

theorem reg_saving (ppn : Nat) (h : Hart) : (saving ppn h).reg = (turned h).reg := rfl

theorem mem_saving : (saving ppn h).mem = saveRegs Fin.val (ppn * 4096) h.reg h.mem general :=
  saveRegs_congr fun _ hr => reg_turned ((mem_general _).mp hr).2.1

theorem ready_turned (hr : Ready (contextWindow ppn) satp m h) : Ready (contextWindow ppn) satp m (turned h) :=
  (hr.setCsr (by decide) _).setReg _ _

theorem ready_saving (hr : Ready (contextWindow ppn) satp m h) : Ready (contextWindow ppn) satp m (saving ppn h) :=
  ⟨(ready_turned hr).satp, (ready_turned hr).mode,
    fun x hx => (saveRegs_of_outside slot_general hx).trans (hr.mem x hx)⟩

/-- The program's general registers are stored. -/
theorem saving_runs (hu : UserMaps M L ppn m satp) (hr : Ready (contextWindow ppn) satp m h)
    (hscratch : (h.csr .sscratch).toNat = trapContext) :
    Runs M (trampolineWindow L) (.csrrw Reg.sp .sscratch Reg.sp :: general.map saveGp) h (saving ppn h) := by
  have hsp : ((turned h).reg Reg.sp).toNat = (contextWindow ppn).va := by
    rw [sp_turned]
    exact hscratch
  have hruns := Runs.saves hu.fetch hu.store (ready_turned hr) hsp (align_context ppn) slot_general
  exact Runs.cons (hu.fetch.maps hr) (hr.exec_csrrw _ _ _) hruns

/-- A store to the trap context. -/
theorem exec_sd_context (hu : UserMaps M L ppn m satp) (hr : Ready (contextWindow ppn) satp m h)
    (hsp : (h.reg Reg.sp).toNat = trapContext) {r : Reg} {v : Word} (hv : h.reg r = v) {j : Nat} (hj : j < 37) :
    M.exec h (.sd r (8 * j) Reg.sp) = some { h with mem := h.mem.setWord 8 (ppn * 4096 + 8 * j) v.toNat } := by
  rw [Window.exec_sd (hu.store.maps hr) hsp (align_context ppn) (slot_le hj), hv, pa_context]

/-- A load from the trap context. -/
theorem exec_ld_context (hu : UserMaps M L ppn m satp) (hr : Ready (contextWindow ppn) satp m h)
    (hsp : (h.reg Reg.sp).toNat = trapContext) (r : Reg) {j : Nat} (hj : j < 37) :
    M.exec h (.ld r (8 * j) Reg.sp) = some (h.setReg r (contextWord ppn h.mem j)) := by
  rw [Window.exec_ld (hu.load.maps hr) hsp (align_context ppn) (slot_le hj), pa_context, contextWord]

theorem ready_store (hr : Ready (contextWindow ppn) satp m h) {j : Nat} (hj : j < 37) (w : Nat) :
    Ready (contextWindow ppn) satp m { h with mem := h.mem.setWord 8 (ppn * 4096 + 8 * j) w } := by
  rw [← pa_context]
  exact hr.setWord (slot_le hj) w

/-- The status registers and the stack of the program are stored. -/
theorem status_runs (hu : UserMaps M L ppn m satp) (hr : Ready (contextWindow ppn) satp m h)
    (hsp : (h.reg Reg.sp).toNat = trapContext) :
    Runs M (trampolineWindow L)
      [.csrr Reg.t0 .sstatus, .csrr Reg.t1 .sepc, .sd Reg.t0 (8 * 32) Reg.sp, .sd Reg.t1 (8 * 33) Reg.sp,
        .csrr Reg.t2 .sscratch, .sd Reg.t2 (8 * 2) Reg.sp] h
      { ((h.setReg Reg.t0 (h.csr .sstatus)).setReg Reg.t1 (h.csr .sepc)).setReg Reg.t2 (h.csr .sscratch) with
        mem := ((h.mem.setWord 8 (ppn * 4096 + 8 * 32) (h.csr .sstatus).toNat).setWord 8 (ppn * 4096 + 8 * 33)
          (h.csr .sepc).toNat).setWord 8 (ppn * 4096 + 8 * 2) (h.csr .sscratch).toNat } := by
  have hr₁ := hr.setReg Reg.t0 (h.csr .sstatus)
  have hr₂ := hr₁.setReg Reg.t1 (h.csr .sepc)
  have hr₃ := ready_store hr₂ (show 32 < 37 by decide) (h.csr .sstatus).toNat
  have hr₄ := ready_store hr₃ (show 33 < 37 by decide) (h.csr .sepc).toNat
  have hr₅ := hr₄.setReg Reg.t2 (h.csr .sscratch)
  have hsp₂ : (((h.setReg Reg.t0 (h.csr .sstatus)).setReg Reg.t1 (h.csr .sepc)).reg Reg.sp).toNat =
      trapContext := by
    rw [Hart.reg_setReg_of_ne _ (by decide), Hart.reg_setReg_of_ne _ (by decide), hsp]
  have ht0 : ((h.setReg Reg.t0 (h.csr .sstatus)).setReg Reg.t1 (h.csr .sepc)).reg Reg.t0 = h.csr .sstatus := by
    rw [Hart.reg_setReg_of_ne _ (by decide), Hart.reg_setReg_self _ (by decide)]
  refine Runs.cons (hu.fetch.maps hr) (hr.exec_csrr Reg.t0 .sstatus) ?_
  refine Runs.cons (hu.fetch.maps hr₁) (hr₁.exec_csrr Reg.t1 .sepc) ?_
  refine Runs.cons (hu.fetch.maps hr₂) (exec_sd_context hu hr₂ hsp₂ ht0 (by decide)) ?_
  refine Runs.cons (hu.fetch.maps hr₃) (exec_sd_context hu hr₃ hsp₂ (h.reg_setReg_self (by decide) _) (by decide)) ?_
  refine Runs.cons (hu.fetch.maps hr₄) (hr₄.exec_csrr Reg.t2 .sscratch) ?_
  refine Runs.cons (hu.fetch.maps hr₅) (exec_sd_context hu hr₅ ?_ (Hart.reg_setReg_self _ (by decide) _) (by decide))
    (Runs.nil _)
  rw [Hart.reg_setReg_of_ne _ (by decide)]
  exact hsp₂

/-- The kernel's stack and page table are loaded. -/
theorem kernel_runs (hu : UserMaps M L ppn m satp) (hr : Ready (contextWindow ppn) satp m h)
    (hsp : (h.reg Reg.sp).toNat = trapContext) (hk : Trampled M L ppn m (contextWord ppn h.mem 34)) :
    Runs M (trampolineWindow L)
      [.ld Reg.t0 (8 * 34) Reg.sp, .ld Reg.t1 (8 * 36) Reg.sp, .ld Reg.sp (8 * 35) Reg.sp, .csrw .satp Reg.t0,
        .sfenceVma] h
      ((((h.setReg Reg.t0 (contextWord ppn h.mem 34)).setReg Reg.t1 (contextWord ppn h.mem 36)).setReg Reg.sp
        (contextWord ppn h.mem 35)).setCsr .satp (contextWord ppn h.mem 34)) := by
  have hr₁ := hr.setReg Reg.t0 (contextWord ppn h.mem 34)
  have hr₂ := hr₁.setReg Reg.t1 (contextWord ppn h.mem 36)
  have hr₃ := hr₂.setReg Reg.sp (contextWord ppn h.mem 35)
  have hr₄ := hr₃.setSatp (contextWord ppn h.mem 34)
  have hsp₁ : ((h.setReg Reg.t0 (contextWord ppn h.mem 34)).reg Reg.sp).toNat = trapContext := by
    rw [Hart.reg_setReg_of_ne _ (by decide), hsp]
  have hsp₂ : (((h.setReg Reg.t0 (contextWord ppn h.mem 34)).setReg Reg.t1 (contextWord ppn h.mem 36)).reg
      Reg.sp).toNat = trapContext := by
    rw [Hart.reg_setReg_of_ne _ (by decide), hsp₁]
  have ht0 : (((h.setReg Reg.t0 (contextWord ppn h.mem 34)).setReg Reg.t1 (contextWord ppn h.mem 36)).setReg Reg.sp
      (contextWord ppn h.mem 35)).reg Reg.t0 = contextWord ppn h.mem 34 := by
    rw [Hart.reg_setReg_of_ne _ (by decide), Hart.reg_setReg_of_ne _ (by decide), Hart.reg_setReg_self _ (by decide)]
  refine Runs.cons (hu.fetch.maps hr) (exec_ld_context hu hr hsp Reg.t0 (by decide)) ?_
  refine Runs.cons (hu.fetch.maps hr₁) (exec_ld_context hu hr₁ hsp₁ Reg.t1 (by decide)) ?_
  refine Runs.cons (hu.fetch.maps hr₂) (exec_ld_context hu hr₂ hsp₂ Reg.sp (by decide)) ?_
  refine Runs.cons (hu.fetch.maps hr₃) ((hr₃.exec_csrw .satp Reg.t0).trans (by rw [ht0])) ?_
  -- from here on the instructions are fetched in the kernel's address space
  exact Runs.cons (hk.maps hr₄) hr₄.exec_sfenceVma (Runs.nil _)

theorem toNat_contextWord (ppn : Nat) (m : Mem) (j : Nat) :
    (contextWord ppn m j).toNat = m.word 8 (ppn * 4096 + 8 * j) := by
  rw [contextWord, BitVec.toNat_ofNat]
  exact Nat.mod_eq_of_lt (m.word_lt 8 _)

theorem readTrapContext_kernelSatp (m : Mem) (ppn : Nat) :
    (contextWord ppn m 34).toNat = (contextAt m ppn).kernelSatp ∧
      (contextWord ppn m 35).toNat = (contextAt m ppn).kernelSp ∧
      (contextWord ppn m 36).toNat = (contextAt m ppn).trapHandler := by
  exact ⟨toNat_contextWord ppn m 34, toNat_contextWord ppn m 35, toNat_contextWord ppn m 36⟩

theorem complete_runs (hu : UserMaps M L ppn m satp) (hr : Ready (contextWindow ppn) satp m h)
    (hscratch : (h.csr .sscratch).toNat = trapContext) :
    Runs M (trampolineWindow L)
      [.csrr Reg.t0 .sstatus, .csrr Reg.t1 .sepc, .sd Reg.t0 (8 * 32) Reg.sp, .sd Reg.t1 (8 * 33) Reg.sp,
        .csrr Reg.t2 .sscratch, .sd Reg.t2 (8 * 2) Reg.sp] (saving ppn h) (complete ppn h) := by
  have hsp : ((saving ppn h).reg Reg.sp).toNat = trapContext := by rw [reg_saving, sp_turned, hscratch]
  have hstatus := status_runs hu (ready_saving hr) hsp
  rw [mem_saving, csr_saving, csr_turned (c := .sstatus) (by decide), csr_turned (c := .sepc) (by decide),
    sscratch_turned] at hstatus
  exact hstatus

theorem ready_complete (hr : Ready (contextWindow ppn) satp h.mem h) :
    Ready (contextWindow ppn) satp h.mem (complete ppn h) :=
  ⟨(ready_turned hr).satp, (ready_turned hr).mode, beside_saved⟩

theorem contextWord_complete {j : Nat} (hj : 34 ≤ j) :
    contextWord ppn (complete ppn h).mem j = contextWord ppn h.mem j := by
  have hword : (complete ppn h).mem.word 8 (ppn * 4096 + 8 * j) = h.mem.word 8 (ppn * 4096 + 8 * j) :=
    word_saved_kernel hj
  rw [contextWord, hword, contextWord]

theorem csr_complete (ppn : Nat) (h : Hart) : (complete ppn h).csr = (turned h).csr := rfl

theorem reg_complete (ppn : Nat) (h : Hart) : (complete ppn h).reg = ((((turned h).setReg Reg.t0
    (h.csr .sstatus)).setReg Reg.t1 (h.csr .sepc)).setReg Reg.t2 (h.reg Reg.sp)).reg := rfl

theorem sp_complete : (complete ppn h).reg Reg.sp = h.csr .sscratch := by
  rw [reg_complete, Hart.reg_setReg_of_ne _ (by decide), Hart.reg_setReg_of_ne _ (by decide),
    Hart.reg_setReg_of_ne _ (by decide), sp_turned]

theorem leaving_runs (hu : UserMaps M L ppn h.mem satp) (hr : Ready (contextWindow ppn) satp h.mem h)
    (hscratch : (h.csr .sscratch).toNat = trapContext)
    (hk : Trampled M L ppn h.mem (contextWord ppn h.mem 34)) :
    Runs M (trampolineWindow L) allTrapsCode h (leaving ppn h) := by
  have hsp : ((complete ppn h).reg Reg.sp).toNat = trapContext := by rw [sp_complete, hscratch]
  have hk' : Trampled M L ppn h.mem (contextWord ppn (complete ppn h).mem 34) := by
    rw [contextWord_complete (Nat.le_refl 34)]
    exact hk
  have hkernel := kernel_runs hu (ready_complete hr) hsp hk'
  rw [contextWord_complete (Nat.le_refl 34), contextWord_complete (Nat.le_add_right 34 1),
    contextWord_complete (Nat.le_add_right 34 2)] at hkernel
  exact (saving_runs hu hr hscratch).append ((complete_runs hu hr hscratch).append hkernel)

theorem reg_leaving {r : Reg} (hr : r ∉ [Reg.sp, Reg.t0, Reg.t1, Reg.t2]) : (leaving ppn h).reg r = h.reg r := by
  simp only [List.mem_cons, List.not_mem_nil, or_false, not_or] at hr
  obtain ⟨hsp, ht0, ht1, ht2⟩ := hr
  rw [leaving, Hart.reg_setCsr, Hart.reg_setReg_of_ne _ hsp, Hart.reg_setReg_of_ne _ ht1,
    Hart.reg_setReg_of_ne _ ht0, reg_complete, Hart.reg_setReg_of_ne _ ht2, Hart.reg_setReg_of_ne _ ht1,
    Hart.reg_setReg_of_ne _ ht0, reg_turned hsp]

theorem t1_leaving : (leaving ppn h).reg Reg.t1 = contextWord ppn h.mem 36 := by
  rw [leaving, Hart.reg_setCsr, Hart.reg_setReg_of_ne _ (by decide), Hart.reg_setReg_self _ (by decide)]

theorem sp_leaving : (leaving ppn h).reg Reg.sp = contextWord ppn h.mem 35 := by
  rw [leaving, Hart.reg_setCsr, Hart.reg_setReg_self _ (by decide)]

theorem satp_leaving : (leaving ppn h).csr .satp = contextWord ppn h.mem 34 := by
  rw [leaving, Hart.csr_setCsr_self]
  rfl

theorem sscratch_leaving : (leaving ppn h).csr .sscratch = h.reg Reg.sp := by
  rw [leaving, Hart.csr_setCsr_of_ne _ (by decide), Hart.setReg_csr, Hart.setReg_csr, Hart.setReg_csr, csr_complete,
    sscratch_turned]

theorem csr_leaving {c : Csr} (hs : c ≠ .satp) (hc : c ≠ .sscratch) : (leaving ppn h).csr c = h.csr c := by
  rw [leaving, Hart.csr_setCsr_of_ne _ hs, Hart.setReg_csr, Hart.setReg_csr, Hart.setReg_csr, csr_complete,
    csr_turned hc]

theorem mem_leaving (ppn : Nat) (h : Hart) :
    (leaving ppn h).mem = saved (ppn * 4096) h.reg (h.csr .sstatus) (h.csr .sepc) h.mem := rfl

theorem entered_leaving (hmode : h.mode = .supervisor) :
    Entered ppn h { leaving ppn h with pc := ((leaving ppn h).reg Reg.t1).toNat / 2 * 2 } := by
  obtain ⟨hsatp, hsp, hhandler⟩ := readTrapContext_kernelSatp h.mem ppn
  have hm := mem_leaving ppn h
  have ht1 : (leaving ppn h).reg Reg.t1 = contextWord ppn h.mem 36 := t1_leaving
  have hkernel : (leaving ppn h).reg Reg.sp = contextWord ppn h.mem 35 := sp_leaving
  have htable : (leaving ppn h).csr .satp = contextWord ppn h.mem 34 := satp_leaving
  have hscratch : (leaving ppn h).csr .sscratch = h.reg Reg.sp := sscratch_leaving
  have hreg : ∀ r, r ∉ [Reg.sp, Reg.t0, Reg.t1, Reg.t2] → (leaving ppn h).reg r = h.reg r := fun _ => reg_leaving
  have hcsr : ∀ c, c ≠ .satp → c ≠ .sscratch → (leaving ppn h).csr c = h.csr c := fun _ => csr_leaving
  have hmode' : (leaving ppn h).mode = .supervisor := hmode
  generalize leaving ppn h = g at *
  refine ⟨?_, hmode', ?_, ?_, ?_, hreg, ?_, hscratch, hcsr⟩
  · rw [ht1, hhandler]
  · rw [contextAt, hm]
    exact readTrapContext_saved
  · rw [hm]
    exact beside_saved
  · exact (congrArg _ hkernel).trans hsp
  · rw [htable, hsatp]

/-- **`__alltraps`** saves the registers of the program in its trap context and jumps to `trap_handler`
on the kernel's stack and page table. -/
theorem allTraps_steps (hu : UserMaps M L ppn h.mem (h.csr .satp)) (hmode : h.mode = .supervisor)
    (hscratch : (h.csr .sscratch).toNat = trapContext)
    (hk : Trampled M L ppn h.mem (contextWord ppn h.mem 34)) {o : Nat} {rest : List Insn}
    (hat : (trampolineWindow L).At M o (allTraps ++ rest)) :
    ∃ h', M.Steps ((trampolineWindow L).put o h) h' ∧ Entered ppn h h' := by
  have hr : Ready (contextWindow ppn) (h.csr .satp) h.mem h := ⟨rfl, hmode, Window.Beside.refl _ _⟩
  have hopen : Ready (contextWindow ppn) (contextWord ppn h.mem 34) h.mem (leaving ppn h) :=
    (((ready_complete hr).setReg _ _).setReg _ _ |>.setReg _ _).setSatp _
  rw [allTraps, List.append_assoc] at hat
  exact ⟨_, (leaving_runs hu hr hscratch hk).jr (hk.maps hopen) hat, entered_leaving hmode⟩

/-! ## Out -/

/-- The hart in the address space of the program, with `sp` at the trap context. -/
def facing (h : Hart) : Hart :=
  ((h.setCsr .satp (h.reg Reg.a1)).setCsr .sscratch (h.reg Reg.a0)).setReg Reg.sp (h.reg Reg.a0)

/-- The hart with the status registers of the program. -/
def statused (ppn : Nat) (h : Hart) : Hart :=
  (((h.setReg Reg.t0 (contextWord ppn h.mem 32)).setReg Reg.t1 (contextWord ppn h.mem 33)).setCsr .sstatus
    (contextWord ppn h.mem 32)).setCsr .sepc (contextWord ppn h.mem 33)

theorem facing_runs {table : Word} (hk : Trampled M L ppn h.mem table) (hu : UserMaps M L ppn h.mem (h.reg Reg.a1))
    (hr : Ready (contextWindow ppn) table h.mem h) :
    Runs M (trampolineWindow L) [.csrw .satp Reg.a1, .sfenceVma, .csrw .sscratch Reg.a0, .mv Reg.sp Reg.a0] h
      (facing h) := by
  have hr₁ := hr.setSatp (h.reg Reg.a1)
  have hr₂ := hr₁.setCsr (show Csr.sscratch ≠ .satp by decide) (h.reg Reg.a0)
  refine Runs.cons (hk.maps hr) (hr.exec_csrw .satp Reg.a1) ?_
  -- from here on the instructions are fetched in the address space of the program
  refine Runs.cons (hu.fetch.maps hr₁) hr₁.exec_sfenceVma ?_
  refine Runs.cons (hu.fetch.maps hr₁) (hr₁.exec_csrw .sscratch Reg.a0) ?_
  exact Runs.cons (hu.fetch.maps hr₂) rfl (Runs.nil _)

theorem statused_runs (hu : UserMaps M L ppn m satp) (hr : Ready (contextWindow ppn) satp m h)
    (hsp : (h.reg Reg.sp).toNat = trapContext) :
    Runs M (trampolineWindow L)
      [.ld Reg.t0 (8 * 32) Reg.sp, .ld Reg.t1 (8 * 33) Reg.sp, .csrw .sstatus Reg.t0, .csrw .sepc Reg.t1] h
      (statused ppn h) := by
  have hr₁ := hr.setReg Reg.t0 (contextWord ppn h.mem 32)
  have hr₂ := hr₁.setReg Reg.t1 (contextWord ppn h.mem 33)
  have hr₃ := hr₂.setCsr (show Csr.sstatus ≠ .satp by decide) (contextWord ppn h.mem 32)
  have hsp₁ : ((h.setReg Reg.t0 (contextWord ppn h.mem 32)).reg Reg.sp).toNat = trapContext := by
    rw [Hart.reg_setReg_of_ne _ (by decide), hsp]
  have ht0 : ((h.setReg Reg.t0 (contextWord ppn h.mem 32)).setReg Reg.t1 (contextWord ppn h.mem 33)).reg Reg.t0 =
      contextWord ppn h.mem 32 := by
    rw [Hart.reg_setReg_of_ne _ (by decide), Hart.reg_setReg_self _ (by decide)]
  have ht1 : (((h.setReg Reg.t0 (contextWord ppn h.mem 32)).setReg Reg.t1 (contextWord ppn h.mem 33)).setCsr .sstatus
      (contextWord ppn h.mem 32)).reg Reg.t1 = contextWord ppn h.mem 33 := by
    rw [Hart.reg_setCsr, Hart.reg_setReg_self _ (by decide)]
  refine Runs.cons (hu.fetch.maps hr) (exec_ld_context hu hr hsp Reg.t0 (by decide)) ?_
  refine Runs.cons (hu.fetch.maps hr₁) (exec_ld_context hu hr₁ hsp₁ Reg.t1 (by decide)) ?_
  refine Runs.cons (hu.fetch.maps hr₂) ((hr₂.exec_csrw .sstatus Reg.t0).trans (by rw [ht0])) ?_
  refine Runs.cons (hu.fetch.maps hr₃) ((hr₃.exec_csrw .sepc Reg.t1).trans (by rw [ht1])) ?_
  exact Runs.nil _

/-- The hart at `sret`. -/
def restored (ppn : Nat) (h : Hart) : Hart :=
  (loadRegs Fin.val (ppn * 4096) (statused ppn (facing h)) general).setReg Reg.sp (contextWord ppn h.mem 2)

theorem csr_restored (ppn : Nat) (h : Hart) : (restored ppn h).csr = (statused ppn (facing h)).csr := by
  rw [restored, loadRegs_eq]
  rfl

theorem mem_restored (ppn : Nat) (h : Hart) : (restored ppn h).mem = h.mem := by
  rw [restored, loadRegs_eq]
  rfl

theorem mode_restored (ppn : Nat) (h : Hart) : (restored ppn h).mode = h.mode := by
  rw [restored, loadRegs_eq]
  rfl

theorem reg_statused {r : Reg} (h0 : r ≠ Reg.t0) (h1 : r ≠ Reg.t1) : (statused ppn h).reg r = h.reg r := by
  rw [statused, Hart.reg_setCsr, Hart.reg_setCsr, Hart.reg_setReg_of_ne _ h1, Hart.reg_setReg_of_ne _ h0]

theorem sp_facing : (facing h).reg Reg.sp = h.reg Reg.a0 := by
  rw [facing, Hart.reg_setReg_self _ (by decide)]

theorem ready_facing {table : Word} (hr : Ready (contextWindow ppn) table m h) :
    Ready (contextWindow ppn) (h.reg Reg.a1) m (facing h) :=
  ((hr.setSatp _).setCsr (by decide) _).setReg _ _

theorem ready_statused (hr : Ready (contextWindow ppn) satp m h) :
    Ready (contextWindow ppn) satp m (statused ppn h) :=
  (((hr.setReg _ _).setReg _ _).setCsr (by decide) _).setCsr (by decide) _

theorem restored_runs {table : Word} (hk : Trampled M L ppn h.mem table)
    (hu : UserMaps M L ppn h.mem (h.reg Reg.a1)) (hr : Ready (contextWindow ppn) table h.mem h)
    (ha0 : (h.reg Reg.a0).toNat = trapContext) :
    Runs M (trampolineWindow L) restoreCode h (restored ppn h) := by
  have hr₁ := ready_facing hr
  have hr₂ := ready_statused hr₁
  have hsp₁ : ((facing h).reg Reg.sp).toNat = trapContext := by rw [sp_facing, ha0]
  have hsp₂ : ((statused ppn (facing h)).reg Reg.sp).toNat = (contextWindow ppn).va := by
    rw [reg_statused (by decide) (by decide), hsp₁]
    rfl
  have hloads := Runs.loads hu.fetch hu.load hr₂ hsp₂ (align_context ppn) (by decide) slot_general
  have hr₃ : Ready (contextWindow ppn) (h.reg Reg.a1) h.mem
      (loadRegs Fin.val (ppn * 4096) (statused ppn (facing h)) general) := by
    rw [loadRegs_eq]
    exact ⟨hr₂.satp, hr₂.mode, hr₂.mem⟩
  have hsp₃ : ((loadRegs Fin.val (ppn * 4096) (statused ppn (facing h)) general).reg Reg.sp).toNat = trapContext := by
    have hne : Reg.sp ∉ general := by decide
    rw [loadRegs_eq, Hart.reg, if_neg (by decide)]
    simp only [if_neg hne]
    rw [← Hart.reg_of_ne _ (by decide), reg_statused (by decide) (by decide), hsp₁]
  have hmem₃ : (loadRegs Fin.val (ppn * 4096) (statused ppn (facing h)) general).mem = h.mem := by
    rw [loadRegs_eq]
    rfl
  have hlast := Runs.cons (hu.fetch.maps hr₃) (exec_ld_context hu hr₃ hsp₃ Reg.sp (show 2 < 37 by decide)) (Runs.nil _)
  rw [hmem₃] at hlast
  exact (facing_runs hk hu hr).append ((statused_runs hu hr₁ hsp₁).append (hloads.append hlast))

theorem reg_facing {r : Reg} (hr : r ≠ Reg.sp) : (facing h).reg r = h.reg r := by
  rw [facing, Hart.reg_setReg_of_ne _ hr, Hart.reg_setCsr, Hart.reg_setCsr]

theorem reg_restored {r : Reg} (h0 : r ≠ 0) (h4 : r ≠ 4) : (restored ppn h).reg r = contextWord ppn h.mem r.val := by
  by_cases h2 : r = Reg.sp
  · subst h2
    rw [restored, Hart.reg_setReg_self _ (by decide)]
    rfl
  · have hgen : r ∈ general := (mem_general r).mpr ⟨h0, h2, h4⟩
    rw [restored, Hart.reg_setReg_of_ne _ h2, loadRegs_eq, Hart.reg_of_ne _ h0]
    simp only [if_pos hgen]
    rfl

theorem tp_restored : (restored ppn h).reg 4 = h.reg 4 := by
  have hgen : (4 : Reg) ∉ general := by decide
  rw [restored, Hart.reg_setReg_of_ne _ (by decide), loadRegs_eq, Hart.reg_of_ne _ (by decide)]
  simp only [if_neg hgen]
  rw [← Hart.reg_of_ne _ (by decide), reg_statused (by decide) (by decide), reg_facing (by decide)]

theorem csr_statused {c : Csr} (hs : c ≠ .sstatus) (hc : c ≠ .sepc) : (statused ppn h).csr c = h.csr c := by
  rw [statused, Hart.csr_setCsr_of_ne _ hc, Hart.csr_setCsr_of_ne _ hs, Hart.setReg_csr, Hart.setReg_csr]

theorem sepc_restored : (restored ppn h).csr .sepc = Csr.sepc.keep (contextWord ppn h.mem 33) := by
  rw [csr_restored, statused, Hart.csr_setCsr_self]
  rfl

theorem sstatus_restored : (restored ppn h).csr .sstatus = contextWord ppn h.mem 32 := by
  rw [csr_restored, statused, Hart.csr_setCsr_of_ne _ (by decide), Hart.csr_setCsr_self]
  rfl

theorem satp_restored : (restored ppn h).csr .satp = h.reg Reg.a1 := by
  rw [csr_restored, csr_statused (by decide) (by decide), facing, Hart.setReg_csr,
    Hart.csr_setCsr_of_ne _ (by decide), Hart.csr_setCsr_self]
  rfl

theorem sscratch_restored : (restored ppn h).csr .sscratch = h.reg Reg.a0 := by
  rw [csr_restored, csr_statused (by decide) (by decide), facing, Hart.setReg_csr, Hart.csr_setCsr_self]
  rfl

theorem stvec_restored : (restored ppn h).csr .stvec = h.csr .stvec := by
  rw [csr_restored, csr_statused (by decide) (by decide), facing, Hart.setReg_csr,
    Hart.csr_setCsr_of_ne _ (by decide), Hart.csr_setCsr_of_ne _ (by decide)]

theorem resumed_restored (ppn : Nat) (h : Hart) : Resumed ppn h (restored ppn h).sret := by
  refine ⟨?_, ?_, ?_, ?_, ?_, ?_, ?_, ?_⟩
  · rw [Hart.sret_pc, sepc_restored, Csr.toNat_keep_sepc, toNat_contextWord, contextAt, readTrapContext]
  · rw [Hart.sret_mode, sstatus_restored, contextWord, contextAt, readTrapContext]
  · intro r h0 h4
    rw [Hart.sret_reg, reg_restored h0 h4, toNat_contextWord, contextAt, readTrapContext]
  · rw [Hart.sret_reg, tp_restored]
  · rw [Hart.sret_mem, mem_restored]
  · rw [Hart.sret_csr _ (by decide), satp_restored]
  · rw [Hart.sret_csr _ (by decide), sscratch_restored]
  · rw [Hart.sret_csr _ (by decide), stvec_restored]

/-- **`__restore`** gives the program the registers of its trap context. -/
theorem restore_steps (hk : Trampled M L ppn h.mem (h.csr .satp))
    (hu : UserMaps M L ppn h.mem (h.reg Reg.a1)) (hmode : h.mode = .supervisor)
    (ha0 : (h.reg Reg.a0).toNat = trapContext) {o : Nat} {rest : List Insn}
    (hat : (trampolineWindow L).At M o (restore ++ rest)) :
    ∃ h', M.Steps ((trampolineWindow L).put o h) h' ∧ Resumed ppn h h' := by
  have hr : Ready (contextWindow ppn) (h.csr .satp) h.mem h := ⟨rfl, hmode, Window.Beside.refl _ _⟩
  have hopen : Ready (contextWindow ppn) (h.reg Reg.a1) h.mem (restored ppn h) := by
    refine ⟨satp_restored, (mode_restored ppn h).trans hmode, ?_⟩
    rw [mem_restored]
    exact Window.Beside.refl _ _
  rw [restore, List.append_assoc] at hat
  exact ⟨_, (restored_runs hk hu hr ha0).sret (hu.fetch.maps hopen) hopen.mode hat, resumed_restored ppn h⟩

end

end Trampoline

end RCore.Task
