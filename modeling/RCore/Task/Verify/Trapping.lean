import RCore.Mm.Verify.Access
import RCore.Task.Verify.Trampoline

/-!
# A trap on the page tables of the kernel

The trampoline under the address spaces that the kernel builds, on a hart that translates with Sv39. A
trap of a program arrives in `trap_handler` with the registers of the program in its trap context, and
`trap_return` gives the program the registers of the context, so that a trap whose context the kernel
leaves alone is not seen by the program.
-/

namespace RCore.Task

open RCore Mm Riscv

/-! ## The spaces have what the trampoline needs -/

section Maps

variable {L : Layout} {rest : List Nat} {s s' : Phys} {ms ks : MemorySet} {ppn : Nat} {m : Mem} {satp : Word}
  {text : Nat → Option (Insn × Nat)}

theorem eq_of_token {token : Nat} (h : satp.toNat = token) : satp = BitVec.ofNat 64 token := by
  rw [← h, BitVec.ofNat_toNat, BitVec.setWidth_eq]

/-- The trap context lies in its frame. -/
theorem sameOn_beside {fs : List Nat} (hppn : ppn ∉ fs) {m' : Mem} (h : (contextWindow ppn).Beside m m') :
    SameOn fs m m' := by
  intro f hf x hx
  have hne : f ≠ ppn := fun hc => hppn (hc ▸ hf)
  have hpa : (contextWindow ppn).pa = ppn * 4096 := rfl
  have hsize : (contextWindow ppn).size = 296 := rfl
  refine h x ?_
  rw [hpa, hsize]
  omega

/-- A store to the trap context leaves the space alone. -/
theorem wired_beside (h : Wired L rest s ms) (hppn : ppn ∉ ms.pageTable.frames) {m' : Mem}
    (hb : (contextWindow ppn).Beside s.mem m') : Wired L rest { s with mem := m' } ms :=
  h.congr (sameOn_beside hppn hb) h.good.held

/-- Every space that the kernel builds has the trampoline. -/
theorem trampled_of_wired (h : Wired L rest s ms) (hppn : ppn ∉ ms.pageTable.frames)
    (hsatp : satp.toNat = ms.token) : Trampled (sv39Machine text) L ppn s.mem satp := by
  intro m' hb sstatus o ho
  have hva : (trampolineWindow L).va = 2 ^ 64 - 4096 := rfl
  have hsize : (trampolineWindow L).size = 4096 := rfl
  have hpa : (trampolineWindow L).pa = L.trampolinePpn * 4096 := rfl
  rw [hsize] at ho
  rw [hva, hpa, eq_of_token hsatp]
  refine ((wired_beside h hppn hb).translate_area_iff ?_).mpr (Or.inl ⟨?_, rfl, ?_⟩)
  · rw [Sv39.canonical, decide_eq_true_eq]
    omega
  · rw [trampolineVpn]
    omega
  · omega

/-- The hart takes the entry of a trap context. -/
theorem isLegal_of_trap (h : Good L rest s ms) {v : Nat} {e : PageTableEntry} (he : (v, e) ∈ ms.entries L)
    (hf : e.flags = PTEFlags.R ||| PTEFlags.W ||| PTEFlags.V) : e.isLegal = true := by
  have hbits : e.bits / 2 ^ 54 = 0 := Nat.div_eq_of_lt (h.bits_lt he)
  rw [PageTableEntry.isLegal, PageTableEntry.isValid, PageTableEntry.has, PageTableEntry.has, hf, hbits]
  decide

/-- The trap context of a space, for the supervisor. -/
theorem context_in (h : Wired L rest s ms) (hppn : ppn ∉ ms.pageTable.frames) (ht : ms.TrapPage s.mem ppn)
    (hsatp : satp.toNat = ms.token) {acc : Access} (hacc : acc ≠ .fetch) :
    (contextWindow ppn).In (sv39Machine text) satp acc (contextWindow ppn) s.mem := by
  intro m' hb sstatus o ho
  obtain ⟨e, he, hppn', hflags⟩ := ht
  have hva : (contextWindow ppn).va = 2 ^ 64 - 8192 := rfl
  have hsize : (contextWindow ppn).size = 296 := rfl
  have hpa : (contextWindow ppn).pa = ppn * 4096 := rfl
  have hent := (h.good.translate _ e (by decide)).mp he
  rw [hsize] at ho
  rw [hva, hpa, eq_of_token hsatp]
  have hpage : (2 ^ 64 - 8192 + o) / 4096 % 2 ^ 27 = trapContextVpn := by
    rw [trapContextVpn]
    omega
  refine ((wired_beside h hppn hb).translate_iff ?_).mpr ⟨e, ?_, ⟨isLegal_of_trap h.good hent hflags, ?_⟩, ?_, ?_⟩
  · rw [Sv39.canonical, decide_eq_true_eq]
    omega
  · rw [hpage]
    exact hent
  · rw [PageTableEntry.isLeaf, PageTableEntry.has, hflags]
    rfl
  · cases acc with
    | fetch => exact absurd rfl hacc
    | load =>
      simp only [PageTableEntry.permits, allows, PageTableEntry.has, hflags]
      rfl
    | store =>
      simp only [PageTableEntry.permits, allows, PageTableEntry.has, hflags]
      rfl
  · rw [hppn']
    omega

theorem userMaps_of_wired (h : Wired L rest s ms) (hppn : ppn ∉ ms.pageTable.frames)
    (ht : ms.TrapPage s.mem ppn) (hsatp : satp.toNat = ms.token) :
    UserMaps (sv39Machine text) L ppn s.mem satp :=
  ⟨trampled_of_wired h hppn hsatp, context_in h hppn ht hsatp (by decide), context_in h hppn ht hsatp (by decide)⟩

/-- The spaces of a program and of the kernel in a memory, and the trap context of the program. -/
def Hosts (L : Layout) (m : Mem) (ms ks : MemorySet) (ppn : Nat) : Prop :=
  ∃ rest s, s.mem = m ∧ UserSpace L (ks.owned ++ rest) s ms ∧ KernelSpace L (ms.owned ++ rest) s ks ∧
    ms.TrapPage m ppn

theorem Hosts.userMaps (h : Hosts L m ms ks ppn) (hsatp : satp.toNat = ms.token) :
    UserMaps (sv39Machine text) L ppn m satp := by
  obtain ⟨rest, s, rfl, hu, _, ht⟩ := h
  obtain ⟨e, he, hppn, _⟩ := id ht
  refine userMaps_of_wired hu.wired ?_ ht hsatp
  rw [← hppn]
  exact fun hc => hu.good.1.ppn_apart hu.good.2 he (List.mem_append_left _ hc)

theorem Hosts.trampled (h : Hosts L m ms ks ppn) (hsatp : satp.toNat = ks.token) :
    Trampled (sv39Machine text) L ppn m satp := by
  obtain ⟨rest, s, rfl, hu, hk, ht⟩ := h
  obtain ⟨e, he, hppn, _⟩ := ht
  refine trampled_of_wired hk.wired.1 ?_ hsatp
  rw [← hppn]
  refine fun hc => hu.good.1.ppn_apart hu.good.2 he ?_
  exact List.mem_append_right _ (List.mem_append_left _ (List.mem_append_left _ hc))

/-- A store to the trap context. -/
theorem Hosts.beside (h : Hosts L m ms ks ppn) {m' : Mem} (hb : (contextWindow ppn).Beside m m') :
    Hosts L m' ms ks ppn := by
  obtain ⟨rest, s, rfl, hu, hk, ht⟩ := h
  obtain ⟨e, he, hppn, hflags⟩ := ht
  have hapart := hu.good.1.ppn_apart hu.good.2 he
  rw [hppn, List.mem_append, List.mem_append, not_or, not_or] at hapart
  have hus : SameOn ms.pageTable.frames s.mem m' := sameOn_beside hapart.1 hb
  have hks : SameOn ks.pageTable.frames s.mem m' :=
    sameOn_beside (fun hc => hapart.2.1 (List.mem_append_left _ hc)) hb
  refine ⟨rest, { s with mem := m' }, rfl, .other hu hus hu.good.1.held, .other hk hks hk.wired.1.good.held, e, ?_, hppn,
    hflags⟩
  rw [← he]
  exact hu.good.1.owns.tables.translate_congr hus _

end Maps

/-! ## In and out -/

/-- The trampoline is in memory: `__alltraps` and behind it `__restore`. -/
def Loaded (L : Layout) (text : Nat → Option (Insn × Nat)) (o : Nat) : Prop :=
  (trampolineWindow L).At (sv39Machine text) 0 Trampoline.allTraps ∧
    (trampolineWindow L).At (sv39Machine text) o Trampoline.restore

/-- **A program runs**: the registers of the hart that `trap_return` and `__restore` have set. -/
structure Running (L : Layout) (ms ks : MemorySet) (ppn : Nat) (h : Hart) : Prop where
  hosts : Hosts L h.mem ms ks ppn
  mode : h.mode = .user
  even : h.pc % 2 = 0 ∧ h.pc < 2 ^ 64
  satp : (h.csr .satp).toNat = ms.token
  sscratch : (h.csr .sscratch).toNat = trapContext
  stvec : (h.csr .stvec).toNat = trampoline
  kernelSatp : (contextAt h.mem ppn).kernelSatp = ks.token

section Round

variable {L : Layout} {ms ks : MemorySet} {ppn o : Nat} {h h' g : Hart} {text : Nat → Option (Insn × Nat)}

/-- What `trap_return` hands to `__restore`. -/
structure Returning (L : Layout) (ms ks : MemorySet) (ppn : Nat) (g : Hart) : Prop where
  hosts : Hosts L g.mem ms ks ppn
  mode : g.mode = .supervisor
  satp : (g.csr .satp).toNat = ks.token
  stvec : (g.csr .stvec).toNat = trampoline
  trapCxPtr : (g.reg Reg.a0).toNat = trapContext
  userSatp : (g.reg Reg.a1).toNat = ms.token
  kernelSatp : (contextAt g.mem ppn).kernelSatp = ks.token
  spp : Status.previous (BitVec.ofNat 64 (contextAt g.mem ppn).sstatus) = .user

/-- A hart at `__alltraps`. -/
theorem trap_at (hstvec : (h.csr .stvec).toNat = trampoline) (cause : Word) :
    h.trap cause = (trampolineWindow L).put 0 (h.trap cause) := by
  have hpc : (h.trap cause).pc = (h.csr .stvec).toNat / 4 * 4 := rfl
  have hva : ((trampolineWindow L).va + 0) % 2 ^ 64 = trampoline := rfl
  have hdiv : trampoline / 4 * 4 = trampoline := rfl
  rw [Window.put, hva]
  conv_rhs => rw [← hdiv, ← hstvec, ← hpc]

/-- **A trap** of a program arrives in `trap_handler`, and the spaces are as they were. -/
theorem Running.enters (hr : Running L ms ks ppn h) (ht : Loaded L text o) (cause : Word) :
    ∃ h', (sv39Machine text).Steps (h.trap cause) h' ∧ Entered ppn (h.trap cause) h' ∧
      Hosts L h'.mem ms ks ppn := by
  have hword : (Trampoline.contextWord ppn h.mem 34).toNat = ks.token := by
    rw [(Trampoline.readTrapContext_kernelSatp h.mem ppn).1, hr.kernelSatp]
  have hat := ht.1
  rw [← List.append_nil Trampoline.allTraps] at hat
  obtain ⟨h', hsteps, he⟩ := Trampoline.allTraps_steps (h := h.trap cause) (hr.hosts.userMaps hr.satp) rfl
    hr.sscratch (hr.hosts.trampled hword) hat
  rw [← trap_at hr.stvec cause] at hsteps
  exact ⟨h', hsteps, he, hr.hosts.beside he.beside⟩

/-- **`trap_return`** makes the program run with the registers of its trap context. -/
theorem Returning.resumes (hg : Returning L ms ks ppn g) (ht : Loaded L text o) :
    ∃ h', (sv39Machine text).Steps ((trampolineWindow L).put o g) h' ∧ Resumed ppn g h' ∧ Running L ms ks ppn h' := by
  have hat := ht.2
  rw [← List.append_nil Trampoline.restore] at hat
  obtain ⟨h', hsteps, hres⟩ := Trampoline.restore_steps (hg.hosts.trampled hg.satp) (hg.hosts.userMaps hg.userSatp)
    hg.mode hg.trapCxPtr hat
  refine ⟨h', hsteps, hres, ?_⟩
  refine ⟨hres.mem ▸ hg.hosts, hres.mode.trans hg.spp, ?_, ?_, ?_, ?_, ?_⟩
  · have hlt : (contextAt g.mem ppn).sepc < 2 ^ 64 := Mem.word_lt _ _ _
    rw [hres.pc]
    omega
  · rw [hres.satp, hg.userSatp]
  · rw [hres.sscratch, hg.trapCxPtr]
  · rw [hres.stvec, hg.stvec]
  · rw [hres.mem, hg.kernelSatp]

/-- The trap context behind a trap. -/
theorem Running.context (hr : Running L ms ks ppn h) {cause : Word} (he : Entered ppn (h.trap cause) h') :
    (contextAt h'.mem ppn).sepc = h.pc ∧
      Status.previous (BitVec.ofNat 64 (contextAt h'.mem ppn).sstatus) = .user ∧
      (contextAt h'.mem ppn).kernelSatp = ks.token ∧
      ∀ r, r ≠ 0 → r ≠ 4 → (contextAt h'.mem ppn).x r = (h.reg r).toNat := by
  have hsepc : ((h.trap cause).csr .sepc).toNat = h.pc := by
    have heven := hr.even
    have hcsr : (h.trap cause).csr .sepc = Csr.sepc.keep (BitVec.ofNat 64 h.pc) := rfl
    rw [hcsr, Csr.toNat_keep_sepc, BitVec.toNat_ofNat]
    omega
  have hstatus : (h.trap cause).csr .sstatus = Status.enter .user (h.csr .sstatus) := by
    rw [← hr.mode]
    rfl
  rw [he.context]
  refine ⟨hsepc, ?_, hr.kernelSatp, fun r h0 h4 => ?_⟩
  · show Status.previous (BitVec.ofNat 64 ((h.trap cause).csr .sstatus).toNat) = .user
    rw [BitVec.ofNat_toNat, BitVec.setWidth_eq, hstatus, Status.previous_enter]
  · show (if r = 0 ∨ r = 4 then _ else ((h.trap cause).reg r).toNat) = _
    rw [if_neg (not_or.mpr ⟨h0, h4⟩)]
    rfl

/-- The hart of a kernel that comes straight from `__alltraps` to `__restore`. -/
def returningFrom (h : Hart) (token : Nat) : Hart :=
  ((h.setReg Reg.a0 (BitVec.ofNat 64 trapContext)).setReg Reg.a1 (BitVec.ofNat 64 token)).setCsr .stvec
    (BitVec.ofNat 64 trampoline)

theorem Running.straightBack (hr : Running L ms ks ppn h) {cause : Word} (he : Entered ppn (h.trap cause) h')
    (hhosts : Hosts L h'.mem ms ks ppn) : Returning L ms ks ppn (returningFrom h' ms.token) := by
  have hlt : ms.token < 2 ^ 64 := by
    rw [← hr.satp]
    exact (h.csr .satp).isLt
  obtain ⟨_, hspp, hkernel, _⟩ := hr.context he
  have hsatp : (returningFrom h' ms.token).csr .satp = h'.csr .satp := Hart.csr_setCsr_of_ne _ (by decide) _
  have hstvec : (returningFrom h' ms.token).csr .stvec = BitVec.ofNat 64 trampoline := Hart.csr_setCsr_self _ .stvec _
  have ha0 : (returningFrom h' ms.token).reg Reg.a0 = BitVec.ofNat 64 trapContext := by
    rw [returningFrom, Hart.reg_setCsr, Hart.reg_setReg_of_ne _ (by decide), Hart.reg_setReg_self _ (by decide)]
  have ha1 : (returningFrom h' ms.token).reg Reg.a1 = BitVec.ofNat 64 ms.token := by
    rw [returningFrom, Hart.reg_setCsr, Hart.reg_setReg_self _ (by decide)]
  refine ⟨hhosts, he.mode, ?_, ?_, ?_, ?_, hkernel, hspp⟩
  · rw [hsatp, he.satp]
    exact hr.kernelSatp
  · rw [hstvec]
    rfl
  · rw [ha0]
    rfl
  · rw [ha1, BitVec.toNat_ofNat, Nat.mod_eq_of_lt hlt]

/-- The kernel has changed the trap context, and what else it likes. -/
theorem Returning.withMem (hg : Returning L ms ks ppn g) {m : Mem} (hhosts : Hosts L m ms ks ppn)
    (hkernel : (contextAt m ppn).kernelSatp = ks.token)
    (hspp : Status.previous (BitVec.ofNat 64 (contextAt m ppn).sstatus) = .user) :
    Returning L ms ks ppn { g with mem := m } :=
  ⟨hhosts, hg.mode, hg.satp, hg.stvec, hg.trapCxPtr, hg.userSatp, hkernel, hspp⟩

/-- A hart that comes back with the trap context it left is where it was, with its registers but `x4`. -/
theorem Running.same_after (hr : Running L ms ks ppn h) {cause : Word} {h₁ h₂ : Hart} (he : Entered ppn (h.trap cause) h₁)
    (hcx : contextAt g.mem ppn = contextAt h₁.mem ppn) (hres : Resumed ppn g h₂) :
    h₂.pc = h.pc ∧ ∀ r, r ≠ 4 → h₂.reg r = h.reg r := by
  obtain ⟨hsepc, _, _, hx⟩ := hr.context he
  have heven := hr.even
  refine ⟨?_, fun r h4 => ?_⟩
  · rw [hres.pc, hcx, hsepc]
    omega
  · by_cases h0 : r = 0
    · rw [h0, Hart.reg_zero, Hart.reg_zero]
    · have hreg := hres.reg r h0 h4
      rw [hcx, hx r h0 h4] at hreg
      exact BitVec.eq_of_toNat_eq hreg

/-- **A trap that the kernel answers with nothing is not seen**: the program goes on where it was, with
all its registers but `x4`. -/
theorem Running.trap_unseen (hr : Running L ms ks ppn h) (ht : Loaded L text o) (cause : Word) :
    ∃ h₁, (sv39Machine text).Steps (h.trap cause) h₁ ∧ Entered ppn (h.trap cause) h₁ ∧
      Hosts L h₁.mem ms ks ppn ∧ ∀ ks' g, Returning L ms ks' ppn g → contextAt g.mem ppn = contextAt h₁.mem ppn →
        ∃ h₂, (sv39Machine text).Steps ((trampolineWindow L).put o g) h₂ ∧ Running L ms ks' ppn h₂ ∧
          h₂.pc = h.pc ∧ (∀ r, r ≠ 4 → h₂.reg r = h.reg r) ∧ h₂.mem = g.mem := by
  obtain ⟨h₁, hsteps, he, hhosts⟩ := hr.enters ht cause
  refine ⟨h₁, hsteps, he, hhosts, fun ks' g hg hcx => ?_⟩
  obtain ⟨h₂, hsteps₂, hres, hr₂⟩ := hg.resumes ht
  obtain ⟨hpc, hreg⟩ := hr.same_after he hcx hres
  exact ⟨h₂, hsteps₂, hr₂, hpc, hreg, hres.mem⟩

/-- **A system call**: `trap_handler` moves `sepc` behind the `ecall` and puts the result into `a0`. The
program goes on behind the `ecall`, and its other registers are as they were. -/
theorem Running.answered (hr : Running L ms ks ppn h) (ht : Loaded L text o) (cause : Word) :
    ∃ h₁, (sv39Machine text).Steps (h.trap cause) h₁ ∧ Entered ppn (h.trap cause) h₁ ∧
      Hosts L h₁.mem ms ks ppn ∧ ∀ ks' g result, Returning L ms ks' ppn g → contextAt g.mem ppn = TrapContext.setA0
          { contextAt h₁.mem ppn with sepc := usizeAdd (contextAt h₁.mem ppn).sepc 4 } result →
        ∃ h₂, (sv39Machine text).Steps ((trampolineWindow L).put o g) h₂ ∧ Running L ms ks' ppn h₂ ∧
          h₂.pc = (h.pc + 4) % 2 ^ 64 ∧ (h₂.reg Reg.a0).toNat = result ∧
          (∀ r, r ≠ 4 → r ≠ Reg.a0 → h₂.reg r = h.reg r) ∧ h₂.mem = g.mem := by
  obtain ⟨h₁, hsteps, he, hhosts⟩ := hr.enters ht cause
  obtain ⟨hsepc, _, _, hx⟩ := hr.context he
  refine ⟨h₁, hsteps, he, hhosts, fun ks' g result hg hcx => ?_⟩
  obtain ⟨h₂, hsteps₂, hres, hr₂⟩ := hg.resumes ht
  have heven := hr.even
  have hsepc' : (contextAt g.mem ppn).sepc = (h.pc + 4) % 2 ^ 64 := by
    rw [hcx, ← hsepc]
    rfl
  refine ⟨h₂, hsteps₂, hr₂, ?_, ?_, fun r h4 ha => ?_, hres.mem⟩
  · rw [hres.pc, hsepc']
    omega
  · rw [hres.reg Reg.a0 (by decide) (by decide), hcx]
    show Function.update (contextAt h₁.mem ppn).x 10 result 10 = result
    rw [Function.update_self]
  · by_cases h0 : r = 0
    · rw [h0, Hart.reg_zero, Hart.reg_zero]
    · have hreg := hres.reg r h0 h4
      have hother : (contextAt g.mem ppn).x r = (contextAt h₁.mem ppn).x r := by
        rw [hcx]
        show Function.update (contextAt h₁.mem ppn).x 10 result r = _
        rw [Function.update_of_ne ha]
      rw [hother, hx r h0 h4] at hreg
      exact BitVec.eq_of_toNat_eq hreg

end Round

/-! ## A program that has just been loaded -/

theorem token_lt {L : Layout} {rest : List Nat} {s : Phys} {ms : MemorySet} (h : Good L rest s ms) :
    ms.token < 2 ^ 64 := by
  have hroot := h.root_lt
  rw [MemorySet.token, Sv39.token_eq hroot]
  omega

/-- The spaces of a kernel and of a program, with the page table of the kernel in the trap context. -/
theorem exists_hosts : ∃ m ms ks ppn, Hosts smallKernel m ms ks ppn ∧
    (contextAt m ppn).kernelSatp = ks.token := by
  obtain ⟨ks, s₁, hrun₁, hwhole, hfree, _⟩ := newKernel_ok (s := freshPhys) (held_init smallKernel)
    (by decide : 100 + 57 ≤ _)
  have hst : s₁.starved = false := hwhole.keeps.starved
  have hk : KernelSpace smallKernel [] s₁ ks := .newKernel (held_init smallKernel) hrun₁ hst
  have hh : Held smallKernel.firstFrame s₁.frames (ks.owned ++ []) := hk.wired.1.good.held
  obtain ⟨⟨ms, sp, entry⟩, s₂, hrun₂, hsite⟩ := fromElf_ok hh [] (by decide) 0 (by omega)
  have hu : UserSpace smallKernel (ks.owned ++ []) s₂ ms := .fromElf hh hrun₂
  obtain ⟨_, _, ppn, ht⟩ := fromElf_wlp hh _ _ _ hrun₂
  have hks : SameOn ks.pageTable.frames s₁.mem s₂.mem := hsite.whole.keeps.same.mono fun f hf =>
    List.mem_append_left _ (List.mem_append_left _ hf)
  have hk₂ : KernelSpace smallKernel (ms.owned ++ []) s₂ ks :=
    .other hk hks (hu.good.1.held.perm (List.perm_append_comm_assoc _ _ _))
  have hhosts : Hosts smallKernel s₂.mem ms ks ppn := ⟨[], s₂, rfl, hu, hk₂, ht⟩
  let m := s₂.mem.setWord 8 (ppn * 4096 + 8 * 34) ks.token
  have hb : (contextWindow ppn).Beside s₂.mem m :=
    (Window.Beside.refl _ _).setWord (Trampoline.slot_le (by decide)) _
  refine ⟨m, ms, ks, ppn, hhosts.beside hb, ?_⟩
  have hlt : ks.token < 256 ^ 8 := token_lt hk.wired.1.good
  show m.word 8 (ppn * 4096 + 8 * 34) = ks.token
  rw [Mem.word_setWord_same, Nat.mod_eq_of_lt hlt]

/-- The trampoline of a kernel, four bytes an instruction. -/
def trampolineText (L : Layout) : Nat → Option (Insn × Nat) :=
  wordText (L.trampolinePpn * 4096) (Trampoline.allTraps ++ Trampoline.restore)

theorem loaded_trampolineText (L : Layout) :
    Loaded L (trampolineText L) (4 * Trampoline.allTraps.length) := by
  have hin : Trampoline.allTraps.length = 42 := by decide
  have hout : Trampoline.restore.length = 39 := by decide
  have hsize : (trampolineWindow L).size = 4096 := rfl
  constructor
  · refine placed_wordText [] Trampoline.allTraps Trampoline.restore ?_
    rw [hsize, List.length_nil]
    exact Nat.add_le_add_left (by omega) _
  · have hat := @placed_wordText (trampolineWindow L).pa ((trampolineWindow L).pa + 4096)
      Trampoline.allTraps Trampoline.restore [] (by omega)
    rwa [List.append_nil] at hat

/-- A hart for `satp`. -/
def hartWith (satp a1 : Nat) (mode : Mode) (m : Mem) : Hart where
  pc := 0x10000
  x r := if r = Reg.a0 then BitVec.ofNat 64 trapContext else if r = Reg.a1 then BitVec.ofNat 64 a1 else 0
  csr
    | .satp => BitVec.ofNat 64 satp
    | .sscratch => BitVec.ofNat 64 trapContext
    | .stvec => BitVec.ofNat 64 trampoline
    | _ => 0
  mode := mode
  mem := m

theorem exists_running : ∃ ms ks ppn h, Running smallKernel ms ks ppn h := by
  obtain ⟨m, ms, ks, ppn, hhosts, hkernel⟩ := exists_hosts
  have hlt : ms.token < 2 ^ 64 := by
    obtain ⟨_, _, _, hu, _⟩ := hhosts
    exact token_lt hu.good.1
  have hpc : 0x10000 % 2 = 0 ∧ 0x10000 < 2 ^ 64 := by decide
  refine ⟨ms, ks, ppn, hartWith ms.token 0 .user m, hhosts, rfl, hpc, ?_, rfl, rfl, hkernel⟩
  exact (BitVec.toNat_ofNat _ _).trans (Nat.mod_eq_of_lt hlt)

/-- A kernel that comes straight back is met by `__restore`. -/
theorem exists_trap_unseen : ∃ ms ks ppn h h₂ g, Running smallKernel ms ks ppn h ∧
    (sv39Machine (trampolineText smallKernel)).Steps
      ((trampolineWindow smallKernel).put (4 * Trampoline.allTraps.length) g) h₂ ∧
    h₂.pc = h.pc ∧ ∀ r, r ≠ 4 → h₂.reg r = h.reg r := by
  obtain ⟨ms, ks, ppn, h, hr⟩ := exists_running
  obtain ⟨h₁, _, he, hhosts, hback⟩ := hr.trap_unseen (loaded_trampolineText smallKernel) 8
  obtain ⟨h₂, hsteps, _, hpc, hreg, _⟩ := hback ks (returningFrom h₁ ms.token) (hr.straightBack he hhosts) rfl
  exact ⟨ms, ks, ppn, h, h₂, _, hr, hsteps, hpc, hreg⟩

/-- What `trap_handler` stores in the trap context for a system call. -/
def answer (ppn result : Nat) (m : Mem) : Mem :=
  (m.setWord 8 (ppn * 4096 + 8 * 33) (usizeAdd (contextAt m ppn).sepc 4)).setWord 8 (ppn * 4096 + 8 * 10) result

section Answer

variable {ppn result : Nat} {m : Mem}

theorem word_answer {j : Nat} (h10 : j ≠ 10) (h33 : j ≠ 33) :
    (answer ppn result m).word 8 (ppn * 4096 + 8 * j) = m.word 8 (ppn * 4096 + 8 * j) := by
  rw [answer, word_setWord_slot _ _ h10.symm, word_setWord_slot _ _ h33.symm]

theorem word_answer_sepc : (answer ppn result m).word 8 (ppn * 4096 + 8 * 33) =
    usizeAdd (m.word 8 (ppn * 4096 + 8 * 33)) 4 := by
  rw [answer, word_setWord_slot _ _ (by decide), Mem.word_setWord_same]
  exact Nat.mod_eq_of_lt (Nat.mod_lt _ (by decide))

theorem word_answer_reg (hr : result < 2 ^ 64) :
    (fun i : Fin 32 => (answer ppn result m).word 8 (ppn * 4096 + 8 * i.val)) =
      Function.update (fun i : Fin 32 => m.word 8 (ppn * 4096 + 8 * i.val)) 10 result := by
  funext i
  by_cases hi : i = 10
  · subst hi
    rw [Function.update_self, answer]
    exact (Mem.word_setWord_same _ _ _ _).trans (Nat.mod_eq_of_lt hr)
  · have hlt := i.isLt
    rw [Function.update_of_ne hi]
    exact word_answer (fun hc => hi (Fin.ext hc)) (by omega)

theorem contextAt_answer (hr : result < 2 ^ 64) (m : Mem) : contextAt (answer ppn result m) ppn =
    TrapContext.setA0 { contextAt m ppn with sepc := usizeAdd (contextAt m ppn).sepc 4 } result := by
  have hx : (contextAt (answer ppn result m) ppn).x = Function.update (contextAt m ppn).x 10 result := by
    have hreg := @word_answer_reg ppn result m hr
    simp only [contextAt, readTrapContext]
    rw [hreg]
  have hsepc : (contextAt (answer ppn result m) ppn).sepc = usizeAdd (contextAt m ppn).sepc 4 := by
    have hword := @word_answer_sepc ppn result m
    simp only [contextAt, readTrapContext]
    rw [hword]
  have hother : ∀ j, j ≠ 10 → j ≠ 33 →
      (answer ppn result m).word 8 (ppn * 4096 + 8 * j) = m.word 8 (ppn * 4096 + 8 * j) := fun _ => word_answer
  have hstatus : (contextAt (answer ppn result m) ppn).sstatus = (contextAt m ppn).sstatus := by
    simp only [contextAt, readTrapContext]
    rw [hother 32 (by decide) (by decide)]
  have hsatp : (contextAt (answer ppn result m) ppn).kernelSatp = (contextAt m ppn).kernelSatp := by
    simp only [contextAt, readTrapContext]
    rw [hother 34 (by decide) (by decide)]
  have hsp : (contextAt (answer ppn result m) ppn).kernelSp = (contextAt m ppn).kernelSp := by
    simp only [contextAt, readTrapContext]
    rw [hother 35 (by decide) (by decide)]
  have hhandler : (contextAt (answer ppn result m) ppn).trapHandler = (contextAt m ppn).trapHandler := by
    simp only [contextAt, readTrapContext]
    rw [hother 36 (by decide) (by decide)]
  generalize contextAt (answer ppn result m) ppn = cx' at *
  generalize contextAt m ppn = cx at *
  obtain ⟨x', sstatus', sepc', satp', sp', handler'⟩ := cx'
  simp only at hx hsepc hstatus hsatp hsp hhandler
  rw [hx, hsepc, hstatus, hsatp, hsp, hhandler, TrapContext.setA0]

end Answer

/-- A system call that returns 7. -/
theorem exists_answered : ∃ ms ks ppn h h₂ g, Running smallKernel ms ks ppn h ∧
    (sv39Machine (trampolineText smallKernel)).Steps
      ((trampolineWindow smallKernel).put (4 * Trampoline.allTraps.length) g) h₂ ∧
    h₂.pc = (h.pc + 4) % 2 ^ 64 ∧ (h₂.reg Reg.a0).toNat = 7 ∧ h₂.reg Reg.sp = h.reg Reg.sp := by
  obtain ⟨ms, ks, ppn, h, hr⟩ := exists_running
  obtain ⟨h₁, _, he, hhosts, hback⟩ := hr.answered (loaded_trampolineText smallKernel) 8
  obtain ⟨_, hspp, hkernel, _⟩ := hr.context he
  have hcx := @contextAt_answer ppn 7 (by decide) h₁.mem
  have hb : (contextWindow ppn).Beside h₁.mem (answer ppn 7 h₁.mem) :=
    ((Window.Beside.refl _ _).setWord (Trampoline.slot_le (by decide)) _).setWord (Trampoline.slot_le (by decide)) _
  have hg := (hr.straightBack he hhosts).withMem (hhosts.beside hb) (by rw [hcx, TrapContext.setA0, hkernel])
    (by rw [hcx, TrapContext.setA0, hspp])
  obtain ⟨h₂, hsteps, _, hpc, ha0, hreg, _⟩ := hback ks _ 7 hg hcx
  exact ⟨ms, ks, ppn, h, h₂, _, hr, hsteps, hpc, ha0, hreg Reg.sp (by decide) (by decide)⟩

end RCore.Task
