import RCore.Mm.Verify.Sections
import RCore.Task.Switch

/-!
# Every thread of the kernel has its own registers

`__switch` keeps the return address, the stack pointer and the saved registers of the thread that calls
it, and gives the hart those of the other. Over any run a thread that is switched to goes on where it
called `__switch`, with its own stack and saved registers, whatever the others have done meanwhile; a new
task begins in `trap_return` on its kernel stack.
-/

namespace RCore.Task

open RCore Mm Riscv

namespace TaskContext

/-- The context at an address. -/
def read (m : Mem) (a : Nat) : TaskContext where
  ra := m.word 8 (a + 8 * 0)
  sp := m.word 8 (a + 8 * 1)
  s n := m.word 8 (a + 8 * (n.val + 2))

/-- The registers of a hart that a context keeps. -/
def ofHart (h : Hart) : TaskContext where
  ra := (h.reg Reg.ra).toNat
  sp := (h.reg Reg.sp).toNat
  s n := (h.reg (Switch.sReg n)).toNat

end TaskContext

/-- The place of a context. -/
def contextSlot (a : Nat) (ha : a + 112 ≤ 2 ^ 64) : Window where
  va := a
  pa := a
  size := 112
  fits := ha

/-- What `__switch` does to a hart when the contexts are at `a` and `b`. -/
structure Switched (a b : Nat) (h h' : Hart) : Prop where
  pc : h'.pc = (TaskContext.read h.mem b).ra / 2 * 2
  context : TaskContext.ofHart h' = TaskContext.read h.mem b
  saved : TaskContext.read h'.mem a = TaskContext.ofHart h
  beside : ∀ x, x < a ∨ a + 112 ≤ x → h'.mem x = h.mem x
  mode : h'.mode = h.mode
  csr : h'.csr = h.csr

namespace Switch

/-- The registers that are saved. -/
def savedRegs : List Reg := Reg.sp :: Reg.ra :: (List.range 12).map sReg

/-- The registers that are loaded. -/
def loadedRegs : List Reg := Reg.ra :: (List.range 12).map sReg ++ [Reg.sp]

/-- The doubleword of a register. -/
def slot (r : Reg) : Nat := if r.val < 3 then r.val - 1 else if r.val < 10 then r.val - 6 else r.val - 14

theorem switchCode_eq : switchCode = (savedRegs.map fun r => .sd r (8 * slot r) Reg.a0) ++
    loadedRegs.map fun r => .ld r (8 * slot r) Reg.a1 := rfl

theorem nodup_saved : (savedRegs.map slot).Nodup := by decide

theorem slot_le : ∀ r ∈ savedRegs, 8 * slot r + 8 ≤ 112 := by decide

theorem slot_ra : slot Reg.ra = 0 := rfl

theorem slot_sp : slot Reg.sp = 1 := rfl

theorem ra_mem : Reg.ra ∈ savedRegs := by decide

theorem sp_mem : Reg.sp ∈ savedRegs := by decide

theorem slot_sReg (n : Fin 12) : slot (sReg n) = n.val + 2 := by
  revert n
  decide

theorem sReg_mem (n : Fin 12) : sReg n ∈ savedRegs := by
  revert n
  decide

theorem mem_loaded (r : Reg) : r ∈ loadedRegs ↔ r ∈ savedRegs := by
  revert r
  decide

theorem ne_zero_of_saved : ∀ r ∈ savedRegs, r ≠ 0 := by decide

section

variable {M : Machine} {W : Window} {a b o : Nat} {h : Hart} {ha : a + 112 ≤ 2 ^ 64} {hb : b + 112 ≤ 2 ^ 64}

/-- The hart before `ret`. -/
def exchanged (a b : Nat) (h : Hart) : Hart :=
  loadRegs slot b { h with mem := saveRegs slot a h.reg h.mem savedRegs } loadedRegs

theorem exchanged_runs {satp : Word} {m : Mem} (hW : W.In M satp .fetch (contextSlot a ha) m)
    (hstore : (contextSlot a ha).In M satp .store (contextSlot a ha) m)
    (hload : (contextSlot b hb).In M satp .load (contextSlot a ha) m)
    (hr : Ready (contextSlot a ha) satp m h) (ha0 : (h.reg Reg.a0).toNat = a) (ha1 : (h.reg Reg.a1).toNat = b)
    (haligna : a % 8 = 0) (halignb : b % 8 = 0) :
    Runs M W switchCode h (exchanged a b h) := by
  rw [switchCode_eq]
  refine (Runs.saves hW hstore hr ha0 haligna slot_le).append ?_
  refine Runs.loads (E := contextSlot b hb) hW hload ⟨hr.satp, hr.mode, ?_⟩ ha1 halignb (by decide)
    fun r hr' => slot_le r ((mem_loaded r).mp hr')
  intro x hx
  have hout : saveRegs slot a h.reg h.mem savedRegs x = h.mem x := saveRegs_of_outside slot_le hx
  exact hout.trans (hr.mem x hx)

/-- The other context is not where this one is saved. -/
theorem word_saved_apart (hapart : a + 112 ≤ b ∨ b + 112 ≤ a) {k : Nat} (hk : k < 14) :
    (saveRegs slot a h.reg h.mem savedRegs).word 8 (b + 8 * k) = h.mem.word 8 (b + 8 * k) := by
  apply Mem.word_congr
  intro j hj
  exact saveRegs_of_outside slot_le (by omega)

theorem slot_lt : ∀ r ∈ savedRegs, slot r < 14 := by decide

theorem reg_exchanged (hapart : a + 112 ≤ b ∨ b + 112 ≤ a) {r : Reg} (hr : r ∈ savedRegs) :
    ((exchanged a b h).reg r).toNat = h.mem.word 8 (b + 8 * slot r) := by
  have hlt : h.mem.word 8 (b + 8 * slot r) < 2 ^ 64 := Mem.word_lt _ _ _
  rw [Hart.reg_of_ne _ (ne_zero_of_saved r hr), exchanged, loadRegs_eq]
  simp only [if_pos ((mem_loaded r).mpr hr), word_saved_apart hapart (slot_lt r hr)]
  rw [BitVec.toNat_ofNat, Nat.mod_eq_of_lt hlt]

theorem mem_exchanged : (exchanged a b h).mem = saveRegs slot a h.reg h.mem savedRegs := by
  rw [exchanged, loadRegs_eq]

theorem word_exchanged {r : Reg} (hr : r ∈ savedRegs) :
    (exchanged a b h).mem.word 8 (a + 8 * slot r) = (h.reg r).toNat := by
  rw [mem_exchanged, word_saveRegs nodup_saved hr]

theorem switched_exchanged (hapart : a + 112 ≤ b ∨ b + 112 ≤ a) :
    Switched a b h { exchanged a b h with pc := ((exchanged a b h).reg Reg.ra).toNat / 2 * 2 } := by
  have hra : ((exchanged a b h).reg Reg.ra).toNat = h.mem.word 8 (b + 8 * 0) := by
    rw [reg_exchanged hapart ra_mem, slot_ra]
  have hsp : ((exchanged a b h).reg Reg.sp).toNat = h.mem.word 8 (b + 8 * 1) := by
    rw [reg_exchanged hapart sp_mem, slot_sp]
  have hs : ∀ n : Fin 12, ((exchanged a b h).reg (sReg n)).toNat = h.mem.word 8 (b + 8 * (n.val + 2)) := by
    intro n
    rw [reg_exchanged hapart (sReg_mem n), slot_sReg]
  have hra' : (exchanged a b h).mem.word 8 (a + 8 * 0) = (h.reg Reg.ra).toNat := by
    rw [← slot_ra, word_exchanged ra_mem]
  have hsp' : (exchanged a b h).mem.word 8 (a + 8 * 1) = (h.reg Reg.sp).toNat := by
    rw [← slot_sp, word_exchanged sp_mem]
  have hs' : ∀ n : Fin 12, (exchanged a b h).mem.word 8 (a + 8 * (n.val + 2)) = (h.reg (sReg n)).toNat := by
    intro n
    rw [← slot_sReg, word_exchanged (sReg_mem n)]
  have hbeside : ∀ x, x < a ∨ a + 112 ≤ x → (exchanged a b h).mem x = h.mem x := by
    intro x hx
    rw [mem_exchanged]
    exact saveRegs_of_outside slot_le hx
  have hmode : (exchanged a b h).mode = h.mode := by rw [exchanged, loadRegs_eq]
  have hcsr : (exchanged a b h).csr = h.csr := by rw [exchanged, loadRegs_eq]
  generalize exchanged a b h = g at *
  refine ⟨?_, ?_, ?_, hbeside, hmode, hcsr⟩
  · rw [hra, TaskContext.read]
  · rw [TaskContext.read, ← hra, ← hsp]
    simp only [← hs]
    rfl
  · rw [TaskContext.read, hra', hsp']
    simp only [hs']
    rfl

/-- **`__switch`** returns to the caller of the other context. -/
theorem switch_steps (hW : W.In M (h.csr .satp) .fetch (contextSlot a ha) h.mem)
    (hstore : (contextSlot a ha).In M (h.csr .satp) .store (contextSlot a ha) h.mem)
    (hload : (contextSlot b hb).In M (h.csr .satp) .load (contextSlot a ha) h.mem)
    (hmode : h.mode = .supervisor) (ha0 : (h.reg Reg.a0).toNat = a) (ha1 : (h.reg Reg.a1).toNat = b)
    (haligna : a % 8 = 0) (halignb : b % 8 = 0) (hapart : a + 112 ≤ b ∨ b + 112 ≤ a) {rest : List Insn}
    (hat : W.At M o (switch ++ rest)) :
    ∃ h', M.Steps (W.put o h) h' ∧ Switched a b h h' := by
  have hr : Ready (contextSlot a ha) (h.csr .satp) h.mem h := ⟨rfl, hmode, Window.Beside.refl _ _⟩
  have hruns := exchanged_runs (b := b) hW hstore hload hr ha0 ha1 haligna halignb
  have hsw := switched_exchanged (h := h) hapart
  generalize exchanged a b h = g at *
  have hopen : Ready (contextSlot a ha) (h.csr .satp) h.mem g := by
    refine ⟨?_, hsw.mode.trans hmode, hsw.beside⟩
    rw [hsw.csr]
  rw [switch, List.append_assoc] at hat
  exact ⟨_, hruns.jr (hW.maps hopen) hat, hsw⟩

end

/-! ## On the page table of the kernel -/

section Kernel

variable {L : Layout} {rest : List Nat} {s : Phys} {ks : MemorySet} {text : Nat → Option (Insn × Nat)} {satp : Word}
  {W D : Window} {area : MapArea} {acc : Access}

/-- The pages of an identical area, whatever is stored in the image of the kernel. -/
theorem identical_in (h : Wired L rest s ks) (hsatp : satp.toNat = ks.token) (harea : area ∈ ks.areas)
    (hid : area.mapType = .identical) (hopen : ∀ sstatus, opens area.mapPerm sstatus .supervisor acc = true)
    (hva : W.pa = W.va) (hl : area.vpnRange.l * 4096 ≤ W.va) (hr : W.va + W.size ≤ area.vpnRange.r * 4096)
    (hlow : W.va + W.size ≤ 2 ^ 38) (hD : D.pa + D.size ≤ L.firstFrame * 4096) :
    W.In (sv39Machine text) satp acc D s.mem := by
  intro m' hb sstatus o ho
  have hsame : SameOn ks.pageTable.frames s.mem m' := by
    intro f hf x hx
    have hle := h.good.held.le_of_mem (List.mem_append_left _ (List.mem_append_left _ hf))
    exact hb x (Or.inr (by omega))
  have hw : Wired L rest { s with mem := m' } ks := h.congr hsame h.good.held
  have hsatp' : satp = BitVec.ofNat 64 ks.token := by
    rw [← hsatp, BitVec.ofNat_toNat, BitVec.setWidth_eq]
  rw [hva, hsatp']
  refine (hw.translate_area_iff ?_).mpr (Or.inr ⟨area, harea, (W.va + o) / 4096, ?_, hopen sstatus, ?_⟩)
  · rw [Sv39.canonical, decide_eq_true_eq]
    omega
  · rw [MapArea.entries, hid, Nat.mod_eq_of_lt (by omega)]
    exact List.mem_map.mpr ⟨_, VPNRange.mem_toList.mpr ⟨by omega, by omega⟩, rfl⟩
  · omega

/-- **`__switch` in the kernel**: its code lies in an executable area, and the contexts of both threads in a
writable one below the first frame. -/
theorem switch_kernel_steps (h : KernelSpace L rest s ks) {W : Window} {a b o : Nat} {g : Hart}
    (hmem : g.mem = s.mem) (hsatp : (g.csr .satp).toNat = ks.token) (hmode : g.mode = .supervisor)
    {code data : MapArea} (hcode : code ∈ ks.areas ∧ code.mapType = .identical ∧
      code.mapPerm = PTEFlags.R ||| PTEFlags.X)
    (hdata : data ∈ ks.areas ∧ data.mapType = .identical ∧ data.mapPerm = PTEFlags.R ||| PTEFlags.W)
    (hW : W.pa = W.va ∧ code.vpnRange.l * 4096 ≤ W.va ∧ W.va + W.size ≤ code.vpnRange.r * 4096 ∧
      W.va + W.size ≤ 2 ^ 38)
    (ha : data.vpnRange.l * 4096 ≤ a ∧ a + 112 ≤ data.vpnRange.r * 4096 ∧ a + 112 ≤ L.ekernel ∧ a % 8 = 0)
    (hb : data.vpnRange.l * 4096 ≤ b ∧ b + 112 ≤ data.vpnRange.r * 4096 ∧ b + 112 ≤ L.ekernel ∧ b % 8 = 0)
    (hapart : a + 112 ≤ b ∨ b + 112 ≤ a) (ha0 : (g.reg Reg.a0).toNat = a) (ha1 : (g.reg Reg.a1).toNat = b)
    {rest' : List Insn} (hat : W.At (sv39Machine text) o (switch ++ rest')) :
    ∃ g', (sv39Machine text).Steps (W.put o g) g' ∧ Switched a b g g' := by
  have hek := L.aligned.2.2.2.2
  have hfits := L.fits
  have hfirst : L.firstFrame * 4096 = L.ekernel := by
    rw [Layout.firstFrame]
    omega
  have hrw : ∀ acc, acc ≠ .fetch → ∀ sstatus, opens data.mapPerm sstatus .supervisor acc = true := by
    intro acc hacc sstatus
    rw [hdata.2.2]
    cases acc with
    | fetch => exact absurd rfl hacc
    | load => rfl
    | store => rfl
  have hx : ∀ sstatus, opens code.mapPerm sstatus .supervisor .fetch = true := by
    intro sstatus
    rw [hcode.2.2]
    rfl
  have hD : a + 112 ≤ L.firstFrame * 4096 := by omega
  have hfa : a + 112 ≤ 2 ^ 64 := by omega
  have hfb : b + 112 ≤ 2 ^ 64 := by omega
  refine @switch_steps _ W a b o g hfa hfb ?_ ?_ ?_ hmode ha0 ha1 ha.2.2.2 hb.2.2.2 hapart rest' hat
  · rw [hmem]
    exact identical_in h.wired.1 hsatp hcode.1 hcode.2.1 hx hW.1 hW.2.1 hW.2.2.1 hW.2.2.2 hD
  · rw [hmem]
    exact identical_in h.wired.1 hsatp hdata.1 hdata.2.1 (hrw _ (by decide)) rfl ha.1 ha.2.1
      (show a + 112 ≤ 2 ^ 38 by omega) hD
  · rw [hmem]
    exact identical_in h.wired.1 hsatp hdata.1 hdata.2.1 (hrw _ (by decide)) rfl hb.1 hb.2.1
      (show b + 112 ≤ 2 ^ 38 by omega) hD

/-- `__switch` at the beginning of a kernel, from the context at `a` to the one at `b`. -/
theorem switch_smallKernel : ∃ ks s g g', KernelSpace smallKernel [] s ks ∧ g.mem = s.mem ∧
    (sv39Machine (wordText 0x80200000 switch)).Steps g g' ∧ Switched 0x80240000 0x80240070 g g' := by
  obtain ⟨ks, s, hrun, hst⟩ := exists_newKernel
  have hk : KernelSpace smallKernel [] s ks := .newKernel (held_init smallKernel) hrun hst
  have hareas := newKernel_areas (held_init smallKernel) hrun hst
  obtain ⟨code, hcode, hc⟩ := Section.exists_area hareas
    (by simp [kernelSections] : ⟨smallKernel.stext, smallKernel.etext, PTEFlags.R ||| PTEFlags.X⟩ ∈ _)
  obtain ⟨data, hdata, hd⟩ := Section.exists_area hareas
    (by simp [kernelSections] : ⟨smallKernel.edata, smallKernel.ekernel, PTEFlags.R ||| PTEFlags.W⟩ ∈ _)
  have hcl : code.vpnRange.l = 0x80200 := hc.l.trans (by decide)
  have hcr : code.vpnRange.r = 0x80220 := hc.r.trans (by decide)
  have hdl : data.vpnRange.l = 0x80240 := hd.l.trans (by decide)
  have hdr : data.vpnRange.r = 0x80400 := hd.r.trans (by decide)
  have htoken : (BitVec.ofNat 64 ks.token).toNat = ks.token := by
    have hroot := hk.wired.1.good.root_lt
    rw [MemorySet.token, Sv39.token_eq hroot, BitVec.toNat_ofNat]
    omega
  let x : Reg → Word := fun r => if r = Reg.a0 then 0x80240000 else 0x80240070
  let W : Window := ⟨0x80200000, 0x80200000, 4096, by decide⟩
  let g : Hart := ⟨0x80200000, x, fun _ => BitVec.ofNat 64 ks.token, .supervisor, s.mem⟩
  have hput : W.put 0 g = g := rfl
  have hlen : switch.length = 29 := by decide
  have hat : W.At (sv39Machine (wordText 0x80200000 switch)) 0 switch := by
    have hplaced := @placed_wordText W.pa (W.pa + W.size) [] switch [] (by
      rw [hlen, List.length_nil]
      decide)
    rwa [List.nil_append, List.append_nil] at hplaced
  rw [← List.append_nil switch] at hat
  obtain ⟨g', hsteps, hsw⟩ := switch_kernel_steps (a := 0x80240000) (b := 0x80240070) (W := W) (g := g) hk rfl htoken rfl ⟨hcode, hc.identical, hc.perm⟩
    ⟨hdata, hd.identical, hd.perm⟩ ⟨rfl, by rw [hcl], by rw [hcr]; decide, by decide⟩
    ⟨by rw [hdl], by rw [hdr]; decide, by decide, by decide⟩ ⟨by rw [hdl]; decide, by rw [hdr]; decide, by decide, by decide⟩
    (by decide) rfl rfl hat
  rw [hput] at hsteps
  exact ⟨ks, s, g, g', hk, rfl, hsteps, hsw⟩

end Kernel

end Switch

/-- A context beside the one that is saved. -/
theorem Switched.read_apart {a b c : Nat} {h h' : Hart} (hsw : Switched a b h h')
    (hc : a + 112 ≤ c ∨ c + 112 ≤ a) : TaskContext.read h'.mem c = TaskContext.read h.mem c := by
  have hword : ∀ k, k < 14 → h'.mem.word 8 (c + 8 * k) = h.mem.word 8 (c + 8 * k) := by
    intro k hk
    apply Mem.word_congr
    intro j hj
    exact hsw.beside _ (by omega)
  rw [TaskContext.read, TaskContext.read, hword 0 (by decide), hword 1 (by decide)]
  congr 1
  funext n
  exact hword _ (by omega)

/-! ## All threads -/

/-- A thread of the kernel: the idle loop, or a task. -/
abbrev Thread := Option Nat

/-- The hart and the threads that have a context: `current` runs, the others are suspended. -/
structure Threads where
  hart : Hart
  current : Thread
  live : Thread → Prop

/-- Where the contexts are: `&mut PROCESSOR.idle_task_cx` and the `task_cx` of the tasks. -/
structure Places where
  ptr : Thread → Nat
  apart : ∀ t u, t ≠ u → ptr t + 112 ≤ ptr u ∨ ptr u + 112 ≤ ptr t
  /-- The address of `trap_return`. -/
  trapReturn : Nat

namespace Threads

variable (P : Places)

/-- The contexts of the suspended threads are left alone. -/
def Keeps (s : Threads) (m : Mem) : Prop :=
  ∀ u, s.live u → u ≠ s.current → TaskContext.read m (P.ptr u) = TaskContext.read s.hart.mem (P.ptr u)

/-- What can happen next. -/
inductive Moves : Threads → Threads → Prop
  /-- The thread that runs goes on; this includes what a program does between `trap_return` and the next
  trap. -/
  | work {s : Threads} {h : Hart} (hkeeps : s.Keeps P h.mem) : Moves s { s with hart := h }
  /-- It makes a task, whose context is that of `goto_trap_return`. -/
  | spawn {s : Threads} {h : Hart} {u : Thread} {kstackPtr : Nat} (hkeeps : s.Keeps P h.mem) (hu : ¬ s.live u)
      (hnew : TaskContext.read h.mem (P.ptr u) = .gotoTrapReturn P.trapReturn kstackPtr) :
      Moves s { s with hart := h, live := fun t => t = u ∨ s.live t }
  /-- `run_tasks` switches to a task. -/
  | runTasks {s : Threads} {h : Hart} {a : Nat} (hidle : s.current = none) (ha : s.live (some a))
      (hsw : Switched (P.ptr none) (P.ptr (some a)) s.hart h) : Moves s { s with hart := h, current := some a }
  /-- `schedule` switches back. -/
  | schedule {s : Threads} {h : Hart} {a : Nat} (hcur : s.current = some a)
      (hsw : Switched (P.ptr (some a)) (P.ptr none) s.hart h) : Moves s { s with hart := h, current := none }
  /-- `schedule` of a task that has exited saves to a context that nobody reads. -/
  | exit {s : Threads} {h : Hart} {a unused : Nat} (hcur : s.current = some a)
      (hunused : ∀ u, s.live u → u ≠ some a → unused + 112 ≤ P.ptr u ∨ P.ptr u + 112 ≤ unused)
      (hsw : Switched unused (P.ptr none) s.hart h) :
      Moves s { hart := h, current := none, live := fun t => t ≠ some a ∧ s.live t }

/-- The registers of a thread: of the hart if it runs, and of its context if it is suspended. -/
def context (s : Threads) (u : Thread) : TaskContext :=
  if u = s.current then .ofHart s.hart else .read s.hart.mem (P.ptr u)

variable {P : Places} {s s' : Threads} {t u : Thread}

theorem context_current (s : Threads) : s.context P s.current = .ofHart s.hart := if_pos rfl

theorem context_other (hu : u ≠ s.current) : s.context P u = .read s.hart.mem (P.ptr u) := if_neg hu

/-- **A thread that does not run keeps its registers**, and if it is switched to, the hart goes on behind
its call. -/
theorem Moves.other (hm : Moves P s s') (hl : s.live u) (hu : u ≠ s.current) :
    s'.live u ∧ s'.context P u = s.context P u ∧
      (s'.current = u → s'.hart.pc = (s.context P u).ra / 2 * 2) := by
  rw [context_other hu]
  cases hm with
  | @work h hkeeps =>
    exact ⟨hl, (context_other (s := { s with hart := h }) hu).trans (hkeeps u hl hu), fun hc => absurd hc.symm hu⟩
  | @spawn h v _ hkeeps _ _ =>
    exact ⟨Or.inr hl, (context_other (s := ⟨h, s.current, fun t => t = v ∨ s.live t⟩) hu).trans (hkeeps u hl hu),
      fun hc => absurd hc.symm hu⟩
  | @runTasks h a hidle ha hsw =>
    by_cases hua : u = some a
    · subst hua
      exact ⟨hl, (context_current _).trans hsw.context, fun _ => hsw.pc⟩
    · refine ⟨hl, ?_, fun hc => absurd hc.symm hua⟩
      refine (context_other (s := ⟨h, some a, s.live⟩) hua).trans ?_
      exact hsw.read_apart (P.apart none u (hidle ▸ hu.symm))
  | @schedule h a hcur hsw =>
    by_cases hun : u = none
    · subst hun
      exact ⟨hl, (context_current _).trans hsw.context, fun _ => hsw.pc⟩
    · refine ⟨hl, ?_, fun hc => absurd hc.symm hun⟩
      refine (context_other (s := ⟨h, none, s.live⟩) hun).trans ?_
      exact hsw.read_apart (P.apart (some a) u (hcur ▸ hu.symm))
  | @exit h a unused hcur hunused hsw =>
    rw [hcur] at hu
    by_cases hun : u = none
    · subst hun
      exact ⟨⟨hu, hl⟩, (context_current _).trans hsw.context, fun _ => hsw.pc⟩
    · refine ⟨⟨hu, hl⟩, ?_, fun hc => absurd hc.symm hun⟩
      refine (context_other (s := ⟨h, none, fun t => t ≠ some a ∧ s.live t⟩) hun).trans ?_
      exact hsw.read_apart (hunused u hl hu)

/-- A thread that switches to another keeps its registers. -/
theorem Moves.leaves (hm : Moves P s s') (hl : s'.live s.current) (hu : s'.current ≠ s.current) :
    s'.context P s.current = .ofHart s.hart := by
  cases hm with
  | work => exact absurd rfl hu
  | spawn => exact absurd rfl hu
  | @runTasks h a hidle ha hsw =>
    refine (context_other (s := ⟨h, some a, s.live⟩) hu.symm).trans ?_
    rw [hidle]
    exact hsw.saved
  | @schedule h a hcur hsw =>
    refine (context_other (s := ⟨h, none, s.live⟩) hu.symm).trans ?_
    rw [hcur]
    exact hsw.saved
  | exit hcur hunused hsw => exact absurd hcur hl.1

/-- Any number of steps in which `u` does not run. -/
abbrev Without (P : Places) (u : Thread) : Threads → Threads → Prop :=
  Relation.ReflTransGen fun s s' => Moves P s s' ∧ s.current ≠ u

theorem without_context (hrun : Without P u s s') (hl : s.live u) (hu : s.current ≠ u) :
    s'.live u ∧ s'.context P u = s.context P u ∧
      (s'.current = u → s'.hart.pc = (s.context P u).ra / 2 * 2) := by
  induction hrun with
  | refl => exact ⟨hl, rfl, fun hc => absurd hc hu⟩
  | tail _ hstep ih =>
    obtain ⟨hl', hcx, hpc⟩ := hstep.1.other ih.1 hstep.2.symm
    rw [ih.2.1] at hcx hpc
    exact ⟨hl', hcx, hpc⟩

/-- **`__switch` returns to its caller**: a thread that has switched to another and is switched to again
has its return address, its stack and its saved registers, whatever the other threads have done. -/
theorem goes_on {s₀ s₁ s₂ : Threads} (hleave : Moves P s₀ s₁) (hl : s₁.live s₀.current)
    (hu : s₁.current ≠ s₀.current) (hrun : Without P s₀.current s₁ s₂) (hback : s₂.current = s₀.current) :
    TaskContext.ofHart s₂.hart = TaskContext.ofHart s₀.hart ∧
      s₂.hart.pc = (s₀.hart.reg Reg.ra).toNat / 2 * 2 := by
  have hcx := hleave.leaves hl hu
  obtain ⟨_, hsame, hpc⟩ := without_context hrun hl hu
  rw [hcx] at hsame hpc
  refine ⟨?_, hpc hback⟩
  rw [← hsame, ← hback, context_current]

/-- The context of the idle loop at the beginning of the memory, and those of the tasks behind it. -/
def rowOfContexts (trapReturn : Nat) : Places where
  ptr t := t.elim 0 fun n => 112 * (n + 1)
  apart t u htu := by
    cases t <;> cases u <;> simp only [Option.elim_none, Option.elim_some, ne_eq, Option.some.injEq, not_true] at * <;> omega
  trapReturn

/-- A hart in a thread with the return address `ra` and the stack pointer `sp`. -/
def hartAt (ra sp : Nat) : Hart where
  pc := 0
  x r := if r = Reg.ra then BitVec.ofNat 64 ra else if r = Reg.sp then BitVec.ofNat 64 sp else 0
  csr _ := 0
  mode := .supervisor
  mem _ := 0

/-- `run_tasks` goes on behind its `__switch`. -/
theorem goes_on_idle : ∃ s₁ s₂ : Threads,
    Moves (rowOfContexts 0) ⟨hartAt 0x80200400 0x80300000, none, fun _ => True⟩ s₁ ∧ s₁.current = some 0 ∧
      s₂.current = none ∧ s₂.hart.pc = 0x80200400 := by
  have h₁ := Switch.switched_exchanged (a := 0) (b := 112) (h := hartAt 0x80200400 0x80300000) (Or.inl (by decide))
  generalize Switch.exchanged 0 112 (hartAt 0x80200400 0x80300000) = e₁ at h₁
  generalize ({ e₁ with pc := (e₁.reg Reg.ra).toNat / 2 * 2 } : Hart) = e₁ at h₁
  have h₂ := Switch.switched_exchanged (a := 112) (b := 0) (h := e₁) (Or.inr (by decide))
  generalize Switch.exchanged 112 0 e₁ = e₂ at h₂
  generalize ({ e₂ with pc := (e₂.reg Reg.ra).toNat / 2 * 2 } : Hart) = e₂ at h₂
  have hrun : Moves (rowOfContexts 0) ⟨hartAt 0x80200400 0x80300000, none, fun _ => True⟩ ⟨e₁, some 0, fun _ => True⟩ :=
    .runTasks rfl trivial h₁
  have hback : Moves (rowOfContexts 0) ⟨e₁, some 0, fun _ => True⟩ ⟨e₂, none, fun _ => True⟩ := .schedule rfl h₂
  refine ⟨_, ⟨e₂, none, fun _ => True⟩, hrun, rfl, rfl, ?_⟩
  exact (goes_on hrun trivial (Option.some_ne_none 0) (.single ⟨hback, Option.some_ne_none 0⟩) rfl).2

/-- **A new task begins in `trap_return`** on its kernel stack. -/
theorem begins {s₀ s₁ : Threads} {u : Thread} {h : Hart} {kstackPtr : Nat} (hcur : s₀.current ≠ u)
    (hnew : TaskContext.read h.mem (P.ptr u) = .gotoTrapReturn P.trapReturn kstackPtr)
    (hrun : Without P u { s₀ with hart := h, live := fun t => t = u ∨ s₀.live t } s₁) (hback : s₁.current = u) :
    s₁.hart.pc = P.trapReturn / 2 * 2 ∧ (s₁.hart.reg Reg.sp).toNat = kstackPtr := by
  obtain ⟨_, hsame, hpc⟩ := without_context hrun (Or.inl rfl) hcur
  have hcx : ({ s₀ with hart := h, live := fun t => t = u ∨ s₀.live t } : Threads).context P u =
      .gotoTrapReturn P.trapReturn kstackPtr :=
    (context_other (s := ⟨h, s₀.current, fun t => t = u ∨ s₀.live t⟩) hcur.symm).trans hnew
  rw [hcx] at hsame hpc
  rw [← hback, context_current] at hsame
  exact ⟨hpc hback, congrArg TaskContext.sp hsame⟩

/-- `run_tasks` runs a task for the first time. -/
theorem begins_first : ∃ (h : Hart) (s₁ : Threads),
    Moves (rowOfContexts 0x80200400) ⟨h, none, fun t => t = some 0 ∨ t = none⟩ s₁ ∧ s₁.hart.pc = 0x80200400 ∧
      (s₁.hart.reg Reg.sp).toNat = 0x80300000 := by
  -- a thread that has just saved its registers to the context of the task
  have h₀ := Switch.switched_exchanged (a := 112) (b := 0) (h := hartAt 0x80200400 0x80300000) (Or.inr (by decide))
  generalize Switch.exchanged 112 0 (hartAt 0x80200400 0x80300000) = e₀ at h₀
  generalize ({ e₀ with pc := (e₀.reg Reg.ra).toNat / 2 * 2 } : Hart) = e₀ at h₀
  have h₁ := Switch.switched_exchanged (a := 0) (b := 112) (h := e₀) (Or.inl (by decide))
  generalize Switch.exchanged 0 112 e₀ = e₁ at h₁
  generalize ({ e₁ with pc := (e₁.reg Reg.ra).toNat / 2 * 2 } : Hart) = e₁ at h₁
  have hs : ∀ n : Fin 12, ((hartAt 0x80200400 0x80300000).reg (Switch.sReg n)).toNat = 0 := by decide
  have hnew : TaskContext.read e₀.mem ((rowOfContexts 0x80200400).ptr (some 0)) =
      .gotoTrapReturn 0x80200400 0x80300000 := by
    refine h₀.saved.trans ?_
    rw [TaskContext.ofHart, TaskContext.gotoTrapReturn]
    simp only [hs]
    rfl
  have hrun : Moves (rowOfContexts 0x80200400) ⟨e₀, none, fun t => t = some 0 ∨ t = none⟩
      ⟨e₁, some 0, fun t => t = some 0 ∨ t = none⟩ := .runTasks rfl (Or.inl rfl) h₁
  exact ⟨e₀, _, hrun, @begins _ ⟨e₀, none, fun t => t = none⟩ _ _ _ _ (Option.some_ne_none 0).symm hnew
    (.single ⟨hrun, (Option.some_ne_none 0).symm⟩) rfl⟩

end Threads

end RCore.Task
