import Mathlib.Logic.Relation
import Mathlib.Order.Compare
import Mathlib.Order.Fin.Basic
import RCore.Lib.Mem

/-!
# A RISC-V hart

The part of a 64-bit RISC-V hart that a context switch in assembly uses: loads and stores of
doublewords, moves between registers, the supervisor's control and status registers, indirect jumps,
traps and the return from one. Every fetch, load and store goes through the translation of the machine,
which looks at `satp`, `sstatus`, the privilege mode and the memory. The instructions lie in physical
memory, two or four bytes each.

`Runs` is the rule for straight-line code: it says what a list of instructions does to the hart wherever
it lies in a window of addresses that stay mapped, and does not speak of the program counter.
-/

namespace RCore.Riscv

/-! ## Instructions -/

/-- The contents of a register. -/
abbrev Word := BitVec 64

/-- A general-purpose register. -/
abbrev Reg := Fin 32

namespace Reg

abbrev ra : Reg := 1
abbrev sp : Reg := 2
abbrev t0 : Reg := 5
abbrev t1 : Reg := 6
abbrev t2 : Reg := 7
abbrev a0 : Reg := 10
abbrev a1 : Reg := 11

end Reg

/-- A control and status register of the supervisor. -/
inductive Csr where
  | sstatus
  | stvec
  | sscratch
  | sepc
  | scause
  | satp
  deriving DecidableEq

/-- What a register keeps of a value that is written to it: the lowest bit of `sepc` is always zero. -/
def Csr.keep : Csr → Word → Word
  | .sepc, v => v >>> 1 <<< 1
  | _, v => v

/-- An instruction that goes on at the next one. -/
inductive Instr where
  /-- `ld rd, off(rs)` -/
  | ld (rd : Reg) (off : Nat) (rs : Reg)
  /-- `sd rs, off(rb)` -/
  | sd (rs : Reg) (off : Nat) (rb : Reg)
  | mv (rd rs : Reg)
  | csrr (rd : Reg) (csr : Csr)
  | csrw (csr : Csr) (rs : Reg)
  | csrrw (rd : Reg) (csr : Csr) (rs : Reg)
  | sfenceVma

/-- Any instruction. -/
inductive Insn where
  | plain (i : Instr)
  | jr (rs : Reg)
  | sret

/-! ## Harts -/

inductive Mode where
  | user
  | supervisor
  deriving DecidableEq

inductive Access where
  | load
  | store
  | fetch
  deriving DecidableEq

/-- A hart, and the memory behind it. -/
structure Hart where
  pc : Nat
  x : Reg → Word
  csr : Csr → Word
  mode : Mode
  mem : Mem

namespace Hart

/-- A register; `x0` is zero. -/
def reg (h : Hart) (r : Reg) : Word := if r = 0 then 0 else h.x r

/-- Write a register. -/
def setReg (h : Hart) (r : Reg) (v : Word) : Hart := { h with x := Function.update h.x r v }

/-- Write a control and status register. -/
def setCsr (h : Hart) (c : Csr) (v : Word) : Hart := { h with csr := Function.update h.csr c (c.keep v) }

/-- The address `off(rs)`. -/
def addr (h : Hart) (off : Nat) (rs : Reg) : Nat := ((h.reg rs).toNat + off) % 2 ^ 64

end Hart

/-- What a hart is built into. -/
structure Machine where
  /-- The physical address behind an address, by `satp`, `sstatus`, mode and kind of access. -/
  translate : Word → Word → Mode → Access → Mem → Nat → Option Nat
  /-- The instruction that begins at a physical address, and how many bytes it has. -/
  text : Nat → Option (Insn × Nat)

namespace Machine

variable (M : Machine)

/-- The physical address of an access of a hart. -/
def physical (h : Hart) (acc : Access) (a : Nat) : Option Nat :=
  M.translate (h.csr .satp) (h.csr .sstatus) h.mode acc h.mem a

/-- An instruction that goes on at the next one. The registers of the supervisor are its own. -/
def exec (h : Hart) : Instr → Option Hart
  | .ld rd off rs =>
    if h.addr off rs % 8 = 0 then
      (M.physical h .load (h.addr off rs)).map fun pa => h.setReg rd (BitVec.ofNat 64 (h.mem.word 8 pa))
    else none
  | .sd rs off rb =>
    if h.addr off rb % 8 = 0 then
      (M.physical h .store (h.addr off rb)).map fun pa =>
        { h with mem := h.mem.setWord 8 pa (h.reg rs).toNat }
    else none
  | .mv rd rs => some (h.setReg rd (h.reg rs))
  | .csrr rd csr => if h.mode = .supervisor then some (h.setReg rd (h.csr csr)) else none
  | .csrw csr rs => if h.mode = .supervisor then some (h.setCsr csr (h.reg rs)) else none
  | .csrrw rd csr rs =>
    if h.mode = .supervisor then some ((h.setCsr csr (h.reg rs)).setReg rd (h.csr csr)) else none
  | .sfenceVma => if h.mode = .supervisor then some h else none

end Machine

/-! ## Traps -/

namespace Status

/-- Write bit `i`. -/
def setBit (s : Word) (i : Nat) (b : Bool) : Word :=
  if b then s ||| BitVec.twoPow 64 i else s &&& ~~~(BitVec.twoPow 64 i)

/-- `sstatus` behind a trap out of `mode`: `SPIE` is `SIE`, `SIE` is clear and `SPP` is the mode. -/
def enter (mode : Mode) (s : Word) : Word :=
  setBit (setBit (setBit s 5 (s.getLsbD 1)) 1 false) 8 (mode = .supervisor)

/-- `sstatus` behind `sret`: `SIE` is `SPIE`, `SPIE` is set and `SPP` is the user. -/
def leave (s : Word) : Word := setBit (setBit (setBit s 1 (s.getLsbD 5)) 5 true) 8 false

/-- `SPP`, the mode `sret` returns to. -/
def previous (s : Word) : Mode := if s.getLsbD 8 then .supervisor else .user

end Status

namespace Hart

/-- A trap to the supervisor, whose entry is `stvec` in direct mode. -/
def trap (h : Hart) (cause : Word) : Hart :=
  let csr := Function.update h.csr .sepc (Csr.sepc.keep (BitVec.ofNat 64 h.pc))
  let csr := Function.update csr .scause cause
  let csr := Function.update csr .sstatus (Status.enter h.mode (h.csr .sstatus))
  { h with pc := (h.csr .stvec).toNat / 4 * 4, csr, mode := .supervisor }

/-- `sret` -/
def sret (h : Hart) : Hart :=
  { h with
    pc := (h.csr .sepc).toNat
    csr := Function.update h.csr .sstatus (Status.leave (h.csr .sstatus))
    mode := Status.previous (h.csr .sstatus) }

end Hart

namespace Machine

variable (M : Machine)

/-- One instruction. -/
def step (h : Hart) : Option Hart := do
  let pa ← M.physical h .fetch h.pc
  let (code, size) ← M.text pa
  match code with
  | .plain i => do
    let h' ← M.exec h i
    return { h' with pc := (h.pc + size) % 2 ^ 64 }
  | .jr rs => return { h with pc := (h.reg rs).toNat / 2 * 2 }
  | .sret => if h.mode = .supervisor then return h.sret else none

/-- Any number of instructions. -/
abbrev Steps : Hart → Hart → Prop := Relation.ReflTransGen fun h h' => M.step h = some h'

end Machine

/-! ## Registers -/

namespace Hart

variable (h : Hart)

theorem reg_of_ne {r : Reg} (hr : r ≠ 0) : h.reg r = h.x r := if_neg hr

@[simp] theorem reg_zero : h.reg 0 = 0 := if_pos rfl

@[simp] theorem sret_mem : h.sret.mem = h.mem := rfl

@[simp] theorem sret_reg : h.sret.reg = h.reg := rfl

theorem sret_pc : h.sret.pc = (h.csr .sepc).toNat := rfl

theorem sret_mode : h.sret.mode = Status.previous (h.csr .sstatus) := rfl

theorem sret_csr {c : Csr} (hc : c ≠ .sstatus) : h.sret.csr c = h.csr c := Function.update_of_ne hc _ _

theorem reg_setReg_of_ne {r s : Reg} (hrs : r ≠ s) (v : Word) : (h.setReg s v).reg r = h.reg r := by
  rw [reg, reg, setReg]
  simp only [Function.update_of_ne hrs]

theorem reg_setReg_self {r : Reg} (hr : r ≠ 0) (v : Word) : (h.setReg r v).reg r = v := by
  rw [reg_of_ne _ hr]
  exact Function.update_self _ _ _

theorem csr_setCsr_self (c : Csr) (v : Word) : (h.setCsr c v).csr c = c.keep v := by
  simp only [setCsr, Function.update_self]

theorem csr_setCsr_of_ne {c d : Csr} (hdc : d ≠ c) (v : Word) : (h.setCsr c v).csr d = h.csr d := by
  simp only [setCsr, Function.update_of_ne hdc]

@[simp] theorem reg_setCsr (c : Csr) (v : Word) : (h.setCsr c v).reg = h.reg := rfl

@[simp] theorem setReg_csr (r : Reg) (v : Word) : (h.setReg r v).csr = h.csr := rfl

@[simp] theorem setReg_mode (r : Reg) (v : Word) : (h.setReg r v).mode = h.mode := rfl

@[simp] theorem setReg_mem (r : Reg) (v : Word) : (h.setReg r v).mem = h.mem := rfl

@[simp] theorem setReg_pc (r : Reg) (v : Word) : (h.setReg r v).pc = h.pc := rfl

@[simp] theorem setCsr_mode (c : Csr) (v : Word) : (h.setCsr c v).mode = h.mode := rfl

@[simp] theorem setCsr_mem (c : Csr) (v : Word) : (h.setCsr c v).mem = h.mem := rfl

@[simp] theorem setCsr_x (c : Csr) (v : Word) : (h.setCsr c v).x = h.x := rfl

@[simp] theorem setCsr_pc (c : Csr) (v : Word) : (h.setCsr c v).pc = h.pc := rfl

end Hart

/-- The address that `sepc` keeps is even. -/
theorem Csr.toNat_keep_sepc (v : Word) : (Csr.sepc.keep v).toNat = v.toNat / 2 * 2 := by
  have hv := v.isLt
  rw [Csr.keep, BitVec.toNat_shiftLeft, BitVec.toNat_ushiftRight, Nat.shiftLeft_eq, Nat.shiftRight_eq_div_pow]
  omega

theorem Status.getLsbD_setBit (s : Word) {i : Nat} (hi : i < 64) (b : Bool) {j : Nat} (hj : j < 64) :
    (Status.setBit s i b).getLsbD j = if j = i then b else s.getLsbD j := by
  by_cases hij : j = i
  · cases b <;> simp [Status.setBit, hij, hi]
  · have hne : i ≠ j := Ne.symm hij
    cases b with
    | false => simp [Status.setBit, hij, hj]
    | true => simp [Status.setBit, BitVec.getLsbD_twoPow, hij, hne]

theorem Status.previous_enter (mode : Mode) (s : Word) : Status.previous (Status.enter mode s) = mode := by
  rw [Status.previous, Status.enter, Status.getLsbD_setBit _ (by decide) _ (by decide), if_pos rfl]
  cases mode <;> rfl

/-! ## Straight-line code -/

/-- The instructions lie one behind the other from the physical address `pa` on, each of them before
`limit`. -/
def Placed (text : Nat → Option (Insn × Nat)) (limit : Nat) : Nat → List Insn → Prop
  | _, [] => True
  | pa, c :: cs => pa < limit ∧ ∃ size, text pa = some (c, size) ∧ Placed text limit (pa + size) cs

/-- Code from the physical address `base` on, four bytes an instruction. -/
def wordText (base : Nat) (code : List Insn) (pa : Nat) : Option (Insn × Nat) :=
  if base ≤ pa ∧ (pa - base) % 4 = 0 then code[(pa - base) / 4]?.map fun c => (c, 4) else none

/-- A window of `size` addresses from `va` on, which are to be mapped to those from `pa` on. -/
structure Window where
  va : Nat
  pa : Nat
  size : Nat
  fits : va + size ≤ 2 ^ 64

namespace Window

variable (W : Window) (M : Machine)

/-- The window is mapped for the accesses of a hart. -/
def Maps (acc : Access) (h : Hart) : Prop :=
  ∀ o, o < W.size → M.physical h acc (W.va + o) = some (W.pa + o)

/-- The memories that are `m` but for what is behind the window. -/
def Beside (m m' : Mem) : Prop := ∀ x, x < W.pa ∨ W.pa + W.size ≤ x → m' x = m x

/-- The window is mapped for the supervisor under `satp`, whatever is in `sstatus` and in the memory
behind `D`. -/
def In (satp : Word) (acc : Access) (D : Window) (m : Mem) : Prop :=
  ∀ m', D.Beside m m' → ∀ sstatus o, o < W.size →
    M.translate satp sstatus .supervisor acc m' (W.va + o) = some (W.pa + o)

/-- The code lies in the window from the offset `o` on. -/
def At (o : Nat) (code : List Insn) : Prop := Placed M.text (W.pa + W.size) (W.pa + o) code

/-- A hart at an address of the window. -/
def put (o : Nat) (h : Hart) : Hart := { h with pc := (W.va + o) % 2 ^ 64 }

end Window

/-- A supervisor under `satp`, whose memory is `m` but for what is behind `D`. -/
structure Ready (D : Window) (satp : Word) (m : Mem) (h : Hart) : Prop where
  satp : h.csr .satp = satp
  mode : h.mode = .supervisor
  mem : D.Beside m h.mem

theorem placed_wordText {base limit : Nat} (pre cs post : List Insn)
    (hlimit : base + 4 * (pre.length + cs.length) ≤ limit) :
    Placed (wordText base (pre ++ cs ++ post)) limit (base + 4 * pre.length) cs := by
  induction cs generalizing pre with
  | nil => trivial
  | cons c cs ih =>
    rw [List.length_cons] at hlimit
    have hsub : base + 4 * pre.length - base = 4 * pre.length := by omega
    refine ⟨by omega, 4, ?_, ?_⟩
    · rw [wordText, hsub, if_pos ⟨by omega, by omega⟩, Nat.mul_div_cancel_left _ (by decide), List.append_assoc,
        List.getElem?_append_right (Nat.le_refl _), Nat.sub_self]
      rfl
    · have hnext := ih (pre ++ [c]) (by rw [List.length_append, List.length_singleton]; omega)
      rwa [List.length_append, List.length_singleton, List.append_assoc pre, List.singleton_append] at hnext

namespace Window

variable {M : Machine} {W D : Window} {h : Hart} {acc : Access} {satp : Word} {m m' : Mem}

theorem In.maps (hw : W.In M satp acc D m) (hr : Ready D satp m h) : W.Maps M acc h := by
  intro o ho
  rw [Machine.physical, hr.satp, hr.mode]
  exact hw _ hr.mem _ o ho

end Window

/-- **Straight-line code** turns `h` into `h'`, but for the program counter, wherever it lies in the
window. -/
def Runs (M : Machine) (W : Window) (code : List Instr) (h h' : Hart) : Prop :=
  ∀ o rest, W.At M o (code.map Insn.plain ++ rest) →
    ∃ o', W.At M o' rest ∧ M.Steps (W.put o h) (W.put o' h')

section Rules

variable {M : Machine} {W : Window} {i : Instr} {code code' : List Instr} {h h' h'' : Hart}

/-- What an instruction does depends on the program counter as little as it changes it. -/
theorem exec_put (o : Nat) (hexec : M.exec h i = some h') : M.exec (W.put o h) i = some (W.put o h') := by
  cases i with
  | ld rd off rs =>
    obtain ⟨halign, hval⟩ := Option.ite_none_right_eq_some.mp hexec
    obtain ⟨pa, hpa, rfl⟩ := Option.map_eq_some_iff.mp hval
    exact (if_pos halign).trans (Option.map_eq_some_iff.mpr ⟨pa, hpa, rfl⟩)
  | sd rs off rb =>
    obtain ⟨halign, hval⟩ := Option.ite_none_right_eq_some.mp hexec
    obtain ⟨pa, hpa, rfl⟩ := Option.map_eq_some_iff.mp hval
    exact (if_pos halign).trans (Option.map_eq_some_iff.mpr ⟨pa, hpa, rfl⟩)
  | mv rd rs =>
    cases hexec
    rfl
  | csrr rd csr =>
    obtain ⟨hmode, hval⟩ := Option.ite_none_right_eq_some.mp hexec
    cases hval
    exact if_pos hmode
  | csrw csr rs =>
    obtain ⟨hmode, hval⟩ := Option.ite_none_right_eq_some.mp hexec
    cases hval
    exact if_pos hmode
  | csrrw rd csr rs =>
    obtain ⟨hmode, hval⟩ := Option.ite_none_right_eq_some.mp hexec
    cases hval
    exact if_pos hmode
  | sfenceVma =>
    obtain ⟨hmode, hval⟩ := Option.ite_none_right_eq_some.mp hexec
    cases hval
    exact if_pos hmode

theorem Window.lt_of_at {c : Insn} {cs : List Insn} {o : Nat} (hat : W.At M o (c :: cs)) : o < W.size :=
  Nat.lt_of_add_lt_add_left hat.1

/-- The instruction under the program counter. -/
theorem Window.fetch_put (hopen : W.Maps M .fetch h) {o : Nat} (ho : o < W.size) :
    M.physical (W.put o h) .fetch (W.put o h).pc = some (W.pa + o) := by
  have hfits := W.fits
  have hpc : (W.put o h).pc = W.va + o := Nat.mod_eq_of_lt (by omega)
  rw [hpc]
  exact hopen o ho

theorem step_plain {pa size : Nat} (hfetch : M.physical h .fetch h.pc = some pa)
    (htext : M.text pa = some (.plain i, size)) (hexec : M.exec h i = some h') :
    M.step h = some { h' with pc := (h.pc + size) % 2 ^ 64 } := by
  rw [Machine.step, hfetch]
  simp only [Option.bind_eq_bind, Option.bind_some, htext, hexec, Option.pure_def]

namespace Runs

theorem nil (h : Hart) : Runs M W [] h h := fun o _ hat => ⟨o, hat, Relation.ReflTransGen.refl⟩

theorem append (h₁ : Runs M W code h h') (h₂ : Runs M W code' h' h'') : Runs M W (code ++ code') h h'' := by
  intro o rest hat
  rw [List.map_append, List.append_assoc] at hat
  obtain ⟨o', hat', hsteps⟩ := h₁ o _ hat
  obtain ⟨o'', hat'', hsteps'⟩ := h₂ o' rest hat'
  exact ⟨o'', hat'', hsteps.trans hsteps'⟩

theorem single (hopen : W.Maps M .fetch h) (hexec : M.exec h i = some h') : Runs M W [i] h h' := by
  intro o rest hat
  rw [List.map_singleton, List.singleton_append] at hat
  obtain ⟨_, size, htext, hrest⟩ := id hat
  refine ⟨o + size, ?_, Relation.ReflTransGen.single ?_⟩
  · rw [Window.At, ← Nat.add_assoc]
    exact hrest
  · rw [step_plain (Window.fetch_put hopen (Window.lt_of_at hat)) htext (exec_put o hexec), Window.put, Window.put,
      Window.put, Nat.mod_add_mod, Nat.add_assoc]

theorem cons (hopen : W.Maps M .fetch h) (hexec : M.exec h i = some h') (hrest : Runs M W code h' h'') :
    Runs M W (i :: code) h h'' :=
  (single hopen hexec).append hrest

/-- **A repeated instruction**, with an invariant `P` under which it can be fetched and does what `next`
says. -/
theorem rept {α : Type} {as : List α} (instr : α → Instr) (next : Hart → α → Hart) (P : Hart → Prop)
    (hstep : ∀ h, ∀ a ∈ as, P h → W.Maps M .fetch h ∧ M.exec h (instr a) = some (next h a) ∧ P (next h a))
    (hp : P h) : Runs M W (as.map instr) h (as.foldl next h) := by
  induction as generalizing h with
  | nil => exact nil h
  | cons a as ih =>
    obtain ⟨hopen, hexec, hp'⟩ := hstep h a List.mem_cons_self hp
    exact cons hopen hexec (ih (fun g b hb => hstep g b (List.mem_cons_of_mem _ hb)) hp')

end Runs

/-- **A jump** behind straight-line code. -/
theorem Runs.jr {rs : Reg} {o : Nat} {rest : List Insn} (hruns : Runs M W code h h')
    (hopen : W.Maps M .fetch h') (hat : W.At M o (code.map Insn.plain ++ Insn.jr rs :: rest)) :
    M.Steps (W.put o h) { h' with pc := (h'.reg rs).toNat / 2 * 2 } := by
  obtain ⟨o', hat', hsteps⟩ := hruns o _ hat
  obtain ⟨_, size, htext, _⟩ := id hat'
  refine hsteps.tail ?_
  rw [Machine.step, Window.fetch_put hopen (Window.lt_of_at hat')]
  simp only [Option.bind_eq_bind, Option.bind_some, htext]
  rfl

/-- **A return from a trap** behind straight-line code. -/
theorem Runs.sret {o : Nat} {rest : List Insn} (hruns : Runs M W code h h') (hopen : W.Maps M .fetch h')
    (hmode : h'.mode = .supervisor) (hat : W.At M o (code.map Insn.plain ++ Insn.sret :: rest)) :
    M.Steps (W.put o h) h'.sret := by
  obtain ⟨o', hat', hsteps⟩ := hruns o _ hat
  obtain ⟨_, size, htext, _⟩ := id hat'
  refine hsteps.tail ?_
  rw [Machine.step, Window.fetch_put hopen (Window.lt_of_at hat')]
  simp only [Option.bind_eq_bind, Option.bind_some, htext]
  exact if_pos hmode

end Rules

/-! ## Registers in memory -/

/-- Store registers, `r` in the doubleword `slot r` from `pa` on. -/
def saveRegs (slot : Reg → Nat) (pa : Nat) (v : Reg → Word) (m : Mem) (rs : List Reg) : Mem :=
  rs.foldl (fun m r => m.setWord 8 (pa + 8 * slot r) (v r).toNat) m

/-- Load registers from there. -/
def loadRegs (slot : Reg → Nat) (pa : Nat) (h : Hart) (rs : List Reg) : Hart :=
  rs.foldl (fun h r => h.setReg r (BitVec.ofNat 64 (h.mem.word 8 (pa + 8 * slot r)))) h

section Frames

variable {slot : Reg → Nat} {pa : Nat} {v : Reg → Word} {m : Mem} {rs : List Reg} {r : Reg} {h : Hart}

theorem saveRegs_cons (r : Reg) (rs : List Reg) : saveRegs slot pa v m (r :: rs) =
    saveRegs slot pa v (m.setWord 8 (pa + 8 * slot r) (v r).toNat) rs := rfl

theorem loadRegs_cons (r : Reg) (rs : List Reg) : loadRegs slot pa h (r :: rs) =
    loadRegs slot pa (h.setReg r (BitVec.ofNat 64 (h.mem.word 8 (pa + 8 * slot r)))) rs := rfl

theorem saveRegs_congr {v' : Reg → Word} (hv : ∀ r ∈ rs, v' r = v r) :
    saveRegs slot pa v' m rs = saveRegs slot pa v m rs := by
  induction rs generalizing m with
  | nil => rfl
  | cons r rs ih =>
    rw [saveRegs_cons, saveRegs_cons, hv r List.mem_cons_self, ih fun q hq => hv q (List.mem_cons_of_mem _ hq)]

theorem word_setWord_slot (m : Mem) (pa : Nat) {i j : Nat} (hij : i ≠ j) (w : Nat) :
    (m.setWord 8 (pa + 8 * i) w).word 8 (pa + 8 * j) = m.word 8 (pa + 8 * j) :=
  Mem.word_setWord_of_disjoint (by omega)

theorem word_setWord_reg (m : Mem) (a : Nat) (w : Word) : (m.setWord 8 a w.toNat).word 8 a = w.toNat := by
  rw [Mem.word_setWord_same]
  exact Nat.mod_eq_of_lt w.isLt

theorem word_saveRegs_of_not_mem {j : Nat} (hj : j ∉ rs.map slot) :
    (saveRegs slot pa v m rs).word 8 (pa + 8 * j) = m.word 8 (pa + 8 * j) := by
  induction rs generalizing m with
  | nil => rfl
  | cons r rs ih =>
    rw [List.map_cons, List.mem_cons, not_or] at hj
    rw [saveRegs_cons, ih hj.2, word_setWord_slot _ _ (Ne.symm hj.1)]

theorem word_saveRegs (hn : (rs.map slot).Nodup) (hr : r ∈ rs) :
    (saveRegs slot pa v m rs).word 8 (pa + 8 * slot r) = (v r).toNat := by
  induction rs generalizing m with
  | nil => cases hr
  | cons s rs ih =>
    rw [List.map_cons, List.nodup_cons] at hn
    rw [saveRegs_cons]
    rcases List.mem_cons.mp hr with rfl | hr
    · rw [word_saveRegs_of_not_mem hn.1, word_setWord_reg]
    · exact ih hn.2 hr

theorem saveRegs_of_outside {n x : Nat} (hslot : ∀ r ∈ rs, 8 * slot r + 8 ≤ n) (hx : x < pa ∨ pa + n ≤ x) :
    saveRegs slot pa v m rs x = m x := by
  induction rs generalizing m with
  | nil => rfl
  | cons r rs ih =>
    have hr := hslot r List.mem_cons_self
    rw [saveRegs_cons, ih fun s hs => hslot s (List.mem_cons_of_mem _ hs)]
    exact Mem.setWord_of_not_mem (by omega)

theorem loadRegs_eq (h : Hart) (rs : List Reg) : loadRegs slot pa h rs =
    { h with x := fun r => if r ∈ rs then BitVec.ofNat 64 (h.mem.word 8 (pa + 8 * slot r)) else h.x r } := by
  induction rs generalizing h with
  | nil =>
    simp only [List.not_mem_nil, if_false]
    rfl
  | cons s rs ih =>
    rw [loadRegs_cons, ih]
    simp only [Hart.setReg_mem, Hart.setReg_csr, Hart.setReg_mode, Hart.setReg_pc, Hart.mk.injEq, true_and,
      and_true]
    funext r
    by_cases hrs : r ∈ rs
    · rw [if_pos hrs, if_pos (List.mem_cons_of_mem _ hrs)]
    · by_cases hr : r = s
      · subst hr
        rw [if_neg hrs, if_pos List.mem_cons_self]
        exact Function.update_self _ _ _
      · rw [if_neg hrs, if_neg (List.not_mem_cons_of_ne_of_not_mem hr hrs)]
        exact Function.update_of_ne hr _ _

end Frames

/-! ## Accesses through a window -/

namespace Window

variable {M : Machine} {W D : Window} {h : Hart} {m m' : Mem} {rb rd rs : Reg} {k : Nat}

theorem Beside.refl (D : Window) (m : Mem) : D.Beside m m := fun _ _ => rfl

theorem Beside.setWord (hm : D.Beside m m') (hk : 8 * k + 8 ≤ D.size) (w : Nat) :
    D.Beside m (m'.setWord 8 (D.pa + 8 * k) w) := by
  intro x hx
  rw [Mem.setWord_of_not_mem (by omega)]
  exact hm x hx

theorem addr_eq (hb : (h.reg rb).toNat = D.va) (hk : 8 * k + 8 ≤ D.size) : h.addr (8 * k) rb = D.va + 8 * k := by
  have hfits := D.fits
  rw [Hart.addr, hb]
  exact Nat.mod_eq_of_lt (by omega)

theorem exec_sd (hmap : D.Maps M .store h) (hb : (h.reg rb).toNat = D.va) (halign : D.va % 8 = 0)
    (hk : 8 * k + 8 ≤ D.size) : M.exec h (.sd rs (8 * k) rb) =
      some { h with mem := h.mem.setWord 8 (D.pa + 8 * k) (h.reg rs).toNat } := by
  simp only [Machine.exec, addr_eq hb hk]
  rw [if_pos (by omega), hmap _ (by omega)]
  rfl

theorem exec_ld (hmap : D.Maps M .load h) (hb : (h.reg rb).toNat = D.va) (halign : D.va % 8 = 0)
    (hk : 8 * k + 8 ≤ D.size) : M.exec h (.ld rd (8 * k) rb) =
      some (h.setReg rd (BitVec.ofNat 64 (h.mem.word 8 (D.pa + 8 * k)))) := by
  simp only [Machine.exec, addr_eq hb hk]
  rw [if_pos (by omega), hmap _ (by omega)]
  rfl

end Window

namespace Ready

variable {M : Machine} {D : Window} {h : Hart} {m : Mem} {satp : Word}

theorem setReg (hr : Ready D satp m h) (r : Reg) (v : Word) : Ready D satp m (h.setReg r v) :=
  ⟨hr.satp, hr.mode, hr.mem⟩

theorem setCsr (hr : Ready D satp m h) {c : Csr} (hc : c ≠ .satp) (v : Word) : Ready D satp m (h.setCsr c v) :=
  ⟨(h.csr_setCsr_of_ne hc.symm v).trans hr.satp, hr.mode, hr.mem⟩

theorem setSatp (hr : Ready D satp m h) (v : Word) : Ready D v m (h.setCsr .satp v) :=
  ⟨h.csr_setCsr_self .satp v, hr.mode, hr.mem⟩

theorem setWord (hr : Ready D satp m h) {k : Nat} (hk : 8 * k + 8 ≤ D.size) (w : Nat) :
    Ready D satp m { h with mem := h.mem.setWord 8 (D.pa + 8 * k) w } :=
  ⟨hr.satp, hr.mode, hr.mem.setWord hk w⟩

theorem exec_csrr (hr : Ready D satp m h) (rd : Reg) (c : Csr) :
    M.exec h (.csrr rd c) = some (h.setReg rd (h.csr c)) := if_pos hr.mode

theorem exec_csrw (hr : Ready D satp m h) (c : Csr) (rs : Reg) :
    M.exec h (.csrw c rs) = some (h.setCsr c (h.reg rs)) := if_pos hr.mode

theorem exec_csrrw (hr : Ready D satp m h) (rd : Reg) (c : Csr) (rs : Reg) :
    M.exec h (.csrrw rd c rs) = some ((h.setCsr c (h.reg rs)).setReg rd (h.csr c)) := if_pos hr.mode

theorem exec_sfenceVma (hr : Ready D satp m h) : M.exec h .sfenceVma = some h := if_pos hr.mode

end Ready

namespace Runs

variable {M : Machine} {W D E : Window} {h : Hart} {m : Mem} {satp : Word} {rb : Reg} {rs : List Reg}
  {slot : Reg → Nat}

/-- **Registers are stored**, one after the other. -/
theorem saves (hW : W.In M satp .fetch D m) (hD : D.In M satp .store D m) (hr : Ready D satp m h)
    (hb : (h.reg rb).toNat = D.va) (halign : D.va % 8 = 0) (hslot : ∀ r ∈ rs, 8 * slot r + 8 ≤ D.size) :
    Runs M W (rs.map fun r => .sd r (8 * slot r) rb) h
      { h with mem := saveRegs slot D.pa h.reg h.mem rs } := by
  have hfold : rs.foldl (fun g r => { g with mem := g.mem.setWord 8 (D.pa + 8 * slot r) (h.reg r).toNat }) h =
      { h with mem := saveRegs slot D.pa h.reg h.mem rs } := by
    clear hr hb hslot
    generalize h.reg = v
    induction rs generalizing h with
    | nil => rfl
    | cons r rs ih => rw [List.foldl_cons, ih, saveRegs_cons]
  rw [← hfold]
  refine rept (fun r => .sd r (8 * slot r) rb) _ (fun g => g.x = h.x ∧ Ready D satp m g) ?_ ⟨rfl, hr⟩
  rintro g r hrs ⟨hx, hg⟩
  have hreg : g.reg = h.reg := by
    funext q
    rw [Hart.reg, Hart.reg, hx]
  refine ⟨hW.maps hg, ?_, hx, hg.setWord (hslot r hrs) _⟩
  rw [Window.exec_sd (hD.maps hg) (by rw [hreg, hb]) halign (hslot r hrs), hreg]

/-- **Registers are loaded**, one after the other. -/
theorem loads (hW : W.In M satp .fetch D m) (hE : E.In M satp .load D m) (hr : Ready D satp m h)
    (hb : (h.reg rb).toNat = E.va) (halign : E.va % 8 = 0) (hrb : rb ∉ rs)
    (hslot : ∀ r ∈ rs, 8 * slot r + 8 ≤ E.size) :
    Runs M W (rs.map fun r => .ld r (8 * slot r) rb) h (loadRegs slot E.pa h rs) := by
  refine rept (fun r => .ld r (8 * slot r) rb) _ (fun g => g.reg rb = h.reg rb ∧ Ready D satp m g) ?_ ⟨rfl, hr⟩
  rintro g r hrs ⟨hbase, hg⟩
  refine ⟨hW.maps hg, ?_, ?_, hg.setReg r _⟩
  · exact Window.exec_ld (hE.maps hg) (by rw [hbase, hb]) halign (hslot r hrs)
  · rw [← hbase]
    refine Hart.reg_setReg_of_ne g ?_ _
    rintro rfl
    exact hrb hrs

end Runs

end RCore.Riscv
