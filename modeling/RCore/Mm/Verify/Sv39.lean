import RCore.Mm.Sv39
import RCore.Mm.Verify.Spaces

/-!
# The hart and the kernel read the same tables

`find_pte` goes down three levels whatever the entries say; the hart stops at an entry that looks like a
page, and refuses one that looks wrong. They agree on a page table whose inner entries are `Pointers`,
and the page tables of the kernel stay so.
-/

namespace RCore.Mm

open Riscv

/-- The inner entries of a page table point at tables and say nothing else. -/
def Pointers (m : Mem) (pt : PageTable) : Prop :=
  ∀ p i e, p.length < 2 → pt.entry m p i = some e → e.flags = PTEFlags.V ∧ e.bits < 2 ^ 54

namespace PageTableEntry

theorem isLegal_of_flags {e : PageTableEntry} (hf : e.flags = PTEFlags.V) (hb : e.bits < 2 ^ 54) :
    e.isLegal = true := by
  have hz : e.bits / 2 ^ 54 = 0 := Nat.div_eq_of_lt hb
  rw [isLegal, isValid, has, has, hf, hz]
  decide

theorem isLeaf_of_flags {e : PageTableEntry} (hf : e.flags = PTEFlags.V) : e.isLeaf = false := by
  rw [isLeaf, has, has, hf]
  decide

end PageTableEntry

namespace Sv39

variable {m : Mem} {pt : PageTable}

theorem walk_cons (ppn : Nat) (i : Fin 512) (idxs : List (Fin 512)) :
    walk m ppn (i :: idxs) = (slot m ppn i).bind fun e =>
      if !e.isLegal then none else if e.isLeaf then some (e, idxs.length) else walk m e.ppn idxs := by
  rw [walk, slot]
  by_cases hv : (readPte m (pteAddr ppn i)).isValid = true
  · rw [if_pos hv, Option.bind_some]
  · have hlegal : (readPte m (pteAddr ppn i)).isLegal = false := by
      rw [PageTableEntry.isLegal, Bool.eq_false_iff.mpr hv]
      rfl
    rw [if_neg hv, Option.bind_none, hlegal]
    rfl

theorem table_cons {p : Path} {f : Nat} (hp : pt.table m p = some f) (i : Fin 512) :
    pt.table m (i :: p) = (slot m f i).map PageTableEntry.ppn := by
  unfold PageTable.table at hp ⊢
  rw [Radix.walk, hp, Option.bind_some]

/-- An inner table is passed. -/
theorem walk_inner (hp : Pointers m pt) {p : Path} (hl : p.length < 2) {ppn : Nat}
    (htab : pt.table m p = some ppn) (i : Fin 512) (idxs : List (Fin 512)) :
    walk m ppn (i :: idxs) = (pt.table m (i :: p)).bind fun f => walk m f idxs := by
  rw [walk_cons, table_cons htab]
  cases hs : slot m ppn i with
  | none => rfl
  | some e =>
    have hent : pt.entry m p i = some e := by rw [PageTable.entry_eq, htab, Option.bind_some, hs]
    obtain ⟨hf, hb⟩ := hp p i e hl hent
    rw [Option.bind_some, PageTableEntry.isLegal_of_flags hf hb, PageTableEntry.isLeaf_of_flags hf]
    rfl

/-- **The walks agree**: the hart finds the entry that `find_pte` finds, if it is one for a page. -/
theorem walk_eq (hp : Pointers m pt) (vpn : Nat) : walk m pt.rootPpn (indexes vpn) =
    (pt.translate m vpn).bind fun e => if e.isLegal ∧ e.isLeaf then some (e, 0) else none := by
  have hroot : pt.table m [] = some pt.rootPpn := rfl
  rw [PageTable.translate_eq, PageTable.entry_eq, PageTable.leafPath, indexes, walk_inner hp (by decide) hroot]
  cases h₁ : pt.table m [Fin.ofNat 512 (vpn / 2 ^ 18)] with
  | none =>
    have h₂ : pt.table m [Fin.ofNat 512 (vpn / 2 ^ 9), Fin.ofNat 512 (vpn / 2 ^ 18)] = none := by
      unfold PageTable.table at h₁ ⊢
      rw [Radix.walk, h₁, Option.bind_none]
    rw [h₂]
    rfl
  | some f =>
    have hone : [Fin.ofNat 512 (vpn / 2 ^ 18)].length < 2 := Nat.lt_succ_self 1
    rw [Option.bind_some, walk_inner hp hone h₁]
    cases pt.table m [Fin.ofNat 512 (vpn / 2 ^ 9), Fin.ofNat 512 (vpn / 2 ^ 18)] with
    | none => rfl
    | some g =>
      rw [Option.bind_some, Option.bind_some, walk_cons]
      congr 1
      funext e
      cases e.isLegal <;> cases e.isLeaf <;> simp [walk]

theorem token_eq (hroot : pt.rootPpn < 2 ^ 44) : pt.token = 2 ^ 63 + pt.rootPpn := by
  have hor : 2 ^ 63 * 1 + pt.rootPpn = 2 ^ 63 * 1 ||| pt.rootPpn := Nat.two_pow_add_eq_or_of_lt (by omega) 1
  rw [PageTable.token]
  exact hor.symm

/-- **The hart agrees with `translate`** on where an address leads. -/
theorem translate_eq (hp : Pointers m pt) (hroot : pt.rootPpn < 2 ^ 44) (sstatus : Word) (mode : Mode) (acc : Access)
    {va : Nat} (hva : canonical va = true) :
    translate (BitVec.ofNat 64 pt.token) sstatus mode acc m va =
      (pt.translate m (va / 4096 % 2 ^ 27)).bind fun e =>
        if (e.isLegal ∧ e.isLeaf) ∧ e.permits sstatus mode acc then some (e.ppn * 4096 + va % 4096) else none := by
  have hsatp : (BitVec.ofNat 64 pt.token).toNat = 2 ^ 63 + pt.rootPpn := by
    rw [BitVec.toNat_ofNat, token_eq hroot]
    omega
  have hmode : (BitVec.ofNat 64 pt.token).toNat / 2 ^ 60 = 8 := by omega
  have hppn : (BitVec.ofNat 64 pt.token).toNat % 2 ^ 44 = pt.rootPpn := by omega
  rw [translate]
  simp only [hmode, hppn, hva, if_true, walk_eq hp]
  cases pt.translate m (va / 4096 % 2 ^ 27) with
  | none => rfl
  | some e =>
    simp only [Option.bind_some]
    by_cases hok : e.isLegal ∧ e.isLeaf
    · rw [if_pos hok]
      simp [hok, Nat.mod_one]
    · rw [if_neg hok, if_neg fun hc => hok hc.1]

end Sv39

end RCore.Mm
