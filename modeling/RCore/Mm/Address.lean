import RCore.Lib.Comp
import RCore.Lib.Mem

/-!
# Addresses and page numbers

Sv39 addresses (`os/src/mm/address.rs`, `os/src/config.rs`). A `usize` is a natural number below
`2 ^ 64` and its arithmetic wraps, as in the release build. A `VirtAddr` made from a `usize` keeps
39 bits, which is carried by its type; page numbers are plain numbers, because the end of a range and
a stepped page number may leave the 27 bits of Sv39. `PAGE_SIZE` is written 4096 throughout.
-/

namespace RCore.Mm

/-! ## `usize` -/

/-- Addition on `usize`. -/
def usizeAdd (a b : Nat) : Nat := (a + b) % 2 ^ 64

/-- Subtraction on `usize`. -/
def usizeSub (a b : Nat) : Nat := (a + 2 ^ 64 - b) % 2 ^ 64

/-- Multiplication on `usize`. -/
def usizeMul (a b : Nat) : Nat := (a * b) % 2 ^ 64

/-- `TRAMPOLINE` -/
def trampoline : Nat := 2 ^ 64 - 4096

/-- `TRAP_CONTEXT` -/
def trapContext : Nat := trampoline - 4096

/-! ## Virtual addresses -/

/-- A virtual address. -/
structure VirtAddr where
  val : Nat
  isLt : val < 2 ^ 39
  deriving DecidableEq

namespace VirtAddr

/-- `VirtAddr::from(usize)`, which masks the 39 low bits. -/
def ofUsize (v : Nat) : VirtAddr := ⟨v % 2 ^ 39, Nat.mod_lt _ (by decide)⟩

/-- `VirtAddr::floor` -/
def floor (va : VirtAddr) : Nat := va.val / 4096

/-- `VirtAddr::ceil` -/
def ceil (va : VirtAddr) : Nat := usizeAdd (usizeSub va.val 1) 4096 / 4096

/-- `VirtAddr::page_offset` -/
def pageOffset (va : VirtAddr) : Nat := va.val % 4096

/-- `VirtPageNum::from(VirtAddr)`, which asserts that the address is aligned. -/
def toVpn {σ : Type} (va : VirtAddr) : Comp σ Nat := do
  Comp.assert (va.pageOffset = 0)
  return va.floor

theorem floor_lt (va : VirtAddr) : va.floor < 2 ^ 27 := by
  have h := va.isLt
  unfold floor
  omega

theorem pageOffset_ofUsize (a : Nat) : (ofUsize a).pageOffset = a % 4096 := by
  show a % 2 ^ 39 % 4096 = a % 4096
  omega

theorem ceil_eq (va : VirtAddr) : va.ceil = (va.val + 4095) / 4096 := by
  have h := va.isLt
  unfold ceil usizeAdd usizeSub
  rcases Nat.eq_zero_or_pos va.val with h0 | h0
  · rw [h0]
    decide
  · omega

theorem ceil_le (va : VirtAddr) : va.ceil ≤ 2 ^ 27 := by
  have h := va.isLt
  rw [ceil_eq]
  omega

theorem pageOffset_lt (va : VirtAddr) : va.pageOffset < 4096 := Nat.mod_lt _ (by decide)

end VirtAddr

/-! ## Page numbers -/

/-- `VirtPageNum::indexes`: the slots of a page number in the three tables on its way, the root's
first. -/
def indexes (vpn : Nat) : List (Fin 512) :=
  [Fin.ofNat 512 (vpn / 2 ^ 18), Fin.ofNat 512 (vpn / 2 ^ 9), Fin.ofNat 512 vpn]

/-- `VPNRange` -/
structure VPNRange where
  l : Nat
  r : Nat
  le : l ≤ r
  deriving DecidableEq

namespace VPNRange

/-- `VPNRange::new`, which asserts that the range is not reversed. -/
def new {σ : Type} (start stop : Nat) : Comp σ VPNRange :=
  if h : start ≤ stop then pure ⟨start, stop, h⟩ else Comp.panic

/-- The page numbers the iterator of a range yields. -/
def toList (range : VPNRange) : List Nat := List.range' range.l (range.r - range.l)

theorem mem_toList {range : VPNRange} {vpn : Nat} :
    vpn ∈ range.toList ↔ range.l ≤ vpn ∧ vpn < range.r := by
  have h := range.le
  simp only [toList, List.mem_range'_1]
  omega

theorem nodup_toList (range : VPNRange) : range.toList.Nodup := List.nodup_range'

theorem new_run {σ : Type} {start stop : Nat} (h : start ≤ stop) (s : σ) :
    (new start stop : Comp σ VPNRange).run s = some (⟨start, stop, h⟩, s) := by
  rw [new, dif_pos h, Comp.run_pure]

theorem new_reversed {σ : Type} {start stop : Nat} (h : ¬ start ≤ stop) (s : σ) :
    (new start stop : Comp σ VPNRange).run s = none := by
  rw [new, dif_neg h, Comp.run_panic]

@[simp] theorem wlp_new {σ : Type} (start stop : Nat) (Q : VPNRange → σ → Prop) (s : σ) :
    (new start stop : Comp σ VPNRange).wlp Q s ↔ ∀ h : start ≤ stop, Q ⟨start, stop, h⟩ s := by
  unfold new
  by_cases h : start ≤ stop <;> simp [h]

@[simp] theorem wp_new {σ : Type} (start stop : Nat) (Q : VPNRange → σ → Prop) (s : σ) :
    (new start stop : Comp σ VPNRange).wp Q s ↔ ∃ h : start ≤ stop, Q ⟨start, stop, h⟩ s := by
  unfold new
  by_cases h : start ≤ stop <;> simp [h]

end VPNRange

end RCore.Mm
