import Mathlib.Data.Finset.Card
import RCore.Lib.Radix
import RCore.Mm.PageTable
import RCore.Mm.Verify.Frames

/-!
# The page table as a radix tree

A page table is a radix tree of depth three whose slots are the valid entries. `Tables` is its
invariant: no frame is used for two of its tables, and all of them are frames the page table owns.
`map` creates the tables that are missing on the way and then writes one leaf; `missing` counts
them, and `map` panics exactly when the page is mapped already or fewer frames than that are free.
-/

namespace RCore.Mm

/-! ## Entries -/

namespace PageTableEntry

theorem bits_new {ppn : Nat} (h : ppn < 2 ^ 44) (flags : PTEFlags) :
    (new ppn flags).bits = 2 ^ 10 * ppn + flags.toNat := by
  have hf : flags.toNat < 2 ^ 10 := by
    have := flags.toNat_lt
    omega
  have hm : ppn * 2 ^ 10 % 2 ^ 64 = 2 ^ 10 * ppn := by omega
  unfold new
  rw [hm, Nat.two_pow_add_eq_or_of_lt hf]

theorem bits_new_lt {ppn : Nat} (h : ppn < 2 ^ 44) (flags : PTEFlags) :
    (new ppn flags).bits < 2 ^ 64 := by
  have hf := flags.toNat_lt
  rw [bits_new h]
  omega

theorem ppn_new {ppn : Nat} (h : ppn < 2 ^ 44) (flags : PTEFlags) :
    (new ppn flags).ppn = ppn := by
  have hf := flags.toNat_lt
  unfold PageTableEntry.ppn
  rw [bits_new h]
  omega

theorem flags_new {ppn : Nat} (h : ppn < 2 ^ 44) (flags : PTEFlags) :
    (new ppn flags).flags = flags := by
  have hf := flags.toNat_lt
  apply UInt8.toNat_inj.mp
  unfold PageTableEntry.flags
  rw [bits_new h, UInt8.toNat_ofNat']
  omega

theorem isValid_new {ppn : Nat} (h : ppn < 2 ^ 44) (flags : PTEFlags) :
    (new ppn (flags ||| PTEFlags.V)).isValid = true := by
  have hand : (flags ||| PTEFlags.V) &&& PTEFlags.V = 1 := by
    apply UInt8.toBitVec_inj.mp
    apply BitVec.eq_of_getLsbD_eq
    intro i hi
    simp only [PTEFlags.V, UInt8.toBitVec_and, UInt8.toBitVec_or, BitVec.getLsbD_and,
      BitVec.getLsbD_or]
    cases UInt8.toBitVec 1 |>.getLsbD i <;> simp
  unfold isValid
  rw [flags_new h, hand]
  decide

theorem isValid_new_V {ppn : Nat} (h : ppn < 2 ^ 44) : (new ppn PTEFlags.V).isValid = true := by
  unfold isValid
  rw [flags_new h]
  decide

theorem isValid_zero : (⟨0⟩ : PageTableEntry).isValid = false := by decide

end PageTableEntry

/-! ## Slots -/

/-- The valid entry in slot `i` of a frame. -/
def slot (m : Mem) (f : Nat) (i : Fin 512) : Option PageTableEntry :=
  if (readPte m (pteAddr f i)).isValid then some (readPte m (pteAddr f i)) else none

theorem isValid_of_slot {m : Mem} {f : Nat} {i : Fin 512} {e : PageTableEntry}
    (h : slot m f i = some e) : e.isValid = true := by
  unfold slot at h
  split at h
  · next hv =>
    rw [← Option.some.inj h]
    exact hv
  · cases h

theorem isValid_of_slot_none {m : Mem} {f : Nat} {i : Fin 512} (h : slot m f i = none) :
    (readPte m (pteAddr f i)).isValid = false := by
  unfold slot at h
  split at h
  · cases h
  · next hv => exact Bool.eq_false_iff.mpr hv

theorem slot_congr {m m' : Mem} {f : Nat} (h : SameOn [f] m m') : slot m' f = slot m f := by
  funext i
  have hr : readPte m' (pteAddr f i) = readPte m (pteAddr f i) := by
    unfold readPte
    rw [Mem.word_congr]
    intro k hk
    apply h f List.mem_cons_self
    have := i.isLt
    unfold pteAddr
    omega
  unfold slot
  rw [hr]

theorem slot_zeroFrame (m : Mem) (f : Nat) (i : Fin 512) : slot (zeroFrame m f) f i = none := by
  have hr : readPte (zeroFrame m f) (pteAddr f i) = ⟨0⟩ := by
    unfold readPte
    rw [Mem.word_zero]
    intro k hk
    have := i.isLt
    unfold zeroFrame pteAddr
    rw [if_pos (by omega)]
  unfold slot
  rw [hr, PageTableEntry.isValid_zero]
  rfl

theorem readPte_setWord_same (m : Mem) (a : Nat) {e : PageTableEntry} (he : e.bits < 2 ^ 64) :
    readPte (m.setWord 8 a e.bits) a = e := by
  have hm : e.bits % 256 ^ 8 = e.bits := Nat.mod_eq_of_lt (by omega)
  unfold readPte
  rw [Mem.word_setWord_same, hm]

theorem slot_setWord_same (m : Mem) (f : Nat) (i : Fin 512) {e : PageTableEntry}
    (he : e.bits < 2 ^ 64) :
    slot (m.setWord 8 (pteAddr f i) e.bits) f i = if e.isValid then some e else none := by
  unfold slot
  rw [readPte_setWord_same m _ he]

theorem slot_setWord_ne (m : Mem) (f : Nat) {i j : Fin 512} (v : Nat) (h : j ≠ i) :
    slot (m.setWord 8 (pteAddr f i) v) f j = slot m f j := by
  have hij : j.val ≠ i.val := fun hc => h (Fin.ext hc)
  have hr : readPte (m.setWord 8 (pteAddr f i) v) (pteAddr f j) = readPte m (pteAddr f j) := by
    unfold readPte
    rw [Mem.word_setWord_of_disjoint]
    unfold pteAddr
    omega
  unfold slot
  rw [hr]

theorem sameOn_setPte {fs : List Nat} {f : Nat} (hf : f ∉ fs) (m : Mem) (i : Fin 512) (v : Nat) :
    SameOn fs m (m.setWord 8 (pteAddr f i) v) := by
  have hi := i.isLt
  apply SameOn.setWord hf
  · unfold pteAddr
    omega
  · unfold pteAddr
    omega

theorem slot_setWord_frame (m : Mem) {f g : Nat} (i : Fin 512) (v : Nat) (h : g ≠ f) :
    slot (m.setWord 8 (pteAddr f i) v) g = slot m g := by
  apply slot_congr
  apply sameOn_setPte
  rw [List.mem_singleton]
  exact h.symm

/-! ## Tables -/

/-- The slots passed on the way to a table, the last one first. -/
abbrev Path := List (Fin 512)

namespace PageTable

/-- The frame of the table at a path. -/
def table (m : Mem) (pt : PageTable) (p : Path) : Option Nat :=
  Radix.walk PageTableEntry.ppn (slot m) pt.rootPpn p

/-- The entry in slot `i` of the table at `p`. -/
def entry (m : Mem) (pt : PageTable) (p : Path) (i : Fin 512) : Option PageTableEntry :=
  Radix.lookup PageTableEntry.ppn (slot m) pt.rootPpn p i

/-- The number of tables among `ps` that do not exist yet. -/
def missing (m : Mem) (pt : PageTable) (ps : Finset Path) : Nat :=
  (ps.filter fun p => pt.table m p = none).card

/-- The path of the last table on the way to a page. -/
def leafPath (vpn : Nat) : Path := [Fin.ofNat 512 (vpn / 2 ^ 9), Fin.ofNat 512 (vpn / 2 ^ 18)]

/-- The tables below the root that a page needs. -/
def tablePaths (vpn : Nat) : Finset Path := {[Fin.ofNat 512 (vpn / 2 ^ 18)], leafPath vpn}

theorem entry_eq (m : Mem) (pt : PageTable) (p : Path) (i : Fin 512) :
    pt.entry m p i = (pt.table m p).bind fun f => slot m f i := rfl

@[simp] theorem leafPath_length (vpn : Nat) : (leafPath vpn).length = 2 := rfl

theorem findPteLoop_cons (m : Mem) (ppn : Nat) (i : Fin 512) (idxs : List (Fin 512)) :
    findPteLoop m ppn (i :: idxs) = (slot m ppn i).bind fun e =>
      if idxs.isEmpty then some (pteAddr ppn i) else findPteLoop m e.ppn idxs := by
  rw [findPteLoop, slot]
  cases (readPte m (pteAddr ppn i)).isValid <;> simp

theorem readPte_of_slot {m : Mem} {ppn : Nat} {i : Fin 512} {e : PageTableEntry}
    (h : slot m ppn i = some e) : readPte m (pteAddr ppn i) = e := by
  unfold slot at h
  split at h
  · exact Option.some.inj h
  · cases h

theorem findPte_eq (m : Mem) (pt : PageTable) (vpn : Nat) :
    pt.findPte m vpn = (pt.table m (leafPath vpn)).bind fun f =>
      (slot m f (Fin.ofNat 512 vpn)).map fun _ => pteAddr f (Fin.ofNat 512 vpn) := by
  unfold findPte indexes table leafPath
  simp only [findPteLoop_cons, Radix.walk, List.isEmpty_cons, List.isEmpty_nil, Option.bind_some]
  cases slot m pt.rootPpn (Fin.ofNat 512 (vpn / 2 ^ 18)) with
  | none => rfl
  | some e =>
    simp only [Option.bind_some, Option.map_some]
    cases slot m e.ppn (Fin.ofNat 512 (vpn / 2 ^ 9)) with
    | none => rfl
    | some e' =>
      simp only [Option.bind_some, Option.map_some]
      cases slot m e'.ppn (Fin.ofNat 512 vpn) with
      | none => rfl
      | some e'' => simp

theorem translate_eq (m : Mem) (pt : PageTable) (vpn : Nat) :
    pt.translate m vpn = pt.entry m (leafPath vpn) (Fin.ofNat 512 vpn) := by
  rw [translate, findPte_eq, entry_eq]
  cases pt.table m (leafPath vpn) with
  | none => rw [Option.bind_none, Option.bind_none, Option.map_none]
  | some f =>
    rw [Option.bind_some, Option.bind_some]
    cases h : slot m f (Fin.ofNat 512 vpn) with
    | none => rw [Option.map_none, Option.map_none]
    | some e => rw [Option.map_some, Option.map_some, readPte_of_slot h]

/-- A walk looks only at the 27 low bits of a page number. -/
theorem translate_mod (m : Mem) (pt : PageTable) (vpn : Nat) :
    pt.translate m (vpn % 2 ^ 27) = pt.translate m vpn := by
  have h0 : Fin.ofNat 512 (vpn % 2 ^ 27) = Fin.ofNat 512 vpn := by
    apply Fin.ext
    rw [Fin.val_ofNat, Fin.val_ofNat]
    omega
  have h1 : Fin.ofNat 512 (vpn % 2 ^ 27 / 2 ^ 9) = Fin.ofNat 512 (vpn / 2 ^ 9) := by
    apply Fin.ext
    rw [Fin.val_ofNat, Fin.val_ofNat]
    omega
  have h2 : Fin.ofNat 512 (vpn % 2 ^ 27 / 2 ^ 18) = Fin.ofNat 512 (vpn / 2 ^ 18) := by
    apply Fin.ext
    rw [Fin.val_ofNat, Fin.val_ofNat]
    omega
  rw [translate_eq, translate_eq, leafPath, leafPath, h0, h1, h2]

/-- Distinct pages of the 27-bit space have distinct slots. -/
theorem eq_of_slots {v w : Nat} (hv : v < 2 ^ 27) (hw : w < 2 ^ 27)
    (hp : leafPath v = leafPath w) (hi : Fin.ofNat 512 v = Fin.ofNat 512 w) : v = w := by
  simp only [leafPath, List.cons.injEq, Fin.ext_iff, Fin.val_ofNat, and_true] at hp hi
  omega

end PageTable

/-- The invariant of a page table: its tables are frames of its own, one for each. -/
structure Tables (m : Mem) (pt : PageTable) : Prop where
  apart : Radix.Apart PageTableEntry.ppn (slot m) pt.rootPpn 3
  owned : ∀ p f, p.length < 3 → pt.table m p = some f → f ∈ pt.frames

namespace Tables

variable {m m' : Mem} {pt : PageTable}

theorem root_mem (h : Tables m pt) : pt.rootPpn ∈ pt.frames :=
  h.owned [] _ (by decide) rfl

/-- The tables depend only on the frames the page table owns. -/
theorem table_congr (h : Tables m pt) (hs : SameOn pt.frames m m') {p : Path} (hp : p.length ≤ 3) :
    pt.table m' p = pt.table m p := by
  apply Radix.walk_congr
  intro q f hq hf
  exact slot_congr (hs.single (h.owned q f (by omega) hf))

theorem entry_congr (h : Tables m pt) (hs : SameOn pt.frames m m') {p : Path} (hp : p.length < 3)
    (i : Fin 512) : pt.entry m' p i = pt.entry m p i := by
  rw [PageTable.entry_eq, PageTable.entry_eq, h.table_congr hs (Nat.le_of_lt hp)]
  cases hw : pt.table m p with
  | none => rw [Option.bind_none, Option.bind_none]
  | some f =>
    have hf : slot m' f = slot m f := slot_congr (hs.single (h.owned p f hp hw))
    rw [Option.bind_some, Option.bind_some, hf]

theorem translate_congr (h : Tables m pt) (hs : SameOn pt.frames m m') (vpn : Nat) :
    pt.translate m' vpn = pt.translate m vpn := by
  rw [PageTable.translate_eq, PageTable.translate_eq]
  exact h.entry_congr hs (by simp) _

theorem congr (h : Tables m pt) (hs : SameOn pt.frames m m') : Tables m' pt := by
  refine ⟨?_, ?_⟩
  · intro p q f hp hq hpf hqf
    have hp' := h.table_congr hs (Nat.le_of_lt hp)
    have hq' := h.table_congr hs (Nat.le_of_lt hq)
    exact h.apart p q f hp hq (hp'.symm.trans hpf) (hq'.symm.trans hqf)
  · intro p f hp hf
    rw [h.table_congr hs (Nat.le_of_lt hp)] at hf
    exact h.owned p f hp hf

end Tables

end RCore.Mm
