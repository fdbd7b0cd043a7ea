import RCore.Mm.Verify.Elf

/-!
# Where the bytes of a segment are

`copy_data` stores the bytes of a segment from the start of its first page on, wherever in this page the
segment begins. The program finds them at the addresses of the segment if that is the start of the page, and
otherwise only if they are all zero.
-/

namespace RCore.Mm

variable {L : Layout} {rest : List Nat} {s : Phys} {ms : MemorySet} {m : Mem} {elf : ElfFile} {data : List UInt8}

/-- The program finds the bytes of the file at the addresses of the segment, and zeros behind them. -/
def Placed (elf : ElfFile) (m : Mem) (ms : MemorySet) (ph : ProgramHeader) : Prop :=
  (∀ i < ph.fileSize, userByte m (PageTable.fromToken ms.token) (ph.virtualAddr + i) = elf.input[ph.offset + i]?) ∧
    ∀ i, ph.fileSize ≤ i → i < ph.memSize →
      userByte m (PageTable.fromToken ms.token) (ph.virtualAddr + i) = some 0

/-- Data that agrees with itself when it is shifted, up to its end, is zero. -/
theorem getD_eq_zero_of_shift {k n : Nat} (hk : 0 < k) (hlen : data.length ≤ n)
    (hshift : ∀ i < n, data.getD (k + i) 0 = data.getD i 0) (i : Nat) : data.getD i 0 = 0 := by
  induction hn : n - i using Nat.strong_induction_on generalizing i with
  | _ d ih =>
    by_cases hi : i < n
    · rw [← hshift i hi]
      exact ih (n - (k + i)) (by omega) (k + i) rfl
    · rw [List.getD_eq_getElem?_getD, List.getElem?_eq_none (by omega), Option.getD_none]

/-- The byte that the program finds at an address of a segment. -/
theorem LoadedSpace.userByte {s' : Phys} {sp : Nat} {segs : List MapArea} {stack trap : MapArea}
    (h : LoadedSpace L rest elf s s' ms sp segs stack trap) (hwp : elf.WellPlaced)
    (hall : ∀ ph ∈ elf.loads, 0 < ph.memSize ∧ ph.fileSize ≤ ph.memSize) {ph : ProgramHeader} (hph : ph ∈ elf.loads) :
    ph.offset + ph.fileSize ≤ elf.input.length ∧
      ∀ i < ph.memSize, Mm.userByte s'.mem (PageTable.fromToken ms.token) (ph.virtualAddr + i) =
        some ((elf.segmentData ph).getD (ph.virtualAddr % 4096 + i) 0) := by
  obtain ⟨k, hk, rfl⟩ := List.getElem_of_mem hph
  have hdata := h.data hall
  have hk' : k < segs.length := by rwa [← h.shape.length_eq]
  have hshape : IsSegment elf.loads[k] segs[k] := h.shape.get hk hk'
  have hbytes : HasData elf s'.mem elf.loads[k] segs[k] := hdata.get hk hk'
  generalize elf.loads[k] = ph at hph hshape hbytes
  have hmem : segs[k] ∈ ms.areas := by
    rw [h.areas]
    exact List.mem_append_left _ (List.getElem_mem hk')
  generalize segs[k] = area at hshape hbytes hmem
  refine ⟨hbytes.inFile, fun i hi => ?_⟩
  have hlt := hwp.lt ph hph
  have hin : (ph.virtualAddr + i) / 4096 ∈ area.entries.map Prod.fst := by
    rw [h.whole.full area hmem, VPNRange.mem_toList, hshape.l, hshape.r, ProgramHeader.firstPage, ProgramHeader.endPage]
    omega
  rw [MapArea.entries_framed (h.framed area hmem)] at hin
  obtain ⟨⟨v, f⟩, hvf, hv⟩ := List.mem_map.mp hin
  simp only at hv
  subst hv
  obtain ⟨e, he, hppn, -⟩ := h.whole.good.translate_area h.framed hmem hvf
  rw [← h.whole.good.translate_token] at he
  have hshow := hbytes.shows _ hvf ((ph.virtualAddr + i) % 4096) (Nat.mod_lt _ (by decide))
  rw [userByte_of_translate he (by omega), hppn, hshow, hshape.l, ProgramHeader.firstPage]
  congr 2
  omega

/-- **When the bytes of a segment are where the program expects them.** -/
theorem fromElf_places_iff {s' : Phys} {sp entry : Nat} (hh : Held L.firstFrame s.frames rest) (hwp : elf.WellPlaced)
    (hsize : ∀ ph ∈ elf.loads, ph.fileSize ≤ ph.memSize)
    (hrun : (MemorySet.fromElf L elf).run s = some ((ms, sp, entry), s')) {ph : ProgramHeader} (hph : ph ∈ elf.loads) :
    Placed elf s'.mem ms ph ↔ ph.virtualAddr % 4096 = 0 ∨ ∀ b ∈ elf.segmentData ph, b = 0 := by
  obtain ⟨segs, stack, trap, h⟩ := fromElf_built hh hwp _ _ hrun
  obtain ⟨hfile, hbyte⟩ := h.userByte hwp (fun q hq => ⟨hwp.nonempty q hq, hsize q hq⟩) hph
  have hle := hsize ph hph
  generalize hdata : elf.segmentData ph = data at hbyte
  have hlen : data.length = ph.fileSize := by
    rw [← hdata, ElfFile.segmentData, List.length_take, List.length_drop]
    omega
  have hinput : ∀ i < ph.fileSize, elf.input[ph.offset + i]? = some (data.getD i 0) := by
    intro i hi
    have hget : data[i]? = elf.input[ph.offset + i]? := by
      rw [← hdata, ElfFile.segmentData, List.getElem?_take_of_lt hi, List.getElem?_drop]
    rw [← hget, List.getD_eq_getElem?_getD, List.getElem?_eq_getElem (by omega), Option.getD_some]
  have hend : ∀ i, ph.fileSize ≤ i → data.getD i 0 = 0 := by
    intro i hi
    rw [List.getD_eq_getElem?_getD, List.getElem?_eq_none (by omega), Option.getD_none]
  have hshift : Placed elf s'.mem ms ph ↔
      ∀ i < ph.memSize, data.getD (ph.virtualAddr % 4096 + i) 0 = data.getD i 0 := by
    constructor
    · rintro ⟨hin, hzero⟩ i hi
      by_cases hf : i < ph.fileSize
      · have hi' := hin i hf
        rw [hbyte i hi, hinput i hf, Option.some.injEq] at hi'
        exact hi'
      · have hi' := hzero i (Nat.le_of_not_lt hf) hi
        rw [hbyte i hi, Option.some.injEq] at hi'
        rw [hi', hend i (Nat.le_of_not_lt hf)]
    · intro hs
      refine ⟨fun i hi => ?_, fun i hf hi => ?_⟩
      · rw [hbyte i (Nat.lt_of_lt_of_le hi hle), hinput i hi, hs i (Nat.lt_of_lt_of_le hi hle)]
      · rw [hbyte i hi, hs i hi, hend i hf]
  rw [hshift]
  constructor
  · intro hs
    by_cases hoff : ph.virtualAddr % 4096 = 0
    · exact Or.inl hoff
    · refine Or.inr fun b hb => ?_
      obtain ⟨i, hi, rfl⟩ := List.getElem_of_mem hb
      have hzero := getD_eq_zero_of_shift (Nat.pos_of_ne_zero hoff) (by omega) hs i
      rwa [List.getD_eq_getElem?_getD, List.getElem?_eq_getElem hi, Option.getD_some] at hzero
  · rintro (hoff | hzero) i _
    · rw [hoff, Nat.zero_add]
    · have hall : ∀ j, data.getD j 0 = 0 := by
        intro j
        rw [List.getD_eq_getElem?_getD]
        cases hj : data[j]? with
        | none => rfl
        | some b => exact hzero b (List.mem_of_getElem? hj)
      rw [hall, hall]

/-- A program of one segment of one byte, at this address. -/
def oneByte (virtualAddr : Nat) (b : UInt8) : ElfFile where
  input := [b]
  programHeaders := [⟨true, virtualAddr, 1, 0, 1, true, false, true⟩]
  entryPoint := virtualAddr

theorem exists_oneByte {virtualAddr : Nat} {b : UInt8} (hwp : (oneByte virtualAddr b).WellPlaced)
    (hfree : (oneByte virtualAddr b).framesNeeded ≤ freshPhys.frames.free) :
    ∃ ms sp entry s, (MemorySet.fromElf smallKernel (oneByte virtualAddr b)).run freshPhys = some ((ms, sp, entry), s) := by
  have hfits : (oneByte virtualAddr b).DataFits := by
    refine ⟨(by decide : 1 < 2 ^ 64), fun ph hph => ?_⟩
    rw [List.mem_singleton.mp hph]
    exact ⟨Nat.le_refl 1, Nat.le_refl 1⟩
  obtain ⟨⟨⟨ms, sp, entry⟩, s⟩, hrun⟩ := fromElf_returns (held_init smallKernel) hwp hfits hfree
  exact ⟨ms, sp, entry, s, hrun⟩

theorem fromElf_places_aligned : ∃ (ms : MemorySet) (s : Phys), ∀ ph ∈ (oneByte 0x10000 1).loads, Placed (oneByte 0x10000 1) s.mem ms ph := by
  have hwp : (oneByte 0x10000 1).WellPlaced := ⟨by decide, by decide, by decide⟩
  obtain ⟨ms, sp, entry, s, hrun⟩ := exists_oneByte hwp (by decide)
  refine ⟨ms, s, fun ph hph => ?_⟩
  have halign : ph.virtualAddr % 4096 = 0 := by
    rw [List.mem_singleton.mp hph]
    exact (by decide : 0x10000 % 4096 = 0)
  exact (fromElf_places_iff (held_init smallKernel) hwp (by decide) hrun hph).mpr (Or.inl halign)

/-- A segment that begins inside a page. -/
theorem fromElf_misplaces : ∃ ms sp entry s,
    (MemorySet.fromElf smallKernel (oneByte 0x10010 1)).run freshPhys = some ((ms, sp, entry), s) ∧
      ∃ ph ∈ (oneByte 0x10010 1).loads, ¬Placed (oneByte 0x10010 1) s.mem ms ph := by
  have hwp : (oneByte 0x10010 1).WellPlaced := ⟨by decide, by decide, by decide⟩
  obtain ⟨ms, sp, entry, s, hrun⟩ := exists_oneByte hwp (by decide)
  have hph : (⟨true, 0x10010, 1, 0, 1, true, false, true⟩ : ProgramHeader) ∈ (oneByte 0x10010 1).loads :=
    List.mem_singleton.mpr rfl
  refine ⟨ms, sp, entry, s, hrun, _, hph, fun hplaced => ?_⟩
  have hiff := (fromElf_places_iff (held_init smallKernel) hwp (by decide) hrun hph).mp hplaced
  exact absurd hiff (by decide)

end RCore.Mm
