import RCore.Mm.Verify.Munmap
import RCore.Mm.Verify.Pointers

/-!
# What a program can touch

The permissions of the areas as the hart enforces them. A user reaches exactly the pages of the areas
whose permissions open them, and so neither the trampoline nor a trap context, and the kernel executes
nothing that a program can have written.
-/

namespace RCore.Mm

open Riscv

/-! ## Permissions -/

/-- A permission of an area. -/
def grants (perm : MapPermission) (flag : PTEFlags) : Bool := (perm &&& flag) != 0

/-- The permissions of an area let an access through. A page that is writable but not readable does not
exist for the hart. -/
def opens (perm : MapPermission) (sstatus : Word) (mode : Mode) (acc : Access) : Bool :=
  allows (grants perm) sstatus mode acc && !(grants perm PTEFlags.W && !grants perm PTEFlags.R)

section Allows

variable {on : PTEFlags → Bool} {sstatus : Word} {mode : Mode} {acc : Access}

theorem allows_user (h : allows on sstatus .user acc = true) : on PTEFlags.U = true := by
  cases acc <;> exact (Bool.and_eq_true_iff.mp h).1

theorem allows_store (h : allows on sstatus mode .store = true) : on PTEFlags.W = true := by
  cases mode <;> exact (Bool.and_eq_true_iff.mp h).2

theorem allows_fetch (h : allows on sstatus mode .fetch = true) : on PTEFlags.X = true := by
  cases mode <;> exact (Bool.and_eq_true_iff.mp h).2

end Allows

namespace PageTableEntry

theorem has_new {f : Nat} (hf : f < 2 ^ 44) (perm : MapPermission) {flag : PTEFlags}
    (hflag : PTEFlags.V &&& flag = 0) : (new f (perm ||| PTEFlags.V)).has flag = grants perm flag := by
  have hand : (perm ||| PTEFlags.V) &&& flag = perm &&& flag := by
    apply UInt8.toBitVec_inj.mp
    have hzero := congrArg UInt8.toBitVec hflag
    rw [UInt8.toBitVec_and] at hzero
    rw [UInt8.toBitVec_and, UInt8.toBitVec_or, BitVec.and_or_distrib_right, hzero, UInt8.toBitVec_and]
    exact BitVec.or_zero
  rw [has, flags_new hf, hand, grants]

/-- **An entry that `map` writes** opens the page as the permissions say. -/
theorem opens_new {f : Nat} (hf : f < 2 ^ 44) (perm : MapPermission) (sstatus : Word) (mode : Mode)
    (acc : Access) : (((new f (perm ||| PTEFlags.V)).isLegal ∧ (new f (perm ||| PTEFlags.V)).isLeaf) ∧
      (new f (perm ||| PTEFlags.V)).permits sstatus mode acc) ↔ opens perm sstatus mode acc := by
  have hbits : (new f (perm ||| PTEFlags.V)).bits / 2 ^ 54 = 0 := by
    have hlt := (perm ||| PTEFlags.V).toNat_lt
    rw [bits_new hf]
    omega
  have hr : (new f (perm ||| PTEFlags.V)).has PTEFlags.R = grants perm PTEFlags.R := has_new hf perm rfl
  have hw : (new f (perm ||| PTEFlags.V)).has PTEFlags.W = grants perm PTEFlags.W := has_new hf perm rfl
  have hx : (new f (perm ||| PTEFlags.V)).has PTEFlags.X = grants perm PTEFlags.X := has_new hf perm rfl
  have hu : (new f (perm ||| PTEFlags.V)).has PTEFlags.U = grants perm PTEFlags.U := has_new hf perm rfl
  simp only [isLegal, isLeaf, permits, opens, allows, isValid_new hf, hbits, hr, hw, hx, hu]
  generalize grants perm PTEFlags.R = r
  generalize grants perm PTEFlags.W = w
  generalize grants perm PTEFlags.X = x
  generalize grants perm PTEFlags.U = u
  generalize sstatus.getLsbD 18 = sum
  generalize sstatus.getLsbD 19 = mxr
  revert r w x u sum mxr
  cases mode <;> cases acc <;> decide

end PageTableEntry

/-! ## Spaces -/

section Spaces

variable {L : Layout} {rest : List Nat} {s : Phys} {ms : MemorySet} {sstatus : Word} {mode : Mode} {acc : Access}
  {va pa : Nat}

/-- The root of a good space is a frame. -/
theorem Good.root_lt (h : Good L rest s ms) : ms.pageTable.rootPpn < 2 ^ 44 :=
  h.held.lt_of_mem (List.mem_append_left _ (List.mem_append_left _ (h.owns.tables.owned [] _ (by decide) rfl)))

/-- **The hart sees the mappings of the space**, as far as their permissions open them. -/
theorem Wired.translate_iff (h : Wired L rest s ms) (hva : Sv39.canonical va = true) :
    Sv39.translate (BitVec.ofNat 64 ms.token) sstatus mode acc s.mem va = some pa ↔
      ∃ e, (va / 4096 % 2 ^ 27, e) ∈ ms.entries L ∧ (e.isLegal ∧ e.isLeaf) ∧ e.permits sstatus mode acc ∧
        pa = e.ppn * 4096 + va % 4096 := by
  have hmem : ∀ e, ms.pageTable.translate s.mem (va / 4096 % 2 ^ 27) = some e ↔
      (va / 4096 % 2 ^ 27, e) ∈ ms.entries L := fun e => h.good.translate _ e (Nat.mod_lt _ (by decide))
  rw [MemorySet.token, Sv39.translate_eq h.pointers h.good.root_lt _ _ _ hva, Option.bind_eq_some_iff]
  constructor
  · rintro ⟨e, he, hpa⟩
    split at hpa
    next hok =>
      cases hpa
      exact ⟨e, (hmem e).mp he, hok.1, hok.2, rfl⟩
    next => cases hpa
  · rintro ⟨e, he, hok, hperm, rfl⟩
    exact ⟨e, (hmem e).mpr he, if_pos ⟨hok, hperm⟩⟩

/-- What the areas map has a number of 44 bits. -/
theorem Good.entry_lt (h : Good L rest s ms) {area : MapArea} (ha : area ∈ ms.areas) {v f : Nat}
    (hf : (v, f) ∈ area.entries) : f < 2 ^ 44 := by
  have hok := h.area area ha
  cases htype : area.mapType with
  | framed =>
    rw [MapArea.entries_framed htype] at hf
    exact h.held.lt_of_mem (List.mem_append_left _ (List.mem_append_right _ (Good.mem_frames ha hf)))
  | identical =>
    rw [MapArea.entries, htype] at hf
    obtain ⟨w, hw, hwf⟩ := List.mem_map.mp hf
    cases hwf
    have hle := hok.le
    have hin := VPNRange.mem_toList.mp hw
    omega

/-- No mapping has one of the upper bits. -/
theorem Good.bits_lt (h : Good L rest s ms) {v : Nat} {e : PageTableEntry} (he : (v, e) ∈ ms.entries L) :
    e.bits < 2 ^ 54 := by
  have hnew : ∀ {f : Nat}, f < 2 ^ 44 → ∀ flags, (PageTableEntry.new f flags).bits < 2 ^ 54 := by
    intro f hf flags
    have hlt := flags.toNat_lt
    rw [PageTableEntry.bits_new hf]
    omega
  rw [MemorySet.entries, List.mem_cons, List.mem_flatMap] at he
  rcases he with he | ⟨area, ha, he⟩
  · cases he
    exact hnew L.trampolinePpn_lt_pow _
  · obtain ⟨f, hf, rfl⟩ := MapArea.mem_ptes.mp he
    exact hnew (h.entry_lt ha hf) _

/-- **The hart sees the areas and the trampoline**, as far as the permissions open them. -/
theorem Wired.translate_area_iff (h : Wired L rest s ms) (hva : Sv39.canonical va = true) :
    Sv39.translate (BitVec.ofNat 64 ms.token) sstatus mode acc s.mem va = some pa ↔
      (va / 4096 % 2 ^ 27 = trampolineVpn ∧ opens (PTEFlags.R ||| PTEFlags.X) sstatus mode acc = true ∧
        pa = L.trampolinePpn * 4096 + va % 4096) ∨
      ∃ area ∈ ms.areas, ∃ f, (va / 4096 % 2 ^ 27, f) ∈ area.entries ∧
        opens area.mapPerm sstatus mode acc = true ∧ pa = f * 4096 + va % 4096 := by
  have htramp := L.trampolinePpn_lt_pow
  rw [h.translate_iff hva]
  constructor
  · rintro ⟨e, he, hok, hperm, rfl⟩
    rw [MemorySet.entries, List.mem_cons, List.mem_flatMap] at he
    rcases he with he | ⟨area, ha, he⟩
    · obtain ⟨hv, rfl⟩ := Prod.mk.inj he
      refine Or.inl ⟨hv, (PageTableEntry.opens_new htramp _ _ _ _).mp ⟨hok, hperm⟩, ?_⟩
      rw [trampolineEntry, PageTableEntry.ppn_new htramp]
    · obtain ⟨f, hf, rfl⟩ := MapArea.mem_ptes.mp he
      have hlt := h.good.entry_lt ha hf
      refine Or.inr ⟨area, ha, f, hf, (PageTableEntry.opens_new hlt _ _ _ _).mp ⟨hok, hperm⟩, ?_⟩
      rw [PageTableEntry.ppn_new hlt]
  · rintro (⟨hv, hopen, rfl⟩ | ⟨area, ha, f, hf, hopen, rfl⟩)
    · obtain ⟨hok, hperm⟩ := (PageTableEntry.opens_new htramp _ _ _ _).mpr hopen
      refine ⟨trampolineEntry L, ?_, hok, hperm, ?_⟩
      · rw [hv]
        exact List.mem_cons_self
      · rw [trampolineEntry, PageTableEntry.ppn_new htramp]
    · have hlt := h.good.entry_lt ha hf
      obtain ⟨hok, hperm⟩ := (PageTableEntry.opens_new hlt _ _ _ _).mpr hopen
      refine ⟨_, List.mem_cons_of_mem _ (List.mem_flatMap.mpr ⟨area, ha, MapArea.mem_ptes.mpr ⟨f, hf, rfl⟩⟩),
        hok, hperm, ?_⟩
      rw [PageTableEntry.ppn_new hlt]

/-- An address that is not canonical leads nowhere. -/
theorem Wired.translate_canonical (h : Wired L rest s ms)
    (ht : Sv39.translate (BitVec.ofNat 64 ms.token) sstatus mode acc s.mem va = some pa) :
    Sv39.canonical va = true := by
  have hsatp : (BitVec.ofNat 64 ms.token).toNat = 2 ^ 63 + ms.pageTable.rootPpn := by
    have hlt := h.good.root_lt
    rw [BitVec.toNat_ofNat, MemorySet.token, Sv39.token_eq hlt]
    omega
  have hmode : (BitVec.ofNat 64 ms.token).toNat / 2 ^ 60 = 8 := by
    have hlt := h.good.root_lt
    omega
  by_contra hc
  rw [Sv39.translate] at ht
  simp only [hmode, if_neg hc] at ht
  cases ht

/-! ## The permissions of all mappings -/

/-- The flags of all mappings, by page. -/
def MemorySet.FlagsIn (L : Layout) (ms : MemorySet) (P : Nat → PTEFlags → Prop) : Prop :=
  ∀ v e, (v, e) ∈ ms.entries L → P v e.flags

variable {P : Nat → PTEFlags → Prop} {s' : Phys} {ms' c : MemorySet} {area : MapArea}

theorem MemorySet.flagsIn_of_nil (h : ms.areas = []) (hP : P trampolineVpn (PTEFlags.R ||| PTEFlags.X ||| PTEFlags.V)) :
    ms.FlagsIn L P := by
  intro v e he
  rw [MemorySet.entries, h, List.flatMap_nil, List.mem_singleton] at he
  cases he
  rw [trampolineEntry, PageTableEntry.flags_new L.trampolinePpn_lt_pow]
  exact hP

theorem Pushed.flagsIn (h : Pushed L rest s ms area s' ms') (hms : ms.FlagsIn L P)
    (hP : ∀ v, P v (area.mapPerm ||| PTEFlags.V)) : ms'.FlagsIn L P := by
  obtain ⟨es, _, hareas⟩ := h.areas
  have hin : area.extend es ∈ ms'.areas := by
    rw [hareas]
    exact List.mem_append_right _ List.mem_cons_self
  intro v e he
  rw [MemorySet.entries, hareas, List.flatMap_append, List.flatMap_singleton, ← List.cons_append,
    List.mem_append] at he
  rcases he with he | he
  · exact hms v e he
  · obtain ⟨f, hf, rfl⟩ := MapArea.mem_ptes.mp he
    rw [PageTableEntry.flags_new (h.good.entry_lt hin hf), MapArea.extend_mapPerm]
    exact hP v

theorem Copying.flagsIn (h : Copying L rest s ms ms.areas s' c) (hp : Good L rest s ms) (hpf : ms.Framed)
    (hms : ms.FlagsIn L P) : c.FlagsIn L P := by
  intro v e he
  have hv := h.child.lt_of_key (List.mem_map.mpr ⟨_, he, rfl⟩)
  have hflags := h.flags hp hpf hv
  rw [(h.child.translate v e hv).mpr he, Option.map_some] at hflags
  obtain ⟨e', he', hee⟩ := Option.map_eq_some_iff.mp hflags.symm
  rw [← hee]
  exact hms v e' ((hp.translate v e' hv).mp he')

theorem MemorySet.flagsIn_of_sublist (h : ms'.areas.Sublist ms.areas) (hms : ms.FlagsIn L P) : ms'.FlagsIn L P := by
  intro v e he
  refine hms v e ?_
  rw [MemorySet.entries, List.mem_cons, List.mem_flatMap] at he ⊢
  rcases he with he | ⟨area, ha, hmem⟩
  · exact Or.inl he
  · exact Or.inr ⟨area, h.subset ha, hmem⟩

/-! ## The spaces of users -/

/-- The flags in the space of a program: of its own pages, of the trap context, of the trampoline. -/
def userFlags (v : Nat) (flags : PTEFlags) : Prop :=
  flags &&& PTEFlags.U ≠ 0 ∨ flags = PTEFlags.R ||| PTEFlags.W ||| PTEFlags.V ∨
    v = trampolineVpn ∧ flags = PTEFlags.R ||| PTEFlags.X ||| PTEFlags.V

theorem mapSegments_flagsIn (elf : ElfFile) (phs : List ProgramHeader) (maxEndVpn : Nat) (h : Good L rest s ms)
    (hfr : ms.Framed) (hms : ms.FlagsIn L userFlags) :
    (MemorySet.mapSegments elf ms maxEndVpn phs).wlp (fun r s' =>
      Good L rest s' r.1 ∧ r.1.Framed ∧ r.1.FlagsIn L userFlags) s := by
  induction phs generalizing s ms maxEndVpn with
  | nil =>
    rw [MemorySet.mapSegments, Comp.wlp_pure]
    exact ⟨h, hfr, hms⟩
  | cons ph phs ih =>
    rw [MemorySet.mapSegments]
    split
    · simp only [MapArea.new, Comp.wlp_bind, VPNRange.wlp_new, Comp.wlp_pure, Comp.wlp_assert]
      intro hle _
      refine (push_wlp h (fresh_new hle .framed) fun _ => ⟨hfr, rfl⟩).mono ?_
      rintro ⟨r, ms'⟩ s' hr
      cases r with
      | ok =>
        simp only [unwrapOk, Comp.wlp_pure]
        refine ih _ hr.good (hr.framed hfr rfl) (hr.flagsIn hms fun _ => Or.inl ?_)
        show (MemorySet.segmentPerm ph ||| PTEFlags.V) &&& PTEFlags.U ≠ 0
        rw [MemorySet.segmentPerm]
        cases ph.isRead <;> cases ph.isWrite <;> cases ph.isExecute <;> decide
      | error => simp only [unwrapOk, Comp.wlp_panic]
    · exact ih _ h hfr hms

theorem fromElf_flagsIn (hh : Held L.firstFrame s.frames rest) (elf : ElfFile) :
    (MemorySet.fromElf L elf).wlp (fun r _ => r.1.FlagsIn L userFlags) s := by
  rw [MemorySet.fromElf]
  simp only [Comp.wlp_bind]
  refine newUser_wlp hh fun ms₀ s₀ hareas hg _ => ?_
  have h₀ : ms₀.FlagsIn L userFlags := MemorySet.flagsIn_of_nil hareas (Or.inr (Or.inr ⟨rfl, rfl⟩))
  refine (mapSegments_flagsIn elf _ 0 hg (MemorySet.framed_of_nil hareas) h₀).mono ?_
  rintro ⟨ms₁, maxEndVpn⟩ s₁ ⟨hg₁, _, h₁⟩
  refine (pushNew_wlp hg₁ fun hc => absurd rfl hc).mono ?_
  rintro ms₂ s₂ ⟨_, hP₂⟩
  refine (pushNew_wlp hP₂.good fun hc => absurd rfl hc).mono ?_
  rintro ms₃ s₃ ⟨_, hP₃⟩
  rw [Comp.wlp_pure]
  have hstack : ∀ v, userFlags v (PTEFlags.R ||| PTEFlags.W ||| PTEFlags.U ||| PTEFlags.V) := fun _ =>
    Or.inl (by decide)
  exact hP₃.flagsIn (hP₂.flagsIn h₁ hstack) fun _ => Or.inr (Or.inl rfl)

theorem UserSpace.flagsIn (h : UserSpace L rest s ms) : ms.FlagsIn L userFlags := by
  induction h with
  | fromElf hh hrun => exact fromElf_flagsIn hh _ _ _ hrun
  | @mmap _ _ _ _ _ start len prot hu hrun ih =>
    rcases sysMmap_wlp hu.good.1 _ _ _ _ _ hrun with ⟨hr, _⟩ | ⟨hr, _⟩ | ⟨_, area, _, hperm, _, hP⟩
    · cases hr
    · cases hr
    · refine hP.flagsIn ih fun _ => Or.inl ?_
      rw [hperm, protPerm]
      cases prot.testBit 0 <;> cases prot.testBit 1 <;> cases prot.testBit 2 <;> decide
  | munmap hu hrun ih =>
    rcases sysMunmap_wlp hu.good.1 hu.good.2 _ _ _ _ hrun with ⟨hr, _⟩ | ⟨_, hR⟩
    · cases hr
    · exact fun v e he => ih v e ((hR.entries v e).mp he).1
  | fork hu hrun ih => exact (fromExistedUserspace_wlp hu.good.1 hu.good.2 _ _ hrun).flagsIn hu.good.1 hu.good.2 ih
  | other _ _ _ ih => exact ih

/-- **The kernel executes nothing of a program's**: under its page table it can run the trampoline alone. -/
theorem UserSpace.supervisor_fetch_iff (h : UserSpace L rest s ms) (sstatus : Word) {va : Nat}
    (hva : Sv39.canonical va = true) (pa : Nat) :
    Sv39.translate (BitVec.ofNat 64 ms.token) sstatus .supervisor .fetch s.mem va = some pa ↔
      va / 4096 % 2 ^ 27 = trampolineVpn ∧ pa = L.trampolinePpn * 4096 + va % 4096 := by
  constructor
  · intro ht
    obtain ⟨e, he, _, hperm, hpa⟩ := (h.wired.translate_iff hva).mp ht
    rw [PageTableEntry.permits, allows] at hperm
    simp only [PageTableEntry.has, Bool.and_eq_true, Bool.not_eq_true', bne_eq_false_iff_eq,
      bne_iff_ne] at hperm
    rcases h.flagsIn _ e he with hu | hrw | ⟨hv, _⟩
    · exact absurd hperm.1 hu
    · rw [hrw] at hperm
      exact absurd hperm.2 (by decide)
    · have hentry : e = trampolineEntry L := by
        have htr := (h.good.1.translate _ e (Nat.mod_lt _ (by decide))).mpr he
        rw [hv, h.good.1.translate_trampoline] at htr
        exact (Option.some.inj htr).symm
      rw [hentry, trampolineEntry, PageTableEntry.ppn_new L.trampolinePpn_lt_pow] at hpa
      exact ⟨hv, hpa⟩
  · rintro ⟨hv, rfl⟩
    exact (h.wired.translate_area_iff hva).mpr (Or.inl ⟨hv, rfl, rfl⟩)

/-- The trampoline can be run with the page table of a program. -/
theorem trampoline_fetched : ∃ s ms, UserSpace smallKernel [] s ms ∧
    Sv39.translate (BitVec.ofNat 64 ms.token) 0 .supervisor .fetch s.mem trampoline = some 0x80201000 := by
  obtain ⟨s, ms, hu, _⟩ := exists_loaded
  exact ⟨s, ms, hu, (hu.supervisor_fetch_iff 0 (by decide) _).mpr ⟨by decide, by decide⟩⟩

end Spaces

end RCore.Mm
