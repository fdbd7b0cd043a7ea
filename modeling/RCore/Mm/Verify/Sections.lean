import RCore.Mm.Verify.Access

/-!
# The address space of the kernel

`new_kernel` maps the sections of the kernel, the rest of the memory and the device to themselves. The
hart runs the code, reads the read-only data and writes the rest, and nothing else. `remap_test` asserts
a part of this, and passes exactly if there is read-only data and memory behind it. Kernel stacks come
and go later, and still nothing is both written and executed and a program reaches nothing.
-/

namespace RCore.Mm

open Riscv

variable {L : Layout} {rest : List Nat} {s s' : Phys} {ms ms' : MemorySet}

/-- A part of the memory that is mapped to itself. -/
structure Section where
  start : Nat
  stop : Nat
  perm : MapPermission

/-- What `new_kernel` maps, in its order. -/
def kernelSections (L : Layout) : List Section :=
  [⟨L.stext, L.etext, PTEFlags.R ||| PTEFlags.X⟩, ⟨L.etext, L.erodata, PTEFlags.R⟩,
    ⟨L.erodata, L.edata, PTEFlags.R ||| PTEFlags.W⟩, ⟨L.edata, L.ekernel, PTEFlags.R ||| PTEFlags.W⟩,
    ⟨L.ekernel, memoryEnd, PTEFlags.R ||| PTEFlags.W⟩, ⟨0x10001000, 0x10002000, PTEFlags.R ||| PTEFlags.W⟩]

/-- An area is the section. -/
structure Section.Is (sec : Section) (area : MapArea) : Prop where
  l : area.vpnRange.l = (VirtAddr.ofUsize sec.start).floor
  r : area.vpnRange.r = (VirtAddr.ofUsize sec.stop).ceil
  identical : area.mapType = .identical
  perm : area.mapPerm = sec.perm

theorem Pushed.section {start stop : Nat} {hle} {mapPerm : MapPermission}
    (h : Pushed L rest s ms (newArea start stop hle .identical mapPerm) s' ms') {secs : List Section}
    (hms : List.Forall₂ Section.Is secs ms.areas) :
    List.Forall₂ Section.Is (secs ++ [⟨start, stop, mapPerm⟩]) ms'.areas := by
  obtain ⟨es, _, hareas⟩ := h.areas
  rw [hareas]
  refine List.rel_append hms (List.Forall₂.cons ⟨?_, ?_, ?_, ?_⟩ List.Forall₂.nil)
  · rw [MapArea.extend_vpnRange]
    rfl
  · rw [MapArea.extend_vpnRange]
    rfl
  · rw [MapArea.extend_mapType]
    rfl
  · rw [MapArea.extend_mapPerm]
    rfl

theorem Section.exists_area {secs : List Section} {areas : List MapArea} (h : List.Forall₂ Section.Is secs areas)
    {sec : Section} (hsec : sec ∈ secs) : ∃ area ∈ areas, sec.Is area := by
  induction h with
  | nil => cases hsec
  | @cons t area _ _ hone _ ih =>
    rcases List.mem_cons.mp hsec with rfl | hsec
    · exact ⟨area, List.mem_cons_self, hone⟩
    · obtain ⟨area', ha, his⟩ := ih hsec
      exact ⟨area', List.mem_cons_of_mem _ ha, his⟩

/-- **What `new_kernel` maps.** -/
theorem newKernel_sections (hh : Held L.firstFrame s.frames rest) :
    (MemorySet.newKernel L).wlp (fun ms s' => s'.starved = true ∨
      List.Forall₂ Section.Is (kernelSections L) ms.areas) s := by
  rw [MemorySet.newKernel]
  simp only [Comp.wlp_bind]
  refine newUser_wlp hh fun ms₀ s₀ hareas hg _ => ?_
  have h₀ : List.Forall₂ Section.Is [] ms₀.areas := by
    rw [hareas]
    exact List.Forall₂.nil
  have hall : ∀ {s ms secs}, Good L rest s ms ∧ List.Forall₂ Section.Is secs ms.areas → ∀ start stop mapPerm,
      (ms.pushNew start stop .identical mapPerm none).wlp (fun ms' s' =>
        Good L rest s' ms' ∧ List.Forall₂ Section.Is (secs ++ [⟨start, stop, mapPerm⟩]) ms'.areas) s := by
    intro s ms secs h start stop mapPerm
    refine (pushNew_wlp h.1 fun hc => absurd rfl hc).mono ?_
    rintro ms' s' ⟨_, hP⟩
    exact ⟨hP.good, hP.section h.2⟩
  refine (hall ⟨hg, h₀⟩ _ _ _).mono fun ms₁ s₁ h₁ => ?_
  refine (hall h₁ _ _ _).mono fun ms₂ s₂ h₂ => ?_
  refine (hall h₂ _ _ _).mono fun ms₃ s₃ h₃ => ?_
  refine (hall h₃ _ _ _).mono fun ms₄ s₄ h₄ => ?_
  refine (hall h₄ _ _ _).mono fun ms₅ s₅ h₅ => ?_
  rw [MapArea.new]
  simp only [Comp.wlp_bind, VPNRange.wlp_new, Comp.wlp_pure]
  intro hle
  refine (push_wlp h₅.1 (fresh_new hle .identical) fun hc => absurd rfl hc).mono ?_
  rintro ⟨r, ms'⟩ s' hr
  cases r with
  | ok => exact Or.inr (hr.section h₅.2)
  | error => exact Or.inl hr.1

/-- A section lies between page boundaries, in its order, and below the upper half. -/
def Section.Fits (sec : Section) : Prop :=
  sec.start % 4096 = 0 ∧ sec.stop % 4096 = 0 ∧ sec.stop < 2 ^ 38 ∧ sec.start < 2 ^ 38

theorem kernelSections_fits : ∀ sec ∈ kernelSections L, sec.Fits := by
  obtain ⟨_, ha₂, ha₃, ha₄, ha₅⟩ := L.aligned
  obtain ⟨_, ho₂, ho₃, ho₄, ho₅⟩ := L.ordered
  have hfits := L.fits
  have hmk : ∀ {start stop perm}, start % 4096 = 0 → stop % 4096 = 0 → stop ≤ 0x80800000 → start ≤ 0x80800000 →
      Section.Fits ⟨start, stop, perm⟩ :=
    fun h₁ h₂ h₃ h₄ => ⟨h₁, h₂, lt_of_le_of_lt h₃ (by decide), lt_of_le_of_lt h₄ (by decide)⟩
  intro sec hsec
  simp only [kernelSections, Layout.stext, memoryEnd, List.mem_cons, List.not_mem_nil, or_false] at hsec
  rcases hsec with rfl | rfl | rfl | rfl | rfl | rfl <;> exact hmk (by omega) (by omega) (by omega) (by omega)

/-- The page of an address in a section. -/
theorem Section.Is.mem_entries {sec : Section} {area : MapArea} (h : sec.Is area) (hb : sec.Fits) {va f : Nat} :
    (va / 4096, f) ∈ area.entries ↔ f = va / 4096 ∧ sec.start ≤ va ∧ va < sec.stop := by
  obtain ⟨hs, ht, hlt, hls⟩ := hb
  have hl : area.vpnRange.l = sec.start / 4096 := h.l.trans (floor_ofUsize (by omega))
  have hr : area.vpnRange.r = sec.stop / 4096 := h.r.trans (ceil_ofUsize (by omega) ht)
  rw [MapArea.entries, h.identical]
  simp only [List.mem_map, VPNRange.mem_toList, hl, hr, Prod.mk.injEq]
  constructor
  · rintro ⟨v, ⟨hlv, hvr⟩, rfl, rfl⟩
    omega
  · rintro ⟨rfl, hlv, hvr⟩
    exact ⟨va / 4096, by omega, rfl, rfl⟩

/-- What areas map that are sections. -/
theorem exists_area_iff {secs : List Section} {areas : List MapArea} (h : List.Forall₂ Section.Is secs areas)
    (hb : ∀ sec ∈ secs, sec.Fits) {va f : Nat} (P : MapPermission → Prop) :
    (∃ area ∈ areas, (va / 4096, f) ∈ area.entries ∧ P area.mapPerm) ↔
      f = va / 4096 ∧ ∃ sec ∈ secs, sec.start ≤ va ∧ va < sec.stop ∧ P sec.perm := by
  induction h with
  | nil =>
    constructor
    · rintro ⟨_, hmem, _⟩
      cases hmem
    · rintro ⟨_, _, hmem, _⟩
      cases hmem
  | @cons sec area secs areas hsec _ ih =>
    have hone : (va / 4096, f) ∈ area.entries ↔ f = va / 4096 ∧ sec.start ≤ va ∧ va < sec.stop :=
      hsec.mem_entries (hb sec List.mem_cons_self)
    have htail := ih fun t ht => hb t (List.mem_cons_of_mem _ ht)
    rw [List.exists_mem_cons_iff, List.exists_mem_cons_iff, htail, hone, hsec.perm]
    constructor
    · rintro (⟨⟨hf, hl, hr⟩, hP⟩ | ⟨hf, hrest⟩)
      · exact ⟨hf, Or.inl ⟨hl, hr, hP⟩⟩
      · exact ⟨hf, Or.inr hrest⟩
    · rintro ⟨hf, ⟨hl, hr, hP⟩ | hrest⟩
      · exact Or.inl ⟨⟨hf, hl, hr⟩, hP⟩
      · exact Or.inr ⟨hf, hrest⟩

section NewKernel

variable (hh : Held L.firstFrame s.frames rest) (hrun : (MemorySet.newKernel L).run s = some (ms, s'))
  (hst : s'.starved = false)
include hh hrun hst

theorem newKernel_areas : List.Forall₂ Section.Is (kernelSections L) ms.areas := by
  refine (newKernel_sections hh _ _ hrun).resolve_left fun hc => ?_
  rw [hst] at hc
  cases hc

/-- No section reaches into the upper half. -/
theorem newKernel_lower {area : MapArea} (ha : area ∈ ms.areas) {v f : Nat} (hf : (v, f) ∈ area.entries) :
    v < 2 ^ 26 := by
  obtain ⟨sec, hsec, hlt⟩ : ∃ sec ∈ kernelSections L, sec.start ≤ v * 4096 ∧ v * 4096 < sec.stop ∧ True := by
    have hv : v = v * 4096 / 4096 := (Nat.mul_div_cancel v (by decide)).symm
    rw [hv] at hf
    exact ((exists_area_iff (newKernel_areas hh hrun hst) kernelSections_fits fun _ => True).mp
      ⟨area, ha, hf, trivial⟩).2
  have hfits := (kernelSections_fits sec hsec).2.2.1
  omega

/-- **The memory of a new kernel**: below the upper half the hart finds the sections where they are, and above
it the trampoline. -/
theorem newKernel_access_iff (sstatus : Word) (acc : Access) (va pa : Nat) :
    Sv39.translate (BitVec.ofNat 64 ms.token) sstatus .supervisor acc s'.mem va = some pa ↔
      (pa = va ∧ ∃ sec ∈ kernelSections L, sec.start ≤ va ∧ va < sec.stop ∧
        opens sec.perm sstatus .supervisor acc = true) ∨
      (2 ^ 64 - 4096 ≤ va ∧ va < 2 ^ 64 ∧ opens (PTEFlags.R ||| PTEFlags.X) sstatus .supervisor acc = true ∧
        pa = L.trampolinePpn * 4096 + va % 4096) := by
  have hw : Wired L rest s' ms := (KernelSpace.newKernel hh hrun hst).wired.1
  have hsecs := newKernel_areas hh hrun hst
  have htv : trampolineVpn = 2 ^ 27 - 1 := rfl
  by_cases hva : Sv39.canonical va = true
  · rw [hw.translate_area_iff hva, htv, or_comm]
    have hcan : va < 2 ^ 38 ∨ 2 ^ 64 - 2 ^ 38 ≤ va ∧ va < 2 ^ 64 := of_decide_eq_true hva
    refine or_congr ⟨?_, ?_⟩ ⟨?_, ?_⟩
    · rintro ⟨area, ha, f, hf, hopen, rfl⟩
      have hlt := newKernel_lower hh hrun hst ha hf
      have hmod : va / 4096 % 2 ^ 27 = va / 4096 := by omega
      rw [hmod] at hf
      obtain ⟨rfl, hsec⟩ := (exists_area_iff hsecs kernelSections_fits fun perm =>
        opens perm sstatus .supervisor acc = true).mp ⟨area, ha, hf, hopen⟩
      exact ⟨by omega, hsec⟩
    · rintro ⟨rfl, sec, hsec, hl, hr, hopen⟩
      have hfits := (kernelSections_fits sec hsec).2.2.1
      have hmod : pa / 4096 % 2 ^ 27 = pa / 4096 := by omega
      obtain ⟨area, ha, hf, hopen⟩ := (exists_area_iff hsecs kernelSections_fits fun perm =>
        opens perm sstatus .supervisor acc = true).mpr ⟨rfl, sec, hsec, hl, hr, hopen⟩
      exact ⟨area, ha, pa / 4096, by rwa [hmod], hopen, by omega⟩
    · rintro ⟨hv, hopen, hpa⟩
      exact ⟨by omega, by omega, hopen, hpa⟩
    · rintro ⟨hl, hr, hopen, hpa⟩
      exact ⟨by omega, hopen, hpa⟩
  · constructor
    · intro ht
      exact absurd (hw.translate_canonical ht) hva
    · have hcan : ¬ (va < 2 ^ 38 ∨ 2 ^ 64 - 2 ^ 38 ≤ va ∧ va < 2 ^ 64) := fun hc => hva (decide_eq_true hc)
      rintro (⟨_, sec, hsec, _, hr, _⟩ | ⟨hl, hr, _⟩)
      · have hfits := (kernelSections_fits sec hsec).2.2.1
        omega
      · omega

end NewKernel

/-- The address space of a kernel that has just been made. -/
theorem exists_newKernel : ∃ ms s, (MemorySet.newKernel smallKernel).run freshPhys = some (ms, s) ∧
    s.starved = false := by
  obtain ⟨ms, s, hrun, hwhole, _⟩ := newKernel_ok (s := freshPhys) (held_init smallKernel) (by decide : 100 + 57 ≤ _)
  exact ⟨ms, s, hrun, hwhole.keeps.starved⟩

/-- The frames behind the kernel can be written. -/
theorem stores_behind_kernel : ∃ ms s, (MemorySet.newKernel smallKernel).run freshPhys = some (ms, s) ∧
    s.starved = false ∧
    Sv39.translate (BitVec.ofNat 64 ms.token) 0 .supervisor .store s.mem 0x80400000 = some 0x80400000 := by
  obtain ⟨ms, s, hrun, hst⟩ := exists_newKernel
  refine ⟨ms, s, hrun, hst, (newKernel_access_iff (held_init smallKernel) hrun hst 0 .store _ _).mpr (Or.inl ⟨rfl, ?_⟩)⟩
  exact ⟨⟨0x80400000, memoryEnd, PTEFlags.R ||| PTEFlags.W⟩, by simp [kernelSections, smallKernel], by decide, by decide, rfl⟩

/-! ## What `remap_test` asserts -/

section NewKernel

variable (hh : Held L.firstFrame s.frames rest) (hrun : (MemorySet.newKernel L).run s = some (ms, s'))
  (hst : s'.starved = false)
include hh hrun hst

/-- What the kernel itself reads off its new page table. -/
theorem newKernel_translate {v : Nat} (hv : v < 2 ^ 26) (e : PageTableEntry) :
    ms.pageTable.translate s'.mem v = some e ↔ ∃ sec ∈ kernelSections L, sec.start ≤ v * 4096 ∧
      v * 4096 < sec.stop ∧ e = PageTableEntry.new v (sec.perm ||| PTEFlags.V) := by
  have hg : Good L rest s' ms := (KernelSpace.newKernel hh hrun hst).wired.1.good
  have hdiv : v * 4096 / 4096 = v := Nat.mul_div_cancel v (by decide)
  have harea : ∀ {f} (P : MapPermission → Prop), (∃ area ∈ ms.areas, (v, f) ∈ area.entries ∧ P area.mapPerm) ↔
      f = v ∧ ∃ sec ∈ kernelSections L, sec.start ≤ v * 4096 ∧ v * 4096 < sec.stop ∧ P sec.perm := by
    intro f P
    have h := @exists_area_iff _ _ (newKernel_areas hh hrun hst) kernelSections_fits (v * 4096) f P
    rwa [hdiv] at h
  have hmem : ms.pageTable.translate s'.mem v = some e ↔ (v, e) ∈ ms.entries L := hg.translate v e (by omega)
  rw [hmem, MemorySet.entries, List.mem_cons, List.mem_flatMap]
  constructor
  · rintro (he | ⟨area, ha, he⟩)
    · have htv : v = trampolineVpn := congrArg Prod.fst he
      rw [show trampolineVpn = 2 ^ 27 - 1 from rfl] at htv
      omega
    · obtain ⟨f, hf, hef⟩ := MapArea.mem_ptes.mp he
      obtain ⟨rfl, hsec⟩ := (harea fun perm => e = PageTableEntry.new f (perm ||| PTEFlags.V)).mp ⟨area, ha, hf, hef⟩
      exact hsec
  · intro hsec
    obtain ⟨area, ha, hf, hef⟩ := (harea fun perm => e = PageTableEntry.new v (perm ||| PTEFlags.V)).mpr ⟨rfl, hsec⟩
    exact Or.inr ⟨area, ha, MapArea.mem_ptes.mpr ⟨v, hf, hef⟩⟩

end NewKernel

/-- The page in the middle of a section. -/
theorem floor_mid {start stop : Nat} (hs : start % 4096 = 0) (hle : start ≤ stop) (hstop : stop ≤ 0x80800000) :
    ∃ v, (VirtAddr.ofUsize (usizeAdd start stop / 2)).floor = v ∧ v < 2 ^ 26 ∧ start ≤ v * 4096 ∧
      v * 4096 ≤ stop ∧ (start < stop → v * 4096 < stop) := by
  have hadd : usizeAdd start stop = start + stop := Nat.mod_eq_of_lt (by omega)
  rw [hadd, floor_ofUsize (by omega)]
  exact ⟨_, rfl, by omega, by omega, by omega, by omega⟩

theorem kernelSections_stop : ∀ sec ∈ kernelSections L, sec.stop ≤ memoryEnd := by
  obtain ⟨_, ho₂, ho₃, ho₄, ho₅⟩ := L.ordered
  have hfits := L.fits
  have hend : memoryEnd = 0x80800000 := rfl
  have hle : L.etext ≤ memoryEnd ∧ L.erodata ≤ memoryEnd ∧ L.edata ≤ memoryEnd ∧ L.ekernel ≤ memoryEnd := by omega
  obtain ⟨h₁, h₂, h₃, h₄⟩ := hle
  intro sec hsec
  simp only [kernelSections, List.mem_cons, List.not_mem_nil, or_false] at hsec
  rcases hsec with rfl | rfl | rfl | rfl | rfl | rfl
  exacts [h₁, h₂, h₃, h₄, le_rfl, by decide]

/-- What follows the read-only data is written. -/
theorem exists_data_section {va : Nat} (hl : L.erodata ≤ va) (hr : va < memoryEnd) :
    ∃ sec ∈ kernelSections L, sec.start ≤ va ∧ va < sec.stop ∧ sec.perm = PTEFlags.R ||| PTEFlags.W := by
  by_cases hdata : va < L.edata
  · exact ⟨⟨L.erodata, L.edata, PTEFlags.R ||| PTEFlags.W⟩, by simp [kernelSections], hl, hdata, rfl⟩
  by_cases hbss : va < L.ekernel
  · exact ⟨⟨L.edata, L.ekernel, PTEFlags.R ||| PTEFlags.W⟩, by simp [kernelSections], Nat.le_of_not_lt hdata, hbss, rfl⟩
  · exact ⟨⟨L.ekernel, memoryEnd, PTEFlags.R ||| PTEFlags.W⟩, by simp [kernelSections], Nat.le_of_not_lt hbss, hr, rfl⟩

/-- **`remap_test` passes exactly if** there is read-only data and memory behind it. -/
theorem remapTest_iff (hh : Held L.firstFrame s.frames rest)
    (hrun : (MemorySet.newKernel L).run s = some (ms, s')) (hst : s'.starved = false) :
    (MemorySet.remapTest L ms).run s' = some ((), s') ↔ L.etext < L.erodata ∧ L.erodata < memoryEnd := by
  obtain ⟨_, ha₂, ha₃, ha₄, ha₅⟩ := L.aligned
  obtain ⟨ho₁, ho₂, ho₃, ho₄, ho₅⟩ := L.ordered
  have hfits := L.fits
  have hend : memoryEnd = 0x80800000 := rfl
  have hstext : L.stext = 0x80200000 := rfl
  obtain ⟨v₁, hv₁, hlt₁, hl₁, _, hr₁⟩ := floor_mid (by rw [hstext] : L.stext % 4096 = 0) (by omega)
    (by omega : L.etext ≤ 0x80800000)
  obtain ⟨v₂, hv₂, hlt₂, hl₂, hle₂, hr₂⟩ := floor_mid ha₂ ho₃ (by omega)
  obtain ⟨v₃, hv₃, hlt₃, hl₃, hle₃, hr₃⟩ := floor_mid ha₃ ho₄ (by omega)
  have htr := @newKernel_translate L rest s s' ms hh hrun hst
  have hflags : ∀ {v perm}, v < 2 ^ 26 → (PageTableEntry.new v (perm ||| PTEFlags.V)).flags = perm ||| PTEFlags.V :=
    fun hv => PageTableEntry.flags_new (by omega) _
  have hwp : (MemorySet.remapTest L ms).run s' = some ((), s') ↔
      (MemorySet.remapTest L ms).wp (fun _ t => t = s') s' := by
    constructor
    · exact fun h => ⟨_, _, h, rfl⟩
    · rintro ⟨_, _, h, rfl⟩
      exact h
  rw [hwp, MemorySet.remapTest]
  simp only [hv₁, hv₂, hv₃, Comp.wp_bind, Comp.wp_get, Comp.wp_unwrap, Comp.wp_assert]
  clear hv₁ hv₂ hv₃
  constructor
  · rintro ⟨_, _, _, e₂, he₂, hw₂, e₃, he₃, _⟩
    obtain ⟨sec₃, hsec₃, _, hstop, _⟩ := (htr hlt₃ e₃).mp he₃
    have hmem : L.erodata < memoryEnd := lt_of_le_of_lt hl₃ (lt_of_lt_of_le hstop (kernelSections_stop sec₃ hsec₃))
    refine ⟨?_, hmem⟩
    -- otherwise the page in the middle of the read-only data is the first that is written
    by_contra hro
    obtain ⟨sec₂, hsec₂, hl, hr, hperm⟩ := exists_data_section (le_trans (Nat.le_of_not_lt hro) hl₂)
      (lt_of_le_of_lt hle₂ hmem)
    rw [(htr hlt₂ _).mpr ⟨sec₂, hsec₂, hl, hr, rfl⟩] at he₂
    cases he₂
    rw [PageTableEntry.writable, hflags hlt₂, hperm] at hw₂
    exact absurd hw₂ (by decide)
  · rintro ⟨hro, hmem⟩
    have hlast : v₃ * 4096 < memoryEnd := by omega
    obtain ⟨sec₃, hsec₃, hl, hr, hperm⟩ := exists_data_section hl₃ hlast
    refine ⟨_, (htr hlt₁ _).mpr ⟨_, List.mem_cons_self, hl₁, hr₁ (by omega), rfl⟩, ?_,
      _, (htr hlt₂ _).mpr ⟨_, List.mem_cons_of_mem _ List.mem_cons_self, hl₂, hr₂ hro, rfl⟩, ?_,
      _, (htr hlt₃ _).mpr ⟨sec₃, hsec₃, hl, hr, rfl⟩, ?_, trivial⟩
    · rw [PageTableEntry.writable, hflags hlt₁]
      show ((PTEFlags.R ||| PTEFlags.X ||| PTEFlags.V) &&& PTEFlags.W != 0) = false
      decide
    · rw [PageTableEntry.writable, hflags hlt₂]
      show ((PTEFlags.R ||| PTEFlags.V) &&& PTEFlags.W != 0) = false
      decide
    · rw [PageTableEntry.executable, hflags hlt₃, hperm]
      decide

theorem remapTest_smallKernel : ∃ ms s, (MemorySet.newKernel smallKernel).run freshPhys = some (ms, s) ∧
    (MemorySet.remapTest smallKernel ms).run s = some ((), s) := by
  obtain ⟨ms, s, hrun, hst⟩ := exists_newKernel
  exact ⟨ms, s, hrun, (remapTest_iff (held_init smallKernel) hrun hst).mpr ⟨by decide, by decide⟩⟩

/-! ## The kernel as it runs -/

section KernelSpace

variable {sstatus : Word} {mode : Mode} {acc : Access} {va pa : Nat}

/-- The flags in the space of the kernel. -/
def kernelFlags (_ : Nat) (flags : PTEFlags) : Prop :=
  flags = PTEFlags.R ||| PTEFlags.X ||| PTEFlags.V ∨ flags = PTEFlags.R ||| PTEFlags.V ∨
    flags = PTEFlags.R ||| PTEFlags.W ||| PTEFlags.V

theorem newKernel_flagsIn (hh : Held L.firstFrame s.frames rest) :
    (MemorySet.newKernel L).wlp (fun ms s' => s'.starved = true ∨ ms.FlagsIn L kernelFlags) s := by
  rw [MemorySet.newKernel]
  simp only [Comp.wlp_bind]
  refine newUser_wlp hh fun ms₀ s₀ hareas hg _ => ?_
  have h₀ : ms₀.FlagsIn L kernelFlags := MemorySet.flagsIn_of_nil hareas (Or.inl rfl)
  have hall : ∀ {s ms}, Good L rest s ms ∧ ms.FlagsIn L kernelFlags → ∀ start stop mapPerm,
      kernelFlags 0 (mapPerm ||| PTEFlags.V) → (ms.pushNew start stop .identical mapPerm none).wlp
        (fun ms' s' => Good L rest s' ms' ∧ ms'.FlagsIn L kernelFlags) s := by
    intro s ms h start stop mapPerm hperm
    refine (pushNew_wlp h.1 fun hc => absurd rfl hc).mono ?_
    rintro ms' s' ⟨_, hP⟩
    exact ⟨hP.good, hP.flagsIn h.2 fun _ => hperm⟩
  refine (hall ⟨hg, h₀⟩ _ _ _ (Or.inl rfl)).mono fun ms₁ s₁ h₁ => ?_
  refine (hall h₁ _ _ _ (Or.inr (Or.inl rfl))).mono fun ms₂ s₂ h₂ => ?_
  refine (hall h₂ _ _ _ (Or.inr (Or.inr rfl))).mono fun ms₃ s₃ h₃ => ?_
  refine (hall h₃ _ _ _ (Or.inr (Or.inr rfl))).mono fun ms₄ s₄ h₄ => ?_
  refine (hall h₄ _ _ _ (Or.inr (Or.inr rfl))).mono fun ms₅ s₅ h₅ => ?_
  rw [MapArea.new]
  simp only [Comp.wlp_bind, VPNRange.wlp_new, Comp.wlp_pure]
  intro hle
  refine (push_wlp h₅.1 (fresh_new hle .identical) fun hc => absurd rfl hc).mono ?_
  rintro ⟨r, ms'⟩ s' hr
  cases r with
  | ok => exact Or.inr (hr.flagsIn h₅.2 fun _ => Or.inr (Or.inr rfl))
  | error => exact Or.inl hr.1

theorem KernelSpace.flagsIn (h : KernelSpace L rest s ms) : ms.FlagsIn L kernelFlags := by
  induction h with
  | newKernel hh hrun hst =>
    refine (newKernel_flagsIn hh _ _ hrun).resolve_left fun hc => ?_
    rw [hst] at hc
    cases hc
  | @newStack _ s _ ms _ startVa endVa hk hrun ih =>
    have hspec : (ms.insertFramedArea startVa endVa (PTEFlags.R ||| PTEFlags.W)).wlp (fun r _ =>
        r.1 = .ok () → r.2.FlagsIn L kernelFlags) s := by
      rw [MemorySet.insertFramedArea, MapArea.new]
      simp only [Comp.wlp_bind, VPNRange.wlp_new, Comp.wlp_pure]
      intro hle
      refine (push_wlp hk.wired.1.good (fresh_new hle .framed) fun hc => absurd rfl hc).mono ?_
      rintro ⟨r, ms'⟩ s' hr hok
      subst hok
      exact hr.flagsIn ih fun _ => Or.inr (Or.inr rfl)
    exact hspec _ _ hrun rfl
  | @dropStack _ _ _ _ _ vpn hk hrun ih =>
    obtain ⟨s', ms', hrun', _, hsub, _⟩ := removeArea_run hk.wired.1.good hk.wired.2 vpn
    rw [hrun] at hrun'
    cases hrun'
    exact MemorySet.flagsIn_of_sublist hsub ih
  | other _ _ _ ih => exact ih

/-- **A program reaches nothing through the page table of the kernel.** -/
theorem KernelSpace.no_user (h : KernelSpace L rest s ms) (sstatus : Word) (acc : Access) (va : Nat) :
    Sv39.translate (BitVec.ofNat 64 ms.token) sstatus .user acc s.mem va = none := by
  by_contra hne
  obtain ⟨pa, ht⟩ := Option.ne_none_iff_exists'.mp hne
  obtain ⟨e, he, _, hperm, _⟩ := (h.wired.1.translate_iff (h.wired.1.translate_canonical ht)).mp ht
  have hU := allows_user hperm
  rw [PageTableEntry.has] at hU
  rcases h.flagsIn _ e he with hf | hf | hf <;> rw [hf] at hU <;> exact absurd hU (by decide)

theorem no_user_newKernel : ∃ ms s, KernelSpace smallKernel [] s ms ∧ ∀ va,
    Sv39.translate (BitVec.ofNat 64 ms.token) 0 .user .load s.mem va = none := by
  obtain ⟨ms, s, hrun, hst⟩ := exists_newKernel
  have hk : KernelSpace smallKernel [] s ms := .newKernel (held_init smallKernel) hrun hst
  exact ⟨ms, s, hk, fun va => hk.no_user 0 .load va⟩

/-- **The kernel cannot execute what it can write.** -/
theorem KernelSpace.write_xor_execute (h : KernelSpace L rest s ms) (sstatus sstatus' : Word) {va pa : Nat}
    (hw : Sv39.translate (BitVec.ofNat 64 ms.token) sstatus .supervisor .store s.mem va = some pa) :
    Sv39.translate (BitVec.ofNat 64 ms.token) sstatus' .supervisor .fetch s.mem va = none := by
  have hva := h.wired.1.translate_canonical hw
  by_contra hne
  obtain ⟨pa', hx⟩ := Option.ne_none_iff_exists'.mp hne
  obtain ⟨e, he, _, hstore, _⟩ := (h.wired.1.translate_iff hva).mp hw
  obtain ⟨e', he', _, hfetch, _⟩ := (h.wired.1.translate_iff hva).mp hx
  have hee : e' = e := by
    have hlt : va / 4096 % 2 ^ 27 < 2 ^ 27 := Nat.mod_lt _ (by decide)
    have ht := (h.wired.1.good.translate _ e hlt).mpr he
    rw [(h.wired.1.good.translate _ e' hlt).mpr he'] at ht
    exact Option.some.inj ht
  subst hee
  have hW := allows_store hstore
  have hX := allows_fetch hfetch
  rw [PageTableEntry.has] at hW hX
  rcases h.flagsIn _ e' he with hf | hf | hf <;> rw [hf] at hW hX
  · exact absurd hW (by decide)
  · exact absurd hW (by decide)
  · exact absurd hX (by decide)

theorem no_execute_behind_kernel : ∃ ms s, KernelSpace smallKernel [] s ms ∧
    Sv39.translate (BitVec.ofNat 64 ms.token) 0 .supervisor .fetch s.mem 0x80400000 = none := by
  obtain ⟨ms, s, hrun, hst, hstore⟩ := stores_behind_kernel
  have hk : KernelSpace smallKernel [] s ms := .newKernel (held_init smallKernel) hrun hst
  exact ⟨ms, s, hk, hk.write_xor_execute 0 0 hstore⟩

end KernelSpace

end RCore.Mm
