import RCore.Mm.Verify.UserString

/-!
# The address space of a program

`from_elf` maps the pages of the segments, the stack behind a guard page, the trap context and the
trampoline, each with its own permissions, and no other page.
-/

namespace RCore.Mm

variable {L : Layout} {rest : List Nat} {s s₀ : Phys} {ms : MemorySet} {area : MapArea} {m m' : Mem}
  {elf : ElfFile} {data : List UInt8}

/-! ## Segments -/

namespace ProgramHeader

/-- The first page of a segment. -/
def firstPage (ph : ProgramHeader) : Nat := ph.virtualAddr / 4096

/-- The page behind its last. -/
def endPage (ph : ProgramHeader) : Nat := (ph.virtualAddr + ph.memSize + 4095) / 4096

/-- Below `2 ^ 39` the area of a segment has these pages. -/
theorem pages_eq (ph : ProgramHeader) (hlt : ph.virtualAddr + ph.memSize < 2 ^ 39) :
    (VirtAddr.ofUsize ph.virtualAddr).floor = ph.firstPage ∧
      (VirtAddr.ofUsize (usizeAdd ph.virtualAddr ph.memSize)).ceil = ph.endPage := by
  have hadd : usizeAdd ph.virtualAddr ph.memSize = ph.virtualAddr + ph.memSize := Nat.mod_eq_of_lt (by omega)
  refine ⟨floor_ofUsize (by omega), ?_⟩
  rw [hadd, VirtAddr.ceil_eq]
  show ((ph.virtualAddr + ph.memSize) % 2 ^ 39 + 4095) / 4096 = ph.endPage
  rw [Nat.mod_eq_of_lt hlt]
  rfl

end ProgramHeader

namespace ElfFile

/-- The segments to load. -/
def loads (elf : ElfFile) : List ProgramHeader := elf.programHeaders.filter ProgramHeader.isLoad

/-- The page behind the last segment. -/
def lastEnd (elf : ElfFile) : Nat := (elf.loads.map ProgramHeader.endPage).getLastD 0

/-- The bytes of a segment in the file. -/
def segmentData (elf : ElfFile) (ph : ProgramHeader) : List UInt8 := (elf.input.drop ph.offset).take ph.fileSize

/-- The segments are in ascending order on pages of their own, none is empty, and behind each there is room
for the guard page and the stack. -/
structure WellPlaced (elf : ElfFile) : Prop where
  ascending : elf.loads.Pairwise fun p q => p.endPage ≤ q.firstPage
  nonempty : ∀ ph ∈ elf.loads, 0 < ph.memSize
  low : ∀ ph ∈ elf.loads, ph.endPage + 3 ≤ trapContextVpn

end ElfFile

/-- The area of a segment. -/
structure IsSegment (ph : ProgramHeader) (area : MapArea) : Prop where
  l : area.vpnRange.l = ph.firstPage
  r : area.vpnRange.r = ph.endPage
  perm : area.mapPerm = MemorySet.segmentPerm ph

/-- The pages of an area hold `data`, from the start of the first page on, and zeros behind it. -/
def MapArea.Shows (m : Mem) (area : MapArea) (data : List UInt8) : Prop :=
  ∀ e ∈ area.dataFrames, ∀ j < 4096,
    m (e.2 * 4096 + j) = data.getD ((e.1 - area.vpnRange.l) * 4096 + j) 0

/-- The bytes of a segment are in the file and in its area. -/
structure HasData (elf : ElfFile) (m : Mem) (ph : ProgramHeader) (area : MapArea) : Prop where
  inFile : ph.offset + ph.fileSize ≤ elf.input.length
  shows : area.Shows m (elf.segmentData ph)

theorem MapArea.Shows.congr (h : area.Shows m data) (hs : SameOn area.frames m m') : area.Shows m' data := by
  intro e he j hj
  rw [← h e he j hj]
  exact hs e.2 (List.mem_map.mpr ⟨e, he, rfl⟩) _ (by omega)

/-! ## The data of a segment -/

/-- A store into a page changes no translation. -/
theorem Good.translate_eq {rest' : List Nat} {s' : Phys} (h : Good L rest s ms) (h' : Good L rest' s' ms) {v : Nat}
    (hv : v < 2 ^ 27) : ms.translate s'.mem v = ms.translate s.mem v := by
  apply Option.ext
  intro e
  rw [h'.translate v e hv, h.translate v e hv]

/-- The loop stores each piece of the data into the frame of its page, and nothing elsewhere. -/
theorem copyDataLoop_bytes (h : Good L rest s ms) (hfr : ms.Framed) (area : MapArea) (data : List UInt8)
    {ks : List Nat} (hn : ks.Nodup) (hlt : ∀ k ∈ ks, area.vpnRange.l + k < 2 ^ 27) :
    (area.copyDataLoop ms.pageTable data ks).wlp (fun _ s' =>
      (∀ x, (∀ k ∈ ks, ∀ e, ms.translate s.mem (area.vpnRange.l + k) = some e → x / 4096 ≠ e.ppn) →
        s'.mem x = s.mem x) ∧
      ∀ k ∈ ks, ∀ e, ms.translate s.mem (area.vpnRange.l + k) = some e → ∀ j < 4096,
        s'.mem (e.ppn * 4096 + j) =
          if k * 4096 + j < data.length then data.getD (k * 4096 + j) 0 else s.mem (e.ppn * 4096 + j)) s := by
  induction ks generalizing s with
  | nil =>
    rw [MapArea.copyDataLoop, Comp.wlp_pure]
    exact ⟨fun _ _ => rfl, fun k hk => absurd hk List.not_mem_nil⟩
  | cons k ks ih =>
    rw [List.nodup_cons] at hn
    rw [MapArea.copyDataLoop]
    simp only [Comp.wlp_bind, Comp.wlp_get, Comp.wlp_unwrap, storePhys, Comp.wlp_modify]
    intro e he
    generalize hsrc : (data.drop (k * 4096)).take 4096 = src
    have hlen : src.length = min 4096 (data.length - k * 4096) := by
      rw [← hsrc, List.length_take, List.length_drop]
    have hfits : e.ppn * 4096 % 4096 + src.length ≤ 4096 := by
      rw [Nat.mul_mod_left]
      omega
    generalize hs₁ : ({ s with mem := s.mem.write (e.ppn * 4096) src } : Phys) = s₁
    obtain ⟨hg, -⟩ := h.store hfr he (Nat.mul_div_cancel _ (by decide)) hfits hs₁.symm
    have htr : ∀ j ∈ k :: ks, ms.translate s₁.mem (area.vpnRange.l + j) = ms.translate s.mem (area.vpnRange.l + j) :=
      fun j hj => h.translate_eq hg (hlt j hj)
    have hmem : ∀ x, x / 4096 ≠ e.ppn → s₁.mem x = s.mem x := by
      intro x hx
      rw [← hs₁]
      apply Mem.write_of_not_mem
      by_contra hc
      omega
    have hstored : ∀ j < 4096, s₁.mem (e.ppn * 4096 + j) =
        if k * 4096 + j < data.length then data.getD (k * 4096 + j) 0 else s.mem (e.ppn * 4096 + j) := by
      intro j hj
      rw [← hs₁]
      show s.mem.write (e.ppn * 4096) src (e.ppn * 4096 + j) = _
      by_cases hin : k * 4096 + j < data.length
      · rw [if_pos hin, Mem.write_of_mem (by omega), ← hsrc, List.getD_eq_getElem?_getD,
          List.getElem?_take_of_lt hj, List.getElem?_drop, List.getD_eq_getElem?_getD]
      · rw [if_neg hin]
        apply Mem.write_of_not_mem
        omega
    refine (ih hg hn.2 fun j hj => hlt j (List.mem_cons_of_mem _ hj)).mono ?_
    rintro _ s' ⟨hkeep, hbytes⟩
    refine ⟨fun x hx => ?_, fun j hj e' he' i hi => ?_⟩
    · rw [hkeep x fun j hj e' he' => ?_, hmem x (hx k List.mem_cons_self e he)]
      rw [htr j (List.mem_cons_of_mem _ hj)] at he'
      exact hx j (List.mem_cons_of_mem _ hj) e' he'
    · -- different pages lie in different frames
      have happart : ∀ j' ∈ k :: ks, ∀ e'', ms.translate s.mem (area.vpnRange.l + j') = some e'' →
          e'.ppn = e''.ppn → j' = j := by
        intro j' hj' e'' he'' heq
        have hv := h.ppn_inj hfr (hlt j hj) (hlt j' hj') he' he'' heq
        omega
      rcases List.mem_cons.mp hj with rfl | hj'
      · cases he.symm.trans he'
        rw [hkeep _ fun j' hj' e'' he'' => ?_, hstored i hi]
        rw [htr j' (List.mem_cons_of_mem _ hj')] at he''
        intro hc
        have hpage : (e.ppn * 4096 + i) / 4096 = e.ppn := by omega
        rw [hpage] at hc
        exact hn.1 (happart j' (List.mem_cons_of_mem _ hj') e'' he'' hc ▸ hj')
      · rw [hbytes j hj' e' (by rw [htr j hj]; exact he') i hi]
        have hother : s₁.mem (e'.ppn * 4096 + i) = s.mem (e'.ppn * 4096 + i) := by
          apply hmem
          intro hc
          have hpage : (e'.ppn * 4096 + i) / 4096 = e'.ppn := by omega
          rw [hpage] at hc
          exact hn.1 (happart k List.mem_cons_self e he hc ▸ hj')
        rw [hother]

/-- The areas that are there already, and a new one with its data. -/
theorem push_shows (h : Good L rest s ms) (hfr : ms.Framed) (hf : Fresh area) (htype : area.mapType = .framed)
    (hpos : area.vpnRange.l < area.vpnRange.r) (hfit : data.length ≤ 4096 * (area.vpnRange.r - area.vpnRange.l)) :
    (ms.push area (some data)).wlp (fun r s' => r.1 = .ok () → SameOn ms.frames s.mem s'.mem ∧
      ∃ es, r.2.areas = ms.areas ++ [area.extend es] ∧ (area.extend es).Shows s'.mem data) s := by
  rw [MemorySet.push, Comp.wlp_bind]
  rcases map_fresh_run h.owns hf with ⟨es, s₁, pt₁, hes, hrun, hM, hid⟩ |
    ⟨_, _, _, es, s₁, pt₁, _, _, _, hM, _, hrun⟩ | ⟨_, _, _, _, _, _, _, _, hrun⟩
  · rw [Comp.wlp_of_run hrun]
    have hg := h.pushed hf hes hid hM
    have hframes : (area.extend es).dataFrames = es := by
      rw [← MapArea.entries_framed ((MapArea.extend_mapType area es).trans htype)]
      exact entries_extend hf hes hid
    generalize hms' : (⟨pt₁, ms.areas ++ [area.extend es]⟩ : MemorySet) = ms' at hg
    have hpt : pt₁ = ms'.pageTable := by rw [← hms']
    have hlast : area.extend es ∈ ms'.areas := by
      rw [← hms']
      exact List.mem_append_right _ List.mem_cons_self
    have hfr' : ms'.Framed := by
      rw [← hms']
      intro a ha
      rcases List.mem_append.mp ha with ha | ha
      · exact hfr a ha
      · rw [List.mem_singleton.mp ha, MapArea.extend_mapType, htype]
    -- the frames of the area are not those of the others
    have hapart : ∀ f ∈ ms.frames, ∀ e ∈ es, f ≠ e.2 := by
      intro f hfm e he hc
      have hn := hg.held.nodup
      rw [← hms', MemorySet.owned, List.append_assoc] at hn
      have hn' := (List.nodup_append.mp (List.nodup_append.mp hn).2.1).1
      rw [MemorySet.frames, List.flatMap_append, List.flatMap_singleton] at hn'
      refine (List.nodup_append.mp hn').2.2 f hfm e.2 ?_ hc
      rw [MapArea.frames, hframes]
      exact List.mem_map.mpr ⟨e, he, rfl⟩
    have hkeep₁ : SameOn ms.frames s.mem s₁.mem := by
      refine hM.same.mono ?_
      rw [hf.frames, List.nil_append]
      exact List.subset_append_left _ _
    have hpage : ∀ k e, k < area.vpnRange.r - area.vpnRange.l →
        ms'.translate s₁.mem (area.vpnRange.l + k) = some e → (area.vpnRange.l + k, e.ppn) ∈ es := by
      intro k e hk he
      have hmem : area.vpnRange.l + k ∈ es.map Prod.fst := by
        rw [hes, VPNRange.mem_toList]
        omega
      obtain ⟨⟨v, f⟩, hvf, rfl⟩ := List.mem_map.mp hmem
      obtain ⟨e', he', hppn, -⟩ := hg.translate_area hfr' hlast (hframes.symm ▸ hvf)
      cases he.symm.trans he'
      rw [hppn]
      exact hvf
    have hks : ∀ k ∈ List.range (max 1 ((data.length + 4095) / 4096)), k < area.vpnRange.r - area.vpnRange.l := by
      intro k hk
      rw [List.mem_range] at hk
      omega
    have hle := hf.le
    simp only [Comp.wlp_bind, MapArea.copyData, Comp.wlp_assert, Comp.wlp_pure]
    intro _
    rw [hpt]
    refine (copyDataLoop_bytes hg hfr' (area.extend es) data List.nodup_range fun k hk => ?_).mono ?_
    · rw [MapArea.extend_vpnRange]
      have := hks k hk
      omega
    rintro _ s' ⟨hkeep, hbytes⟩ -
    rw [MapArea.extend_vpnRange] at hkeep hbytes
    refine ⟨fun f hfm x hx => ?_, es, rfl, fun e he j hj => ?_⟩
    · rw [hkeep x fun k hk e he => ?_, hkeep₁ f hfm x hx]
      rw [hx]
      exact hapart f hfm _ (hpage k e (hks k hk) he)
    · rw [hframes] at he
      rw [MapArea.extend_vpnRange]
      obtain ⟨v, f⟩ := e
      have hv : area.vpnRange.l ≤ v ∧ v < area.vpnRange.r := by
        rw [← VPNRange.mem_toList, ← hes]
        exact List.mem_map.mpr ⟨_, he, rfl⟩
      obtain ⟨e', he', hppn, -⟩ := hg.translate_area hfr' hlast (hframes.symm ▸ he)
      have hzero : s₁.mem (f * 4096 + j) = 0 := hM.zeroed htype _ he _ (by omega)
      show s'.mem (f * 4096 + j) = data.getD ((v - area.vpnRange.l) * 4096 + j) 0
      generalize hk : v - area.vpnRange.l = k
      have hlk : area.vpnRange.l + k = v := by omega
      by_cases hin : k ∈ List.range (max 1 ((data.length + 4095) / 4096))
      · have hb := hbytes k hin e' (by rw [hlk]; exact he') j hj
        rw [hppn, hzero] at hb
        rw [hb]
        split
        · rfl
        · next hend => rw [List.getD_eq_getElem?_getD, List.getElem?_eq_none (by omega), Option.getD_none]
      · rw [List.mem_range] at hin
        rw [hkeep, hzero, List.getD_eq_getElem?_getD, List.getElem?_eq_none (by omega), Option.getD_none]
        intro k' hk' e'' he'' hc
        have hd : (f * 4096 + j) / 4096 = f := by omega
        rw [hd, ← hppn] at hc
        have hlt' := hks k' hk'
        have hv' := hg.ppn_inj hfr' (by omega) (by omega) he' he'' hc
        rw [List.mem_range] at hk'
        omega
  · rw [Comp.wlp_of_run hrun]
    simp only [Comp.wlp_bind, Comp.wlp_pure]
    intro _ _ _ hc
    cases hc
  · intro a s' hc
    rw [hrun] at hc
    cases hc

/-- A new area without data. -/
theorem push_same (h : Good L rest s ms) (hf : Fresh area) :
    (ms.push area none).wlp (fun r s' => r.1 = .ok () → SameOn ms.frames s.mem s'.mem) s := by
  rw [MemorySet.push, Comp.wlp_bind]
  rcases map_fresh_run h.owns hf with ⟨es, s₁, pt₁, hes, hrun, hM, hid⟩ |
    ⟨_, _, _, es, s₁, pt₁, _, _, _, hM, _, hrun⟩ | ⟨_, _, _, _, _, _, _, _, hrun⟩
  · rw [Comp.wlp_of_run hrun, Comp.wlp_pure]
    intro _
    refine hM.same.mono ?_
    rw [hf.frames, List.nil_append]
    exact List.subset_append_left _ _
  · rw [Comp.wlp_of_run hrun]
    simp only [Comp.wlp_bind, Comp.wlp_pure]
    intro _ _ _ hc
    cases hc
  · intro a s' hc
    rw [hrun] at hc
    cases hc

theorem pushNew_same (h : Good L rest s ms) {start stop : Nat} {mapType : MapType} {mapPerm : MapPermission} :
    (ms.pushNew start stop mapType mapPerm none).wlp (fun _ s' => SameOn ms.frames s.mem s'.mem) s := by
  rw [MemorySet.pushNew, MapArea.new]
  simp only [Comp.wlp_bind, VPNRange.wlp_new, Comp.wlp_pure]
  intro hle
  refine (push_same h (fresh_new hle mapType)).mono ?_
  rintro ⟨r, ms'⟩ s' hr
  cases r with
  | ok =>
    simp only [unwrapOk, Comp.wlp_pure]
    exact hr rfl
  | error => simp only [unwrapOk, Comp.wlp_panic]

/-! ## The segments -/

/-- The segments have been mapped: `segs` are their areas. -/
structure Loaded (elf : ElfFile) (phs : List ProgramHeader) (s : Phys) (ms : MemorySet) (s' : Phys) (ms' : MemorySet)
    (segs : List MapArea) : Prop where
  areas : ms'.areas = ms.areas ++ segs
  shape : List.Forall₂ IsSegment phs segs
  /-- If the data of each fits into its pages, it is there, and nothing else has changed. -/
  same : (∀ ph ∈ phs, 0 < ph.memSize ∧ ph.fileSize ≤ ph.memSize) → SameOn ms.frames s.mem s'.mem
  data : (∀ ph ∈ phs, 0 < ph.memSize ∧ ph.fileSize ≤ ph.memSize) →
    List.Forall₂ (HasData elf s'.mem) phs segs

theorem mapSegments_loaded (elf : ElfFile) (phs : List ProgramHeader) (maxEndVpn : Nat) (h : Whole L rest s₀ s ms)
    (hfr : ms.Framed) (hlow : ∀ ph ∈ phs.filter ProgramHeader.isLoad, ph.virtualAddr + ph.memSize < 2 ^ 39) :
    (MemorySet.mapSegments elf ms maxEndVpn phs).wlp (fun r s' => Whole L rest s₀ s' r.1 ∧ r.1.Framed ∧
      r.2 = ((phs.filter ProgramHeader.isLoad).map ProgramHeader.endPage).getLastD maxEndVpn ∧
      ∃ segs, Loaded elf (phs.filter ProgramHeader.isLoad) s ms s' r.1 segs) s := by
  induction phs generalizing s ms maxEndVpn with
  | nil =>
    rw [MemorySet.mapSegments, Comp.wlp_pure]
    exact ⟨h, hfr, rfl, [], (List.append_nil _).symm, .nil, fun _ => SameOn.refl _ _, fun _ => .nil⟩
  | cons ph phs ih =>
    rw [MemorySet.mapSegments]
    split
    · next hload =>
      rw [List.filter_cons_of_pos hload] at hlow
      rw [List.filter_cons_of_pos hload]
      have hph := hlow ph List.mem_cons_self
      obtain ⟨hl, hr⟩ := ph.pages_eq hph
      simp only [MapArea.new, Comp.wlp_bind, VPNRange.wlp_new, Comp.wlp_pure, Comp.wlp_assert]
      intro hle hstop
      generalize harea : (⟨⟨(VirtAddr.ofUsize ph.virtualAddr).floor, _, hle⟩, [], .framed, MemorySet.segmentPerm ph⟩ :
        MapArea) = area
      generalize hdata : (elf.input.drop ph.offset).take (usizeAdd ph.offset ph.fileSize - ph.offset) = data
      have hf : Fresh area := harea ▸ fresh_new hle .framed
      have htype : area.mapType = .framed := by rw [← harea]
      have hal : area.vpnRange.l = ph.firstPage := by
        rw [← harea]
        exact hl
      have har : area.vpnRange.r = ph.endPage := by
        rw [← harea]
        exact hr
      intro r s₁ hrun
      have hpushed := push_wlp h.good hf (fun _ => ⟨hfr, htype⟩) _ _ hrun
      obtain ⟨r, ms₁⟩ := r
      cases r with
      | error => simp only [unwrapOk, Comp.wlp_panic]
      | ok =>
        simp only [unwrapOk, Comp.wlp_pure] at hpushed ⊢
        have hend : (VirtAddr.ofUsize (usizeAdd ph.virtualAddr ph.memSize)).ceil = area.vpnRange.r := by rw [← harea]
        rw [har] at hend
        refine (ih _ (h.push hpushed hf) (hpushed.framed hfr htype)
          fun q hq => hlow q (List.mem_cons_of_mem _ hq)).mono ?_
        rintro ⟨ms', maxEnd⟩ s' ⟨hw, hfr', hmax, segs, hseg⟩
        obtain ⟨es, -, hareas⟩ := hpushed.areas
        refine ⟨hw, hfr', ?_, area.extend es :: segs, ?_⟩
        · rw [hmax, hend, List.map_cons, List.getLastD_cons]
        · have hbytes : (∀ q ∈ ph :: phs.filter ProgramHeader.isLoad, 0 < q.memSize ∧ q.fileSize ≤ q.memSize) →
              SameOn ms.frames s.mem s₁.mem ∧ HasData elf s₁.mem ph (area.extend es) := by
            intro hall
            obtain ⟨hpos, hsize⟩ := hall ph List.mem_cons_self
            have hlt : area.vpnRange.l < area.vpnRange.r := by
              rw [hal, har, ProgramHeader.firstPage, ProgramHeader.endPage]
              omega
            have hstop' : usizeAdd ph.offset ph.fileSize = ph.offset + ph.fileSize := by
              have hle := hstop.1
              unfold usizeAdd at hle ⊢
              omega
            have hlen : usizeAdd ph.offset ph.fileSize - ph.offset = ph.fileSize := by
              rw [hstop', Nat.add_sub_cancel_left]
            have hsegment : data = elf.segmentData ph := by rw [← hdata, hlen, ElfFile.segmentData]
            have hfit : data.length ≤ 4096 * (area.vpnRange.r - area.vpnRange.l) := by
              rw [hsegment, ElfFile.segmentData, List.length_take, hal, har, ProgramHeader.firstPage,
                ProgramHeader.endPage]
              omega
            obtain ⟨hsame, es', hareas', hshows⟩ := push_shows h.good hfr hf htype hlt hfit _ _ hrun rfl
            rw [hareas] at hareas'
            have hes := List.singleton_inj.mp (List.append_cancel_left hareas')
            rw [hes]
            exact ⟨hsame, hstop' ▸ hstop.2, hsegment ▸ hshows⟩
          have hframes : ms₁.frames = ms.frames ++ (area.extend es).frames := by
            rw [MemorySet.frames, hareas, List.flatMap_append, List.flatMap_singleton]
            rfl
          refine ⟨?_, .cons ⟨?_, ?_, ?_⟩ hseg.shape, fun hall => ?_, fun hall => ?_⟩
          · rw [hseg.areas, hareas, List.append_assoc, List.singleton_append]
          · rw [MapArea.extend_vpnRange, hal]
          · rw [MapArea.extend_vpnRange, har]
          · rw [MapArea.extend_mapPerm, ← harea]
          · have hrest := hseg.same fun q hq => hall q (List.mem_cons_of_mem _ hq)
            rw [hframes] at hrest
            exact (hbytes hall).1.trans (hrest.mono (List.subset_append_left _ _))
          · have hrest := hseg.same fun q hq => hall q (List.mem_cons_of_mem _ hq)
            rw [hframes] at hrest
            have hdata := (hbytes hall).2
            exact .cons ⟨hdata.inFile, hdata.shows.congr (hrest.mono (List.subset_append_right _ _))⟩
              (hseg.data fun q hq => hall q (List.mem_cons_of_mem _ hq))
    · next hload =>
      rw [List.filter_cons_of_neg hload] at hlow
      rw [List.filter_cons_of_neg hload]
      exact ih _ h hfr hlow

/-- The areas of a program: its segments, its stack and its trap context. -/
structure LoadedSpace (L : Layout) (rest : List Nat) (elf : ElfFile) (s s' : Phys) (ms : MemorySet) (sp : Nat)
    (segs : List MapArea) (stack trap : MapArea) : Prop where
  whole : Whole L rest s s' ms
  framed : ms.Framed
  sp : sp = (elf.lastEnd + 3) * 4096
  areas : ms.areas = segs ++ [stack, trap]
  shape : List.Forall₂ IsSegment elf.loads segs
  stack : stack.vpnRange.l = elf.lastEnd + 1 ∧ stack.vpnRange.r = elf.lastEnd + 3 ∧
    stack.mapPerm = PTEFlags.R ||| PTEFlags.W ||| PTEFlags.U
  trap : trap.vpnRange.l = trapContextVpn ∧ trap.vpnRange.r = trampolineVpn ∧
    trap.mapPerm = PTEFlags.R ||| PTEFlags.W
  data : (∀ ph ∈ elf.loads, 0 < ph.memSize ∧ ph.fileSize ≤ ph.memSize) →
    List.Forall₂ (HasData elf s'.mem) elf.loads segs

theorem ElfFile.WellPlaced.lastEnd_le (hwp : elf.WellPlaced) : elf.lastEnd + 3 ≤ trapContextVpn := by
  rw [ElfFile.lastEnd]
  rcases List.eq_nil_or_concat' elf.loads with hnil | ⟨phs, ph, heq⟩
  · rw [hnil]
    decide
  · have hmem : ph ∈ elf.loads := by
      rw [heq]
      exact List.mem_append_right _ List.mem_cons_self
    rw [heq, List.map_append, List.map_singleton, List.getLastD_concat]
    exact hwp.low ph hmem

theorem ElfFile.WellPlaced.lt (hwp : elf.WellPlaced) : ∀ ph ∈ elf.loads, ph.virtualAddr + ph.memSize < 2 ^ 39 := by
  intro ph hph
  have hle := hwp.low ph hph
  rw [ProgramHeader.endPage, trapContextVpn] at hle
  omega

/-- The addresses of the stack are not masked. -/
theorem ElfFile.WellPlaced.stack_eq (hwp : elf.WellPlaced) :
    usizeAdd (usizeMul elf.lastEnd 4096) 4096 = (elf.lastEnd + 1) * 4096 ∧
      usizeAdd ((elf.lastEnd + 1) * 4096) 8192 = (elf.lastEnd + 3) * 4096 ∧
      (VirtAddr.ofUsize ((elf.lastEnd + 1) * 4096)).floor = elf.lastEnd + 1 ∧
      (VirtAddr.ofUsize ((elf.lastEnd + 3) * 4096)).ceil = elf.lastEnd + 3 := by
  have hend := hwp.lastEnd_le
  unfold trapContextVpn at hend
  refine ⟨?_, ?_, ?_, ?_⟩
  · unfold usizeAdd usizeMul
    omega
  · unfold usizeAdd
    omega
  · rw [floor_ofUsize (by omega), Nat.mul_div_cancel _ (by decide)]
  · rw [ceil_ofUsize (by omega) (Nat.mul_mod_left _ _), Nat.mul_div_cancel _ (by decide)]

/-- The frames of the segments do not change when other areas are pushed. -/
theorem forall₂_hasData_congr {phs : List ProgramHeader} {segs : List MapArea}
    (h : List.Forall₂ (HasData elf m) phs segs) (hs : SameOn (segs.flatMap MapArea.frames) m m') :
    List.Forall₂ (HasData elf m') phs segs := by
  induction h with
  | nil => exact .nil
  | cons hdata _ ih =>
    rw [List.flatMap_cons] at hs
    refine .cons ⟨hdata.inFile, hdata.shows.congr (hs.mono (List.subset_append_left _ _))⟩ ?_
    exact ih (hs.mono (List.subset_append_right _ _))

/-- **What `from_elf` builds.** -/
theorem fromElf_built (hh : Held L.firstFrame s.frames rest) (hwp : elf.WellPlaced) :
    (MemorySet.fromElf L elf).wlp (fun r s' => ∃ segs stack trap, LoadedSpace L rest elf s s' r.1 r.2.1 segs stack trap) s := by
  obtain ⟨hbottom, htop, hfloor, hceil⟩ := hwp.stack_eq
  rw [MemorySet.fromElf]
  simp only [Comp.wlp_bind]
  refine newUser_wlp hh fun ms₀ s₀ hareas hg hk => ?_
  have h₀ : Whole L rest s s₀ ms₀ := ⟨hg, MemorySet.full_of_nil hareas, hk⟩
  have hfr₀ : ms₀.Framed := MemorySet.framed_of_nil hareas
  refine (mapSegments_loaded elf _ 0 h₀ hfr₀ hwp.lt).mono ?_
  rintro ⟨ms₁, maxEndVpn⟩ s₁ ⟨h₁, hfr₁, hmax, segs, hseg⟩
  have hmax' : maxEndVpn = elf.lastEnd := hmax
  subst hmax'
  rw [hbottom, htop]
  intro ms₂ s₂ hrun₂
  obtain ⟨hle₂, hp₂⟩ := Mm.pushNew_wlp h₁.good (fun hc => absurd rfl hc) _ _ hrun₂
  have h₂ := h₁.push hp₂ (fresh_new hle₂ .framed)
  intro ms₃ s₃ hrun₃
  obtain ⟨hle₃, hp₃⟩ := Mm.pushNew_wlp h₂.good (fun hc => absurd rfl hc) _ _ hrun₃
  rw [Comp.wlp_pure]
  obtain ⟨es₂, -, hareas₂⟩ := hp₂.areas
  obtain ⟨es₃, -, hareas₃⟩ := hp₃.areas
  generalize hstack : (newArea _ _ hle₂ _ _).extend es₂ = stack at hareas₂
  generalize htrap : (newArea _ _ hle₃ _ _).extend es₃ = trap at hareas₃
  refine ⟨segs, stack, trap, h₂.push hp₃ (fresh_new hle₃ .framed), hp₃.framed (hp₂.framed hfr₁ rfl) rfl, rfl, ?_,
    hseg.shape, ?_, ?_, fun hall => ?_⟩
  · rw [hareas₃, hareas₂, hseg.areas, hareas, List.nil_append, List.append_assoc, List.singleton_append]
  · rw [← hstack, MapArea.extend_vpnRange, MapArea.extend_mapPerm]
    exact ⟨hfloor, hceil, rfl⟩
  · rw [← htrap, MapArea.extend_vpnRange, MapArea.extend_mapPerm]
    exact ⟨floor_trapContext, (by decide : (VirtAddr.ofUsize trampoline).ceil = trampolineVpn), rfl⟩
  · have hsegs : ms₁.frames = segs.flatMap MapArea.frames := by
      rw [MemorySet.frames, hseg.areas, hareas, List.nil_append]
    have hsub : ms₁.frames ⊆ ms₂.frames := by
      rw [MemorySet.frames, MemorySet.frames, hareas₂, List.flatMap_append]
      exact List.subset_append_left _ _
    have hsame₂ := pushNew_same h₁.good _ _ hrun₂
    have hsame₃ := pushNew_same h₂.good _ _ hrun₃
    rw [hsegs] at hsame₂ hsub
    exact forall₂_hasData_congr (hseg.data hall) (hsame₂.trans (hsame₃.mono hsub))

/-! ## The intended address space -/

/-- The flags of a page. -/
def flagsOf (user read write execute : Bool) : PTEFlags :=
  PTEFlags.V ||| (if user then PTEFlags.U else 0) ||| (if read then PTEFlags.R else 0) |||
    (if write then PTEFlags.W else 0) ||| (if execute then PTEFlags.X else 0)

/-- The page lies in the segment. -/
def ProgramHeader.covers (ph : ProgramHeader) (v : Nat) : Bool := ph.firstPage ≤ v && v < ph.endPage

/-- The flags with which a page is to be mapped. -/
def intendedFlags (elf : ElfFile) (v : Nat) : Option PTEFlags :=
  if v = trampolineVpn then some (flagsOf false true false true)
  else if v = trapContextVpn then some (flagsOf false true true false)
  else if elf.lastEnd + 1 ≤ v ∧ v < elf.lastEnd + 3 then some (flagsOf true true true false)
  else (elf.loads.find? fun ph => ph.covers v).map fun ph => flagsOf true ph.isRead ph.isWrite ph.isExecute

/-- **The intended address space**: exactly the intended pages, with a stack that ends at `sp` and an unmapped
page below it, each page in a frame of its own. -/
structure IntendedSpace (L : Layout) (elf : ElfFile) (s : Phys) (ms : MemorySet) (sp : Nat) : Prop where
  sp : sp = (elf.lastEnd + 3) * 4096
  flags : ∀ v < 2 ^ 27, (ms.translate s.mem v).map PageTableEntry.flags = intendedFlags elf v
  trampoline : ms.translate s.mem trampolineVpn = some (trampolineEntry L)
  guard : ms.translate s.mem elf.lastEnd = none
  distinct : ∀ v < 2 ^ 27, ∀ w < 2 ^ 27, v ≠ w → ∀ e e', ms.translate s.mem v = some e →
    ms.translate s.mem w = some e' → e.ppn ≠ e'.ppn
  separate : ∀ v < 2 ^ 27, ∀ w < 2 ^ 27, ∀ e e', ms.translate s.mem v = some e → ms.translate s.mem w = some e' →
    e.flags &&& PTEFlags.U ≠ 0 → e'.flags &&& PTEFlags.U = 0 → v ≠ w ∧ e.ppn ≠ e'.ppn

/-- In a space whose areas are full, the flags of a page are those of the area around it. -/
theorem Whole.flags (h : Whole L rest s₀ s ms) (hfr : ms.Framed) {v : Nat} (hv : v < trampolineVpn) :
    (ms.translate s.mem v).map PageTableEntry.flags =
      (ms.areas.find? fun area => area.vpnRange.l ≤ v && v < area.vpnRange.r).map fun area =>
        area.mapPerm ||| PTEFlags.V := by
  cases hfind : ms.areas.find? fun area => area.vpnRange.l ≤ v && v < area.vpnRange.r with
  | none =>
    rw [List.find?_eq_none] at hfind
    rw [h.good.unmapped hv fun p hp => ?_]
    · rfl
    · obtain ⟨area, ha, rfl⟩ := List.mem_map.mp hp
      have hout := hfind area ha
      simp only [Bool.and_eq_true, decide_eq_true_eq, not_and, Nat.not_lt] at hout
      simp only
      omega
  | some area =>
    have ha := List.mem_of_find?_eq_some hfind
    have hin := List.find?_some hfind
    simp only [Bool.and_eq_true, decide_eq_true_eq] at hin
    have hkey : v ∈ area.entries.map Prod.fst := by
      rw [h.full area ha, VPNRange.mem_toList]
      exact hin
    rw [MapArea.entries_framed (hfr area ha)] at hkey
    obtain ⟨⟨w, f⟩, hf, rfl⟩ := List.mem_map.mp hkey
    obtain ⟨e, he, -, hflags⟩ := h.good.translate_area hfr ha hf
    rw [he, Option.map_some, Option.map_some, hflags]

theorem fromElf_entry (L : Layout) (elf : ElfFile) (s : Phys) :
    (MemorySet.fromElf L elf).wlp (fun r _ => r.2.2 = elf.entryPoint) s := by
  rw [MemorySet.fromElf]
  simp only [Comp.wlp_bind]
  intro _ _ _ _ _ _ r _ _ _ _ _ _ _ _
  rw [Comp.wlp_pure]

theorem segmentPerm_flags (ph : ProgramHeader) :
    MemorySet.segmentPerm ph ||| PTEFlags.V = flagsOf true ph.isRead ph.isWrite ph.isExecute := by
  unfold MemorySet.segmentPerm flagsOf
  cases ph.isRead <;> cases ph.isWrite <;> cases ph.isExecute <;> rfl

/-- The area around a page of a segment. -/
theorem find?_segment {phs : List ProgramHeader} {segs : List MapArea} (h : List.Forall₂ IsSegment phs segs) (v : Nat) :
    ((segs.find? fun area => area.vpnRange.l ≤ v && v < area.vpnRange.r).map fun area => area.mapPerm ||| PTEFlags.V) =
      (phs.find? fun ph => ph.covers v).map fun ph => flagsOf true ph.isRead ph.isWrite ph.isExecute := by
  induction h with
  | nil => rfl
  | @cons ph area phs segs hseg _ ih =>
    have hcovers : (area.vpnRange.l ≤ v && v < area.vpnRange.r : Bool) = ph.covers v := by
      rw [hseg.l, hseg.r]
      rfl
    rw [List.find?_cons, List.find?_cons, hcovers]
    cases ph.covers v with
    | true =>
      rw [Option.map_some, Option.map_some, hseg.perm, segmentPerm_flags]
    | false => exact ih

theorem ElfFile.WellPlaced.endPage_le (hwp : elf.WellPlaced) {ph : ProgramHeader} (hph : ph ∈ elf.loads) :
    ph.endPage ≤ elf.lastEnd := by
  have hasc := hwp.ascending
  rw [ElfFile.lastEnd]
  rcases List.eq_nil_or_concat' elf.loads with hnil | ⟨phs, last, heq⟩
  · rw [hnil] at hph
    cases hph
  · rw [heq] at hph hasc
    rw [heq, List.map_append, List.map_singleton, List.getLastD_concat]
    rcases List.mem_append.mp hph with hmem | hmem
    · have hle := (List.pairwise_append.mp hasc).2.2 ph hmem last List.mem_cons_self
      rw [ProgramHeader.firstPage] at hle
      show ph.endPage ≤ (last.virtualAddr + last.memSize + 4095) / 4096
      omega
    · rw [List.mem_singleton.mp hmem]

/-- The pages that `from_elf` maps are the intended ones. -/
theorem LoadedSpace.flags {s' : Phys} {sp : Nat} {segs : List MapArea} {stack trap : MapArea}
    (h : LoadedSpace L rest elf s s' ms sp segs stack trap) (hwp : elf.WellPlaced) {v : Nat} (hv : v < 2 ^ 27) :
    (ms.translate s'.mem v).map PageTableEntry.flags = intendedFlags elf v := by
  have hend := hwp.lastEnd_le
  unfold intendedFlags
  by_cases htramp : v = trampolineVpn
  · rw [if_pos htramp, htramp, h.whole.good.translate_trampoline, Option.map_some, trampolineEntry,
      PageTableEntry.flags_new L.trampolinePpn_lt_pow]
    rfl
  rw [if_neg htramp]
  have htop : v < trampolineVpn := by
    unfold trampolineVpn at htramp ⊢
    omega
  have hsegs := find?_segment h.shape v
  -- no segment reaches the guard page
  have hnone : elf.lastEnd ≤ v → (elf.loads.find? fun ph => ph.covers v) = none := by
    intro hle
    rw [List.find?_eq_none]
    intro ph hph
    have hph' := hwp.endPage_le hph
    simp only [ProgramHeader.covers, Bool.and_eq_true, decide_eq_true_eq]
    omega
  rw [h.whole.flags h.framed htop, h.areas, List.find?_append]
  obtain ⟨hsl, hsr, hsp⟩ := h.stack
  obtain ⟨htl, htr, htp⟩ := h.trap
  by_cases htrap : v = trapContextVpn
  · rw [hnone (by omega), Option.map_none, Option.map_eq_none_iff] at hsegs
    have hstack : (stack.vpnRange.l ≤ v && v < stack.vpnRange.r : Bool) = false := by
      rw [hsl, hsr, Bool.and_eq_false_iff, decide_eq_false_iff_not, decide_eq_false_iff_not]
      omega
    have hin : (trap.vpnRange.l ≤ v && v < trap.vpnRange.r : Bool) = true := by
      rw [htl, htr, Bool.and_eq_true, decide_eq_true_eq, decide_eq_true_eq]
      omega
    rw [if_pos htrap, hsegs, Option.none_or, List.find?_cons, hstack]
    simp only [List.find?_cons, hin, Option.map_some, htp]
    rfl
  rw [if_neg htrap]
  have hnotrap : (trap.vpnRange.l ≤ v && v < trap.vpnRange.r : Bool) = false := by
    rw [htl, htr, Bool.and_eq_false_iff, decide_eq_false_iff_not, decide_eq_false_iff_not]
    unfold trapContextVpn trampolineVpn at *
    omega
  by_cases hstk : elf.lastEnd + 1 ≤ v ∧ v < elf.lastEnd + 3
  · rw [hnone (by omega), Option.map_none, Option.map_eq_none_iff] at hsegs
    have hin : (stack.vpnRange.l ≤ v && v < stack.vpnRange.r : Bool) = true := by
      rw [hsl, hsr, Bool.and_eq_true, decide_eq_true_eq, decide_eq_true_eq]
      exact hstk
    rw [if_pos hstk, hsegs, Option.none_or, List.find?_cons, hin, Option.map_some, hsp]
    rfl
  · have hout : (stack.vpnRange.l ≤ v && v < stack.vpnRange.r : Bool) = false := by
      rw [hsl, hsr, Bool.and_eq_false_iff, decide_eq_false_iff_not, decide_eq_false_iff_not]
      omega
    rw [if_neg hstk, ← hsegs, List.find?_cons, hout, List.find?_cons, hnotrap, List.find?_nil, Option.or_none]

theorem LoadedSpace.intended {s' : Phys} {sp : Nat} {segs : List MapArea} {stack trap : MapArea}
    (h : LoadedSpace L rest elf s s' ms sp segs stack trap) (hwp : elf.WellPlaced) : IntendedSpace L elf s' ms sp := by
  have hdistinct : ∀ v < 2 ^ 27, ∀ w < 2 ^ 27, v ≠ w → ∀ e e', ms.translate s'.mem v = some e →
      ms.translate s'.mem w = some e' → e.ppn ≠ e'.ppn :=
    fun v hv w hw hne e e' he he' hc => hne (h.whole.good.ppn_inj h.framed hv hw he he' hc)
  refine ⟨h.sp, fun v hv => h.flags hwp hv, h.whole.good.translate_trampoline, ?_, hdistinct, ?_⟩
  · have hend := hwp.lastEnd_le
    have hguard := h.flags hwp (v := elf.lastEnd) (by unfold trapContextVpn at hend; omega)
    have hnone : (elf.loads.find? fun ph => ph.covers elf.lastEnd) = none := by
      rw [List.find?_eq_none]
      intro ph hph
      have hph' := hwp.endPage_le hph
      simp only [ProgramHeader.covers, Bool.and_eq_true, decide_eq_true_eq]
      omega
    unfold intendedFlags at hguard
    rw [if_neg (by unfold trapContextVpn at hend; unfold trampolineVpn; omega), if_neg (by omega),
      if_neg (by omega), hnone, Option.map_none, Option.map_eq_none_iff] at hguard
    exact hguard
  · intro v hv w hw e e' he he' huser hsuper
    have hne : v ≠ w := by
      rintro rfl
      cases he.symm.trans he'
      exact huser hsuper
    exact ⟨hne, hdistinct v hv w hw hne e e' he he'⟩

/-! ## When a program can be loaded -/

/-- The data of each segment lies in the file and fits into the segment. -/
def ElfFile.DataFits (elf : ElfFile) : Prop :=
  elf.input.length < 2 ^ 64 ∧
    ∀ ph ∈ elf.loads, ph.offset + ph.fileSize ≤ elf.input.length ∧ ph.fileSize ≤ ph.memSize

/-- Frames that are enough for a segment: those of its pages, and of the tables on their way. -/
def ProgramHeader.framesNeeded (ph : ProgramHeader) : Nat :=
  (ph.endPage - ph.firstPage) + 2 * ((ph.endPage - ph.firstPage) / 512 + 2)

/-- Frames that are enough for a program. -/
def ElfFile.framesNeeded (elf : ElfFile) : Nat := 3 + (elf.loads.map ProgramHeader.framesNeeded).sum + 6 + 5

theorem mapSegments_ok (elf : ElfFile) (phs : List ProgramHeader) (maxEndVpn : Nat) {ranges : List (Nat × Nat)} {free : Nat}
    (h : Site L rest s₀ s ms ranges (free + ((phs.filter ProgramHeader.isLoad).map ProgramHeader.framesNeeded).sum))
    (hfr : ms.Framed) (hinput : elf.input.length < 2 ^ 64)
    (hout : ∀ ph ∈ phs.filter ProgramHeader.isLoad, ∀ p ∈ ranges, p.2 ≤ ph.firstPage)
    (hasc : (phs.filter ProgramHeader.isLoad).Pairwise fun p q => p.endPage ≤ q.firstPage)
    (hphs : ∀ ph ∈ phs.filter ProgramHeader.isLoad, 0 < ph.memSize ∧ ph.endPage + 3 ≤ trapContextVpn ∧
      ph.offset + ph.fileSize ≤ elf.input.length ∧ ph.fileSize ≤ ph.memSize) :
    (MemorySet.mapSegments elf ms maxEndVpn phs).wp (fun r s' => Site L rest s₀ s' r.1
      (ranges ++ (phs.filter ProgramHeader.isLoad).map fun ph => (ph.firstPage, ph.endPage)) free) s := by
  induction phs generalizing s ms maxEndVpn ranges with
  | nil =>
    rw [MemorySet.mapSegments, Comp.wp_pure]
    rw [List.filter_nil, List.map_nil, List.append_nil]
    exact h
  | cons ph phs ih =>
    rw [MemorySet.mapSegments]
    split
    · next hload =>
      rw [List.filter_cons_of_pos hload] at h hout hasc hphs
      rw [List.filter_cons_of_pos hload]
      obtain ⟨hpos, hlow, hfile, hsize⟩ := hphs ph List.mem_cons_self
      have hsmall : ph.virtualAddr + ph.memSize < 2 ^ 39 := by
        rw [ProgramHeader.endPage, trapContextVpn] at hlow
        omega
      obtain ⟨hl, hr⟩ := ph.pages_eq hsmall
      have hlt : ph.firstPage < ph.endPage := by
        rw [ProgramHeader.firstPage, ProgramHeader.endPage]
        omega
      have hle : (VirtAddr.ofUsize ph.virtualAddr).floor ≤
          (VirtAddr.ofUsize (usizeAdd ph.virtualAddr ph.memSize)).ceil := by
        rw [hl, hr]
        exact Nat.le_of_lt hlt
      have hstop : usizeAdd ph.offset ph.fileSize = ph.offset + ph.fileSize := Nat.mod_eq_of_lt (by omega)
      simp only [MapArea.new, Comp.wp_bind, VPNRange.wp_new, Comp.wp_pure, Comp.wp_assert, hstop]
      refine ⟨hle, ⟨Nat.le_add_right _ _, hfile⟩, ?_⟩
      generalize harea : (⟨⟨(VirtAddr.ofUsize ph.virtualAddr).floor, _, hle⟩, [], .framed, MemorySet.segmentPerm ph⟩ :
        MapArea) = area
      have hf : Fresh area := harea ▸ fresh_new hle .framed
      have htype : area.mapType = .framed := by rw [← harea]
      have hal : area.vpnRange.l = ph.firstPage := by
        rw [← harea]
        exact hl
      have har : area.vpnRange.r = ph.endPage := by
        rw [← harea]
        exact hr
      have hcost : area.cost = 1 := by rw [MapArea.cost, htype]
      have hsite : Site L rest s₀ s ms ranges
          ((free + ((phs.filter ProgramHeader.isLoad).map ProgramHeader.framesNeeded).sum) + ph.framesNeeded) := by
        rw [List.map_cons, List.sum_cons, Nat.add_comm ph.framesNeeded, ← Nat.add_assoc] at h
        exact h
      refine (hsite.pushData_ok hfr hf htype (n := ph.endPage - ph.firstPage) ?_ ?_ ?_ ?_ ?_ ?_).mono ?_
      · rw [har]
        unfold trapContextVpn at hlow
        unfold trampolineVpn
        omega
      · intro p hp
        rw [hal]
        exact Or.inr (hout ph List.mem_cons_self p hp)
      · rw [hal, har]
      · rw [hcost, Nat.one_mul]
        exact Nat.le_refl _
      · rw [hal, har]
        exact hlt
      · rw [List.length_take, Nat.add_sub_cancel_left, hal, har, ProgramHeader.firstPage, ProgramHeader.endPage]
        omega
      rintro ⟨r, ms₁⟩ s₁ ⟨hok, hfr₁, h₁⟩
      simp only at hok hfr₁ h₁
      subst hok
      simp only [unwrapOk, Comp.wp_pure]
      rw [hal, har] at h₁
      rw [List.pairwise_cons] at hasc
      refine (ih _ h₁ hfr₁ ?_ hasc.2 fun q hq => hphs q (List.mem_cons_of_mem _ hq)).mono ?_
      · intro q hq p hp
        rcases List.mem_append.mp hp with hp | hp
        · exact hout q (List.mem_cons_of_mem _ hq) p hp
        · rw [List.mem_singleton.mp hp]
          exact hasc.1 q hq
      · intro r s' hr
        rw [List.append_assoc, List.singleton_append] at hr
        exact hr
    · next hload =>
      rw [List.filter_cons_of_neg hload] at h hout hasc hphs
      rw [List.filter_cons_of_neg hload]
      exact ih _ h hfr hout hasc hphs

/-- **A program can be loaded** with enough frames. -/
theorem fromElf_returns (hh : Held L.firstFrame s.frames rest) (hwp : elf.WellPlaced) (hfits : elf.DataFits)
    (hfree : elf.framesNeeded ≤ s.frames.free) : ∃ r, (MemorySet.fromElf L elf).run s = some r := by
  have hend := hwp.lastEnd_le
  obtain ⟨hbottom, htop, hfloor, hceil⟩ := hwp.stack_eq
  have hwp' : (MemorySet.fromElf L elf).wp (fun _ _ => True) s := by
    rw [MemorySet.fromElf]
    simp only [Comp.wp_bind]
    refine newUser_ok hh (0 + 5 + 6 + (elf.loads.map ProgramHeader.framesNeeded).sum) ?_ fun ms₀ s₀ hareas h₀ => ?_
    · unfold ElfFile.framesNeeded at hfree
      omega
    have hfr₀ : ms₀.Framed := MemorySet.framed_of_nil hareas
    obtain ⟨r, s₁, hrun, h₁⟩ := mapSegments_ok elf elf.programHeaders 0 h₀ hfr₀ hfits.1
      (fun _ _ p hp => absurd hp List.not_mem_nil) hwp.ascending fun ph hph =>
        ⟨hwp.nonempty ph hph, hwp.low ph hph, hfits.2 ph hph⟩
    obtain ⟨-, -, hmax, -⟩ := mapSegments_loaded elf elf.programHeaders 0 h₀.whole hfr₀ hwp.lt _ _ hrun
    obtain ⟨ms₁, maxEndVpn⟩ := r
    have hmax' : maxEndVpn = elf.lastEnd := hmax
    subst hmax'
    rw [Comp.wp_of_run hrun, hbottom, htop]
    simp only [List.nil_append] at h₁
    refine (h₁.pushNew_ok .framed _ hfloor hceil (by omega) (by unfold trapContextVpn trampolineVpn at *; omega)
      (fun p hp => ?_) (n := 2) (by omega) (by decide)).mono fun ms₂ s₂ h₂ => ?_
    · obtain ⟨ph, hph, rfl⟩ := List.mem_map.mp hp
      have hle := hwp.endPage_le hph
      exact Or.inr (Nat.le_succ_of_le hle)
    refine (h₂.pushNew_ok .framed _ floor_trapContext (r := trampolineVpn) (by decide) (by decide) (by decide)
      (fun p hp => ?_) (n := 1) (by decide) (by decide)).mono fun ms₃ s₃ h₃ => ?_
    · rcases List.mem_append.mp hp with hp | hp
      · obtain ⟨ph, hph, rfl⟩ := List.mem_map.mp hp
        have hle := hwp.endPage_le hph
        exact Or.inr (by omega)
      · rw [List.mem_singleton.mp hp]
        exact Or.inr hend
    · rw [Comp.wp_pure]
      trivial
  obtain ⟨r, s', hrun, -⟩ := hwp'
  exact ⟨_, hrun⟩

/-- **A loaded program has exactly the intended address space**, and with enough frames it is loaded. -/
theorem fromElf_maps_exactly (hh : Held L.firstFrame s.frames rest) (hwp : elf.WellPlaced) :
    (∀ ms sp entry s', (MemorySet.fromElf L elf).run s = some ((ms, sp, entry), s') →
      IntendedSpace L elf s' ms sp ∧ entry = elf.entryPoint) ∧
    (elf.DataFits → elf.framesNeeded ≤ s.frames.free → ∃ r, (MemorySet.fromElf L elf).run s = some r) := by
  refine ⟨fun ms sp entry s' hrun => ?_, fun hfits hfree => fromElf_returns hh hwp hfits hfree⟩
  obtain ⟨segs, stack, trap, h⟩ := fromElf_built hh hwp _ _ hrun
  exact ⟨h.intended hwp, fromElf_entry L elf s _ _ hrun⟩

theorem fromElf_maps_page : ∃ s ms sp, (MemorySet.fromElf smallKernel (onePage [])).run freshPhys =
    some ((ms, sp, 0x10000), s) ∧ IntendedSpace smallKernel (onePage []) s ms sp := by
  have hwp : (onePage []).WellPlaced := ⟨by decide, by decide, by decide⟩
  obtain ⟨hexact, hret⟩ := fromElf_maps_exactly (L := smallKernel) (s := freshPhys) (held_init smallKernel) hwp
  obtain ⟨⟨⟨ms, sp, entry⟩, s⟩, hrun⟩ := hret ⟨by decide, by decide⟩ (by decide)
  obtain ⟨hspace, rfl⟩ := hexact ms sp entry s hrun
  exact ⟨s, ms, sp, hrun, hspace⟩

end RCore.Mm
