import Mathlib.Algebra.Order.BigOperators.Group.Finset
import RCore.Mm.Verify.Remove

/-!
# The address spaces of the kernel and of a program

`new_kernel` and `from_elf` push one area after another. What they return is `Good` with all its
areas full, and the space of a program has the page of its trap context. The second half says when
they return: if the areas do not overlap and there are enough frames.
-/

namespace RCore.Mm

variable {L : Layout} {rest : List Nat} {s s' : Phys} {ms ms' : MemorySet} {area : MapArea}

/-! ## What is built -/

theorem Pushed.full (h : Pushed L rest s ms area s' ms') (hf : Fresh area) (hfull : ms.Full) :
    ms'.Full := by
  obtain ⟨es, hes, hareas⟩ := h.areas
  intro a ha
  rw [hareas, List.mem_append, List.mem_singleton] at ha
  rcases ha with ha | rfl
  · exact hfull a ha
  · rw [MapArea.extend_vpnRange]
    cases htype : area.mapType with
    | framed =>
      rw [MapArea.entries_framed (by rw [MapArea.extend_mapType, htype]), MapArea.extend, htype]
      simp only
      rw [hf.empty, List.nil_append, hes]
    | identical =>
      rw [MapArea.entries, MapArea.extend_mapType, htype]
      simp only
      rw [MapArea.extend_vpnRange, List.map_map]
      exact List.map_id _

/-- The area that `pushNew` pushes. -/
def newArea (start stop : Nat)
    (hle : (VirtAddr.ofUsize start).floor ≤ (VirtAddr.ofUsize stop).ceil) (mapType : MapType)
    (mapPerm : MapPermission) : MapArea :=
  ⟨⟨(VirtAddr.ofUsize start).floor, (VirtAddr.ofUsize stop).ceil, hle⟩, [], mapType, mapPerm⟩

theorem pushNew_wlp (h : Good L rest s ms) {start stop : Nat} {mapType : MapType}
    {mapPerm : MapPermission} {data : Option (List UInt8)}
    (hdata : data ≠ none → ms.Framed ∧ mapType = .framed) :
    (ms.pushNew start stop mapType mapPerm data).wlp (fun ms' s' =>
      ∃ hle, Pushed L rest s ms (newArea start stop hle mapType mapPerm) s' ms') s := by
  rw [MemorySet.pushNew, MapArea.new]
  simp only [Comp.wlp_bind, VPNRange.wlp_new, Comp.wlp_pure]
  intro hle
  refine (push_wlp h (fresh_new hle mapType) hdata).mono ?_
  rintro ⟨r, ms'⟩ s' hr
  cases r with
  | ok =>
    simp only [unwrapOk, Comp.wlp_pure]
    exact ⟨hle, hr⟩
  | error => simp only [unwrapOk, Comp.wlp_panic]

theorem newUser_wlp (hh : Held L.firstFrame s.frames rest) {Q : MemorySet → Phys → Prop}
    (hQ : ∀ ms s', ms.areas = [] → Good L rest s' ms → Keeps rest s s' → Q ms s') :
    MemorySet.newBare.wlp (fun ms s' => (ms.mapTrampoline L).wlp Q s') s := by
  rw [← Comp.wlp_bind]
  rcases newUser_run hh with ⟨ms₀, s₀, ms, s', hbare, htramp, hareas, hg, _, _, hk⟩ | ⟨_, hrun⟩
  · have hrun : (MemorySet.newBare >>= fun ms => ms.mapTrampoline L).run s = some (ms, s') := by
      rw [Comp.run_bind, hbare, Option.bind_some, htramp]
    rw [Comp.wlp_of_run hrun]
    exact hQ ms s' hareas hg hk
  · intro a t hc
    rw [hrun] at hc
    cases hc

/-- A memory set made between `s` and `s'`, all of whose areas are full. -/
structure Whole (L : Layout) (rest : List Nat) (s s' : Phys) (ms : MemorySet) : Prop where
  good : Good L rest s' ms
  full : ms.Full
  keeps : Keeps rest s s'

theorem Whole.push {s₀ : Phys} (h : Whole L rest s₀ s ms) (hp : Pushed L rest s ms area s' ms')
    (hf : Fresh area) : Whole L rest s₀ s' ms' :=
  ⟨hp.good, hp.full hf h.full, h.keeps.trans hp.keeps⟩

theorem Whole.pushNew_wlp {s₀ : Phys} (h : Whole L rest s₀ s ms) (start stop : Nat)
    (mapType : MapType) (mapPerm : MapPermission) :
    (ms.pushNew start stop mapType mapPerm none).wlp (fun ms' s' => Whole L rest s₀ s' ms') s := by
  refine (Mm.pushNew_wlp h.good (fun hc => absurd rfl hc)).mono ?_
  rintro ms' s' ⟨hle, hp⟩
  exact h.push hp (fresh_new hle mapType)

/-- **The kernel's address space.** -/
theorem newKernel_wlp (hh : Held L.firstFrame s.frames rest) :
    (MemorySet.newKernel L).wlp (fun ms s' => s'.starved = true ∨ Whole L rest s s' ms) s := by
  rw [MemorySet.newKernel]
  simp only [Comp.wlp_bind]
  refine newUser_wlp hh fun ms₀ s₀ hareas hg hk => ?_
  have h₀ : Whole L rest s s₀ ms₀ := ⟨hg, MemorySet.full_of_nil hareas, hk⟩
  refine (h₀.pushNew_wlp _ _ _ _).mono fun ms₁ s₁ h₁ => ?_
  refine (h₁.pushNew_wlp _ _ _ _).mono fun ms₂ s₂ h₂ => ?_
  refine (h₂.pushNew_wlp _ _ _ _).mono fun ms₃ s₃ h₃ => ?_
  refine (h₃.pushNew_wlp _ _ _ _).mono fun ms₄ s₄ h₄ => ?_
  refine (h₄.pushNew_wlp _ _ _ _).mono fun ms₅ s₅ h₅ => ?_
  rw [MapArea.new]
  simp only [Comp.wlp_bind, VPNRange.wlp_new, Comp.wlp_pure]
  intro hle
  refine (push_wlp h₅.good (fresh_new hle .identical) (fun hc => absurd rfl hc)).mono ?_
  rintro ⟨r, ms'⟩ s' hr
  cases r with
  | ok => exact Or.inr (h₅.push hr (fresh_new hle .identical))
  | error => exact Or.inl hr.1

theorem mapSegments_wlp {s₀ : Phys} (elf : ElfFile) (phs : List ProgramHeader) (maxEndVpn : Nat)
    (h : Whole L rest s₀ s ms) (hfr : ms.Framed) :
    (MemorySet.mapSegments elf ms maxEndVpn phs).wlp
      (fun r s' => Whole L rest s₀ s' r.1 ∧ r.1.Framed) s := by
  induction phs generalizing s ms maxEndVpn with
  | nil =>
    rw [MemorySet.mapSegments, Comp.wlp_pure]
    exact ⟨h, hfr⟩
  | cons ph phs ih =>
    rw [MemorySet.mapSegments]
    split
    · simp only [MapArea.new, Comp.wlp_bind, VPNRange.wlp_new, Comp.wlp_pure, Comp.wlp_assert]
      intro hle _
      refine (push_wlp h.good (fresh_new hle .framed) (fun _ => ⟨hfr, rfl⟩)).mono ?_
      rintro ⟨r, ms'⟩ s' hr
      cases r with
      | ok =>
        simp only [unwrapOk, Comp.wlp_pure]
        exact ih _ (h.push hr (fresh_new hle .framed)) (hr.framed hfr rfl)
      | error => simp only [unwrapOk, Comp.wlp_panic]
    · exact ih _ h hfr

/-- The trap context of an address space: the entry of its page. -/
def MemorySet.TrapPage (m : Mem) (ms : MemorySet) (ppn : Nat) : Prop :=
  ∃ e, ms.translate m trapContextVpn = some e ∧ e.ppn = ppn ∧
    e.flags = PTEFlags.R ||| PTEFlags.W ||| PTEFlags.V

/-- **The address space of a program.** -/
theorem fromElf_wlp (hh : Held L.firstFrame s.frames rest) (elf : ElfFile) :
    (MemorySet.fromElf L elf).wlp (fun r s' => Whole L rest s s' r.1 ∧ r.1.Framed ∧
      ∃ ppn, r.1.TrapPage s'.mem ppn) s := by
  rw [MemorySet.fromElf]
  simp only [Comp.wlp_bind]
  refine newUser_wlp hh fun ms₀ s₀ hareas hg hk => ?_
  have h₀ : Whole L rest s s₀ ms₀ := ⟨hg, MemorySet.full_of_nil hareas, hk⟩
  have hfr₀ : ms₀.Framed := MemorySet.framed_of_nil hareas
  refine (mapSegments_wlp elf _ 0 h₀ hfr₀).mono ?_
  rintro ⟨ms₁, maxEndVpn⟩ s₁ ⟨h₁, hfr₁⟩
  refine (Mm.pushNew_wlp h₁.good (fun hc => absurd rfl hc)).mono ?_
  rintro ms₂ s₂ ⟨hle₂, hp₂⟩
  have h₂ := h₁.push hp₂ (fresh_new hle₂ .framed)
  refine (Mm.pushNew_wlp h₂.good (fun hc => absurd rfl hc)).mono ?_
  rintro ms₃ s₃ ⟨hle₃, hp₃⟩
  rw [Comp.wlp_pure]
  refine ⟨h₂.push hp₃ (fresh_new hle₃ .framed), hp₃.framed (hp₂.framed hfr₁ rfl) rfl, ?_⟩
  -- the page is the first of the last area
  obtain ⟨es, hes, hareas₃⟩ := hp₃.areas
  have hmem : trapContextVpn ∈ es.map Prod.fst := by
    rw [hes, VPNRange.mem_toList]
    exact (by decide : (VirtAddr.ofUsize trapContext).floor ≤ trapContextVpn ∧
      trapContextVpn < (VirtAddr.ofUsize trampoline).ceil)
  obtain ⟨⟨v, f⟩, hf, hv⟩ := List.mem_map.mp hmem
  simp only at hv
  subst hv
  have harea : (newArea trapContext trampoline hle₃ .framed (PTEFlags.R ||| PTEFlags.W)).extend es ∈
      ms₃.areas := by
    rw [hareas₃]
    exact List.mem_append_right _ List.mem_cons_self
  have hfr₃ : ms₃.Framed := hp₃.framed (hp₂.framed hfr₁ rfl) rfl
  obtain ⟨e, he, hppn, hflags⟩ := hp₃.good.translate_area hfr₃ harea
    (List.mem_append_right _ hf : (trapContextVpn, f) ∈ _)
  exact ⟨f, e, he, hppn, hflags⟩

/-- The stack of a program ends at a page. -/
theorem fromElf_userSp (L : Layout) (elf : ElfFile) (s : Phys) :
    (MemorySet.fromElf L elf).wlp (fun r _ => r.2.1 % 4096 = 0) s := by
  rw [MemorySet.fromElf]
  simp only [Comp.wlp_bind]
  intro _ _ _ _ _ _ r _ _ _ _ _ _ _ _
  rw [Comp.wlp_pure]
  show usizeAdd (usizeAdd (usizeMul r.2 4096) 4096) 8192 % 4096 = 0
  unfold usizeAdd usizeMul
  omega

/-! ## When it is built -/

/-- The tables on the way to a range of pages. -/
theorem card_pathsOf_range (l n : Nat) : (pathsOf (List.range' l n)).card ≤ 2 * (n / 512 + 2) := by
  let tables (u : Nat) : Finset Path := PageTable.tablePaths (u * 512)
  have htables : ∀ v, PageTable.tablePaths v = tables (v / 512) := by
    intro v
    have h₁ : v / 512 * 512 / 2 ^ 18 = v / 2 ^ 18 := by omega
    have h₂ : v / 512 * 512 / 2 ^ 9 = v / 2 ^ 9 := by omega
    simp only [tables, PageTable.tablePaths, PageTable.leafPath, h₁, h₂]
  have hsub : pathsOf (List.range' l n) ⊆
      (Finset.range (n / 512 + 2)).biUnion fun k => tables (l / 512 + k) := by
    have hall : ∀ vs : List Nat, (∀ v ∈ vs, l ≤ v ∧ v < l + n) → pathsOf vs ⊆
        (Finset.range (n / 512 + 2)).biUnion fun k => tables (l / 512 + k) := by
      intro vs hvs
      induction vs with
      | nil => exact Finset.empty_subset _
      | cons v vs ih =>
        have hv := hvs v List.mem_cons_self
        refine Finset.union_subset ?_ (ih fun w hw => hvs w (List.mem_cons_of_mem _ hw))
        intro p hp
        refine Finset.mem_biUnion.mpr ⟨v / 512 - l / 512, Finset.mem_range.mpr (by omega), ?_⟩
        have hk : l / 512 + (v / 512 - l / 512) = v / 512 := by omega
        rw [hk, ← htables]
        exact hp
    apply hall
    intro v hv
    rw [List.mem_range'_1] at hv
    exact hv
  refine (Finset.card_le_card hsub).trans ?_
  refine (Finset.card_biUnion_le_card_mul _ _ 2 fun k _ => Finset.card_le_two).trans ?_
  rw [Finset.card_range, Nat.mul_comm]

/-- The pages of the areas, as ranges. -/
def MemorySet.ranges (ms : MemorySet) : List (Nat × Nat) :=
  ms.areas.map fun area => (area.vpnRange.l, area.vpnRange.r)

/-- A page outside all ranges is not mapped. -/
theorem Good.unmapped (h : Good L rest s ms) {v : Nat} (hv : v < trampolineVpn)
    (hout : ∀ p ∈ ms.ranges, v < p.1 ∨ p.2 ≤ v) : ms.translate s.mem v = none := by
  have hlt : v < 2 ^ 27 := Nat.lt_trans hv (by decide)
  rw [h.translate_none_iff hlt, MemorySet.entries, List.map_cons, List.mem_cons, not_or]
  refine ⟨Nat.ne_of_lt hv, ?_⟩
  rw [List.map_flatMap, List.mem_flatMap]
  rintro ⟨area, ha, hmem⟩
  rw [MapArea.map_fst_ptes] at hmem
  have hin := VPNRange.mem_toList.mp ((h.area area ha).keys v hmem)
  have hp := hout _ (List.mem_map.mpr ⟨area, ha, rfl⟩)
  simp only at hp
  omega

/-- The pages of a fresh area outside the other ranges can be mapped. -/
theorem map_ok (h : Good L rest s ms) (hf : Fresh area) (hr : area.vpnRange.r ≤ trampolineVpn)
    (hout : ∀ p ∈ ms.ranges, area.vpnRange.r ≤ p.1 ∨ p.2 ≤ area.vpnRange.l) {n : Nat}
    (hn : area.vpnRange.r - area.vpnRange.l ≤ n)
    (hfree : area.cost * n + 2 * (n / 512 + 2) ≤ s.frames.free) :
    ∃ es s' pt', es.map Prod.fst = area.vpnRange.toList ∧
      (area.map ms.pageTable).run s = some ((.ok (), area.extend es, pt'), s') ∧
      s.frames.free ≤ s'.frames.free + (area.cost * n + 2 * (n / 512 + 2)) := by
  have hmiss : ms.pageTable.missing s.mem (pathsOf area.vpnRange.toList) ≤ 2 * (n / 512 + 2) := by
    refine (Finset.card_filter_le _ _).trans ((card_pathsOf_range _ _).trans ?_)
    have hdiv := Nat.div_le_div_right (c := 512) hn
    omega
  have hlen : area.cost * area.vpnRange.toList.length ≤ area.cost * n := by
    rw [VPNRange.toList, List.length_range']
    exact Nat.mul_le_mul_left _ hn
  have hneed : area.need s.mem ms.pageTable area.vpnRange.toList ≤ area.cost * n + 2 * (n / 512 + 2) :=
    Nat.add_le_add hlen hmiss
  have hnone : ∀ v ∈ area.vpnRange.toList, ms.translate s.mem v = none := by
    intro v hv
    rw [VPNRange.mem_toList] at hv
    apply h.unmapped (by omega)
    intro p hp
    have := hout p hp
    omega
  obtain ⟨es, s', pt', hes, hrun, hM⟩ := map_fresh_ok h.owns hf hnone (hneed.trans hfree)
  refine ⟨es, s', pt', hes, hrun, ?_⟩
  have hfree' := hM.free
  rw [hes, ← List.length_map Prod.fst, hes] at hfree'
  unfold MapArea.need at hneed
  omega

theorem push_run_none {es : List (Nat × Nat)} {pt' : PageTable}
    (hrun : (area.map ms.pageTable).run s = some ((.ok (), area.extend es, pt'), s')) :
    (ms.push area none).run s = some ((.ok (), ⟨pt', ms.areas ++ [area.extend es]⟩), s') := by
  rw [MemorySet.push, Comp.run_bind, hrun, Option.bind_some]
  rfl

/-- The data of a segment can be copied to pages that are mapped. -/
theorem copyDataLoop_ok (h : Good L rest s ms) (hfr : ms.Framed) (area : MapArea) (data : List UInt8)
    (ks : List Nat) (hlt : ∀ k ∈ ks, area.vpnRange.l + k < 2 ^ 27)
    (hks : ∀ k ∈ ks, ms.translate s.mem (area.vpnRange.l + k) ≠ none) :
    (area.copyDataLoop ms.pageTable data ks).wp (fun _ s' => s'.frames = s.frames) s := by
  induction ks generalizing s with
  | nil =>
    rw [MapArea.copyDataLoop, Comp.wp_pure]
  | cons k ks ih =>
    obtain ⟨e, he⟩ := Option.ne_none_iff_exists'.mp (hks k List.mem_cons_self)
    rw [MapArea.copyDataLoop]
    simp only [Comp.wp_bind, Comp.wp_get, Comp.wp_unwrap, storePhys, Comp.wp_modify]
    have hfits : e.ppn * 4096 % 4096 + ((data.drop (k * 4096)).take 4096).length ≤ 4096 := by
      rw [Nat.mul_mod_left, List.length_take]
      omega
    obtain ⟨hg, _⟩ := h.store hfr he (Nat.mul_div_cancel _ (by decide)) hfits rfl
    refine ⟨e, he, (ih hg (fun j hj => hlt j (List.mem_cons_of_mem _ hj)) fun j hj hc => ?_).mono
      fun _ _ hf => hf⟩
    -- the store has left the entries alone
    have hj := List.mem_cons_of_mem k hj
    rw [hg.translate_none_iff (hlt j hj), ← h.translate_none_iff (hlt j hj)] at hc
    exact hks j hj hc

theorem Pushed.ranges (h : Pushed L rest s ms area s' ms') :
    ms'.ranges = ms.ranges ++ [(area.vpnRange.l, area.vpnRange.r)] := by
  obtain ⟨es, _, hareas⟩ := h.areas
  rw [MemorySet.ranges, hareas, List.map_append, List.map_singleton, MapArea.extend_vpnRange]
  rfl

/-- A memory set under construction: its ranges so far, and the frames that are left. -/
structure Site (L : Layout) (rest : List Nat) (s₀ s : Phys) (ms : MemorySet)
    (ranges : List (Nat × Nat)) (free : Nat) : Prop where
  whole : Whole L rest s₀ s ms
  ranges : ms.ranges = ranges
  free : free ≤ s.frames.free

section SitePush

variable {s₀ : Phys} {ranges : List (Nat × Nat)} {free k n : Nat}

/-- A fresh area outside the other ranges can be pushed. -/
theorem Site.push_ok (h : Site L rest s₀ s ms ranges (free + k)) (hf : Fresh area)
    (hr : area.vpnRange.r ≤ trampolineVpn)
    (hout : ∀ p ∈ ranges, area.vpnRange.r ≤ p.1 ∨ p.2 ≤ area.vpnRange.l)
    (hn : area.vpnRange.r - area.vpnRange.l ≤ n) (hk : area.cost * n + 2 * (n / 512 + 2) ≤ k) :
    (ms.push area none).wp (fun r s' => r.1 = .ok () ∧
      Site L rest s₀ s' r.2 (ranges ++ [(area.vpnRange.l, area.vpnRange.r)]) free) s := by
  have hfree := h.free
  rw [← h.ranges] at hout
  obtain ⟨es, s', pt', _, hrun, hleft⟩ := map_ok h.whole.good hf hr hout hn (by omega)
  have hpush := push_run_none hrun
  have hp : Pushed L rest s ms area s' ⟨pt', ms.areas ++ [area.extend es]⟩ :=
    push_wlp h.whole.good hf (fun hc => absurd rfl hc) _ _ hpush
  refine ⟨_, _, hpush, rfl, h.whole.push hp hf, ?_, by omega⟩
  rw [hp.ranges, h.ranges]

/-- And so can one with data that fits. -/
theorem Site.pushData_ok (h : Site L rest s₀ s ms ranges (free + k)) (hfr : ms.Framed)
    (hf : Fresh area) (htype : area.mapType = .framed) (hr : area.vpnRange.r ≤ trampolineVpn)
    (hout : ∀ p ∈ ranges, area.vpnRange.r ≤ p.1 ∨ p.2 ≤ area.vpnRange.l)
    (hn : area.vpnRange.r - area.vpnRange.l ≤ n) (hk : area.cost * n + 2 * (n / 512 + 2) ≤ k)
    {data : List UInt8} (hpos : area.vpnRange.l < area.vpnRange.r)
    (hdata : data.length ≤ 4096 * (area.vpnRange.r - area.vpnRange.l)) :
    (ms.push area (some data)).wp (fun r s' => r.1 = .ok () ∧ r.2.Framed ∧
      Site L rest s₀ s' r.2 (ranges ++ [(area.vpnRange.l, area.vpnRange.r)]) free) s := by
  have hfree := h.free
  rw [← h.ranges] at hout
  obtain ⟨es, s', pt', hes, hrun, hleft⟩ := map_ok h.whole.good hf hr hout hn (by omega)
  have hp₀ : Pushed L rest s ms area s' ⟨pt', ms.areas ++ [area.extend es]⟩ :=
    push_wlp h.whole.good hf (fun hc => absurd rfl hc) _ _ (push_run_none hrun)
  have hfr' := hp₀.framed hfr htype
  have hkeys : (area.extend es).entries.map Prod.fst = area.vpnRange.toList := by
    have hfull := hp₀.full hf h.whole.full (area.extend es) (List.mem_append_right _ List.mem_cons_self)
    rw [hfull, MapArea.extend_vpnRange]
  have hmapped : ∀ v ∈ area.vpnRange.toList,
      MemorySet.translate s'.mem ⟨pt', ms.areas ++ [area.extend es]⟩ v ≠ none := by
    intro v hv hc
    rw [hp₀.good.translate_none_iff (hf.lt hv)] at hc
    apply hc
    rw [MemorySet.entries, List.map_cons, List.map_flatMap]
    refine List.mem_cons_of_mem _ (List.mem_flatMap.mpr
      ⟨area.extend es, List.mem_append_right _ List.mem_cons_self, ?_⟩)
    rw [MapArea.map_fst_ptes, hkeys]
    exact hv
  have hin : ∀ j ∈ List.range (max 1 ((data.length + 4095) / 4096)),
      area.vpnRange.l + j ∈ area.vpnRange.toList := by
    intro j hj
    rw [List.mem_range] at hj
    rw [VPNRange.mem_toList]
    omega
  obtain ⟨_, s'', hcopy, hframes⟩ := copyDataLoop_ok hp₀.good hfr' (area.extend es) data
    (List.range (max 1 ((data.length + 4095) / 4096)))
    (fun j hj => by rw [MapArea.extend_vpnRange]; exact hf.lt (hin j hj))
    (fun j hj => by rw [MapArea.extend_vpnRange]; exact hmapped _ (hin j hj))
  have hpush : (ms.push area (some data)).run s =
      some ((.ok (), ⟨pt', ms.areas ++ [area.extend es]⟩), s'') := by
    rw [MemorySet.push, Comp.run_bind, hrun]
    simp only [Option.bind_some, MapArea.copyData, Comp.run_bind, Comp.assert,
      MapArea.extend_mapType, htype, if_true, Comp.run_pure, hcopy]
  have hp : Pushed L rest s ms area s'' ⟨pt', ms.areas ++ [area.extend es]⟩ :=
    push_wlp h.whole.good hf (fun _ => ⟨hfr, htype⟩) _ _ hpush
  refine ⟨_, _, hpush, rfl, hp.framed hfr htype, h.whole.push hp hf, ?_, ?_⟩
  · rw [hp.ranges, h.ranges]
  · rw [hframes]
    omega

end SitePush

section SiteNew

variable {s₀ : Phys} {ranges : List (Nat × Nat)} {free k l r n start stop : Nat}

theorem Site.pushArea_ok (h : Site L rest s₀ s ms ranges (free + k)) (mapType : MapType)
    (mapPerm : MapPermission) (hl : (VirtAddr.ofUsize start).floor = l)
    (hr : (VirtAddr.ofUsize stop).ceil = r) (hrt : r ≤ trampolineVpn)
    (hout : ∀ p ∈ ranges, r ≤ p.1 ∨ p.2 ≤ l) (hn : r - l ≤ n)
    (hk : (if mapType = .framed then n else 0) + 2 * (n / 512 + 2) ≤ k)
    (hle : (VirtAddr.ofUsize start).floor ≤ (VirtAddr.ofUsize stop).ceil) :
    (ms.push (newArea start stop hle mapType mapPerm) none).wp (fun x s' => x.1 = .ok () ∧
      Site L rest s₀ s' x.2 (ranges ++ [(l, r)]) free) s := by
  subst hl hr
  have hcost : (newArea start stop hle mapType mapPerm).cost * n = if mapType = .framed then n else 0 := by
    rw [MapArea.cost]
    cases mapType with
    | framed => exact Nat.one_mul n
    | identical => exact Nat.zero_mul n
  rw [← hcost] at hk
  exact h.push_ok (fresh_new hle mapType) hrt hout hn hk

theorem Site.pushNew_ok (h : Site L rest s₀ s ms ranges (free + k)) (mapType : MapType)
    (mapPerm : MapPermission) (hl : (VirtAddr.ofUsize start).floor = l)
    (hr : (VirtAddr.ofUsize stop).ceil = r) (hle : l ≤ r) (hrt : r ≤ trampolineVpn)
    (hout : ∀ p ∈ ranges, r ≤ p.1 ∨ p.2 ≤ l) (hn : r - l ≤ n)
    (hk : (if mapType = .framed then n else 0) + 2 * (n / 512 + 2) ≤ k) :
    (ms.pushNew start stop mapType mapPerm none).wp
      (fun ms' s' => Site L rest s₀ s' ms' (ranges ++ [(l, r)]) free) s := by
  have hle' : (VirtAddr.ofUsize start).floor ≤ (VirtAddr.ofUsize stop).ceil := by rw [hl, hr]; exact hle
  rw [MemorySet.pushNew, MapArea.new]
  simp only [Comp.wp_bind, VPNRange.wp_new, Comp.wp_pure]
  refine ⟨hle', (h.pushArea_ok mapType mapPerm hl hr hrt hout hn hk hle').mono ?_⟩
  rintro ⟨x, ms'⟩ s' ⟨hok, hs⟩
  simp only at hok
  subst hok
  simp only [unwrapOk, Comp.wp_pure]
  exact hs

end SiteNew

/-- A new memory set takes three frames. -/
theorem newUser_ok (hh : Held L.firstFrame s.frames rest) (free : Nat) (hfree : free + 3 ≤ s.frames.free)
    {Q : MemorySet → Phys → Prop}
    (hQ : ∀ ms s', ms.areas = [] → Site L rest s s' ms [] free → Q ms s') :
    MemorySet.newBare.wp (fun ms s' => (ms.mapTrampoline L).wp Q s') s := by
  have hcard : (pathsOf [trampolineVpn]).card ≤ 2 := by
    have hpaths : pathsOf [trampolineVpn] = PageTable.tablePaths trampolineVpn := by simp [pathsOf]
    rw [hpaths]
    exact Finset.card_le_two
  rcases newUser_run hh with ⟨ms₀, s₀, ms, s', hbare, htramp, hareas, hg, _, hfr, hk⟩ | ⟨hlt, _⟩
  · rw [Comp.wp_of_run hbare, Comp.wp_of_run htramp]
    refine hQ ms s' hareas ⟨⟨hg, MemorySet.full_of_nil hareas, hk⟩, ?_, by omega⟩
    rw [MemorySet.ranges, hareas, List.map_nil]
  · omega

theorem floor_ofUsize {a : Nat} (ha : a < 2 ^ 39) : (VirtAddr.ofUsize a).floor = a / 4096 := by
  show a % 2 ^ 39 / 4096 = a / 4096
  rw [Nat.mod_eq_of_lt ha]

theorem ceil_ofUsize {a : Nat} (ha : a < 2 ^ 39) (hp : a % 4096 = 0) :
    (VirtAddr.ofUsize a).ceil = a / 4096 := by
  rw [VirtAddr.ceil_eq]
  show (a % 2 ^ 39 + 4095) / 4096 = a / 4096
  rw [Nat.mod_eq_of_lt ha]
  omega

/-- The frame allocator as `mm::init` sets it up. -/
theorem held_init (L : Layout) : Held L.firstFrame ⟨L.firstFrame, memoryEnd / 4096, []⟩ [] := by
  have hle := L.firstFrame_le
  refine ⟨⟨List.nodup_nil, ?_⟩, Nat.le_refl _, ?_, ?_⟩
  · intro x hx
    cases hx
  · exact hle.trans (by decide : 0x80800 ≤ memoryEnd / 4096)
  · exact (by decide : memoryEnd / 4096 ≤ 2 ^ 44)

/-- **The kernel's address space can be built** with 58 frames. -/
theorem newKernel_ok (hh : Held L.firstFrame s.frames rest) {free : Nat}
    (hfree : free + 57 ≤ s.frames.free) :
    (MemorySet.newKernel L).wp (fun ms s' => Whole L rest s s' ms ∧ free ≤ s'.frames.free ∧
      ∀ p ∈ ms.ranges, p.2 ≤ 0x80800) s := by
  obtain ⟨ha₁, ha₂, ha₃, ha₄, ha₅⟩ := L.aligned
  obtain ⟨ho₁, ho₂, ho₃, ho₄, ho₅⟩ := L.ordered
  have hfits := L.fits
  have hend : (VirtAddr.ofUsize memoryEnd).ceil = 0x80800 := by decide
  have hstart : (VirtAddr.ofUsize L.stext).floor = 0x80200 := by
    rw [Layout.stext]
    decide
  have htop : trampolineVpn = 2 ^ 27 - 1 := rfl
  rw [MemorySet.newKernel]
  simp only [Comp.wp_bind]
  refine newUser_ok hh (free + 4 + 10 + 10 + 10 + 10 + 10) (by omega) fun ms₀ s₀ _ h₀ => ?_
  refine (h₀.pushNew_ok .identical _ hstart (ceil_ofUsize (by omega) ha₂) (by omega) (by omega)
    (by simp) (n := 1536) (by omega) (by decide)).mono fun ms₁ s₁ h₁ => ?_
  refine (h₁.pushNew_ok .identical _ (floor_ofUsize (by omega)) (ceil_ofUsize (by omega) ha₃) (by omega)
    (by omega) (by simp) (n := 1536) (by omega) (by decide)).mono fun ms₂ s₂ h₂ => ?_
  refine (h₂.pushNew_ok .identical _ (floor_ofUsize (by omega)) (ceil_ofUsize (by omega) ha₄) (by omega)
    (by omega) (by simp; omega) (n := 1536) (by omega) (by decide)).mono fun ms₃ s₃ h₃ => ?_
  refine (h₃.pushNew_ok .identical _ (floor_ofUsize (by omega)) (ceil_ofUsize (by omega) ha₅) (by omega)
    (by omega) (by simp; omega) (n := 1536) (by omega) (by decide)).mono fun ms₄ s₄ h₄ => ?_
  refine (h₄.pushNew_ok .identical _ (floor_ofUsize (by omega)) hend (by omega)
    (by omega) (by simp; omega) (n := 1536) (by omega) (by decide)).mono fun ms₅ s₅ h₅ => ?_
  rw [MapArea.new]
  simp only [Comp.wp_bind, VPNRange.wp_new, Comp.wp_pure]
  have hl : (VirtAddr.ofUsize 0x10001000).floor = 0x10001 := by decide
  have hr : (VirtAddr.ofUsize 0x10002000).ceil = 0x10002 := by decide
  have hle : (VirtAddr.ofUsize 0x10001000).floor ≤ (VirtAddr.ofUsize 0x10002000).ceil := by
    rw [hl, hr]
    decide
  refine ⟨hle, (h₅.pushArea_ok .identical _ hl hr (by decide) (by simp; omega) (n := 1) (by decide)
    (by decide) hle).mono ?_⟩
  rintro ⟨r, ms'⟩ s' ⟨_, hs⟩
  refine ⟨hs.whole, hs.free, ?_⟩
  rw [hs.ranges]
  simp
  omega

/-- A program of one segment on one page. -/
def onePage (code : List UInt8) : ElfFile where
  input := code
  programHeaders := [⟨true, 0x10000, 4096, 0, code.length, true, false, true⟩]
  entryPoint := 0x10000

/-- **The address space of such a program can be built** with 19 frames. -/
theorem fromElf_ok (hh : Held L.firstFrame s.frames rest) (code : List UInt8)
    (hcode : code.length ≤ 4096) (free : Nat) (hfree : free + 19 ≤ s.frames.free) :
    (MemorySet.fromElf L (onePage code)).wp (fun r s' => Site L rest s s' r.1
      [(0x10, 0x11), (0x12, 0x14), (trapContextVpn, trampolineVpn)] free) s := by
  have hl : (VirtAddr.ofUsize 0x10000).floor = 0x10 := by decide
  have hr : (VirtAddr.ofUsize (usizeAdd 0x10000 4096)).ceil = 0x11 := by decide
  have hle : (VirtAddr.ofUsize 0x10000).floor ≤ (VirtAddr.ofUsize (usizeAdd 0x10000 4096)).ceil := by
    rw [hl, hr]
    decide
  have hstop : usizeAdd 0 code.length = code.length := by
    unfold usizeAdd
    omega
  have hone : (VirtAddr.ofUsize (usizeAdd 0x10000 4096)).ceil -
      (VirtAddr.ofUsize 0x10000).floor = 1 := by rw [hl, hr]
  have htop : (VirtAddr.ofUsize (usizeAdd 0x10000 4096)).ceil ≤ trampolineVpn := by
    rw [hr]
    decide
  rw [MemorySet.fromElf]
  simp only [Comp.wp_bind]
  refine newUser_ok hh (free + 5 + 6 + 5) (by omega) fun ms₀ s₀ hareas h₀ => ?_
  have hfr₀ : ms₀.Framed := MemorySet.framed_of_nil hareas
  simp only [onePage, MemorySet.mapSegments, if_true, MapArea.new, Comp.wp_bind, VPNRange.wp_new,
    Comp.wp_pure, Comp.wp_assert, hstop]
  refine ⟨hle, ⟨Nat.zero_le _, Nat.le_refl _⟩, ?_⟩
  refine (h₀.pushData_ok hfr₀ (fresh_new hle .framed) rfl htop (fun p hp => absurd hp List.not_mem_nil)
    (n := 1) (Nat.le_of_eq hone) (Nat.le_refl 5) ?_ ?_).mono ?_
  · exact (by omega : (VirtAddr.ofUsize 0x10000).floor < (VirtAddr.ofUsize (usizeAdd 0x10000 4096)).ceil)
  · simp only [hone, List.drop_zero, Nat.sub_zero, List.take_length]
    exact hcode
  rintro ⟨r, ms₁⟩ s₁ ⟨hok, _, h₁⟩
  simp only at hok h₁
  subst hok
  rw [hl, hr, List.nil_append] at h₁
  simp only [unwrapOk, Comp.wp_pure]
  rw [hr]
  refine (h₁.pushNew_ok .framed _ (l := 0x12) (r := 0x14) (by decide) (by decide) (by decide) (by decide)
    (by decide) (n := 2) (by decide) (by decide)).mono fun ms₂ s₂ h₂ => ?_
  refine (h₂.pushNew_ok .framed _ floor_trapContext (r := trampolineVpn) (by decide) (by decide)
    (by decide) (by decide) (n := 1) (by decide) (by decide)).mono fun ms₃ s₃ h₃ => ?_
  exact h₃

end RCore.Mm
