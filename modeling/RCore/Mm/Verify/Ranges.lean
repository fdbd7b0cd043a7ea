import RCore.Mm.Verify.Spaces
import RCore.Mm.Verify.Starved

/-!
# The ranges of an address space

`push` adds a range and `remove_area_with_start_vpn` takes one away, whatever is mapped. If the areas are full, the ranges
are what is mapped.
-/

namespace RCore.Mm

variable {L : Layout} {rest : List Nat} {s s' : Phys} {ms ms' : MemorySet} {area : MapArea} {pt : PageTable}

/-! ## Adding a range -/

theorem insertFrame_vpnRange (area : MapArea) (vpn frame : Nat) (s : Phys) :
    (area.insertFrame vpn frame).wlp (fun area' _ => area'.vpnRange = area.vpnRange) s := by
  rw [MapArea.insertFrame]
  cases area.dataFrames.lookup vpn with
  | none => simp only [Comp.wlp_pure]
  | some old =>
    simp only [Comp.wlp_bind, Comp.wlp_pure]
    intro _ _ _
    trivial

/-- A page that cannot be mapped has found no frame. -/
theorem mapOne_range (area : MapArea) (pt : PageTable) (vpn : Nat) (s : Phys) :
    (area.mapOne pt vpn).wlp (fun r s' => r.2.1.vpnRange = area.vpnRange ∧
      (r.1 = .ok () ∨ s'.starved = true)) s := by
  rw [MapArea.mapOne]
  split
  · rw [frameAlloc]
    simp only [Comp.wlp_bind, Comp.wlp_get]
    cases s.frames.alloc with
    | none =>
      simp only [Comp.wlp_bind, Comp.wlp_modify, Comp.wlp_pure]
      exact ⟨trivial, .inr trivial⟩
    | some taken =>
      simp only [Comp.wlp_bind, Comp.wlp_modify, Comp.wlp_pure]
      refine (insertFrame_vpnRange area vpn taken.1 _).mono fun area' s₁ h => ?_
      intro _ _ _
      exact ⟨h, .inl trivial⟩
  · simp only [Comp.wlp_bind, Comp.wlp_pure]
    intro _ _ _
    exact ⟨trivial, .inl trivial⟩

theorem mapLoop_range (area : MapArea) (pt : PageTable) (vpns : List Nat) (s : Phys) :
    (area.mapLoop pt vpns).wlp (fun r s' => r.2.1.vpnRange = area.vpnRange ∧
      (r.1 = .ok () ∨ s'.starved = true)) s := by
  induction vpns generalizing area pt s with
  | nil =>
    rw [MapArea.mapLoop, Comp.wlp_pure]
    exact ⟨rfl, .inl rfl⟩
  | cons v vpns ih =>
    rw [MapArea.mapLoop, Comp.wlp_bind]
    refine (mapOne_range area pt v s).mono ?_
    rintro ⟨r, area', pt'⟩ s₁ ⟨hrange, hr⟩
    cases r with
    | ok =>
      refine (ih area' pt' s₁).mono fun r' s₂ h => ?_
      exact ⟨h.1.trans hrange, h.2⟩
    | error e =>
      simp only [Comp.wlp_pure]
      exact ⟨hrange, .inr (hr.resolve_left (fun hc => by cases hc))⟩

/-- **`push`** adds the range of the area, or finds no frame. -/
theorem push_ranges (ms : MemorySet) (area : MapArea) (data : Option (List UInt8)) (s : Phys) :
    (ms.push area data).wlp (fun r s' => match r.1 with
      | .ok _ => r.2.ranges = ms.ranges ++ [(area.vpnRange.l, area.vpnRange.r)]
      | .error _ => s'.starved = true ∧ r.2.ranges = ms.ranges) s := by
  rw [MemorySet.push, Comp.wlp_bind, MapArea.map]
  refine (mapLoop_range area ms.pageTable _ s).mono ?_
  rintro ⟨r, area', pt'⟩ s₁ ⟨hrange, hr⟩
  have hadd : MemorySet.ranges ⟨pt', ms.areas ++ [area']⟩ = ms.ranges ++ [(area.vpnRange.l, area.vpnRange.r)] := by
    rw [MemorySet.ranges, List.map_append, List.map_singleton, hrange]
    rfl
  cases r with
  | ok =>
    cases data with
    | none =>
      simp only [Comp.wlp_pure]
      exact hadd
    | some data =>
      simp only [Comp.wlp_bind, Comp.wlp_pure]
      intro _ _ _
      exact hadd
  | error e =>
    simp only [Comp.wlp_bind, Comp.wlp_pure]
    have hst := hr.resolve_left (fun hc => by cases hc)
    exact (kept_starved.dropFrames _ _ hst).mono fun _ _ h => ⟨h, rfl⟩

/-- The range between two addresses. -/
def addressRange (start stop : Nat) : Nat × Nat := ((VirtAddr.ofUsize start).floor, (VirtAddr.ofUsize stop).ceil)

theorem pushNew_ranges (ms : MemorySet) (start stop : Nat) (mapType : MapType) (mapPerm : MapPermission)
    (data : Option (List UInt8)) (s : Phys) :
    (ms.pushNew start stop mapType mapPerm data).wlp (fun ms' _ =>
      ms'.ranges = ms.ranges ++ [addressRange start stop]) s := by
  rw [MemorySet.pushNew, MapArea.new]
  simp only [Comp.wlp_bind, VPNRange.wlp_new, Comp.wlp_pure]
  intro hle
  refine (push_ranges ms _ data s).mono ?_
  rintro ⟨r, ms'⟩ s' hr
  cases r with
  | ok =>
    simp only [unwrapOk, Comp.wlp_pure]
    exact hr
  | error => simp only [unwrapOk, Comp.wlp_panic]

theorem newBare_ranges (s : Phys) : MemorySet.newBare.wlp (fun ms _ => ms.ranges = []) s := by
  rw [MemorySet.newBare]
  simp only [Comp.wlp_bind, Comp.wlp_pure]
  intro _ _ _
  rfl

theorem mapTrampoline_ranges (ms : MemorySet) (s : Phys) :
    (ms.mapTrampoline L).wlp (fun ms' _ => ms'.ranges = ms.ranges) s := by
  rw [MemorySet.mapTrampoline]
  simp only [Comp.wlp_bind, Comp.wlp_pure]
  intro _ _ _ _ _ _ _ _ _
  rfl

/-- The identity-mapped memory ends at `MEMORY_END`. -/
theorem newKernel_ranges (L : Layout) (s : Phys) :
    (MemorySet.newKernel L).wlp (fun ms _ => ∀ p ∈ ms.ranges, p.2 ≤ 0x80800) s := by
  have ha := L.aligned
  have ho := L.ordered
  have hf := L.fits
  have hend : ∀ start stop, stop ≤ 0x80800000 → stop % 4096 = 0 → (addressRange start stop).2 ≤ 0x80800 := by
    intro start stop hstop halign
    rw [addressRange, ceil_ofUsize (by omega) halign]
    omega
  rw [MemorySet.newKernel]
  simp only [Comp.wlp_bind]
  refine (newBare_ranges s).mono fun ms s₀ hbare => ?_
  refine (mapTrampoline_ranges ms s₀).mono fun ms₀ s₀ h₀ => ?_
  refine (pushNew_ranges _ _ _ _ _ _ _).mono fun ms₁ s₁ h₁ => ?_
  refine (pushNew_ranges _ _ _ _ _ _ _).mono fun ms₂ s₂ h₂ => ?_
  refine (pushNew_ranges _ _ _ _ _ _ _).mono fun ms₃ s₃ h₃ => ?_
  refine (pushNew_ranges _ _ _ _ _ _ _).mono fun ms₄ s₄ h₄ => ?_
  refine (pushNew_ranges _ _ _ _ _ _ _).mono fun ms₅ s₅ h₅ => ?_
  have hbase : ∀ p ∈ ms₅.ranges, p.2 ≤ 0x80800 := by
    intro p hp
    rw [h₅, h₄, h₃, h₂, h₁, h₀, hbare] at hp
    simp only [List.nil_append, List.mem_append, List.mem_singleton, or_assoc] at hp
    rcases hp with rfl | rfl | rfl | rfl | rfl
    · exact hend _ _ (by omega) ha.2.1
    · exact hend _ _ (by omega) ha.2.2.1
    · exact hend _ _ (by omega) ha.2.2.2.1
    · exact hend _ _ (by omega) ha.2.2.2.2
    · exact hend _ _ (by decide) (by decide)
  rw [MapArea.new]
  simp only [Comp.wlp_bind, VPNRange.wlp_new, Comp.wlp_pure]
  intro hle
  refine (push_ranges ms₅ _ none s₅).mono ?_
  rintro ⟨r, ms₆⟩ s₆ hr p hp
  cases r with
  | ok =>
    have hr' : ms₆.ranges = ms₅.ranges ++ [addressRange 0x10001000 0x10002000] := hr
    rw [hr', List.mem_append, List.mem_singleton] at hp
    rcases hp with hp | rfl
    · exact hbase p hp
    · decide
  | error => exact hbase p (hr.2 ▸ hp)

/-! ## Taking a range away -/

/-- **`remove_area_with_start_vpn`** takes away the first range that starts there. -/
theorem removeArea_ranges (ms : MemorySet) (startVpn : Nat) (s : Phys) :
    (ms.removeAreaWithStartVpn startVpn).wlp (fun ms' _ =>
      ms'.ranges = match ms.ranges.findIdx? (fun p => p.1 = startVpn) with
        | none => ms.ranges
        | some idx => ms.ranges.eraseIdx idx) s := by
  have hfind : ms.ranges.findIdx? (fun p => p.1 = startVpn) =
      ms.areas.findIdx? fun area => area.vpnRange.l = startVpn := by
    rw [MemorySet.ranges, List.findIdx?_map]
    rfl
  rw [MemorySet.removeAreaWithStartVpn, hfind]
  cases ms.areas.findIdx? fun area => area.vpnRange.l = startVpn with
  | none => simp only [Comp.wlp_pure]
  | some idx =>
    simp only [Comp.wlp_bind, Comp.wlp_pure]
    intro _ _ _ _ _ _ _ _ _
    exact (List.eraseIdx_map _ _ _).symm

/-! ## What is mapped -/

/-- In a space with full areas, the mapped pages are those of the ranges and the trampoline's. -/
theorem Good.mapped_iff (h : Good L rest s ms) (hfull : ms.Full) {v : Nat} (hv : v < 2 ^ 27) :
    ms.translate s.mem v ≠ none ↔ v = trampolineVpn ∨ ∃ p ∈ ms.ranges, p.1 ≤ v ∧ v < p.2 := by
  rw [ne_eq, h.translate_none_iff hv, not_not, MemorySet.entries, List.map_cons, List.mem_cons, List.map_flatMap,
    List.mem_flatMap]
  refine or_congr Iff.rfl ⟨?_, ?_⟩
  · rintro ⟨area, ha, hmem⟩
    rw [MapArea.map_fst_ptes] at hmem
    exact ⟨_, List.mem_map_of_mem ha, VPNRange.mem_toList.mp ((h.area area ha).keys v hmem)⟩
  · rintro ⟨p, hp, hin⟩
    obtain ⟨area, ha, rfl⟩ := List.mem_map.mp hp
    refine ⟨area, ha, ?_⟩
    rw [MapArea.map_fst_ptes, hfull area ha]
    exact VPNRange.mem_toList.mpr hin

/-- What is still mapped after some areas have gone is mapped as before. -/
theorem Good.translate_of_sublist {rest' : List Nat} (h : Good L rest s ms) (h' : Good L rest' s' ms')
    (hsub : ms'.areas.Sublist ms.areas) {v : Nat} (hv : v < 2 ^ 27) (hmapped : ms'.translate s'.mem v ≠ none) :
    ms'.translate s'.mem v = ms.translate s.mem v := by
  obtain ⟨e, he⟩ := Option.ne_none_iff_exists'.mp hmapped
  have hentry := (h'.translate v e hv).mp he
  have hold : (v, e) ∈ ms.entries L := by
    rw [MemorySet.entries, List.mem_cons, List.mem_flatMap] at hentry ⊢
    refine hentry.imp_right ?_
    rintro ⟨area, ha, hmem⟩
    exact ⟨area, hsub.subset ha, hmem⟩
  rw [he, (h.translate v e hv).mpr hold]

end RCore.Mm
