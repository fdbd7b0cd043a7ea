import RCore.Mm.Verify.Spaces

/-!
# What a successful `sys_mmap` maps

The call rounds the length up with wrapping arithmetic and keeps 39 bits of each end of the range, so
that a success speaks of the pages between two masked addresses. They are the pages of the range that
was asked for as long as its addresses are addresses of Sv39; nothing checks that.
-/

namespace RCore.Mm

variable {L : Layout} {rest : List Nat} {s s' : Phys} {ms ms' : MemorySet} {start len prot : Nat}

/-! ## New pages -/

/-- The pages have been added, zeroed, and no other page has changed. -/
structure PagesAdded (s s' : Phys) (ms ms' : MemorySet) (pages : List Nat) (perm : MapPermission) :
    Prop where
  before : ∀ v ∈ pages, ms.translate s.mem v = none
  after : ∀ v ∈ pages, ∃ e, ms'.translate s'.mem v = some e ∧ e.flags = perm ||| PTEFlags.V ∧
    ∀ off, off < 4096 → s'.mem (e.ppn * 4096 + off) = 0
  others : ∀ v, v < 2 ^ 27 → v ∉ pages → ms'.translate s'.mem v = ms.translate s.mem v

theorem push_added {area : MapArea} (h : Good L rest s ms) (hf : Fresh area)
    (htype : area.mapType = .framed) :
    (ms.push area none).wlp (fun r s' => match r.1 with
      | .ok _ => PagesAdded s s' ms r.2 area.vpnRange.toList area.mapPerm
      | .error _ => True) s := by
  intro r s' hrun
  rcases map_fresh_run h.owns hf with ⟨es, s₁, pt₁, hes, hmap, hM, _⟩ |
    ⟨_, _, _, es, s₁, pt₁, _, _, _, _, _, hmap⟩ | ⟨_, _, _, _, _, _, _, _, hmap⟩
  · rw [push_run_none hmap] at hrun
    cases hrun
    refine ⟨fun v hv => hM.unmapped v (hes ▸ hv), ?_, ?_⟩
    · intro v hv
      rw [← hes] at hv
      obtain ⟨⟨w, f⟩, hmem, rfl⟩ := List.mem_map.mp hv
      have hlt : w < 2 ^ 27 := hf.lt (hes ▸ hv)
      have hppn := hM.ppn_lt (w, f) hmem
      refine ⟨_, (hM.translate w _ hlt).mpr (Or.inr ⟨f, hmem, rfl⟩), PageTableEntry.flags_new hppn _, ?_⟩
      intro off hoff
      rw [PageTableEntry.ppn_new hppn]
      exact hM.zeroed htype (w, f) hmem _ (by omega)
    · intro v hv hout
      apply Option.ext
      intro e
      refine (hM.translate v e hv).trans ⟨?_, Or.inl⟩
      rintro (he | ⟨f, hmem, _⟩)
      · exact he
      · exact absurd (hes ▸ List.mem_map.mpr ⟨(v, f), hmem, rfl⟩) hout
  · rw [MemorySet.push, Comp.run_bind, hmap, Option.bind_some] at hrun
    simp only [Comp.run_bind, Option.bind_eq_some_iff, Comp.run_pure, Option.some.injEq, Prod.mk.injEq] at hrun
    obtain ⟨_, _, rfl, _⟩ := hrun
    trivial
  · rw [MemorySet.push, Comp.run_bind, hmap, Option.bind_none] at hrun
    cases hrun

/-- A `sys_mmap` that returns 0 has checked its arguments and added the pages of its masked range. -/
theorem sysMmap_added (h : Good L rest s ms) (hrun : (sysMmap ms start len prot).run s = some ((0, ms'), s')) :
    start % 4096 = 0 ∧ 0 < prot ∧ prot < 8 ∧
    (VirtAddr.ofUsize start).floor ≤ (VirtAddr.ofUsize (usizeAdd start (roundUp len))).ceil ∧
    PagesAdded s s' ms ms' (pagesBetween (VirtAddr.ofUsize start)
      (VirtAddr.ofUsize (usizeAdd start (roundUp len)))) (protPerm prot) := by
  have hwlp : (sysMmap ms start len prot).wlp (fun r s' => r.1 = 0 →
      start % 4096 = 0 ∧ 0 < prot ∧ prot < 8 ∧
      (VirtAddr.ofUsize start).floor ≤ (VirtAddr.ofUsize (usizeAdd start (roundUp len))).ceil ∧
      PagesAdded s s' ms r.2 (pagesBetween (VirtAddr.ofUsize start)
        (VirtAddr.ofUsize (usizeAdd start (roundUp len)))) (protPerm prot)) s := by
    rw [sysMmap]
    split
    · rw [Comp.wlp_pure]
      intro hc
      cases hc
    · next hargs =>
      simp only [Comp.wlp_bind, VPNRange.wlp_new, Comp.wlp_get]
      intro hle
      split
      · rw [Comp.wlp_pure]
        intro hc
        cases hc
      · simp only [MemorySet.insertFramedArea, MapArea.new, Comp.wlp_bind, VPNRange.wlp_new, Comp.wlp_pure]
        intro hle'
        refine (push_added h (fresh_new hle' .framed) rfl).mono ?_
        rintro ⟨r, ms'⟩ s' hr
        cases r with
        | ok =>
          simp only [Comp.wlp_pure]
          intro _
          exact ⟨by omega, by omega, by omega, hle, hr⟩
        | error =>
          simp only [Comp.wlp_pure]
          intro hc
          cases hc
  exact hwlp _ _ hrun rfl

/-! ## The range that was asked for -/

/-- The addresses of Sv39: the bits above bit 38 are copies of it. -/
def Canonical (a : Nat) : Prop := a < 2 ^ 38 ∨ 2 ^ 64 - 2 ^ 38 ≤ a ∧ a < 2 ^ 64

/-- The page of an address. -/
def pageOf (a : Nat) : Nat := (VirtAddr.ofUsize a).floor

/-- **The whole range is mapped**, with the permissions of `prot`, and nothing else. -/
structure MapsRange (s s' : Phys) (ms ms' : MemorySet) (start len prot : Nat) : Prop where
  aligned : start % 4096 = 0
  perm : 0 < prot ∧ prot < 8
  valid : ∀ a, start ≤ a → a < start + len → Canonical a
  before : ∀ a, start ≤ a → a < start + len → ms.translate s.mem (pageOf a) = none
  after : ∀ a, start ≤ a → a < start + len → ∃ e, ms'.translate s'.mem (pageOf a) = some e ∧
    e.flags = protPerm prot ||| PTEFlags.V ∧ ∀ off, off < 4096 → s'.mem (e.ppn * 4096 + off) = 0
  others : ∀ v, v < 2 ^ 27 → (∀ a, start ≤ a → a < start + len → pageOf a ≠ v) →
    ms'.translate s'.mem v = ms.translate s.mem v

/-- The range is empty, or in one of the halves of the address space. -/
def InHalf (start len : Nat) : Prop :=
  len = 0 ∨ start + len ≤ 2 ^ 38 ∨ 2 ^ 64 - 2 ^ 38 ≤ start ∧ start + len ≤ 2 ^ 64

theorem inHalf_of_canonical (h : ∀ a, start ≤ a → a < start + len → Canonical a) : InHalf start len := by
  by_cases hlen : len = 0
  · exact Or.inl hlen
  right
  rcases h start (Nat.le_refl _) (by omega) with hlow | hhigh
  · left
    by_contra hgt
    -- the first address after the lower half is in the range
    rcases h (2 ^ 38) (by omega) (by omega) with hc | hc
    · omega
    · omega
  · right
    refine ⟨hhigh.1, ?_⟩
    by_contra hgt
    rcases h (2 ^ 64) (by omega) (by omega) with hc | hc
    · omega
    · omega

theorem roundUp_eq (h : len ≤ 2 ^ 63) : roundUp len = (len + 4095) / 4096 * 4096 := by
  unfold roundUp usizeMul usizeSub usizeAdd
  omega

/-- In such a range the masks take nothing away that differs between its addresses. -/
theorem InHalf.mask (h : InHalf start len) {i : Nat} (hi : i < len) :
    (start + i) % 2 ^ 39 = start % 2 ^ 39 + i := by
  rcases h with h | h | h
  · omega
  · omega
  · omega

/-- The masked end of such a range; at the very end of the address space it wraps around to 0, and the
range is reversed. -/
theorem InHalf.mask_end (h : InHalf start len) (hstart : start % 4096 = 0)
    (hle : start % 2 ^ 39 / 4096 ≤ ((start + roundUp len) % 2 ^ 64 % 2 ^ 39 + 4095) / 4096) :
    ((start + roundUp len) % 2 ^ 64 % 2 ^ 39 + 4095) / 4096 =
      start % 2 ^ 39 / 4096 + (len + 4095) / 4096 := by
  have hlen : len ≤ 2 ^ 38 := by
    rcases h with h | h | h
    · omega
    · omega
    · omega
  have hround : roundUp len = (len + 4095) / 4096 * 4096 := roundUp_eq (by omega)
  rw [hround] at hle ⊢
  generalize hn : (len + 4095) / 4096 = n at hle ⊢
  rcases h with h | h | h
  · omega
  · omega
  · omega

/-- The masked pages are the pages of the range. -/
theorem mem_pagesBetween_iff (hstart : start % 4096 = 0) (hhalf : InHalf start len)
    (hle : (VirtAddr.ofUsize start).floor ≤ (VirtAddr.ofUsize (usizeAdd start (roundUp len))).ceil)
    {v : Nat} : v ∈ pagesBetween (VirtAddr.ofUsize start) (VirtAddr.ofUsize (usizeAdd start (roundUp len))) ↔
      ∃ a, start ≤ a ∧ a < start + len ∧ pageOf a = v := by
  have hfloor : (VirtAddr.ofUsize start).floor = start % 2 ^ 39 / 4096 := rfl
  have hceil : (VirtAddr.ofUsize (usizeAdd start (roundUp len))).ceil =
      ((start + roundUp len) % 2 ^ 64 % 2 ^ 39 + 4095) / 4096 := VirtAddr.ceil_eq _
  have hpage : ∀ i, i < len → pageOf (start + i) = (start % 2 ^ 39 + i) / 4096 := by
    intro i hi
    rw [← hhalf.mask hi]
    rfl
  rw [hfloor, hceil] at hle
  rw [pagesBetween, List.mem_range'_1, hfloor, hceil, hhalf.mask_end hstart hle]
  have hbase : start % 2 ^ 39 % 4096 = 0 := by omega
  generalize start % 2 ^ 39 = b at hpage hbase ⊢
  constructor
  · rintro ⟨hlv, hvr⟩
    have hi : (v - b / 4096) * 4096 < len := by omega
    refine ⟨start + (v - b / 4096) * 4096, by omega, by omega, ?_⟩
    rw [hpage _ hi]
    omega
  · rintro ⟨a, ha, hlt, rfl⟩
    obtain ⟨i, rfl⟩ := Nat.exists_eq_add_of_le ha
    rw [hpage i (by omega)]
    omega

/-- **When a success maps the range.** A `sys_mmap` that returns 0 has mapped the whole range that was
asked for exactly if the range is empty or lies in one of the halves of the address space. -/
theorem sysMmap_maps_iff (h : UserSpace L rest s ms)
    (hrun : (sysMmap ms start len prot).run s = some ((0, ms'), s')) :
    MapsRange s s' ms ms' start len prot ↔ InHalf start len := by
  obtain ⟨hstart, hpos, hlt, hle, hadded⟩ := sysMmap_added h.good.1 hrun
  refine ⟨fun hm => inHalf_of_canonical hm.valid, fun hhalf => ?_⟩
  have hpages := fun v => mem_pagesBetween_iff (v := v) hstart hhalf hle
  refine ⟨hstart, ⟨hpos, hlt⟩, ?_, ?_, ?_, ?_⟩
  · intro a ha halt
    unfold Canonical
    rcases hhalf with rfl | hh | hh
    · omega
    · omega
    · omega
  · intro a ha halt
    exact hadded.before _ ((hpages _).mpr ⟨a, ha, halt, rfl⟩)
  · intro a ha halt
    exact hadded.after _ ((hpages _).mpr ⟨a, ha, halt, rfl⟩)
  · intro v hv hout
    apply hadded.others v hv
    intro hmem
    obtain ⟨a, ha, halt, hva⟩ := (hpages v).mp hmem
    exact hout a ha halt hva

theorem sysMmap_maps_page : ∃ s ms ms' s', UserSpace smallKernel [] s ms ∧
    (sysMmap ms 0x100000 0x1000 3).run s = some ((0, ms'), s') ∧
    MapsRange s s' ms ms' 0x100000 0x1000 3 := by
  obtain ⟨⟨ms, sp, entry⟩, s, hrun, h⟩ := fromElf_ok (s := freshPhys) (held_init smallKernel)
    [] (by decide) (100 + 100) (by decide)
  have hu : UserSpace smallKernel [] s ms := .fromElf (held_init smallKernel) hrun
  obtain ⟨⟨r, ms'⟩, s', hrun', hr, _⟩ := h.sysMmap_ok 0x100000 0x1000 3 (l := 0x100) (r := 0x101)
    (n := 1) (by decide) (by decide) (by decide) (by decide) (by decide) (by decide) (by decide)
    (by decide) (by decide)
  simp only at hr
  subst hr
  exact ⟨s, ms, ms', s', hu, hrun', (sysMmap_maps_iff hu hrun').mpr (Or.inr (Or.inl (by decide)))⟩

/-- The length is rounded up to 0: a `sys_mmap` of `usize::MAX` bytes returns 0 and maps nothing. -/
theorem sysMmap_of_max_length : ∃ s ms ms' s', UserSpace smallKernel [] s ms ∧
    (sysMmap ms 0x100000 (2 ^ 64 - 1) 3).run s = some ((0, ms'), s') ∧
    ms'.translate s'.mem 0x100 = none ∧ ¬ MapsRange s s' ms ms' 0x100000 (2 ^ 64 - 1) 3 := by
  obtain ⟨⟨ms, sp, entry⟩, s, hrun, h⟩ := fromElf_ok (s := freshPhys) (held_init smallKernel)
    [] (by decide) (100 + 100) (by decide)
  have hu : UserSpace smallKernel [] s ms := .fromElf (held_init smallKernel) hrun
  obtain ⟨⟨r, ms'⟩, s', hrun', hr, h'⟩ := h.sysMmap_ok 0x100000 (2 ^ 64 - 1) 3 (l := 0x100) (r := 0x100)
    (n := 0) (by decide) (by decide) (by decide) (by decide) (by decide) (by decide) (by decide)
    (by decide) (by decide)
  simp only at hr h'
  subst hr
  have hfr := (hu.mmap hrun').good.2
  refine ⟨s, ms, ms', s', hu, hrun', ?_, fun hm => ?_⟩
  · rw [h'.whole.good.translate_none_iff (by decide), hfr.keys, h'.whole.full.pages hfr, List.mem_cons]
    rintro (hc | hc)
    · exact absurd hc (by decide)
    · obtain ⟨area, ha, hin⟩ := List.mem_flatMap.mp hc
      have hrange : (area.vpnRange.l, area.vpnRange.r) ∈ ms'.ranges := List.mem_map.mpr ⟨area, ha, rfl⟩
      rw [h'.ranges] at hrange
      have hout : ∀ p ∈ [(0x10, 0x11), (0x12, 0x14), (trapContextVpn, trampolineVpn)] ++ [(0x100, 0x100)],
          ¬ (p.1 ≤ 0x100 ∧ 0x100 < p.2) := by decide
      exact hout _ hrange (VPNRange.mem_toList.mp hin)
  · rcases inHalf_of_canonical hm.valid with hc | hc | hc
    · omega
    · omega
    · omega

end RCore.Mm
