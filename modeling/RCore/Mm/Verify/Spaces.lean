import RCore.Mm.Verify.Fork

/-!
# The address spaces a process can build

`sys_mmap` and `sys_munmap` on a good address space, and `UserSpace`: the spaces that a process can
build from an ELF file with these calls and with `fork`, while the rest of the kernel does whatever
leaves its page table alone. `fork` works on those of them whose areas have kept all their pages, and
on no others: `sys_munmap` takes pages out of an area without changing its range, and the copy goes by
the range.
-/

namespace RCore.Mm

variable {L : Layout} {rest : List Nat} {s s' : Phys} {ms ms' : MemorySet}

/-! ## The memory system calls -/

theorem Good.translate_token (h : Good L rest s ms) {m : Mem} (v : Nat) :
    (PageTable.fromToken ms.token).translate m v = ms.translate m v :=
  h.owns.translate_token m v

theorem Good.translateVa_eq (h : Good L rest s ms) (m : Mem) (a : Nat) :
    (PageTable.fromToken ms.token).translateVa m (VirtAddr.ofUsize a) =
      (ms.translate m (VirtAddr.ofUsize a).floor).map fun e => e.ppn * 4096 + a % 4096 := by
  rw [PageTable.translateVa_eq, h.translate_token, VirtAddr.pageOffset_ofUsize]

/-- A reference to user memory points into the page of its address. -/
theorem Good.translatedRefmut_wlp (h : Good L rest s ms) (ptr : Nat) (s' : Phys) :
    (translatedRefmut ms.token ptr).wlp (fun pa s'' => s'' = s' ∧
      ∃ e, ms.translate s'.mem (VirtAddr.ofUsize ptr).floor = some e ∧ pa = e.ppn * 4096 + ptr % 4096) s' := by
  rw [translatedRefmut]
  simp only [Comp.wlp_bind, Comp.wlp_get, Comp.wlp_unwrap, h.translateVa_eq]
  intro pa hpa
  obtain ⟨e, he, rfl⟩ := Option.map_eq_some_iff.mp hpa
  exact ⟨trivial, e, he, rfl⟩

/-- **`sys_mmap`** refuses and changes nothing, fails for want of frames, or adds an area. -/
theorem sysMmap_wlp (h : Good L rest s ms) (start len prot : Nat) :
    (sysMmap ms start len prot).wlp (fun r s' =>
      (r = (-1, ms) ∧ s' = s) ∨ (r.1 = -1 ∧ s'.starved = true) ∨
      (r.1 = 0 ∧ ∃ area, area.mapType = .framed ∧ area.mapPerm = protPerm prot ∧ Fresh area ∧
        Pushed L rest s ms area s' r.2)) s := by
  rw [sysMmap]
  split
  · rw [Comp.wlp_pure]
    exact Or.inl ⟨rfl, rfl⟩
  · simp only [Comp.wlp_bind, VPNRange.wlp_new, Comp.wlp_get]
    intro hle
    split
    · rw [Comp.wlp_pure]
      exact Or.inl ⟨rfl, rfl⟩
    · simp only [MemorySet.insertFramedArea, MapArea.new, Comp.wlp_bind, VPNRange.wlp_new, Comp.wlp_pure]
      intro hle'
      refine (push_wlp h (fresh_new hle' .framed) (fun hc => absurd rfl hc)).mono ?_
      rintro ⟨r, ms'⟩ s' hr
      cases r with
      | ok =>
        simp only [Comp.wlp_pure]
        exact Or.inr (Or.inr ⟨trivial, _, rfl, rfl, fresh_new hle' .framed, hr⟩)
      | error =>
        simp only [Comp.wlp_pure]
        exact Or.inr (Or.inl ⟨trivial, hr.1⟩)

/-- **`sys_munmap`** refuses and changes nothing, or removes the pages of the range. -/
theorem sysMunmap_wlp (h : Good L rest s ms) (hfr : ms.Framed) (start len : Nat) :
    (sysMunmap ms start len).wlp (fun r s' => (r = (-1, ms) ∧ s' = s) ∨
      (r.1 = 0 ∧ Removed L rest s ms (pagesBetween (VirtAddr.ofUsize start)
        (VirtAddr.ofUsize (usizeAdd start (roundUp len)))) s' r.2)) s := by
  rw [sysMunmap]
  split
  · rw [Comp.wlp_pure]
    exact Or.inl ⟨rfl, rfl⟩
  · simp only [Comp.wlp_bind, VPNRange.wlp_new, Comp.wlp_get]
    intro hle
    split
    · rw [Comp.wlp_pure]
      exact Or.inl ⟨rfl, rfl⟩
    · rcases removeMappedFrames_run h hfr (VirtAddr.ofUsize start)
        (VirtAddr.ofUsize (usizeAdd start (roundUp len))) with ⟨_, _, s', ms', hrun, hR⟩ | ⟨_, _, hrun⟩ |
          ⟨hbad, _⟩
      · rw [Comp.wlp_of_run hrun]
        exact Or.inr ⟨rfl, hR⟩
      · rw [Comp.wlp_of_run hrun]
        exact Or.inl ⟨rfl, rfl⟩
      · exact absurd hle hbad

/-! ## User address spaces -/

/-- **The address spaces a process can have.** `rest` are the frames that others hold. -/
inductive UserSpace (L : Layout) : List Nat → Phys → MemorySet → Prop
  | fromElf {rest : List Nat} {s s' : Phys} {elf : ElfFile} {ms : MemorySet} {userSp entry : Nat}
      (hh : Held L.firstFrame s.frames rest)
      (hrun : (MemorySet.fromElf L elf).run s = some ((ms, userSp, entry), s')) : UserSpace L rest s' ms
  | mmap {rest : List Nat} {s s' : Phys} {ms ms' : MemorySet} {start len prot : Nat}
      (h : UserSpace L rest s ms) (hrun : (sysMmap ms start len prot).run s = some ((0, ms'), s')) :
      UserSpace L rest s' ms'
  | munmap {rest : List Nat} {s s' : Phys} {ms ms' : MemorySet} {start len : Nat}
      (h : UserSpace L rest s ms) (hrun : (sysMunmap ms start len).run s = some ((0, ms'), s')) :
      UserSpace L rest s' ms'
  | fork {rest : List Nat} {s s' : Phys} {ms c : MemorySet} (h : UserSpace L rest s ms)
      (hrun : (MemorySet.fromExistedUserspace L ms).run s = some (c, s')) :
      UserSpace L (ms.owned ++ rest) s' c
  /-- The program and the rest of the kernel go on. -/
  | other {rest rest' : List Nat} {s s' : Phys} {ms : MemorySet} (h : UserSpace L rest s ms)
      (hsame : SameOn ms.pageTable.frames s.mem s'.mem)
      (hh : Held L.firstFrame s'.frames (ms.owned ++ rest')) : UserSpace L rest' s' ms

theorem fromExistedUserspace_wlp (hp : Good L rest s ms) (hpf : ms.Framed) :
    (MemorySet.fromExistedUserspace L ms).wlp (fun c s' => Copying L rest s ms ms.areas s' c) s := by
  rcases fromExistedUserspace_run hp hpf with ⟨s', c, hrun, hcopy⟩ | ⟨_, hrun⟩
  · rw [Comp.wlp_of_run hrun]
    exact hcopy
  · intro a t hc
    rw [hrun] at hc
    cases hc

theorem UserSpace.good (h : UserSpace L rest s ms) : Good L rest s ms ∧ ms.Framed := by
  induction h with
  | fromElf hh hrun =>
    obtain ⟨hw, hfr, _⟩ := fromElf_wlp hh _ _ _ hrun
    exact ⟨hw.good, hfr⟩
  | mmap _ hrun ih =>
    rcases sysMmap_wlp ih.1 _ _ _ _ _ hrun with ⟨hr, _⟩ | ⟨hr, _⟩ | ⟨_, area, hframed, _, _, hP⟩
    · cases hr
    · cases hr
    · exact ⟨hP.good, hP.framed ih.2 hframed⟩
  | munmap _ hrun ih =>
    rcases sysMunmap_wlp ih.1 ih.2 _ _ _ _ hrun with ⟨hr, _⟩ | ⟨_, hR⟩
    · cases hr
    · exact ⟨hR.good, hR.framed⟩
  | fork _ hrun ih =>
    have hcopy := fromExistedUserspace_wlp ih.1 ih.2 _ _ hrun
    exact ⟨hcopy.child, hcopy.framed⟩
  | other _ hsame hh ih => exact ⟨ih.1.congr hsame hh, ih.2⟩

/-- The program stores something on one of its pages. -/
theorem UserSpace.store (h : UserSpace L rest s ms) {v a : Nat} {e : PageTableEntry} {bs : List UInt8}
    (he : ms.translate s.mem v = some e) (ha : a / 4096 = e.ppn) (hb : a % 4096 + bs.length ≤ 4096)
    (hs' : s' = { s with mem := s.mem.write a bs }) :
    UserSpace L rest s' ms ∧ ∀ w, ms.translate s'.mem w = ms.translate s.mem w := by
  obtain ⟨hgood, hfr⟩ := h.good
  obtain ⟨hgood', hkeeps⟩ := hgood.store_keeps hfr he ha hb hs'
  have hsame := hgood.same_store hfr he ha hb hs'
  exact ⟨.other h (hsame.mono (List.subset_append_left _ _)) hgood'.held, hkeeps⟩

/-- **When a copy returns.** With enough frames, `from_existed_userspace` returns exactly if every area
still holds a frame for every page of its range. -/
theorem fork_returns_iff (h : UserSpace L rest s ms) (hfree : ms.copyCost ≤ s.frames.free) :
    (∃ c s', (MemorySet.fromExistedUserspace L ms).run s = some (c, s')) ↔ ms.Full := by
  obtain ⟨hp, hpf⟩ := h.good
  rcases fromExistedUserspace_run hp hpf with ⟨s', c, hrun, hcopy⟩ | ⟨hbad, hrun⟩
  · exact iff_of_true ⟨c, s', hrun⟩ (hcopy.full hp hpf)
  · refine iff_of_false ?_ ?_
    · rintro ⟨c, s', hc⟩
      rw [hrun] at hc
      cases hc
    · rcases hbad with hbad | hbad
      · exact absurd hfree (Nat.not_le_of_lt hbad)
      · exact hbad

/-- **`c` is an exact and separate copy of `ms`.** -/
structure ExactCopy (s s' : Phys) (ms c : MemorySet) : Prop where
  flags : ∀ v, v < 2 ^ 27 → (c.translate s'.mem v).map PageTableEntry.flags =
    (ms.translate s.mem v).map PageTableEntry.flags
  bytes : ∀ v e e', v < 2 ^ 27 → ms.translate s.mem v = some e → c.translate s'.mem v = some e' →
    ∀ off, off < 4096 → s'.mem (e'.ppn * 4096 + off) = s.mem (e.ppn * 4096 + off)
  apart : ∀ v w e e', v < 2 ^ 27 → w < 2 ^ 27 → v ≠ trampolineVpn → c.translate s'.mem v = some e' →
    ms.translate s.mem w = some e → e'.ppn ≠ e.ppn
  owned : List.Disjoint c.owned ms.owned
  parent : ∀ v, ms.translate s'.mem v = ms.translate s.mem v
  contents : ∀ v e, v < 2 ^ 27 → ms.translate s.mem v = some e →
    ∀ off, off < 4096 → s'.mem (e.ppn * 4096 + off) = s.mem (e.ppn * 4096 + off)

theorem Copying.exact {c : MemorySet} (h : Copying L rest s ms ms.areas s' c) (hp : Good L rest s ms)
    (hpf : ms.Framed) : ExactCopy s s' ms c := by
  have htramp : (trampolineEntry L).ppn = L.trampolinePpn :=
    PageTableEntry.ppn_new L.trampolinePpn_lt_pow _
  have howned : List.Disjoint c.owned ms.owned := by
    have hn := h.child.held.nodup
    rw [← List.append_assoc] at hn
    exact List.disjoint_of_nodup_append hn.of_append_left
  -- the trampoline's frame and the parent's frames have not changed
  have hcontents : ∀ v e, v < 2 ^ 27 → ms.translate s.mem v = some e →
      ∀ off, off < 4096 → s'.mem (e.ppn * 4096 + off) = s.mem (e.ppn * 4096 + off) := by
    intro v e hv he off hoff
    by_cases hvt : v = trampolineVpn
    · subst hvt
      rw [hp.translate_trampoline] at he
      cases he
      rw [htramp]
      exact h.trampoline _ (List.mem_singleton.mpr rfl) _ (by omega)
    · have hin := hp.ppn_mem hpf hv hvt he
      exact h.keeps.same _ (List.mem_append_left _ (List.mem_append_right _ hin)) _ (by omega)
  refine ⟨fun v hv => h.flags hp hpf hv, ?_, ?_, howned, h.translate_eq hp, hcontents⟩
  · intro v e e' hv he he' off hoff
    by_cases hvt : v = trampolineVpn
    · have hee : e' = e := by
        subst hvt
        rw [hp.translate_trampoline] at he
        rw [h.child.translate_trampoline] at he'
        exact Option.some.inj (he'.symm.trans he)
      rw [hee]
      exact hcontents v e hv he off hoff
    · exact h.bytes v e e' hv hvt he he' off hoff
  · intro v w e e' hv hw hvt he' he hppn
    have hin : e'.ppn ∈ c.frames := h.child.ppn_mem h.framed hv hvt he'
    by_cases hwt : w = trampolineVpn
    · subst hwt
      rw [hp.translate_trampoline] at he
      cases he
      rw [hppn, htramp] at hin
      have hle := h.child.held.le_of_mem (List.mem_append_left _ (List.mem_append_right _ hin))
      have hlt := L.trampolinePpn_lt
      omega
    · have hin' := hp.ppn_mem hpf hw hwt he
      rw [hppn] at hin
      exact howned (List.mem_append_right _ hin) (List.mem_append_right _ hin')

/-! ## A space that cannot be copied -/

theorem card_pathsOf_le (vs : List Nat) : (pathsOf vs).card ≤ 2 * vs.length := by
  induction vs with
  | nil => exact Nat.le_refl 0
  | cons v vs ih =>
    have htwo : (PageTable.tablePaths v).card ≤ 2 := Finset.card_le_two
    have hunion := Finset.card_union_le (PageTable.tablePaths v) (pathsOf vs)
    rw [pathsOf, List.length_cons]
    omega

theorem length_spanOf (ms : MemorySet) :
    (spanOf ms.areas).length = (ms.ranges.map fun p => p.2 - p.1).sum := by
  rw [spanOf, List.length_flatMap, MemorySet.ranges, List.map_map]
  congr 1
  apply List.map_congr_left
  intro area _
  rw [VPNRange.toList, List.length_range']
  rfl

/-- The ranges bound what a copy takes. -/
theorem MemorySet.copyCost_le (ms : MemorySet) :
    ms.copyCost ≤ 3 + 3 * (ms.ranges.map fun p => p.2 - p.1).sum := by
  have hcard := card_pathsOf_le (trampolineVpn :: spanOf ms.areas)
  have hlen := length_spanOf ms
  rw [List.length_cons] at hcard
  unfold MemorySet.copyCost
  omega

/-- A page of a range of a full space is mapped. -/
theorem Whole.mem_pages {s₀ : Phys} (h : Whole L rest s₀ s ms) (hfr : ms.Framed) {p : Nat × Nat} {v : Nat}
    (hp : p ∈ ms.ranges) (hv : p.1 ≤ v ∧ v < p.2) : v ∈ ms.pages := by
  obtain ⟨area, ha, rfl⟩ := List.mem_map.mp hp
  rw [h.full.pages hfr, spanOf, List.mem_flatMap]
  exact ⟨area, ha, VPNRange.mem_toList.mpr hv⟩

/-- `sys_mmap` of pages outside the other ranges succeeds. -/
theorem Site.sysMmap_ok {s₀ : Phys} {ranges : List (Nat × Nat)} {free k l r n : Nat}
    (h : Site L rest s₀ s ms ranges (free + k)) (start len prot : Nat) (hstart : start % 4096 = 0)
    (hprot : prot / 8 = 0 ∧ prot % 8 ≠ 0) (hl : (VirtAddr.ofUsize start).floor = l)
    (hr : (VirtAddr.ofUsize (usizeAdd start (roundUp len))).ceil = r) (hle : l ≤ r)
    (hrt : r ≤ trampolineVpn) (hout : ∀ p ∈ ranges, r ≤ p.1 ∨ p.2 ≤ l) (hn : r - l ≤ n)
    (hk : n + 2 * (n / 512 + 2) ≤ k) :
    (sysMmap ms start len prot).wp (fun x s' => x.1 = 0 ∧
      Site L rest s₀ s' x.2 (ranges ++ [(l, r)]) free) s := by
  have hle' : (VirtAddr.ofUsize start).floor ≤
      (VirtAddr.ofUsize (usizeAdd start (roundUp len))).ceil := by rw [hl, hr]; exact hle
  have hgo : ¬ (start % 4096 ≠ 0 ∨ prot / 8 ≠ 0 ∨ prot % 8 = 0) := by omega
  have hnone : ¬ ((VPNRange.toList ⟨_, _, hle'⟩).any fun vpn =>
      ((PageTable.fromToken ms.token).translate s.mem vpn).isSome) = true := by
    rw [List.any_eq_true]
    rintro ⟨v, hv, hsome⟩
    have hin : l ≤ v ∧ v < r := by
      rw [← hl, ← hr]
      exact VPNRange.mem_toList.mp hv
    rw [h.whole.good.translate_token, h.whole.good.unmapped (by omega)] at hsome
    · cases hsome
    · intro p hp
      rw [h.ranges] at hp
      have := hout p hp
      omega
  rw [sysMmap, if_neg hgo]
  simp only [Comp.wp_bind, VPNRange.wp_new, Comp.wp_get]
  refine ⟨hle', ?_⟩
  rw [if_neg hnone]
  simp only [MemorySet.insertFramedArea, MapArea.new, Comp.wp_bind, VPNRange.wp_new, Comp.wp_pure]
  refine ⟨hle', (h.pushArea_ok .framed (protPerm prot) hl hr hrt hout hn hk hle').mono ?_⟩
  rintro ⟨x, ms'⟩ s' ⟨hok, hs⟩
  simp only at hok hs
  subst hok
  simp only [Comp.wp_pure]
  exact ⟨trivial, hs⟩

theorem removeFrame_vpnRange (area : MapArea) (vpn : Nat) (s : Phys) :
    (area.removeFrame vpn).wlp (fun area' _ => area'.vpnRange = area.vpnRange) s := by
  rw [MapArea.removeFrame]
  cases area.dataFrames.lookup vpn with
  | none => simp only [Comp.wlp_pure]
  | some f =>
    simp only [Comp.wlp_bind, Comp.wlp_pure]
    intro _ _ _
    trivial

theorem unmapOne_vpnRange (area : MapArea) (pt : PageTable) (vpn : Nat) (s : Phys) :
    (area.unmapOne pt vpn).wlp (fun area' _ => area'.vpnRange = area.vpnRange) s := by
  rw [MapArea.unmapOne]
  split
  · simp only [Comp.wlp_bind, Comp.wlp_pure]
    exact (removeFrame_vpnRange area vpn s).mono fun area' s' hr _ _ _ => hr
  · simp only [Comp.wlp_bind, Comp.wlp_pure]
    intro _ _ _
    trivial

/-- Removing pages changes no range; it only drops those of the areas that have become empty. -/
theorem removeFramesLoop_ranges (ms : MemorySet) (vpns : List Nat) (s : Phys) :
    (ms.removeFramesLoop vpns).wlp (fun ms' _ => ms'.ranges.Sublist ms.ranges) s := by
  induction vpns generalizing ms s with
  | nil =>
    rw [MemorySet.removeFramesLoop, Comp.wlp_pure]
  | cons v vpns ih =>
    rw [MemorySet.removeFramesLoop]
    simp only [Comp.wlp_bind, Comp.wlp_unwrap]
    intro i _ area hget
    refine (unmapOne_vpnRange area ms.pageTable v s).mono fun area₁ s₁ h₁ => ?_
    refine (removeFrame_vpnRange area₁ v s₁).mono fun area₂ s₂ h₂ => ?_
    refine (ih _ s₂).mono fun ms' _ hsub => hsub.trans ?_
    rw [MemorySet.ranges, MemorySet.ranges]
    split
    · exact (List.eraseIdx_sublist ms.areas i).map _
    · have hsame : (ms.areas.set i area₂).map (fun a => (a.vpnRange.l, a.vpnRange.r)) =
          ms.areas.map fun a => (a.vpnRange.l, a.vpnRange.r) := by
        obtain ⟨hi, harea⟩ := List.getElem?_eq_some_iff.mp hget
        have hi' : i < (ms.areas.map fun a => (a.vpnRange.l, a.vpnRange.r)).length := by
          rw [List.length_map]
          exact hi
        have hget' : (area.vpnRange.l, area.vpnRange.r) =
            (ms.areas.map fun a => (a.vpnRange.l, a.vpnRange.r))[i] := by
          rw [List.getElem_map, harea]
        rw [List.map_set, h₂, h₁, hget', List.set_getElem_self]
      rw [hsame]

/-- `sys_munmap` of pages that are mapped succeeds. -/
theorem sysMunmap_ok (h : Good L rest s ms) (hfr : ms.Framed) (start len : Nat)
    (hstart : start % 4096 = 0)
    (hle : (VirtAddr.ofUsize start).floor ≤ (VirtAddr.ofUsize (usizeAdd start (roundUp len))).ceil)
    (hpages : ∀ v ∈ pagesBetween (VirtAddr.ofUsize start) (VirtAddr.ofUsize (usizeAdd start (roundUp len))),
      v ∈ ms.pages) :
    (sysMunmap ms start len).wp (fun r s' => r.1 = 0 ∧ r.2.ranges.Sublist ms.ranges ∧
      Removed L rest s ms (pagesBetween (VirtAddr.ofUsize start)
        (VirtAddr.ofUsize (usizeAdd start (roundUp len)))) s' r.2) s := by
  have hmapped : ¬ ((VPNRange.toList ⟨_, _, hle⟩).any fun vpn =>
      ((PageTable.fromToken ms.token).translate s.mem vpn).isNone) = true := by
    rw [List.any_eq_true]
    rintro ⟨v, hv, hnone⟩
    have hmem : v ∈ (ms.entries L).map Prod.fst := by
      rw [hfr.keys]
      exact List.mem_cons_of_mem _ (hpages v hv)
    rw [h.translate_token, Option.isNone_iff_eq_none, h.translate_none_iff (h.lt_of_key hmem)] at hnone
    exact hnone hmem
  rw [sysMunmap, if_neg (not_not.mpr hstart)]
  simp only [Comp.wp_bind, VPNRange.wp_new, Comp.wp_get]
  refine ⟨hle, ?_⟩
  rw [if_neg hmapped]
  rcases removeMappedFrames_run h hfr (VirtAddr.ofUsize start)
    (VirtAddr.ofUsize (usizeAdd start (roundUp len))) with ⟨_, _, s', ms', hrun, hR⟩ | ⟨_, hout, _⟩ | ⟨hbad, _⟩
  · refine ⟨_, _, hrun, rfl, ?_, hR⟩
    have hranges : (ms.removeMappedFrames (VirtAddr.ofUsize start)
        (VirtAddr.ofUsize (usizeAdd start (roundUp len)))).wlp
          (fun r _ => r.2.ranges.Sublist ms.ranges) s := by
      rw [MemorySet.removeMappedFrames]
      simp only [Comp.wlp_bind, VPNRange.wlp_new]
      intro _
      split
      · rw [Comp.wlp_pure]
      · simp only [Comp.wlp_bind, Comp.wlp_pure]
        exact removeFramesLoop_ranges ms _ s
    exact hranges _ _ hrun
  · obtain ⟨v, hv, hno⟩ := hout
    exact absurd (hpages v hv) hno
  · exact absurd hle hbad

theorem Good.mem_pages (h : Good L rest s ms) (hfr : ms.Framed) {v : Nat} :
    v ∈ ms.pages ↔ v ∈ (ms.entries L).map Prod.fst ∧ v ≠ trampolineVpn := by
  have hn := h.nodup_pages hfr
  rw [List.nodup_cons] at hn
  rw [hfr.keys, List.mem_cons]
  constructor
  · intro hv
    exact ⟨Or.inr hv, fun hc => hn.1 (hc ▸ hv)⟩
  · rintro ⟨rfl | hv, hne⟩
    · exact absurd rfl hne
    · exact hv

theorem Removed.mem_pages {vpns : List Nat} (hR : Removed L rest s ms vpns s' ms') (h : Good L rest s ms)
    (hfr : ms.Framed) {v : Nat} : v ∈ ms'.pages ↔ v ∈ ms.pages ∧ v ∉ vpns := by
  have hkeys : v ∈ (ms'.entries L).map Prod.fst ↔ v ∈ (ms.entries L).map Prod.fst ∧ v ∉ vpns := by
    simp only [List.mem_map, Prod.exists, exists_and_right, exists_eq_right, hR.entries]
  rw [hR.good.mem_pages hR.framed, h.mem_pages hfr, hkeys]
  exact and_right_comm

/-- A range that has lost a page but not all. -/
theorem Removed.not_full {vpns : List Nat} (hR : Removed L rest s ms vpns s' ms') (h : Good L rest s ms)
    (hfr : ms.Framed) (hsub : ms'.ranges.Sublist ms.ranges) {v w : Nat} (hv : v ∈ vpns)
    (hw : w ∈ ms.pages ∧ w ∉ vpns)
    (hsame : ∀ p ∈ ms.ranges, p.1 ≤ w ∧ w < p.2 → p.1 ≤ v ∧ v < p.2) : ¬ ms'.Full := by
  intro hfull
  have hmem : w ∈ spanOf ms'.areas := by
    rw [← hfull.pages hR.framed]
    exact (hR.mem_pages h hfr).mpr hw
  obtain ⟨area, ha, hin⟩ := List.mem_flatMap.mp hmem
  have hrange : (area.vpnRange.l, area.vpnRange.r) ∈ ms.ranges :=
    hsub.subset (List.mem_map.mpr ⟨area, ha, rfl⟩)
  have hgone : v ∈ ms'.pages := by
    rw [hfull.pages hR.framed]
    exact List.mem_flatMap.mpr
      ⟨area, ha, VPNRange.mem_toList.mpr (hsame _ hrange (VPNRange.mem_toList.mp hin))⟩
  exact ((hR.mem_pages h hfr).mp hgone).2 hv

/-- A kernel that leaves four megabytes free. -/
def smallKernel : Layout where
  strampoline := 0x80201000
  etext := 0x80220000
  erodata := 0x80230000
  edata := 0x80240000
  ekernel := 0x80400000
  aligned := by decide
  ordered := by decide
  fits := by decide

/-- The state that `init_frame_allocator` leaves. -/
def freshPhys : Phys := ⟨fun _ => 0, ⟨smallKernel.firstFrame, memoryEnd / 4096, []⟩, false⟩

/-- A space with a hole cannot be copied: two pages are mapped and the first of them is unmapped. -/
theorem fork_of_hole_panics : ∃ r₁ s₁ ms₂ s₂ ms₃ s₃,
    (MemorySet.fromElf smallKernel (onePage [])).run freshPhys = some (r₁, s₁) ∧
    (sysMmap r₁.1 0x100000 0x2000 3).run s₁ = some ((0, ms₂), s₂) ∧
    (sysMunmap ms₂ 0x100000 0x1000).run s₂ = some ((0, ms₃), s₃) ∧
    ms₃.copyCost ≤ s₃.frames.free ∧ (MemorySet.fromExistedUserspace smallKernel ms₃).run s₃ = none := by
  obtain ⟨⟨ms₁, sp, entry⟩, s₁, hrun₁, h₁⟩ := fromElf_ok (s := freshPhys) (held_init smallKernel)
    [] (by decide) (100 + 100) (by decide)
  have hu₁ : UserSpace smallKernel [] s₁ ms₁ := .fromElf (held_init smallKernel) hrun₁
  obtain ⟨⟨r₂, ms₂⟩, s₂, hrun₂, hr₂, h₂⟩ := h₁.sysMmap_ok 0x100000 0x2000 3
    (l := 0x100) (r := 0x102) (n := 2) (by decide) (by decide) (by decide) (by decide) (by decide)
    (by decide) (by decide) (by decide) (by decide)
  simp only at hr₂ h₂
  subst hr₂
  have hu₂ : UserSpace smallKernel [] s₂ ms₂ := hu₁.mmap hrun₂
  obtain ⟨hg₂, hfr₂⟩ := hu₂.good
  have hin : ∀ v ∈ pagesBetween (VirtAddr.ofUsize 0x100000)
      (VirtAddr.ofUsize (usizeAdd 0x100000 (roundUp 0x1000))), v = 0x100 := by decide
  have hpages : ∀ v, 0x100 ≤ v ∧ v < 0x102 → v ∈ ms₂.pages := by
    intro v hv
    exact h₂.whole.mem_pages hfr₂ (p := (0x100, 0x102)) (by rw [h₂.ranges]; decide) hv
  obtain ⟨⟨r₃, ms₃⟩, s₃, hrun₃, hr₃, hsub, hR⟩ := sysMunmap_ok hg₂ hfr₂ 0x100000
    0x1000 (by decide) (by decide) (fun v hv => hpages v (by rw [hin v hv]; decide))
  simp only at hr₃ hsub hR
  subst hr₃
  refine ⟨_, s₁, ms₂, s₂, ms₃, s₃, hrun₁, hrun₂, hrun₃, ?_, ?_⟩
  · have hcost := ms₃.copyCost_le
    have hsum := (hsub.map fun p => p.2 - p.1).sum_le_sum fun _ _ => Nat.zero_le _
    rw [h₂.ranges] at hsum
    have hsix : (List.map (fun p : Nat × Nat => p.2 - p.1) ([(0x10, 0x11), (0x12, 0x14),
      (trapContextVpn, trampolineVpn)] ++ [(0x100, 0x102)])).sum = 6 := by decide
    have hfree₂ := h₂.free
    have hfree₃ := hR.free
    omega
  · have hnot : ¬ ms₃.Full := by
      apply hR.not_full hg₂ hfr₂ hsub (v := 0x100) (w := 0x101) (by decide)
        ⟨hpages 0x101 (by decide), by decide⟩
      rw [h₂.ranges]
      decide
    rcases fromExistedUserspace_run hR.good hR.framed with ⟨_, _, _, hcopy⟩ | ⟨_, hrun⟩
    · exact absurd (hcopy.full hR.good hR.framed) hnot
    · exact hrun

/-- The space of a program as it is loaded can be copied. -/
theorem fork_returns_loaded : ∃ s ms, UserSpace smallKernel [] s ms ∧ ms.copyCost ≤ s.frames.free ∧
    ∃ c s', (MemorySet.fromExistedUserspace smallKernel ms).run s = some (c, s') := by
  obtain ⟨⟨ms, sp, entry⟩, s, hrun, h⟩ := fromElf_ok (s := freshPhys) (held_init smallKernel)
    [] (by decide) 100 (by decide)
  simp only at h
  have hu : UserSpace smallKernel [] s ms := .fromElf (held_init smallKernel) hrun
  have hcost : ms.copyCost ≤ s.frames.free := by
    have hle := ms.copyCost_le
    have hfree := h.free
    rw [h.ranges] at hle
    have hfour : (List.map (fun p : Nat × Nat => p.2 - p.1) [(0x10, 0x11), (0x12, 0x14),
      (trapContextVpn, trampolineVpn)]).sum = 4 := by decide
    omega
  exact ⟨s, ms, hu, hcost, (fork_returns_iff hu hcost).mpr h.whole.full⟩

end RCore.Mm
