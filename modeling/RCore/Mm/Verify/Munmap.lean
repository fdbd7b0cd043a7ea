import RCore.Mm.Verify.Estate
import RCore.Mm.Verify.Mmap

/-!
# The memory system calls over every range

Both calls mask the two ends of their range separately. As long as the masked start and the masked
length do not reach the end of the 39-bit space together, the range is not reversed, and then neither
call panics: the checks in front of `insert_framed_area` and `remove_mapped_frames` refuse what these
would panic on. `sys_munmap` undoes a `sys_mmap` in any pieces and in any order.
-/

namespace RCore.Mm

variable {L : Layout} {rest : List Nat} {s s' : Phys} {ms ms' : MemorySet} {start len prot : Nat}

/-! ## Ranges that are not reversed -/

/-- The pages of a memory system call. -/
def callPages (start len : Nat) : List Nat :=
  pagesBetween (VirtAddr.ofUsize start) (VirtAddr.ofUsize (usizeAdd start (roundUp len)))

/-- The 39 low bits of the start and of the rounded length do not reach the end of the space. -/
def FitsMask (start len : Nat) : Prop := start % 2 ^ 39 + roundUp len % 2 ^ 39 < 2 ^ 39

instance : Decidable (FitsMask start len) := inferInstanceAs (Decidable (_ < _))

theorem roundUp_mod (len : Nat) : roundUp len % 4096 = 0 := by
  unfold roundUp usizeMul
  omega

theorem callPages_eq (start len : Nat) : callPages start len = List.range' (start % 2 ^ 39 / 4096)
    (((start + roundUp len) % 2 ^ 64 % 2 ^ 39 + 4095) / 4096 - start % 2 ^ 39 / 4096) := by
  rw [callPages, pagesBetween, VirtAddr.ceil_eq]
  rfl

/-- The range is reversed exactly if it reaches the end. -/
theorem fitsMask_iff (hstart : start % 4096 = 0) : FitsMask start len ↔
    (VirtAddr.ofUsize start).floor ≤ (VirtAddr.ofUsize (usizeAdd start (roundUp len))).ceil := by
  have hfloor : (VirtAddr.ofUsize start).floor = start % 2 ^ 39 / 4096 := rfl
  have hceil : (VirtAddr.ofUsize (usizeAdd start (roundUp len))).ceil =
      ((start + roundUp len) % 2 ^ 64 % 2 ^ 39 + 4095) / 4096 := VirtAddr.ceil_eq _
  have hround := roundUp_mod len
  rw [hfloor, hceil, FitsMask]
  omega

/-- Whenever there is a frame for the next page of the range, there are frames for its tables. -/
def TablesFit (s : Phys) (ms : MemorySet) (vs : List Nat) : Prop :=
  ∀ vs₁ v vs₂, vs = vs₁ ++ v :: vs₂ →
    vs₁.length + ms.pageTable.missing s.mem (pathsOf vs₁) < s.frames.free →
      vs₁.length + 1 + ms.pageTable.missing s.mem (pathsOf (vs₁ ++ [v])) ≤ s.frames.free

/-- A push of unmapped pages that does not run out of frames for tables returns. -/
theorem push_returns {area : MapArea} (h : Good L rest s ms) (hf : Fresh area) (htype : area.mapType = .framed)
    (hfit : TablesFit s ms area.vpnRange.toList) (hnone : ∀ v ∈ area.vpnRange.toList, ms.translate s.mem v = none) :
    ∃ r, (ms.push area none).run s = some r := by
  have hcost : area.cost = 1 := by rw [MapArea.cost, htype]
  rcases map_fresh_run h.owns hf with ⟨es, s', pt', _, hrun, _, _⟩ |
    ⟨vs₁, v, vs₂, es, s', pt', _, _, _, hM, _, hrun⟩ | ⟨vs₁, v, vs₂, hvs, _, _, hlt, hbad, _⟩
  · exact ⟨_, push_run_none hrun⟩
  · -- the area is dropped with the frames of the pages before
    have hheld : Held L.firstFrame ({ s' with starved := true } : Phys).frames
        ((area.extend es).frames ++ (pt'.frames ++ (ms.frames ++ rest))) :=
      hM.owns.held.perm (List.perm_append_comm_assoc _ _ _)
    obtain ⟨s'', hdrop, _⟩ := dropFrames_run hheld
    rw [MapArea.frames] at hdrop
    refine ⟨((.error "No enough physical space", { ms with pageTable := pt' }), s''), ?_⟩
    rw [MemorySet.push, Comp.run_bind, hrun, Option.bind_some]
    simp only [Comp.run_bind, MapArea.drop]
    rw [hdrop]
    rfl
  · have hroom := hlt htype
    unfold MapArea.need at hroom hbad
    rw [hcost, Nat.one_mul] at hroom hbad
    rcases hbad with hbad | hbad
    · have hle := hfit vs₁ v vs₂ hvs hroom
      rw [List.length_append, List.length_singleton] at hbad
      omega
    · refine absurd (hnone v ?_) hbad
      rw [hvs]
      exact List.mem_append_right _ List.mem_cons_self

theorem sysMmap_returns_iff (h : Good L rest s ms) (hfit : TablesFit s ms (callPages start len)) :
    (∃ r, (sysMmap ms start len prot).run s = some r) ↔
      start % 4096 ≠ 0 ∨ prot / 8 ≠ 0 ∨ prot % 8 = 0 ∨ FitsMask start len := by
  by_cases hargs : start % 4096 ≠ 0 ∨ prot / 8 ≠ 0 ∨ prot % 8 = 0
  · refine iff_of_true ⟨((-1, ms), s), ?_⟩ (by tauto)
    rw [sysMmap, if_pos hargs]
    rfl
  have hstart : start % 4096 = 0 := by omega
  have hiff : (start % 4096 ≠ 0 ∨ prot / 8 ≠ 0 ∨ prot % 8 = 0 ∨ FitsMask start len) ↔ FitsMask start len := by
    tauto
  rw [hiff, fitsMask_iff hstart, sysMmap, if_neg hargs]
  by_cases hle : (VirtAddr.ofUsize start).floor ≤ (VirtAddr.ofUsize (usizeAdd start (roundUp len))).ceil
  · refine iff_of_true ?_ hle
    rw [Comp.run_bind, VPNRange.new_run hle, Option.bind_some, Comp.run_bind, Comp.run_get, Option.bind_some]
    by_cases hany : ((VPNRange.toList ⟨_, _, hle⟩).any fun vpn =>
        ((PageTable.fromToken ms.token).translate s.mem vpn).isSome) = true
    · rw [if_pos hany]
      exact ⟨_, rfl⟩
    · rw [if_neg hany, Comp.run_bind, insertFramedArea_run hle]
      have hnone : ∀ v ∈ VPNRange.toList ⟨_, _, hle⟩, ms.translate s.mem v = none := by
        intro v hv
        rw [← h.translate_token, Option.eq_none_iff_forall_not_mem]
        intro e he
        refine hany (List.any_eq_true.mpr ⟨v, hv, ?_⟩)
        rw [Option.mem_def.mp he]
        rfl
      have hfresh : Fresh ⟨⟨_, _, hle⟩, [], .framed, protPerm prot⟩ := fresh_new hle .framed
      obtain ⟨⟨⟨r, ms'⟩, s'⟩, hrun⟩ := push_returns h hfresh rfl hfit hnone
      rw [hrun, Option.bind_some]
      cases r with
      | ok => exact ⟨_, rfl⟩
      | error => exact ⟨_, rfl⟩
  · refine iff_of_false ?_ hle
    rintro ⟨r, hrun⟩
    rw [Comp.run_bind, VPNRange.new_reversed hle] at hrun
    cases hrun

theorem sysMunmap_returns_iff (h : Good L rest s ms) (hfr : ms.Framed) :
    (∃ r, (sysMunmap ms start len).run s = some r) ↔ start % 4096 ≠ 0 ∨ FitsMask start len := by
  by_cases hstart : start % 4096 = 0
  · have hiff : (start % 4096 ≠ 0 ∨ FitsMask start len) ↔ FitsMask start len := by tauto
    rw [hiff, fitsMask_iff hstart, sysMunmap, if_neg (not_not.mpr hstart)]
    by_cases hle : (VirtAddr.ofUsize start).floor ≤ (VirtAddr.ofUsize (usizeAdd start (roundUp len))).ceil
    · refine iff_of_true ?_ hle
      rw [Comp.run_bind, VPNRange.new_run hle, Option.bind_some, Comp.run_bind, Comp.run_get, Option.bind_some]
      split
      · exact ⟨_, rfl⟩
      · rcases removeMappedFrames_run h hfr (VirtAddr.ofUsize start)
          (VirtAddr.ofUsize (usizeAdd start (roundUp len))) with ⟨_, _, s', ms', hrun, _⟩ | ⟨_, _, hrun⟩ |
            ⟨hbad, _⟩
        · exact ⟨_, hrun⟩
        · exact ⟨_, hrun⟩
        · exact absurd hle hbad
    · refine iff_of_false ?_ hle
      rintro ⟨r, hrun⟩
      rw [Comp.run_bind, VPNRange.new_reversed hle] at hrun
      cases hrun
  · refine iff_of_true ⟨((-1, ms), s), ?_⟩ (Or.inl hstart)
    rw [sysMunmap, if_pos hstart]
    rfl

/-- **When the memory system calls return.** They panic exactly on arguments that they do not refuse and
whose masked range is reversed. -/
theorem memory_calls_return_iff (h : UserSpace L rest s ms) (hfit : TablesFit s ms (callPages start len)) :
    ((∃ r, (sysMmap ms start len prot).run s = some r) ↔
      start % 4096 ≠ 0 ∨ prot / 8 ≠ 0 ∨ prot % 8 = 0 ∨ FitsMask start len) ∧
    ((∃ r, (sysMunmap ms start len).run s = some r) ↔ start % 4096 ≠ 0 ∨ FitsMask start len) :=
  ⟨sysMmap_returns_iff h.good.1 hfit, sysMunmap_returns_iff h.good.1 h.good.2⟩

theorem tablesFit_of_free {vs : List Nat} (hfree : 3 * vs.length ≤ s.frames.free) : TablesFit s ms vs := by
  intro vs₁ v vs₂ hvs _
  have hmiss : ms.pageTable.missing s.mem (pathsOf (vs₁ ++ [v])) ≤ 2 * (vs₁.length + 1) :=
    (Finset.card_filter_le _ _).trans ((card_pathsOf_le _).trans (by simp))
  have hlen := congrArg List.length hvs
  rw [List.length_append, List.length_cons] at hlen
  omega

/-- A program that has just been loaded, and frames to go on with. -/
theorem exists_loaded : ∃ s ms, UserSpace smallKernel [] s ms ∧ Site smallKernel [] freshPhys s ms
    [(0x10, 0x11), (0x12, 0x14), (trapContextVpn, trampolineVpn)] 200 := by
  obtain ⟨⟨ms, sp, entry⟩, s, hrun, h⟩ := fromElf_ok (s := freshPhys) (held_init smallKernel)
    [] (by decide) 200 (by decide)
  exact ⟨s, ms, .fromElf (held_init smallKernel) hrun, h⟩

theorem memory_calls_return_page : ∃ s ms, UserSpace smallKernel [] s ms ∧
    (∃ r, (sysMmap ms 0x100000 0x1000 3).run s = some r) ∧ ∃ r, (sysMunmap ms 0x100000 0x1000).run s = some r := by
  obtain ⟨s, ms, hu, h⟩ := exists_loaded
  have hfit : TablesFit s ms (callPages 0x100000 0x1000) :=
    tablesFit_of_free (Nat.le_trans (by decide) h.free)
  have hiff := @memory_calls_return_iff _ _ s ms 0x100000 0x1000 3 hu hfit
  exact ⟨s, ms, hu, hiff.1.mpr (by decide), hiff.2.mpr (by decide)⟩

/-- The range ends with the 39-bit space: its masked end is 0. -/
theorem memory_calls_panic_at_end : ∃ s ms, UserSpace smallKernel [] s ms ∧
    TablesFit s ms (callPages 0x100000 (2 ^ 39 - 0x100000)) ∧
    (sysMmap ms 0x100000 (2 ^ 39 - 0x100000) 3).run s = none ∧
    (sysMunmap ms 0x100000 (2 ^ 39 - 0x100000)).run s = none := by
  obtain ⟨s, ms, hu, h⟩ := exists_loaded
  have hle : ¬ (VirtAddr.ofUsize 0x100000).floor ≤
      (VirtAddr.ofUsize (usizeAdd 0x100000 (roundUp (2 ^ 39 - 0x100000)))).ceil := by decide
  refine ⟨s, ms, hu, tablesFit_of_free (Nat.le_trans (by decide) h.free), ?_, ?_⟩
  · rw [sysMmap, if_neg (by decide), Comp.run_bind, VPNRange.new_reversed hle]
    rfl
  · rw [sysMunmap, if_neg (by decide), Comp.run_bind, VPNRange.new_reversed hle]
    rfl

/-! ## Unmapping -/

theorem Good.mem_pages_iff (h : Good L rest s ms) (hfr : ms.Framed) {v : Nat} (hv : v < 2 ^ 27) :
    v ∈ ms.pages ↔ ms.translate s.mem v ≠ none ∧ v ≠ trampolineVpn := by
  have hmem : v ∈ (ms.entries L).map Prod.fst ↔ ms.translate s.mem v ≠ none := by
    rw [Ne, h.translate_none_iff hv, not_not]
  rw [h.mem_pages hfr, hmem]

theorem removeFramesLoop_recycled (h : Good L rest s ms) (hfr : ms.Framed) {vpns : List Nat}
    (hn : vpns.Nodup) (hv : ∀ v ∈ vpns, v ∈ ms.pages) :
    (ms.removeFramesLoop vpns).wlp (fun _ s' => s.frames.recycled ⊆ s'.frames.recycled ∧
      ∀ v ∈ vpns, ∀ e, ms.translate s.mem v = some e → e.ppn ∈ s'.frames.recycled) s := by
  induction vpns generalizing s ms with
  | nil =>
    rw [MemorySet.removeFramesLoop, Comp.wlp_pure]
    exact ⟨List.Subset.refl _, fun v hv => absurd hv List.not_mem_nil⟩
  | cons v vpns ih =>
    rw [List.nodup_cons] at hn
    obtain ⟨s₁, ms₁, hR, hrec, hback, hloop⟩ := removeFramesLoop_round h hfr (hv v List.mem_cons_self)
    intro ms' s' hrun
    rw [hloop] at hrun
    have hout : ∀ w ∈ vpns, w ∉ [v] := by
      intro w hw hc
      rw [List.mem_singleton] at hc
      exact hn.1 (hc ▸ hw)
    obtain ⟨hrec', hback'⟩ := ih hR.good hR.framed hn.2 (fun w hw =>
      (hR.mem_pages h hfr).mpr ⟨hv w (List.mem_cons_of_mem _ hw), hout w hw⟩) ms' s' hrun
    refine ⟨List.Subset.trans hrec hrec', fun w hw e he => ?_⟩
    rcases List.mem_cons.mp hw with rfl | hw
    · exact hrec' (hback e he)
    · have hlt := h.lt_of_key ((h.mem_pages hfr).mp (hv w (List.mem_cons_of_mem _ hw))).1
      exact hback' w hw e (hR.translate h hlt (hout w hw) he)

/-- The pages are unmapped, no other page has changed, and the frames of the pages are free. -/
structure Freed (s s' : Phys) (ms ms' : MemorySet) (pages : List Nat) : Prop where
  translate : ∀ v, v < 2 ^ 27 → ms'.translate s'.mem v = if v ∈ pages then none else ms.translate s.mem v
  recycled : s.frames.recycled ⊆ s'.frames.recycled
  frames : ∀ v ∈ pages, ∀ e, ms.translate s.mem v = some e → e.ppn ∈ s'.frames.recycled

theorem Freed.refl (s : Phys) (ms : MemorySet) : Freed s s ms ms [] :=
  ⟨fun _ _ => (if_neg List.not_mem_nil).symm, List.Subset.refl _, fun _ hv => absurd hv List.not_mem_nil⟩

theorem Freed.append {s'' : Phys} {ms'' : MemorySet} {vs ws : List Nat} (h : Freed s s' ms ms' vs)
    (h' : Freed s' s'' ms' ms'' ws) (hws : ∀ v ∈ ws, v < 2 ^ 27) (hd : List.Disjoint vs ws) :
    Freed s s'' ms ms'' (vs ++ ws) := by
  refine ⟨fun v hv => ?_, List.Subset.trans h.recycled h'.recycled, fun v hv e he => ?_⟩
  · rw [h'.translate v hv, h.translate v hv]
    simp only [List.mem_append]
    by_cases hvs : v ∈ vs
    · simp [hvs]
    · simp [hvs]
  · rcases List.mem_append.mp hv with hv | hv
    · exact h'.recycled (h.frames v hv e he)
    · refine h'.frames v hv e ?_
      rw [h.translate v (hws v hv), if_neg fun hc => hd hc hv]
      exact he

/-- **`sys_munmap`** unmaps the pages of the range if the areas hold all of them, and otherwise refuses. -/
theorem sysMunmap_run (h : Good L rest s ms) (hfr : ms.Framed) (hstart : start % 4096 = 0)
    (hfits : FitsMask start len) :
    ((∀ v ∈ callPages start len, v ∈ ms.pages) ∧ ∃ ms' s',
      (sysMunmap ms start len).run s = some ((0, ms'), s') ∧ Freed s s' ms ms' (callPages start len)) ∨
    ((∃ v ∈ callPages start len, v ∉ ms.pages) ∧ (sysMunmap ms start len).run s = some ((-1, ms), s)) := by
  have hle := (fitsMask_iff hstart).mp hfits
  have hnodup : (callPages start len).Nodup := List.nodup_range'
  have hlt : ∀ v ∈ callPages start len, v < 2 ^ 27 := by
    intro v hv
    have hceil := VirtAddr.ceil_le (VirtAddr.ofUsize (usizeAdd start (roundUp len)))
    rw [callPages, pagesBetween, List.mem_range'_1] at hv
    omega
  have hlist : VPNRange.toList ⟨_, _, hle⟩ = callPages start len := by
    rw [VPNRange.toList, callPages, pagesBetween]
  have hrun : (sysMunmap ms start len).run s =
      (if (callPages start len).any fun vpn =>
          ((PageTable.fromToken ms.token).translate s.mem vpn).isNone then pure (-1, ms)
        else ms.removeMappedFrames (VirtAddr.ofUsize start)
          (VirtAddr.ofUsize (usizeAdd start (roundUp len)))).run s := by
    rw [sysMunmap, if_neg (not_not.mpr hstart), Comp.run_bind, VPNRange.new_run hle, Option.bind_some,
      Comp.run_bind, Comp.run_get, Option.bind_some, hlist]
  have hany : ((callPages start len).any fun vpn =>
      ((PageTable.fromToken ms.token).translate s.mem vpn).isNone) = true ↔
        ∃ v ∈ callPages start len, ms.translate s.mem v = none := by
    rw [List.any_eq_true]
    simp only [h.translate_token, Option.isNone_iff_eq_none]
  rcases removeMappedFrames_run h hfr (VirtAddr.ofUsize start)
    (VirtAddr.ofUsize (usizeAdd start (roundUp len))) with ⟨_, hall, s', ms', hrem, hR⟩ | ⟨_, hsome, hrem⟩ |
      ⟨hbad, _⟩
  · have hgo : ¬ ((callPages start len).any fun vpn =>
        ((PageTable.fromToken ms.token).translate s.mem vpn).isNone) = true := by
      rw [hany]
      rintro ⟨v, hv, hnone⟩
      exact ((h.mem_pages_iff hfr (hlt v hv)).mp (hall v hv)).1 hnone
    have hwlp : (ms.removeMappedFrames (VirtAddr.ofUsize start)
        (VirtAddr.ofUsize (usizeAdd start (roundUp len)))).wlp (fun r s' =>
          s.frames.recycled ⊆ s'.frames.recycled ∧ (r.1 = 0 →
            ∀ v ∈ callPages start len, ∀ e, ms.translate s.mem v = some e → e.ppn ∈ s'.frames.recycled)) s := by
      rw [MemorySet.removeMappedFrames]
      simp only [Comp.wlp_bind, VPNRange.wlp_new]
      intro hle'
      split
      · rw [Comp.wlp_pure]
        exact ⟨List.Subset.refl _, fun hc => by cases hc⟩
      · simp only [Comp.wlp_bind, Comp.wlp_pure]
        rw [hlist]
        exact (removeFramesLoop_recycled h hfr hnodup hall).mono fun _ _ hq => ⟨hq.1, fun _ => hq.2⟩
    obtain ⟨hrec, hback⟩ := hwlp _ _ hrem
    refine Or.inl ⟨hall, ms', s', ?_, ?_, hrec, hback rfl⟩
    · rw [hrun, if_neg hgo, hrem]
    · intro v hv
      by_cases hin : v ∈ callPages start len
      · rw [if_pos hin, hR.good.translate_none_iff hv]
        intro hc
        obtain ⟨⟨w, e⟩, he, rfl⟩ := List.mem_map.mp hc
        exact ((hR.entries w e).mp he).2 hin
      · rw [if_neg hin]
        apply Option.ext
        intro e
        rw [hR.good.translate v e hv, h.translate v e hv, hR.entries]
        exact and_iff_left hin
  · refine Or.inr ⟨hsome, ?_⟩
    rw [hrun]
    split
    · rfl
    · exact hrem
  · exact absurd hle hbad

/-! ## Undoing `sys_mmap` -/

/-- The numbers of the pages of an aligned range. -/
def rangePages (start len : Nat) : List Nat := List.range' (start / 4096) ((len + 4095) / 4096)

theorem lt_of_mem_rangePages (hend : start + (len + 4095) / 4096 * 4096 < 2 ^ 39) {v : Nat}
    (hv : v ∈ rangePages start len) : v < trampolineVpn := by
  rw [rangePages, List.mem_range'_1] at hv
  unfold trampolineVpn
  omega

/-- Below the end of the space nothing is masked. -/
theorem callPages_of_lt (hstart : start % 4096 = 0) (hend : start + (len + 4095) / 4096 * 4096 < 2 ^ 39) :
    callPages start len = rangePages start len ∧ FitsMask start len := by
  have hround : roundUp len = (len + 4095) / 4096 * 4096 := roundUp_eq (by omega)
  have hmask : start % 2 ^ 39 = start := Nat.mod_eq_of_lt (by omega)
  constructor
  · rw [callPages_eq, rangePages, hround, hmask]
    congr 1
    omega
  · rw [FitsMask, hround, hmask]
    omega

/-- `sys_munmap` of one piece after the other: what the calls return, and the address space. -/
def munmapAll (ms : MemorySet) : List (Nat × Nat) → Comp Phys (List Int × MemorySet)
  | [] => return ([], ms)
  | (start, len) :: pieces => do
    let (r, ms) ← sysMunmap ms start len
    let (rs, ms) ← munmapAll ms pieces
    return (r :: rs, ms)

/-- The pieces, in whatever order, are a partition of the range into aligned ranges. -/
structure Partition (start len : Nat) (pieces : List (Nat × Nat)) : Prop where
  aligned : ∀ p ∈ pieces, p.1 % 4096 = 0 ∧ p.2 % 4096 = 0
  inside : ∀ p ∈ pieces, start ≤ p.1 ∧ p.1 + p.2 ≤ start + (len + 4095) / 4096 * 4096
  cover : (pieces.flatMap fun p => rangePages p.1 p.2).Perm (rangePages start len)

/-- Pieces that do not overlap and that the areas hold can be unmapped one by one. -/
theorem munmapAll_run (h : UserSpace L rest s ms) {pieces : List (Nat × Nat)}
    (halign : ∀ p ∈ pieces, p.1 % 4096 = 0 ∧ p.1 + (p.2 + 4095) / 4096 * 4096 < 2 ^ 39)
    (hn : (pieces.flatMap fun p => rangePages p.1 p.2).Nodup)
    (hheld : ∀ v ∈ pieces.flatMap fun p => rangePages p.1 p.2, ms.translate s.mem v ≠ none) :
    ∃ ms' s', (munmapAll ms pieces).run s = some ((pieces.map fun _ => 0, ms'), s') ∧
      UserSpace L rest s' ms' ∧ Freed s s' ms ms' (pieces.flatMap fun p => rangePages p.1 p.2) := by
  induction pieces generalizing s ms with
  | nil => exact ⟨ms, s, rfl, h, Freed.refl s ms⟩
  | cons p pieces ih =>
    obtain ⟨start, len⟩ := p
    obtain ⟨hstart, hend⟩ := halign _ List.mem_cons_self
    obtain ⟨hpages, hfits⟩ := callPages_of_lt hstart hend
    rw [List.flatMap_cons, List.nodup_append'] at hn
    obtain ⟨_, hn, hd⟩ := hn
    have hmem : ∀ v ∈ rangePages start len, v ∈ ms.pages := by
      intro v hv
      have hlt := lt_of_mem_rangePages hend hv
      refine (h.good.1.mem_pages_iff h.good.2 (Nat.lt_trans hlt (by decide))).mpr ⟨?_, Nat.ne_of_lt hlt⟩
      exact hheld v (List.mem_flatMap.mpr ⟨_, List.mem_cons_self, hv⟩)
    have hsmall : ∀ v ∈ pieces.flatMap fun p => rangePages p.1 p.2, v < 2 ^ 27 := by
      intro v hv
      obtain ⟨p, hp, hv⟩ := List.mem_flatMap.mp hv
      exact Nat.lt_trans (lt_of_mem_rangePages (halign p (List.mem_cons_of_mem _ hp)).2 hv) (by decide)
    rcases sysMunmap_run h.good.1 h.good.2 hstart hfits with ⟨_, ms₁, s₁, hrun₁, hfreed⟩ | ⟨⟨v, hv, hno⟩, _⟩
    · rw [hpages] at hfreed
      obtain ⟨ms₂, s₂, hrun₂, hu₂, hfreed₂⟩ := ih (h.munmap hrun₁)
        (fun p hp => halign p (List.mem_cons_of_mem _ hp)) hn (fun v hv => by
          rw [hfreed.translate v (hsmall v hv), if_neg fun hc => hd hc hv]
          exact hheld v (List.mem_append_right _ hv))
      refine ⟨ms₂, s₂, ?_, hu₂, hfreed.append hfreed₂ hsmall hd⟩
      rw [munmapAll, Comp.run_bind, hrun₁, Option.bind_some, Comp.run_bind, hrun₂]
      rfl
    · rw [hpages] at hv
      exact absurd (hmem v hv) hno

/-- What `sys_mmap` has added can be unmapped in pieces. -/
theorem sysMmap_undone (h : UserSpace L rest s ms) (hstart : start % 4096 = 0)
    (hend : start + (len + 4095) / 4096 * 4096 < 2 ^ 39)
    (hrun : (sysMmap ms start len prot).run s = some ((0, ms'), s')) {pieces : List (Nat × Nat)}
    (hp : Partition start len pieces) :
    ∃ ms'' s'', (munmapAll ms' pieces).run s' = some ((pieces.map fun _ => 0, ms''), s'') ∧
      (∀ v, ms''.translate s''.mem v = ms.translate s.mem v) ∧
      ∀ f ∈ ms'.frames, f ∉ ms.frames → s''.frames.recycled.count f = 1 := by
  have hu' : UserSpace L rest s' ms' := h.mmap hrun
  obtain ⟨_, _, _, _, hadded⟩ := sysMmap_added h.good.1 hrun
  have hpages : pagesBetween (VirtAddr.ofUsize start) (VirtAddr.ofUsize (usizeAdd start (roundUp len))) =
      rangePages start len := (callPages_of_lt hstart hend).1
  rw [hpages] at hadded
  have hlt : ∀ v ∈ rangePages start len, v < 2 ^ 27 := fun v hv =>
    Nat.lt_trans (lt_of_mem_rangePages hend hv) (by decide)
  obtain ⟨ms'', s'', hrun', hu'', hfreed⟩ := munmapAll_run hu'
    (fun p hmem => by
      have halign := hp.aligned p hmem
      have hin := hp.inside p hmem
      omega)
    (hp.cover.nodup_iff.mpr List.nodup_range') (fun v hv => by
      obtain ⟨e, he, _⟩ := hadded.after v (hp.cover.mem_iff.mp hv)
      rw [he]
      exact Option.some_ne_none e)
  refine ⟨ms'', s'', hrun', fun v => ?_, fun f hf hnew => ?_⟩
  · have hmod : ∀ (m : Mem) (space : MemorySet), space.translate m v = space.translate m (v % 2 ^ 27) :=
      fun m space => (PageTable.translate_mod m space.pageTable v).symm
    have hv : v % 2 ^ 27 < 2 ^ 27 := Nat.mod_lt _ (by decide)
    rw [hmod, hmod s.mem, hfreed.translate _ hv]
    by_cases hin : v % 2 ^ 27 ∈ rangePages start len
    · rw [if_pos (hp.cover.mem_iff.mpr hin), hadded.before _ hin]
    · rw [if_neg fun hc => hin (hp.cover.mem_iff.mp hc), hadded.others _ hv hin]
  · -- a frame that was not there before is that of a page of the range
    obtain ⟨area, ha, hfr⟩ := List.mem_flatMap.mp hf
    obtain ⟨⟨v, g⟩, hvg, rfl⟩ := List.mem_map.mp hfr
    obtain ⟨e, he, hppn, _⟩ := hu'.good.1.translate_area hu'.good.2 ha hvg
    have hv : v < 2 ^ 27 := hu'.good.1.lt_of_key ((hu'.good.1.mem_pages hu'.good.2).mp
      (MemorySet.mem_pages.mpr ⟨area, ha, MapArea.holds_iff.mpr (List.mem_map.mpr ⟨_, hvg, rfl⟩)⟩)).1
    have hin : v ∈ rangePages start len := by
      by_contra hout
      have hold := hadded.others v hv hout
      rw [he] at hold
      have hne : v ≠ trampolineVpn := by
        rintro rfl
        have hnod := hu'.good.1.nodup_pages hu'.good.2
        rw [List.nodup_cons] at hnod
        exact hnod.1 (MemorySet.mem_pages.mpr
          ⟨area, ha, MapArea.holds_iff.mpr (List.mem_map.mpr ⟨_, hvg, rfl⟩)⟩)
      exact hnew (hppn ▸ h.good.1.ppn_mem h.good.2 hv hne hold.symm)
    have hfree := hfreed.frames v (hp.cover.mem_iff.mpr hin) e he
    rw [hppn] at hfree
    have hnodup : s''.frames.recycled.Nodup :=
      (List.nodup_append.mp hu''.good.1.held.ledger.nodup).2.1
    exact List.count_eq_one_of_mem hnodup hfree

/-- **`munmap` undoes `mmap`**, in any pieces and any order; and of any aligned range below the end of the
space it unmaps the pages if the areas hold all of them, and otherwise refuses and changes nothing. -/
theorem munmap_undoes_mmap (h : UserSpace L rest s ms) (hstart : start % 4096 = 0)
    (hend : start + (len + 4095) / 4096 * 4096 < 2 ^ 39) :
    (∀ prot ms' s' pieces, (sysMmap ms start len prot).run s = some ((0, ms'), s') →
      Partition start len pieces →
      ∃ ms'' s'', (munmapAll ms' pieces).run s' = some ((pieces.map fun _ => 0, ms''), s'') ∧
        (∀ v, ms''.translate s''.mem v = ms.translate s.mem v) ∧
        ∀ f ∈ ms'.frames, f ∉ ms.frames → s''.frames.recycled.count f = 1) ∧
    ((∀ v ∈ rangePages start len, ∃ area ∈ ms.areas, area.holds v = true) →
      ∃ ms' s', (sysMunmap ms start len).run s = some ((0, ms'), s') ∧
        ∀ v, v < 2 ^ 27 → ms'.translate s'.mem v = if v ∈ rangePages start len then none else ms.translate s.mem v) ∧
    ((¬∀ v ∈ rangePages start len, ∃ area ∈ ms.areas, area.holds v = true) →
      (sysMunmap ms start len).run s = some ((-1, ms), s)) := by
  obtain ⟨hpages, hfits⟩ := callPages_of_lt hstart hend
  refine ⟨fun _ _ _ _ hrun hp => sysMmap_undone h hstart hend hrun hp, fun hall => ?_, fun hnot => ?_⟩
  · rcases sysMunmap_run h.good.1 h.good.2 hstart hfits with ⟨_, ms', s', hrun, hfreed⟩ | ⟨⟨v, hv, hno⟩, _⟩
    · rw [hpages] at hfreed
      exact ⟨ms', s', hrun, hfreed.translate⟩
    · rw [hpages] at hv
      exact absurd (MemorySet.mem_pages.mpr (hall v hv)) hno
  · rcases sysMunmap_run h.good.1 h.good.2 hstart hfits with ⟨hall, _⟩ | ⟨_, hrun⟩
    · rw [hpages] at hall
      exact absurd (fun v hv => MemorySet.mem_pages.mp (hall v hv)) hnot
    · exact hrun

/-- Two pages, the second unmapped first. -/
theorem munmap_undoes_mmap_pages : ∃ s ms ms' s' ms'' s'', UserSpace smallKernel [] s ms ∧
    (sysMmap ms 0x100000 0x2000 3).run s = some ((0, ms'), s') ∧
    (munmapAll ms' [(0x101000, 0x1000), (0x100000, 0x1000)]).run s' = some (([0, 0], ms''), s'') ∧
    ∀ v, ms''.translate s''.mem v = ms.translate s.mem v := by
  obtain ⟨s, ms, hu, h⟩ := exists_loaded
  have h' : Site smallKernel [] freshPhys s ms [(0x10, 0x11), (0x12, 0x14), (trapContextVpn, trampolineVpn)]
      (100 + 100) := h
  obtain ⟨⟨r, ms'⟩, s', hrun, hr, -⟩ := h'.sysMmap_ok 0x100000 0x2000 3 (l := 0x100) (r := 0x102) (n := 2) (by decide) (by decide) (by decide) (by decide) (by decide) (by decide) (by decide)
    (by decide) (by decide)
  simp only at hr
  subst hr
  have hp : Partition 0x100000 0x2000 [(0x101000, 0x1000), (0x100000, 0x1000)] :=
    ⟨by decide, by decide, by decide⟩
  obtain ⟨ms'', s'', hrun', hback, -⟩ :=
    (@munmap_undoes_mmap _ _ s ms 0x100000 0x2000 hu (by decide) (by decide)).1 3 ms' s' _ hrun hp
  exact ⟨s, ms, ms', s', ms'', s'', hu, hrun, hrun', hback⟩

end RCore.Mm
