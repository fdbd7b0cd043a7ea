import RCore.Mm.Verify.Area

/-!
# Mapping when memory runs out

`insert_framed_area` maps its pages one by one and returns an error when the allocator has no frame
for the next page. The area is dropped then and its frames go back to the allocator, but nothing
removes the entries that were written for the pages before: they keep pointing at frames that are
free. `RunsDry` describes the calls on which this happens, in terms of the state before the call; on
every other call an error leaves no trace.
-/

namespace RCore.Mm

/-! ## Pushing a fresh area -/

section Fresh

variable {lo : Nat} {rest : List Nat} {s : Phys} {ms : MemorySet}

/-- An area as `MapArea::new` makes it. -/
structure Fresh (area : MapArea) : Prop where
  empty : area.dataFrames = []
  le : area.vpnRange.r ≤ 2 ^ 27

theorem Fresh.lt {area : MapArea} (h : Fresh area) {v : Nat} (hv : v ∈ area.vpnRange.toList) :
    v < 2 ^ 27 := by
  have hle := h.le
  rw [VPNRange.mem_toList] at hv
  omega

theorem Fresh.frames {area : MapArea} (h : Fresh area) : area.frames = [] := by
  rw [MapArea.frames, h.empty, List.map_nil]

theorem Fresh.sorted {area : MapArea} (h : Fresh area) :
    (area.dataFrames.map Prod.fst ++ area.vpnRange.toList).Pairwise (· < ·) := by
  rw [h.empty, List.map_nil, List.nil_append]
  exact List.pairwise_lt_range'

/-- **Pushing an area** maps all its pages, returns the error after the area has been dropped, or
panics. -/
theorem map_fresh_run {area : MapArea} (ho : Owns lo rest s ms.pageTable) (hf : Fresh area) :
    (∃ es s' pt', es.map Prod.fst = area.vpnRange.toList ∧
      (area.map ms.pageTable).run s = some ((.ok (), area.extend es, pt'), s') ∧
      Mapped lo rest area s ms.pageTable es s' pt' ∧
      (area.mapType = .identical → ∀ e ∈ es, e.2 = e.1)) ∨
    (∃ vs₁ v vs₂ es s' pt', area.vpnRange.toList = vs₁ ++ v :: vs₂ ∧ area.mapType = .framed ∧
      es.map Prod.fst = vs₁ ∧ Mapped lo rest area s ms.pageTable es s' pt' ∧ s'.frames.free = 0 ∧
      (area.map ms.pageTable).run s = some ((.error "No enough physical space",
        area.extend es, pt'), { s' with starved := true })) ∨
    (∃ vs₁ v vs₂, area.vpnRange.toList = vs₁ ++ v :: vs₂ ∧
      (∀ x ∈ vs₁, ms.translate s.mem x = none) ∧
      area.need s.mem ms.pageTable vs₁ ≤ s.frames.free ∧
      (area.mapType = .framed → area.need s.mem ms.pageTable vs₁ < s.frames.free) ∧
      (s.frames.free < area.need s.mem ms.pageTable (vs₁ ++ [v]) ∨
        ms.translate s.mem v ≠ none) ∧
      (area.map ms.pageTable).run s = none) := by
  have ho' : Owns lo (area.frames ++ rest) s ms.pageTable := by
    rw [hf.frames, List.nil_append]
    exact ho
  exact mapLoop_run ho' (fun v hv => hf.lt hv) hf.sorted

/-- With enough frames and unmapped pages, all pages are mapped. -/
theorem map_fresh_ok {area : MapArea} (ho : Owns lo rest s ms.pageTable) (hf : Fresh area)
    (hnone : ∀ v ∈ area.vpnRange.toList, ms.translate s.mem v = none)
    (hneed : area.need s.mem ms.pageTable area.vpnRange.toList ≤ s.frames.free) :
    ∃ es s' pt', es.map Prod.fst = area.vpnRange.toList ∧
      (area.map ms.pageTable).run s = some ((.ok (), area.extend es, pt'), s') ∧
      Mapped lo rest area s ms.pageTable es s' pt' := by
  rcases map_fresh_run ho hf with ⟨es, s', pt', hes, hrun, hM, _⟩ |
    ⟨vs₁, v, vs₂, es, s', pt', hvs, htype, hes, hM, hz, _⟩ | ⟨vs₁, v, vs₂, hvs, _, _, _, hbad, _⟩
  · exact ⟨es, s', pt', hes, hrun, hM⟩
  · have hcost : area.cost = 1 := by rw [MapArea.cost, htype]
    have hle := area.need_le_append s.mem ms.pageTable vs₁ (v :: vs₂)
    have hfree := hM.free
    rw [hes, ← List.length_map Prod.fst, hes] at hfree
    rw [← hvs] at hle
    rw [List.length_cons, hcost] at hle
    unfold MapArea.need at hle hneed
    omega
  · have hle := area.need_le_append s.mem ms.pageTable (vs₁ ++ [v]) vs₂
    rw [List.append_assoc, List.singleton_append, ← hvs] at hle
    rcases hbad with hbad | hbad
    · omega
    · refine absurd (hnone v ?_) hbad
      rw [hvs]
      exact List.mem_append_right _ List.mem_cons_self

end Fresh

/-! ## Failed mappings -/

/-- The mapping of the pages takes the last free frame after some page and before the last one. -/
def RunsDry (s : Phys) (ms : MemorySet) (vs : List Nat) : Prop :=
  ∃ k, 0 < k ∧ k < vs.length ∧ (∀ v ∈ vs.take k, ms.translate s.mem v = none) ∧
    k + ms.pageTable.missing s.mem (pathsOf (vs.take k)) = s.frames.free

/-- What a failed call promises: the translations are as before, no entry of any table points at a
frame that is free, and the frames that are gone are in the page table. -/
structure LeavesNoTrace (s : Phys) (ms : MemorySet) (s' : Phys) (ms' : MemorySet) : Prop where
  translate : ∀ vpn, ms'.translate s'.mem vpn = ms.translate s.mem vpn
  entries : ∀ p i e, p.length < 3 → ms'.pageTable.entry s'.mem p i = some e →
    e.ppn ∉ s'.frames.recycled
  frames : ∃ new, ms'.pageTable.frames = ms.pageTable.frames ++ new ∧
    s'.frames.free + new.length = s.frames.free

/-- If the call returns an error, it leaves no trace. -/
def FailsClean (s : Phys) (ms : MemorySet) (startVa endVa : VirtAddr) (permission : MapPermission) :
    Prop :=
  ∀ msg ms' s', (ms.insertFramedArea startVa endVa permission).run s =
    some ((.error msg, ms'), s') → LeavesNoTrace s ms s' ms'

theorem mapArea_new_run {s : Phys} {startVa endVa : VirtAddr} {mapType : MapType}
    {mapPerm : MapPermission} (hle : startVa.floor ≤ endVa.ceil) :
    (MapArea.new startVa endVa mapType mapPerm).run s =
      some (⟨⟨startVa.floor, endVa.ceil, hle⟩, [], mapType, mapPerm⟩, s) := by
  rw [MapArea.new, Comp.run_bind, VPNRange.new_run hle, Option.bind_some, Comp.run_pure]

theorem mapArea_new_reversed {s : Phys} {startVa endVa : VirtAddr} {mapType : MapType}
    {mapPerm : MapPermission} (hle : ¬ startVa.floor ≤ endVa.ceil) :
    (MapArea.new startVa endVa mapType mapPerm).run s = none := by
  rw [MapArea.new, Comp.run_bind, VPNRange.new_reversed hle, Option.bind_none]

/-- The pages of a call of `insert_framed_area`. -/
def pagesBetween (startVa endVa : VirtAddr) : List Nat :=
  List.range' startVa.floor (endVa.ceil - startVa.floor)

section Insert

variable {lo : Nat} {rest : List Nat} {s : Phys} {ms : MemorySet} {startVa endVa : VirtAddr}
  {permission : MapPermission}

theorem insertFramedArea_run (hle : startVa.floor ≤ endVa.ceil) :
    (ms.insertFramedArea startVa endVa permission).run s =
      (ms.push ⟨⟨startVa.floor, endVa.ceil, hle⟩, [], .framed, permission⟩ none).run s := by
  rw [MemorySet.insertFramedArea, Comp.run_bind, mapArea_new_run hle, Option.bind_some]

theorem insertFramedArea_reversed (hle : ¬ startVa.floor ≤ endVa.ceil) :
    (ms.insertFramedArea startVa endVa permission).run s = none := by
  rw [MemorySet.insertFramedArea, Comp.run_bind, mapArea_new_reversed hle, Option.bind_none]

theorem fresh_new (hle : startVa.floor ≤ endVa.ceil) (mapType : MapType) :
    Fresh ⟨⟨startVa.floor, endVa.ceil, hle⟩, [], mapType, permission⟩ :=
  ⟨rfl, endVa.ceil_le⟩

/-- A call that runs dry returns the error with its first page mapped. -/
theorem insertFramedArea_of_runsDry (permission : PTEFlags) (ho : Owns lo rest s ms.pageTable)
    (hdry : RunsDry s ms (pagesBetween startVa endVa)) :
    ∃ ms' s', (ms.insertFramedArea startVa endVa permission).run s =
        some ((.error "No enough physical space", ms'), s') ∧
      ms.translate s.mem startVa.floor = none ∧ ms'.translate s'.mem startVa.floor ≠ none := by
  obtain ⟨k, hk, hkn, hnone, hneed⟩ := hdry
  have hle : startVa.floor ≤ endVa.ceil := by
    simp only [pagesBetween, List.length_range'] at hkn
    omega
  obtain ⟨area, harea⟩ : ∃ area : MapArea,
      area = ⟨⟨startVa.floor, endVa.ceil, hle⟩, [], .framed, permission⟩ := ⟨_, rfl⟩
  have hfresh : Fresh area := by
    rw [harea]
    exact fresh_new hle .framed
  have hcost : area.cost = 1 := by rw [harea]; rfl
  have hpages : area.vpnRange.toList = pagesBetween startVa endVa := by rw [harea]; rfl
  have hsplit := List.take_append_drop k (pagesBetween startVa endVa)
  have hlen : ((pagesBetween startVa endVa).take k).length = k := by
    rw [List.length_take]
    omega
  have hneed' : area.need s.mem ms.pageTable ((pagesBetween startVa endVa).take k) =
      s.frames.free := by
    rw [MapArea.need, hcost, hlen, Nat.one_mul]
    exact hneed
  rcases map_fresh_run ho hfresh with ⟨es, s', pt', hes, hrun, hM, _⟩ |
    ⟨vs₁, v, vs₂, es, s', pt', hvs, htype, hes, hM, hz, hrun⟩ |
    ⟨vs₁, v, vs₂, hvs, hun, hle₁, hlt₁, hbad, _⟩
  · -- All pages mapped: more pages than there were frames for.
    exfalso
    have hmono := area.need_le_append s.mem ms.pageTable ((pagesBetween startVa endVa).take k)
      ((pagesBetween startVa endVa).drop k)
    have hfree := hM.free
    rw [hes, ← List.length_map Prod.fst, hes, hpages] at hfree
    rw [hsplit, List.length_drop, hneed', hcost] at hmono
    unfold MapArea.need at hmono
    rw [hcost] at hmono hfree
    omega
  · -- The error: the first `k` pages are mapped, and `k` is positive.
    have hpos : es ≠ [] := by
      intro hnil
      have hfree := hM.free
      rw [hnil] at hfree
      simp only [List.length_nil, Nat.mul_zero, List.map_nil, pathsOf, PageTable.missing,
        Finset.filter_empty, Finset.card_empty] at hfree
      omega
    have hhead : ∃ f es', es = (startVa.floor, f) :: es' := by
      cases es with
      | nil => exact absurd rfl hpos
      | cons e es' =>
        have hfst : e.1 = startVa.floor := by
          have hcons : area.vpnRange.toList = e.1 :: (es'.map Prod.fst ++ v :: vs₂) := by
            rw [hvs, ← hes, List.map_cons, List.cons_append]
          have hhd := congrArg List.head? hcons
          rw [hpages, pagesBetween] at hhd
          cases hn : endVa.ceil - startVa.floor with
          | zero =>
            rw [hn] at hhd
            cases hhd
          | succ n =>
            rw [hn, List.range'_succ, List.head?_cons, List.head?_cons] at hhd
            exact (Option.some.inj hhd).symm
        exact ⟨e.2, es', by rw [← hfst]⟩
    obtain ⟨f, es', hes'⟩ := hhead
    have hframes : (area.extend es).frames = es.map Prod.snd := by
      rw [MapArea.frames_extend_framed htype, hfresh.frames, List.nil_append]
    have hheld : Held lo s'.frames ((area.extend es).frames ++ (pt'.frames ++ rest)) := by
      apply hM.owns.held.perm
      rw [← List.append_assoc, ← List.append_assoc]
      exact List.perm_append_comm.append_right rest
    have hheld' : Held lo ({ s' with starved := true } : Phys).frames
        ((area.extend es).frames ++ (pt'.frames ++ rest)) := hheld
    obtain ⟨s'', hdrop, _, hmem, _, _⟩ := dropFrames_run hheld'
    refine ⟨{ ms with pageTable := pt' }, s'', ?_, ?_, ?_⟩
    · rw [insertFramedArea_run hle, ← harea, MemorySet.push, Comp.run_bind, hrun]
      simp only [Option.bind_some, Comp.run_bind, MapArea.drop]
      rw [MapArea.frames] at hdrop
      rw [hdrop]
      rfl
    · exact hM.unmapped startVa.floor (by rw [hes']; simp)
    · have htr := (hM.translate startVa.floor
        (PageTableEntry.new f (area.mapPerm ||| PTEFlags.V)) startVa.floor_lt).mpr
        (Or.inr ⟨f, by rw [hes']; exact List.mem_cons_self, rfl⟩)
      rw [MemorySet.translate, hmem]
      rw [htr]
      exact Option.some_ne_none _
  · -- The panic: it would come before the frames are used up.
    exfalso
    have hlt := hlt₁ (by rw [harea])
    have hprefix : vs₁.length < k := by
      by_contra hge
      have happ : vs₁ = (pagesBetween startVa endVa).take k ++ vs₁.drop k := by
        have htake : vs₁.take k = (pagesBetween startVa endVa).take k := by
          rw [← hpages, hvs, List.take_append_of_le_length (by omega)]
        rw [← htake, List.take_append_drop]
      have hmono := area.need_le_append s.mem ms.pageTable
        ((pagesBetween startVa endVa).take k) (vs₁.drop k)
      rw [← happ, hneed'] at hmono
      omega
    have htake : (pagesBetween startVa endVa).take k =
        vs₁ ++ [v] ++ vs₂.take (k - (vs₁.length + 1)) := by
      rw [← hpages, hvs, List.append_assoc, List.singleton_append,
        List.take_append, List.take_of_length_le (by omega)]
      congr 1
      obtain ⟨j, hj⟩ : ∃ j, k - vs₁.length = j + 1 := ⟨k - vs₁.length - 1, by omega⟩
      rw [hj, List.take_succ_cons]
      congr 2
      omega
    rcases hbad with hbad | hbad
    · have hmono := area.need_le_append s.mem ms.pageTable (vs₁ ++ [v])
        (vs₂.take (k - (vs₁.length + 1)))
      rw [← htake, hneed'] at hmono
      omega
    · apply hbad
      apply hnone
      rw [htake]
      simp

/-- Without a single free frame the call returns the error at once and changes nothing. -/
theorem insertFramedArea_of_free_eq_zero (hh : Held lo s.frames rest) (hz : s.frames.free = 0)
    (hlt : startVa.floor < endVa.ceil) :
    (ms.insertFramedArea startVa endVa permission).run s =
      some ((.error "No enough physical space", ms), { s with starved := true }) := by
  obtain ⟨n, hn⟩ : ∃ n, endVa.ceil - startVa.floor = n + 1 := ⟨endVa.ceil - startVa.floor - 1, by omega⟩
  have hpages : VPNRange.toList ⟨startVa.floor, endVa.ceil, Nat.le_of_lt hlt⟩ =
      startVa.floor :: List.range' (startVa.floor + 1) n := by
    rw [VPNRange.toList, hn, List.range'_succ]
  rw [insertFramedArea_run (Nat.le_of_lt hlt), MemorySet.push, MapArea.map, hpages, Comp.run_bind,
    MapArea.mapLoop, Comp.run_bind, MapArea.mapOne]
  simp only [Comp.run_bind, frameAlloc_of_free_eq_zero hh hz, Option.bind_some, Comp.run_pure,
    MapArea.drop, List.map_nil, dropFrames]

/-- **Failed mappings.** A call of `insert_framed_area` that returns an error leaves no trace exactly
if the frames do not run out between two of its pages. -/
theorem failsClean_iff (ho : Owns lo rest s ms.pageTable) :
    FailsClean s ms startVa endVa permission ↔ ¬ RunsDry s ms (pagesBetween startVa endVa) := by
  constructor
  · intro hclean hdry
    obtain ⟨ms', s', hrun, hbefore, hafter⟩ :=
      insertFramedArea_of_runsDry permission ho hdry
    apply hafter
    rw [(hclean _ _ _ hrun).translate, hbefore]
  · intro hdry msg ms' s' hrun
    by_cases hle : startVa.floor ≤ endVa.ceil
    · obtain ⟨area, harea⟩ : ∃ area : MapArea,
          area = ⟨⟨startVa.floor, endVa.ceil, hle⟩, [], .framed, permission⟩ := ⟨_, rfl⟩
      have hfresh : Fresh area := by
        rw [harea]
        exact fresh_new hle .framed
      have hcost : area.cost = 1 := by rw [harea]; rfl
      have hpages : area.vpnRange.toList = pagesBetween startVa endVa := by rw [harea]; rfl
      have hpush := hrun
      rw [insertFramedArea_run hle, ← harea, MemorySet.push, Comp.run_bind] at hpush
      rcases map_fresh_run ho hfresh with ⟨es, s₁, pt₁, _, hmap, _, _⟩ |
        ⟨vs₁, v, vs₂, es, s₁, pt₁, hvs, _, hes, hM, hz, _⟩ | ⟨_, _, _, _, _, _, _, _, hmap⟩
      · rw [hmap] at hpush
        cases hpush
      · have hfree := hM.free
        rw [hz, hes, ← List.length_map Prod.fst, hes, hcost, Nat.one_mul, Nat.zero_add] at hfree
        have hnil : vs₁ = [] := by
          by_contra hne
          apply hdry
          refine ⟨vs₁.length, List.length_pos_iff.mpr hne, ?_, ?_, ?_⟩
          · rw [← hpages, hvs, List.length_append, List.length_cons]
            omega
          · intro x hx
            rw [← hpages, hvs, List.take_left'  rfl, ← hes] at hx
            exact hM.unmapped x hx
          · rw [← hpages, hvs, List.take_left' rfl]
            exact hfree
        have hzero : s.frames.free = 0 := by
          rw [hnil] at hfree
          rw [← hfree]
          rfl
        have hlt : startVa.floor < endVa.ceil := by
          have hlen := congrArg List.length (hpages.symm.trans hvs)
          rw [pagesBetween, List.length_range', List.length_append, List.length_cons] at hlen
          omega
        rw [insertFramedArea_of_free_eq_zero ho.held hzero hlt] at hrun
        simp only [Option.some.injEq, Prod.mk.injEq] at hrun
        obtain ⟨⟨_, rfl⟩, rfl⟩ := hrun
        refine ⟨fun _ => rfl, ?_, ⟨[], (List.append_nil _).symm, rfl⟩⟩
        intro p i e _ _
        have hrec : s.frames.recycled = [] := by
          unfold StackFrameAllocator.free at hzero
          exact List.length_eq_zero_iff.mp (by omega)
        simp [hrec]
      · rw [hmap] at hpush
        cases hpush
    · rw [insertFramedArea_reversed hle] at hrun
      cases hrun

end Insert

/-- A machine with five frames left, all of them never used. -/
def fiveFrames : Phys := ⟨fun _ => 0, ⟨0x807fb, 0x80800, []⟩, false⟩

/-- A new memory set on that machine. -/
theorem newBare_fiveFrames :
    ∃ s ms, MemorySet.newBare.run fiveFrames = some (ms, s) ∧ Owns 0x807fb [] s ms.pageTable ∧
      RunsDry s ms (pagesBetween (VirtAddr.ofUsize 0) (VirtAddr.ofUsize 0x3000)) := by
  have hheld : Held 0x807fb fiveFrames.frames [] := by
    refine ⟨⟨List.nodup_nil, ?_⟩, Nat.le_refl _, ?_, ?_⟩
    · intro x hx
      cases hx
    · decide
    · decide
  rcases new_run hheld with ⟨s, pt, hrun, ho, htr, htab, hfree, _, _⟩ | ⟨hz, _⟩
  · refine ⟨s, ⟨pt, []⟩, ?_, ho, 2, by decide, by decide, fun v _ => htr v, ?_⟩
    · rw [MemorySet.newBare, Comp.run_bind, hrun]
      rfl
    · have hpages : (pagesBetween (VirtAddr.ofUsize 0) (VirtAddr.ofUsize 0x3000)).take 2 =
          [0, 1] := by decide
      have hall : (pathsOf [0, 1]).filter (fun p => pt.table s.mem p = none) = pathsOf [0, 1] := by
        apply Finset.filter_true_of_mem
        intro p hp
        apply htab p (pathsOf_length hp)
        intro hnil
        rw [hnil] at hp
        exact absurd hp (by decide)
      have hcard : (pathsOf [0, 1]).card = 2 := by decide
      have hfive : fiveFrames.frames.free = 5 := by decide
      rw [hpages, PageTable.missing, hall, hcard]
      omega
  · exact absurd hz (by decide)

theorem failsClean_iff_fiveFrames :
    ∃ s ms, Owns 0x807fb [] s ms.pageTable ∧
      (FailsClean s ms (VirtAddr.ofUsize 0) (VirtAddr.ofUsize 0x3000) PTEFlags.R ↔
        ¬ RunsDry s ms (pagesBetween (VirtAddr.ofUsize 0) (VirtAddr.ofUsize 0x3000))) := by
  obtain ⟨s, ms, _, ho, _⟩ := newBare_fiveFrames
  exact ⟨s, ms, ho, failsClean_iff ho⟩

/-- Three pages on that machine: the first two stay mapped to frames that are free again. -/
theorem not_failsClean_fiveFrames :
    ¬ ∀ lo rest s (ms : MemorySet) startVa endVa permission, Owns lo rest s ms.pageTable →
      FailsClean s ms startVa endVa permission := by
  intro h
  obtain ⟨s, ms, _, ho, hdry⟩ := newBare_fiveFrames
  obtain ⟨ms', s', hrun, hbefore, hafter⟩ :=
    insertFramedArea_of_runsDry PTEFlags.R ho hdry
  apply hafter
  rw [(h _ _ _ _ _ _ _ ho _ _ _ hrun).translate, hbefore]

end RCore.Mm
