import RCore.Mm.Verify.Space

/-!
# Building address spaces

A new memory set with its trampoline is `Good`, and pushing an area keeps it so. The data that
`copy_data` stores, wherever the file makes it go, ends up in frames of the space itself or in the
trampoline's, never in a table and never in a frame of another owner.
-/

namespace RCore.Mm

/-! ## A new memory set -/

/-- The effect of an operation on everything but the memory set it is called on. -/
structure Keeps (rest : List Nat) (s s' : Phys) : Prop where
  same : SameOn rest s.mem s'.mem
  starved : s'.starved = s.starved

namespace Keeps

variable {rest : List Nat} {s s' s'' : Phys}

theorem refl (rest : List Nat) (s : Phys) : Keeps rest s s := ⟨SameOn.refl _ _, rfl⟩

theorem trans (h : Keeps rest s s') (h' : Keeps rest s' s'') : Keeps rest s s'' :=
  ⟨h.same.trans h'.same, h'.starved.trans h.starved⟩

end Keeps

section New

variable {L : Layout} {rest : List Nat} {s : Phys}

theorem mapTrampoline_eq (ms : MemorySet) :
    (ms.mapTrampoline L).run s = ((ms.pageTable.map trampolineVpn L.trampolinePpn
      (PTEFlags.R ||| PTEFlags.X)).run s).bind fun r =>
        some (({ ms with pageTable := r.1 } : MemorySet), r.2) := by
  have ha : (VirtAddr.ofUsize trampoline).pageOffset = 0 := by decide
  have hs : L.strampoline % 4096 = 0 := L.aligned.1
  rw [MemorySet.mapTrampoline]
  simp only [VirtAddr.toVpn, Comp.assert, ha, hs, if_true, Comp.run_bind, Comp.run_pure,
    Option.bind_some, floor_trampoline]

/-- **A new memory set** holds the trampoline and nothing else. It needs a frame for the root and
frames for the tables of the trampoline. -/
theorem newUser_run (hh : Held L.firstFrame s.frames rest) :
    (∃ ms₀ s₀ ms s', MemorySet.newBare.run s = some (ms₀, s₀) ∧
      (ms₀.mapTrampoline L).run s₀ = some (ms, s') ∧ ms.areas = [] ∧ Good L rest s' ms ∧
      (∀ p, p.length < 3 → p ≠ [] →
        (ms.pageTable.table s'.mem p = none ↔ p ∉ pathsOf [trampolineVpn])) ∧
      s'.frames.free + (1 + (pathsOf [trampolineVpn]).card) = s.frames.free ∧
      Keeps rest s s') ∨
    (s.frames.free < 1 + (pathsOf [trampolineVpn]).card ∧
      (MemorySet.newBare >>= fun ms => ms.mapTrampoline L).run s = none) := by
  have hpaths : pathsOf [trampolineVpn] = PageTable.tablePaths trampolineVpn := by simp [pathsOf]
  have hne : ∀ p ∈ pathsOf [trampolineVpn], p ≠ [] := by
    intro p hp hnil
    rw [hnil] at hp
    exact absurd hp (by decide)
  rcases new_run hh with ⟨s₀, pt₀, hrun₀, ho, htr, htab, hfree, hsame, hst⟩ | ⟨hz, hrun₀⟩
  · have hbare : MemorySet.newBare.run s = some (⟨pt₀, []⟩, s₀) := by
      rw [MemorySet.newBare, Comp.run_bind, hrun₀, Option.bind_some, Comp.run_pure]
    have hmiss : pt₀.missing s₀.mem (PageTable.tablePaths trampolineVpn) =
        (pathsOf [trampolineVpn]).card := by
      rw [PageTable.missing, hpaths, Finset.filter_true_of_mem]
      intro p hp
      exact htab p (tablePaths_length hp) (hne p (by rw [hpaths]; exact hp))
    rcases map_run ho (show trampolineVpn < 2 ^ 27 by decide) L.trampolinePpn_lt_pow
      (PTEFlags.R ||| PTEFlags.X) with ⟨_, s₁, pt₁, hmap, heff, htr₁⟩ | ⟨hbad, hmap⟩
    · left
      refine ⟨⟨pt₀, []⟩, s₀, ⟨pt₁, []⟩, s₁, hbare, ?_, rfl, ?_, ?_, ?_, ?_⟩
      · rw [mapTrampoline_eq, hmap, Option.bind_some]
      · refine ⟨heff.owns, ?_, ?_, fun _ ha => absurd ha List.not_mem_nil⟩
        · intro v e hv
          have hv₁ := htr₁ v hv
          rw [htr v] at hv₁
          rw [MemorySet.translate, hv₁, MemorySet.entries, List.flatMap_nil, List.mem_singleton,
            Prod.mk.injEq]
          by_cases hvt : v = trampolineVpn
          · rw [if_pos hvt, Option.some.injEq]
            constructor
            · intro he
              exact ⟨hvt, he.symm⟩
            · intro he
              exact he.2.symm
          · rw [if_neg hvt]
            constructor
            · intro he
              cases he
            · intro he
              exact absurd he.1 hvt
        · simp [MemorySet.entries]
      · intro p hp hpn
        have hab := heff.absent p hp
        rw [htab p hp hpn, ← hpaths] at hab
        rw [hab]
        exact and_iff_right rfl
      · have hf := heff.free
        rw [hmiss] at hf
        omega
      · exact ⟨hsame.trans heff.same, heff.starved.trans hst⟩
    · right
      refine ⟨?_, ?_⟩
      · rcases hbad with hbad | hbad
        · rw [hmiss] at hbad
          omega
        · exact absurd (htr _) hbad
      · rw [Comp.run_bind, hbare, Option.bind_some, mapTrampoline_eq, hmap, Option.bind_none]
  · right
    refine ⟨by omega, ?_⟩
    rw [Comp.run_bind, MemorySet.newBare, Comp.run_bind, hrun₀]
    rfl

end New

/-! ## Pushing an area -/

section Push

variable {L : Layout} {rest : List Nat} {s s' : Phys} {ms : MemorySet} {area : MapArea}
  {es : List (Nat × Nat)} {pt' : PageTable}

theorem entries_extend (hf : Fresh area) (hes : es.map Prod.fst = area.vpnRange.toList)
    (hid : area.mapType = .identical → ∀ e ∈ es, e.2 = e.1) : (area.extend es).entries = es := by
  cases htype : area.mapType with
  | framed =>
    rw [MapArea.entries_framed (by rw [MapArea.extend_mapType, htype]), MapArea.extend, htype]
    simp only
    rw [hf.empty, List.nil_append]
  | identical =>
    rw [MapArea.entries, MapArea.extend_mapType, htype]
    simp only
    rw [MapArea.extend_vpnRange, ← hes, List.map_map]
    conv_rhs => rw [← List.map_id es]
    apply List.map_congr_left
    intro e he
    have h := hid htype e he
    obtain ⟨v, f⟩ := e
    simp only at h
    subst h
    rfl

/-- All pages of a fresh area are mapped: the memory set with that area is good. -/
theorem Good.pushed (h : Good L rest s ms) (hf : Fresh area)
    (hes : es.map Prod.fst = area.vpnRange.toList)
    (hid : area.mapType = .identical → ∀ e ∈ es, e.2 = e.1)
    (hM : Mapped L.firstFrame (ms.frames ++ rest) area s ms.pageTable es s' pt') :
    Good L rest s' ⟨pt', ms.areas ++ [area.extend es]⟩ := by
  have hent := entries_extend hf hes hid
  have hptes : (area.extend es).ptes =
      es.map fun e => (e.1, PageTableEntry.new e.2 (area.mapPerm ||| PTEFlags.V)) := by
    rw [MapArea.ptes, hent, MapArea.extend_mapPerm]
  have hentries : MemorySet.entries L ⟨pt', ms.areas ++ [area.extend es]⟩ =
      ms.entries L ++ (area.extend es).ptes := by
    rw [MemorySet.entries, MemorySet.entries, List.flatMap_append, List.flatMap_singleton,
      List.cons_append]
  refine ⟨?_, ?_, ?_, ?_⟩
  · apply hM.owns.perm
    rw [MemorySet.frames, MemorySet.frames, List.flatMap_append, List.flatMap_singleton,
      ← List.append_assoc]
    exact List.perm_append_comm.append_right rest
  · intro v e hv
    rw [hentries, List.mem_append, ← h.translate v e hv, MapArea.mem_ptes, hent,
      MapArea.extend_mapPerm]
    exact hM.translate v e hv
  · rw [hentries, List.map_append, List.nodup_append]
    refine ⟨h.nodup, ?_, ?_⟩
    · rw [MapArea.map_fst_ptes, hent, hes]
      exact VPNRange.nodup_toList _
    · intro v hv w hw hvw
      subst hvw
      rw [MapArea.map_fst_ptes, hent] at hw
      have hlt : v < 2 ^ 27 := by
        rw [hes] at hw
        exact hf.lt hw
      exact (h.translate_none_iff hlt).mp (hM.unmapped v hw) hv
  · intro a ha
    rw [List.mem_append, List.mem_singleton] at ha
    rcases ha with ha | rfl
    · exact h.area a ha
    · refine ⟨?_, ?_, ?_, ?_⟩
      · rw [MapArea.extend_vpnRange]
        exact hf.le
      · intro v hv
        rw [hent, hes] at hv
        rw [MapArea.extend_vpnRange]
        exact hv
      · unfold MapArea.extend
        split
        · rw [hf.empty, List.nil_append, hes]
          exact List.pairwise_lt_range'
        · rw [hf.empty]
          exact List.Pairwise.nil
      · intro hi
        rw [MapArea.extend_mapType] at hi
        rw [MapArea.extend, hi]
        exact hf.empty

section Store

variable {v a : Nat} {e : PageTableEntry} {bs : List UInt8} {s' : Phys}

/-- A store into the frame behind a page leaves the tables and the others' frames alone. -/
theorem Good.same_store (h : Good L rest s ms) (hfr : ms.Framed) (he : ms.translate s.mem v = some e)
    (ha : a / 4096 = e.ppn) (hb : a % 4096 + bs.length ≤ 4096) (hs' : s' = { s with mem := s.mem.write a bs }) :
    SameOn (ms.pageTable.frames ++ rest) s.mem s'.mem := by
  rw [hs']
  exact SameOn.write (h.ppn_apart hfr he) ha hb s.mem

theorem Good.store (h : Good L rest s ms) (hfr : ms.Framed) (he : ms.translate s.mem v = some e)
    (ha : a / 4096 = e.ppn) (hb : a % 4096 + bs.length ≤ 4096) (hs' : s' = { s with mem := s.mem.write a bs }) :
    Good L rest s' ms ∧ Keeps rest s s' := by
  have hsame := h.same_store hfr he ha hb hs'
  refine ⟨h.congr (hsame.mono (List.subset_append_left _ _)) ?_,
    hsame.mono (List.subset_append_right _ _), ?_⟩
  · rw [hs']
    exact h.held
  · rw [hs']

/-- It keeps the translations. -/
theorem Good.store_keeps (h : Good L rest s ms) (hfr : ms.Framed) (he : ms.translate s.mem v = some e)
    (ha : a / 4096 = e.ppn) (hb : a % 4096 + bs.length ≤ 4096) (hs' : s' = { s with mem := s.mem.write a bs }) :
    Good L rest s' ms ∧ ∀ w, ms.translate s'.mem w = ms.translate s.mem w :=
  ⟨(h.store hfr he ha hb hs').1, fun w => h.owns.tables.translate_congr
    ((h.same_store hfr he ha hb hs').mono (List.subset_append_left _ _)) w⟩

end Store

theorem copyDataLoop_wlp (h : Good L rest s ms) (hfr : ms.Framed) (area : MapArea)
    (data : List UInt8) (ks : List Nat) :
    (area.copyDataLoop ms.pageTable data ks).wlp
      (fun _ s' => Good L rest s' ms ∧ Keeps rest s s') s := by
  induction ks generalizing s with
  | nil =>
    rw [MapArea.copyDataLoop, Comp.wlp_pure]
    exact ⟨h, Keeps.refl _ _⟩
  | cons k ks ih =>
    rw [MapArea.copyDataLoop]
    simp only [Comp.wlp_bind, Comp.wlp_get, Comp.wlp_unwrap, storePhys, Comp.wlp_modify]
    intro e he
    have hfits : e.ppn * 4096 % 4096 + ((data.drop (k * 4096)).take 4096).length ≤ 4096 := by
      rw [Nat.mul_mod_left, List.length_take]
      omega
    obtain ⟨hg, hk⟩ := h.store hfr he (Nat.mul_div_cancel _ (by decide)) hfits rfl
    refine (ih hg).mono ?_
    intro _ s' hs'
    exact ⟨hs'.1, hk.trans hs'.2⟩

/-- What `push` does when it returns. -/
structure Pushed (L : Layout) (rest : List Nat) (s : Phys) (ms : MemorySet) (area : MapArea)
    (s' : Phys) (ms' : MemorySet) : Prop where
  good : Good L rest s' ms'
  areas : ∃ es, es.map Prod.fst = area.vpnRange.toList ∧
    ms'.areas = ms.areas ++ [area.extend es]
  keeps : Keeps rest s s'

theorem Pushed.framed {ms' : MemorySet} (h : Pushed L rest s ms area s' ms') (hfr : ms.Framed)
    (ha : area.mapType = .framed) : ms'.Framed := by
  obtain ⟨es, _, hareas⟩ := h.areas
  intro a hmem
  rw [hareas, List.mem_append, List.mem_singleton] at hmem
  rcases hmem with hmem | rfl
  · exact hfr a hmem
  · rw [MapArea.extend_mapType, ha]

/-- **`push`** keeps the invariant, unless the allocator fails it; it leaves the others' frames alone
even then. -/
theorem push_wlp (h : Good L rest s ms) (hf : Fresh area) {data : Option (List UInt8)}
    (hdata : data ≠ none → ms.Framed ∧ area.mapType = .framed) :
    (ms.push area data).wlp (fun r s' => match r.1 with
      | .ok _ => Pushed L rest s ms area s' r.2
      | .error _ => s'.starved = true ∧ SameOn rest s.mem s'.mem) s := by
  rw [MemorySet.push, Comp.wlp_bind]
  rcases map_fresh_run h.owns hf with ⟨es, s₁, pt₁, hes, hrun, hM, hid⟩ |
    ⟨vs₁, v, vs₂, es, s₁, pt₁, _, htype, _, hM, _, hrun⟩ | ⟨_, _, _, _, _, _, _, _, hrun⟩
  · rw [Comp.wlp_of_run hrun]
    have hg := h.pushed hf hes hid hM
    have hk : Keeps rest s s₁ := by
      refine ⟨hM.same.mono ?_, hM.starved⟩
      rw [hf.frames, List.nil_append]
      exact List.subset_append_right _ _
    cases data with
    | none =>
      simp only [Comp.wlp_pure]
      exact ⟨hg, ⟨es, hes, rfl⟩, hk⟩
    | some data =>
      obtain ⟨hfr, htype⟩ := hdata (Option.some_ne_none _)
      have hfr' : MemorySet.Framed ⟨pt₁, ms.areas ++ [area.extend es]⟩ := by
        intro a ha
        rw [List.mem_append, List.mem_singleton] at ha
        rcases ha with ha | rfl
        · exact hfr a ha
        · rw [MapArea.extend_mapType, htype]
      simp only [Comp.wlp_bind, MapArea.copyData, Comp.wlp_assert, Comp.wlp_pure]
      intro _
      refine (copyDataLoop_wlp hg hfr' (area.extend es) data _).mono ?_
      intro _ s' hs'
      exact ⟨hs'.1, ⟨es, hes, rfl⟩, hk.trans hs'.2⟩
  · rw [Comp.wlp_of_run hrun]
    have hheld : Held L.firstFrame ({ s₁ with starved := true } : Phys).frames
        ((area.extend es).frames ++ (pt₁.frames ++ (ms.frames ++ rest))) :=
      hM.owns.held.perm (List.perm_append_comm_assoc _ _ _)
    obtain ⟨s₂, hdrop, _, hmem, _, hst⟩ := dropFrames_run hheld
    have hsame : SameOn rest s.mem s₁.mem := by
      refine hM.same.mono ?_
      rw [hf.frames, List.nil_append]
      exact List.subset_append_right _ _
    simp only [Comp.wlp_bind, MapArea.drop]
    rw [MapArea.frames] at hdrop
    rw [Comp.wlp_of_run hdrop, Comp.wlp_pure]
    refine ⟨hst, ?_⟩
    rw [hmem]
    exact hsame
  · intro a s' hc
    rw [hrun] at hc
    cases hc

end Push

end RCore.Mm
