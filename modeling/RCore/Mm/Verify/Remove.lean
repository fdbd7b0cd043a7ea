import RCore.Mm.Verify.Push

/-!
# Taking address spaces apart

Unmapping a page of an area removes its entry and gives its frame back; `remove_mapped_frames` does
this page by page, `remove_area_with_start_vpn` for a whole area. Dropping areas or a memory set
gives back exactly the frames they own.
-/

namespace RCore.Mm

/-! ## Lists of entries -/

section Lists

variable {α β : Type}

theorem perm_cons_filter {l : List (Nat × α)} (hn : (l.map Prod.fst).Nodup) {k : Nat} {x : α}
    (hx : (k, x) ∈ l) : l.Perm ((k, x) :: l.filter fun e => e.1 ≠ k) := by
  induction l with
  | nil => cases hx
  | cons e l ih =>
    rw [List.map_cons, List.nodup_cons] at hn
    rw [List.mem_cons] at hx
    rcases hx with rfl | hx
    · have hself : l.filter (fun e => e.1 ≠ k) = l := by
        rw [List.filter_eq_self]
        intro e he
        simp only [decide_eq_true_eq]
        intro hc
        exact hn.1 (hc ▸ List.mem_map.mpr ⟨e, he, rfl⟩)
      rw [List.filter_cons_of_neg (by simp), hself]
    · have hne : e.1 ≠ k := by
        intro hc
        exact hn.1 (hc ▸ List.mem_map.mpr ⟨(k, x), hx, rfl⟩)
      rw [List.filter_cons_of_pos (by simpa using hne)]
      exact ((ih hn.2 hx).cons e).trans (List.Perm.swap _ _ _)

/-- Taking one element out of one part of a concatenation. -/
theorem flatMap_perm_cons {g : α → List β} {a a' : α} {x : β} (h : (g a).Perm (x :: g a'))
    (pre post : List α) :
    ((pre ++ a :: post).flatMap g).Perm (x :: (pre ++ a' :: post).flatMap g) := by
  rw [List.flatMap_append, List.flatMap_append, List.flatMap_cons, List.flatMap_cons]
  have hmid : (g a ++ post.flatMap g).Perm (x :: (g a' ++ post.flatMap g)) :=
    h.append_right _
  exact (hmid.append_left _).trans List.perm_middle

theorem findIdx?_split {l : List α} {p : α → Bool} {i : Nat} (h : l.findIdx? p = some i) :
    ∃ pre a post, l = pre ++ a :: post ∧ pre.length = i ∧ p a = true := by
  rw [List.findIdx?_eq_some_iff_getElem] at h
  obtain ⟨hi, hp, _⟩ := h
  refine ⟨l.take i, l[i], l.drop (i + 1), ?_, ?_, hp⟩
  · rw [List.getElem_cons_drop, List.take_append_drop]
  · rw [List.length_take]
    omega

theorem findIdx?_of_mem {l : List α} {p : α → Bool} (h : ∃ a ∈ l, p a = true) :
    ∃ i, l.findIdx? p = some i := by
  cases hc : l.findIdx? p with
  | some i => exact ⟨i, rfl⟩
  | none =>
    rw [List.findIdx?_eq_none_iff] at hc
    obtain ⟨a, ha, hp⟩ := h
    rw [hc a ha] at hp
    cases hp

end Lists

theorem AreaOk.nodup {area : MapArea} (h : AreaOk area) : (area.dataFrames.map Prod.fst).Nodup :=
  h.sorted.imp fun hlt => Nat.ne_of_lt hlt

theorem MapArea.holds_iff {area : MapArea} {v : Nat} :
    area.holds v = true ↔ v ∈ area.dataFrames.map Prod.fst := by
  rw [MapArea.holds, Option.isSome_iff_ne_none, Ne, lookup_eq_none_iff, not_not]

/-! ## One page -/

/-- An area without the frame of a page. -/
def MapArea.without (area : MapArea) (vpn : Nat) : MapArea :=
  { area with dataFrames := area.dataFrames.filter fun e => e.1 ≠ vpn }

section One

variable {L : Layout} {rest : List Nat} {s : Phys} {ms : MemorySet} {pre post : List MapArea}
  {area : MapArea} {vpn f : Nat}

theorem AreaOk.without (h : AreaOk area) (hfr : area.mapType = .framed) (vpn : Nat) :
    AreaOk (area.without vpn) := by
  have hfr' : (area.without vpn).mapType = .framed := hfr
  have hsub : ((area.without vpn).dataFrames.map Prod.fst).Sublist
      (area.dataFrames.map Prod.fst) := List.filter_sublist.map Prod.fst
  refine ⟨h.le, ?_, h.sorted.sublist hsub, fun hi => absurd (hfr.symm.trans hi) (by decide)⟩
  intro v hv
  rw [MapArea.entries_framed hfr'] at hv
  apply h.keys
  rw [MapArea.entries_framed hfr]
  exact hsub.subset hv

theorem ptes_perm_without (h : AreaOk area) (hfr : area.mapType = .framed)
    (hmem : (vpn, f) ∈ area.dataFrames) :
    area.ptes.Perm ((vpn, PageTableEntry.new f (area.mapPerm ||| PTEFlags.V)) ::
      (area.without vpn).ptes) := by
  have hfr' : (area.without vpn).mapType = .framed := hfr
  rw [MapArea.ptes, MapArea.ptes, MapArea.entries_framed hfr, MapArea.entries_framed hfr']
  exact (perm_cons_filter h.nodup hmem).map _

theorem frames_perm_without (h : AreaOk area) (hmem : (vpn, f) ∈ area.dataFrames) :
    area.frames.Perm (f :: (area.without vpn).frames) :=
  (perm_cons_filter h.nodup hmem).map Prod.snd

/-- Removing one entry from the page table, when the areas do not stand for it any more. -/
theorem Good.unmapEntry {ms' : MemorySet} {es : List (Nat × PageTableEntry)} {x : PageTableEntry}
    (ho : Owns L.firstFrame (ms'.frames ++ rest) s ms'.pageTable)
    (htr : ∀ v e, v < 2 ^ 27 → (ms'.translate s.mem v = some e ↔ (v, e) ∈ es))
    (hn : (es.map Prod.fst).Nodup) (hperm : es.Perm ((vpn, x) :: ms'.entries L))
    (hv : vpn < 2 ^ 27) (harea : ∀ area ∈ ms'.areas, AreaOk area) :
    ∃ s', (ms'.pageTable.unmap vpn).run s = some ((), s') ∧ Good L rest s' ms' ∧
      (∀ v e, (v, e) ∈ ms'.entries L ↔ (v, e) ∈ es ∧ v ≠ vpn) ∧
      s'.frames.free = s.frames.free ∧ s'.starved = s.starved := by
  have hkeys : (vpn :: (ms'.entries L).map Prod.fst).Nodup :=
    (hperm.map Prod.fst).nodup_iff.mp hn
  rw [List.nodup_cons] at hkeys
  have hiff : ∀ v e, (v, e) ∈ ms'.entries L ↔ (v, e) ∈ es ∧ v ≠ vpn := by
    intro v e
    rw [hperm.mem_iff, List.mem_cons]
    constructor
    · intro hm
      refine ⟨Or.inr hm, ?_⟩
      intro hc
      exact hkeys.1 (List.mem_map.mpr ⟨(v, e), hm, hc⟩)
    · rintro ⟨hm | hm, hne⟩
      · cases hm
        exact absurd rfl hne
      · exact hm
  have hmapped : ms'.translate s.mem vpn = some x := by
    rw [htr vpn x hv, hperm.mem_iff]
    exact List.mem_cons_self
  rcases unmap_run ho hv with ⟨s', hunmap, _, heff, htr'⟩ | ⟨hnone, _⟩
  · refine ⟨s', hunmap, ⟨heff.owns, ?_, hkeys.2, harea⟩, hiff, ?_, heff.starved⟩
    · intro v e hv'
      rw [hiff, MemorySet.translate, htr' v hv']
      by_cases hvv : v = vpn
      · rw [if_pos hvv]
        constructor
        · intro hc
          cases hc
        · intro hc
          exact absurd hvv hc.2
      · rw [if_neg hvv, ← htr v e hv']
        exact (and_iff_left hvv).symm
    · have hf := heff.free
      rw [PageTable.missing, Finset.filter_empty, Finset.card_empty, Nat.add_zero] at hf
      exact hf
  · rw [MemorySet.translate] at hmapped
    rw [hmapped] at hnone
    cases hnone

/-- **One page.** Unmapping a page of a framed area gives its frame back and never panics. -/
theorem Good.unmapOne (h : Good L rest s ms) (hareas : ms.areas = pre ++ area :: post)
    (hfr : area.mapType = .framed) (hmem : (vpn, f) ∈ area.dataFrames) :
    ∃ s', (area.unmapOne ms.pageTable vpn).run s = some (area.without vpn, s') ∧
      Good L rest s' ⟨ms.pageTable, pre ++ area.without vpn :: post⟩ ∧
      (∀ v e, (v, e) ∈ MemorySet.entries L ⟨ms.pageTable, pre ++ area.without vpn :: post⟩ ↔
        (v, e) ∈ ms.entries L ∧ v ≠ vpn) ∧
      s'.frames.free = s.frames.free + 1 ∧ SameOn (ms.frames ++ rest) s.mem s'.mem ∧
      s'.starved = s.starved := by
  have hok : AreaOk area := h.area area (by rw [hareas]; simp)
  have hlook : area.dataFrames.lookup vpn = some f := (lookup_eq_some_iff hok.nodup).mpr hmem
  have hframes : ms.frames.Perm
      (f :: MemorySet.frames ⟨ms.pageTable, pre ++ area.without vpn :: post⟩) := by
    rw [MemorySet.frames, MemorySet.frames, hareas]
    exact flatMap_perm_cons (frames_perm_without hok hmem) pre post
  have hentries : (ms.entries L).Perm
      ((vpn, PageTableEntry.new f (area.mapPerm ||| PTEFlags.V)) ::
        MemorySet.entries L ⟨ms.pageTable, pre ++ area.without vpn :: post⟩) := by
    rw [MemorySet.entries, MemorySet.entries, hareas]
    exact ((flatMap_perm_cons (ptes_perm_without hok hfr hmem) pre post).cons _).trans
      (List.Perm.swap _ _ _)
  have hv27 : vpn < 2 ^ 27 := by
    apply h.lt_of_key
    rw [(hentries.map Prod.fst).mem_iff]
    exact List.mem_cons_self
  -- The frame goes back first.
  have hheld : Held L.firstFrame s.frames (f :: (ms.pageTable.frames ++
      (MemorySet.frames ⟨ms.pageTable, pre ++ area.without vpn :: post⟩ ++ rest))) := by
    apply h.owns.held.perm
    exact ((hframes.append_right rest).append_left _).trans List.perm_middle
  obtain ⟨s₁, hdealloc, hheld₁, hmem₁, hfree₁, hst₁⟩ := frameDealloc_run hheld
  have ho₁ : Owns L.firstFrame
      (MemorySet.frames ⟨ms.pageTable, pre ++ area.without vpn :: post⟩ ++ rest) s₁
      ms.pageTable := by
    refine ⟨?_, hheld₁⟩
    rw [hmem₁]
    exact h.owns.tables
  have harea : ∀ a ∈ pre ++ area.without vpn :: post, AreaOk a := by
    intro a ha
    rw [List.mem_append, List.mem_cons] at ha
    rcases ha with ha | rfl | ha
    · exact h.area a (by rw [hareas]; simp [ha])
    · exact hok.without hfr vpn
    · exact h.area a (by rw [hareas]; simp [ha])
  have htr₁ : ∀ v e, v < 2 ^ 27 → (MemorySet.translate s₁.mem
      ⟨ms.pageTable, pre ++ area.without vpn :: post⟩ v = some e ↔ (v, e) ∈ ms.entries L) := by
    rw [hmem₁]
    exact h.translate
  obtain ⟨s₂, hunmap, hg, hiff, hfree₂, hst₂⟩ :=
    Good.unmapEntry ho₁ htr₁ h.nodup hentries hv27 harea
  refine ⟨s₂, ?_, hg, hiff, hfree₂.trans hfree₁, ?_, hst₂.trans hst₁⟩
  · have hremove : (area.removeFrame vpn).run s = some (area.without vpn, s₁) := by
      rw [MapArea.removeFrame, hlook]
      simp only [Comp.run_bind, hdealloc, Option.bind_some, Comp.run_pure, MapArea.without]
    rw [MapArea.unmapOne, if_pos hfr, Comp.run_bind, hremove, Option.bind_some, Comp.run_bind,
      hunmap, Option.bind_some, Comp.run_pure]
  · -- The only store is into a table.
    rw [← hmem₁]
    apply unmap_same hunmap ho₁.tables
    intro g hg hc
    exact (List.nodup_append.mp h.owns.held.nodup).2.2 g hc g hg rfl

end One

/-- The frame of the page is free afterwards. -/
theorem unmapOne_recycled (area : MapArea) (pt : PageTable) (vpn : Nat) (s : Phys) :
    (area.unmapOne pt vpn).wlp (fun _ s' => s.frames.recycled ⊆ s'.frames.recycled ∧
      (area.mapType = .framed → ∀ f, area.dataFrames.lookup vpn = some f → f ∈ s'.frames.recycled)) s := by
  have hdealloc : ∀ ppn, (frameDealloc ppn).wlp (fun _ s' => s'.frames.recycled = ppn :: s.frames.recycled) s := by
    intro ppn
    simp only [frameDealloc, StackFrameAllocator.dealloc, Comp.wlp_bind, Comp.wlp_get, Comp.wlp_unwrap,
      Comp.wlp_modify]
    intro a ha
    split at ha
    · cases ha
    · cases ha
      rfl
  rw [MapArea.unmapOne]
  split
  · rw [MapArea.removeFrame]
    cases area.dataFrames.lookup vpn with
    | none =>
      simp only [PageTable.unmap, writePte, Comp.wlp_bind, Comp.wlp_pure, Comp.wlp_get, Comp.wlp_unwrap,
        Comp.wlp_assert, Comp.wlp_modify]
      intro _ _ _
      exact ⟨List.Subset.refl _, fun _ _ hf => by cases hf⟩
    | some old =>
      simp only [PageTable.unmap, writePte, Comp.wlp_bind, Comp.wlp_pure, Comp.wlp_get, Comp.wlp_unwrap,
        Comp.wlp_assert, Comp.wlp_modify]
      refine (hdealloc old).mono fun _ s' hs' _ _ _ => ?_
      rw [hs']
      refine ⟨List.subset_cons_self _ _, fun _ f hf => ?_⟩
      cases hf
      exact List.mem_cons_self
  · next htype =>
    simp only [PageTable.unmap, writePte, Comp.wlp_bind, Comp.wlp_pure, Comp.wlp_get, Comp.wlp_unwrap,
      Comp.wlp_assert, Comp.wlp_modify]
    intro _ _ _
    exact ⟨List.Subset.refl _, fun hc => absurd hc htype⟩

/-! ## `remove_mapped_frames` -/

/-- The pages the areas hold frames for. -/
def MemorySet.pages (ms : MemorySet) : List Nat :=
  ms.areas.flatMap fun area => area.dataFrames.map Prod.fst

theorem MemorySet.mem_pages {ms : MemorySet} {v : Nat} :
    v ∈ ms.pages ↔ ∃ area ∈ ms.areas, area.holds v = true := by
  simp only [MemorySet.pages, List.mem_flatMap, MapArea.holds_iff]

/-- The keys of the entries of a user's address space. -/
theorem MemorySet.Framed.keys {ms : MemorySet} (h : ms.Framed) (L : Layout) :
    (ms.entries L).map Prod.fst = trampolineVpn :: ms.pages := by
  rw [MemorySet.entries, List.map_cons, List.map_flatMap, MemorySet.pages]
  congr 1
  have hmap : ∀ areas : List MapArea, (∀ a ∈ areas, a.mapType = .framed) →
      areas.flatMap (fun a => a.ptes.map Prod.fst) =
        areas.flatMap (fun a => a.dataFrames.map Prod.fst) := by
    intro areas hall
    induction areas with
    | nil => rfl
    | cons a areas ih =>
      rw [List.flatMap_cons, List.flatMap_cons, ih fun b hb => hall b (List.mem_cons_of_mem _ hb),
        MapArea.map_fst_ptes, MapArea.entries_framed (hall a List.mem_cons_self)]
  exact hmap ms.areas h

/-- An area without mappings may be left out. -/
theorem Good.erase {L : Layout} {rest : List Nat} {s : Phys} {pt : PageTable}
    {pre post : List MapArea} {area : MapArea} (h : Good L rest s ⟨pt, pre ++ area :: post⟩)
    (hptes : area.ptes = []) (hframes : area.frames = []) :
    Good L rest s ⟨pt, pre ++ post⟩ ∧
      MemorySet.entries L ⟨pt, pre ++ post⟩ = MemorySet.entries L ⟨pt, pre ++ area :: post⟩ := by
  have hf : MemorySet.frames ⟨pt, pre ++ post⟩ = MemorySet.frames ⟨pt, pre ++ area :: post⟩ := by
    rw [MemorySet.frames, MemorySet.frames, List.flatMap_append, List.flatMap_append,
      List.flatMap_cons, hframes, List.nil_append]
  have he : MemorySet.entries L ⟨pt, pre ++ post⟩ =
      MemorySet.entries L ⟨pt, pre ++ area :: post⟩ := by
    rw [MemorySet.entries, MemorySet.entries, List.flatMap_append, List.flatMap_append,
      List.flatMap_cons, hptes, List.nil_append]
  refine ⟨⟨?_, ?_, ?_, ?_⟩, he⟩
  · rw [hf]
    exact h.owns
  · rw [he]
    exact h.translate
  · rw [he]
    exact h.nodup
  · intro a ha
    apply h.area
    rw [List.mem_append] at ha
    rw [List.mem_append, List.mem_cons]
    tauto

/-- The pages `vpns` have been removed between `s` and `s'`. -/
structure Removed (L : Layout) (rest : List Nat) (s : Phys) (ms : MemorySet) (vpns : List Nat)
    (s' : Phys) (ms' : MemorySet) : Prop where
  good : Good L rest s' ms'
  framed : ms'.Framed
  pageTable : ms'.pageTable = ms.pageTable
  entries : ∀ v e, (v, e) ∈ ms'.entries L ↔ (v, e) ∈ ms.entries L ∧ v ∉ vpns
  frames : ms'.frames ⊆ ms.frames
  free : s'.frames.free = s.frames.free + vpns.length
  same : SameOn (ms'.frames ++ rest) s.mem s'.mem
  starved : s'.starved = s.starved

section RemoveFrames

variable {L : Layout} {rest : List Nat} {s : Phys} {ms : MemorySet}

/-- One round of the second loop of `remove_mapped_frames`. -/
theorem removeFramesLoop_round (h : Good L rest s ms) (hfr : ms.Framed) {v : Nat}
    (hv : v ∈ ms.pages) :
    ∃ s' ms', Removed L rest s ms [v] s' ms' ∧ s.frames.recycled ⊆ s'.frames.recycled ∧
      (∀ e, ms.translate s.mem v = some e → e.ppn ∈ s'.frames.recycled) ∧
      ∀ vpns, (ms.removeFramesLoop (v :: vpns)).run s = (ms'.removeFramesLoop vpns).run s' := by
  obtain ⟨i, hi⟩ := findIdx?_of_mem (MemorySet.mem_pages.mp hv)
  obtain ⟨pre, area, post, hareas, hlen, hholds⟩ := findIdx?_split hi
  have hget : ms.areas[i]? = some area := by
    rw [hareas, ← hlen, List.getElem?_append_right (Nat.le_refl _), Nat.sub_self]
    rfl
  have hafr : area.mapType = .framed := hfr area (by rw [hareas]; simp)
  obtain ⟨⟨w, f⟩, hmem, rfl⟩ := List.mem_map.mp (MapArea.holds_iff.mp hholds)
  obtain ⟨s', hrun, hg, hent, hfree, hsame, hst⟩ := h.unmapOne hareas hafr hmem
  have hamem : area ∈ ms.areas := by
    rw [hareas]
    simp
  obtain ⟨hrec, hfree'⟩ := unmapOne_recycled area ms.pageTable w s _ _ hrun
  have hback : ∀ e, ms.translate s.mem w = some e → e.ppn ∈ s'.frames.recycled := by
    intro e he
    obtain ⟨e', he', hppn, _⟩ := h.translate_area hfr hamem hmem
    cases he.symm.trans he'
    rw [hppn]
    exact hfree' hafr f ((lookup_eq_some_iff (h.area area hamem).nodup).mpr hmem)
  have hnone : (area.without w).dataFrames.lookup w = none := by
    rw [lookup_eq_none_iff]
    intro hc
    obtain ⟨e, he, hew⟩ := List.mem_map.mp hc
    rw [MapArea.without, List.mem_filter] at he
    simp only [decide_eq_true_eq] at he
    exact he.2 hew
  have hagain : ((area.without w).removeFrame w).run s' = some (area.without w, s') := by
    have hfilter : (area.without w).dataFrames.filter (fun e => e.1 ≠ w) =
        (area.without w).dataFrames := by
      rw [MapArea.without, List.filter_filter]
      simp
    rw [MapArea.removeFrame, hnone, hfilter]
    rfl
  have hfr' : MemorySet.Framed ⟨ms.pageTable, pre ++ area.without w :: post⟩ := by
    intro a ha
    rw [List.mem_append, List.mem_cons] at ha
    rcases ha with ha | rfl | ha
    · exact hfr a (by rw [hareas]; simp [ha])
    · exact hafr
    · exact hfr a (by rw [hareas]; simp [ha])
  have hsub : MemorySet.frames ⟨ms.pageTable, pre ++ area.without w :: post⟩ ⊆ ms.frames := by
    have hperm : ms.frames.Perm
        (f :: MemorySet.frames ⟨ms.pageTable, pre ++ area.without w :: post⟩) := by
      rw [MemorySet.frames, MemorySet.frames, hareas]
      exact flatMap_perm_cons (frames_perm_without (h.area area (by rw [hareas]; simp)) hmem)
        pre post
    intro g hg'
    exact hperm.mem_iff.mpr (List.mem_cons_of_mem _ hg')
  have hloop : ∀ vpns, (ms.removeFramesLoop (w :: vpns)).run s =
      (MemorySet.removeFramesLoop
        { ms with areas := if (area.without w).dataFrames.isEmpty then ms.areas.eraseIdx i
                  else ms.areas.set i (area.without w) } vpns).run s' := by
    intro vpns
    rw [MemorySet.removeFramesLoop]
    simp only [hi, hget, Comp.unwrap, Comp.run_bind, Comp.run_pure, Option.bind_some, hrun,
      hagain]
  have hiff : ∀ x e, (x, e) ∈ MemorySet.entries L
      ⟨ms.pageTable, pre ++ area.without w :: post⟩ ↔ (x, e) ∈ ms.entries L ∧ x ∉ [w] := by
    intro x e
    rw [List.mem_singleton]
    exact hent x e
  by_cases hempty : (area.without w).dataFrames.isEmpty = true
  · have hnil : (area.without w).dataFrames = [] := List.isEmpty_iff.mp hempty
    have hentries : (area.without w).entries = (area.without w).dataFrames :=
      MapArea.entries_framed hafr
    have hptes : (area.without w).ptes = [] := by
      rw [MapArea.ptes, hentries, hnil, List.map_nil]
    have hframes : (area.without w).frames = [] := by rw [MapArea.frames, hnil, List.map_nil]
    obtain ⟨hg', hent'⟩ := hg.erase hptes hframes
    have hfeq : MemorySet.frames ⟨ms.pageTable, pre ++ post⟩ =
        MemorySet.frames ⟨ms.pageTable, pre ++ area.without w :: post⟩ := by
      rw [MemorySet.frames, MemorySet.frames, List.flatMap_append, List.flatMap_append,
        List.flatMap_cons, hframes, List.nil_append]
    refine ⟨s', ⟨ms.pageTable, pre ++ post⟩, ⟨hg', ?_, rfl, ?_, ?_, hfree, ?_, hst⟩, hrec, hback, ?_⟩
    · intro a ha
      apply hfr' a
      rw [List.mem_append] at ha
      rw [List.mem_append, List.mem_cons]
      tauto
    · rw [hent']
      exact hiff
    · rw [hfeq]
      exact hsub
    · rw [hfeq]
      apply hsame.mono
      intro g hg''
      rw [List.mem_append] at hg'' ⊢
      exact hg''.imp (fun hx => hsub hx) id
    · intro vpns
      rw [hloop vpns, if_pos hempty, hareas, ← hlen, List.eraseIdx_append_of_length_le
        (Nat.le_refl _), Nat.sub_self, List.eraseIdx_cons_zero]
  · refine ⟨s', ⟨ms.pageTable, pre ++ area.without w :: post⟩,
      ⟨hg, hfr', rfl, hiff, hsub, hfree, ?_, hst⟩, hrec, hback, ?_⟩
    · apply hsame.mono
      intro g hg''
      rw [List.mem_append] at hg'' ⊢
      exact hg''.imp (fun hx => hsub hx) id
    · intro vpns
      rw [hloop vpns, if_neg hempty, hareas, ← hlen, List.set_append_right _ _ (Nat.le_refl _),
        Nat.sub_self, List.set_cons_zero]

/-- **`remove_mapped_frames`** removes the pages one by one and never panics on pages that are held. -/
theorem removeFramesLoop_run (h : Good L rest s ms) (hfr : ms.Framed) {vpns : List Nat}
    (hn : vpns.Nodup) (hv : ∀ v ∈ vpns, v ∈ ms.pages) :
    ∃ s' ms', (ms.removeFramesLoop vpns).run s = some (ms', s') ∧
      Removed L rest s ms vpns s' ms' := by
  induction vpns generalizing s ms with
  | nil =>
    refine ⟨s, ms, rfl, h, hfr, rfl, ?_, List.Subset.refl _, rfl, SameOn.refl _ _, rfl⟩
    intro v e
    simp
  | cons v vpns ih =>
    rw [List.nodup_cons] at hn
    obtain ⟨s₁, ms₁, hR, _, _, hloop⟩ := removeFramesLoop_round h hfr (hv v List.mem_cons_self)
    have hv₁ : ∀ w ∈ vpns, w ∈ ms₁.pages := by
      intro w hw
      have hkey : w ∈ (ms.entries L).map Prod.fst := by
        rw [hfr.keys L]
        exact List.mem_cons_of_mem _ (hv w (List.mem_cons_of_mem _ hw))
      obtain ⟨⟨x, e⟩, he, rfl⟩ := List.mem_map.mp hkey
      have hne : x ∉ [v] := by
        rw [List.mem_singleton]
        intro hc
        exact hn.1 (hc ▸ hw)
      have hkey₁ : x ∈ (ms₁.entries L).map Prod.fst :=
        List.mem_map.mpr ⟨(x, e), (hR.entries x e).mpr ⟨he, hne⟩, rfl⟩
      rw [hR.framed.keys L, List.mem_cons] at hkey₁
      rcases hkey₁ with hkey₁ | hkey₁
      · -- The trampoline's page is no page of an area.
        have hnod := h.nodup
        rw [hfr.keys L, List.nodup_cons] at hnod
        exact absurd (hv x (List.mem_cons_of_mem _ hw)) (hkey₁ ▸ hnod.1)
      · exact hkey₁
    obtain ⟨s₂, ms₂, hrun, hR₂⟩ := ih hR.good hR.framed hn.2 hv₁
    refine ⟨s₂, ms₂, ?_, hR₂.good, hR₂.framed, hR₂.pageTable.trans hR.pageTable, ?_, ?_, ?_, ?_,
      hR₂.starved.trans hR.starved⟩
    · rw [hloop, hrun]
    · intro w e
      rw [hR₂.entries, hR.entries, List.mem_singleton, List.mem_cons, not_or, and_assoc]
    · intro g hg
      exact hR.frames (hR₂.frames hg)
    · rw [hR₂.free, hR.free, List.length_singleton, List.length_cons]
      omega
    · refine SameOn.trans (hR.same.mono ?_) hR₂.same
      intro g hg
      rw [List.mem_append] at hg ⊢
      exact hg.imp (fun hx => hR₂.frames hx) id

/-- The pages of the range are removed if every one of them is held, and the call panics only on a
reversed range. -/
theorem removeMappedFrames_run (h : Good L rest s ms) (hfr : ms.Framed) (startVa endVa : VirtAddr) :
    (startVa.floor ≤ endVa.ceil ∧ (∀ v ∈ pagesBetween startVa endVa, v ∈ ms.pages) ∧
      ∃ s' ms', (ms.removeMappedFrames startVa endVa).run s = some ((0, ms'), s') ∧
        Removed L rest s ms (pagesBetween startVa endVa) s' ms') ∨
    (startVa.floor ≤ endVa.ceil ∧ (∃ v ∈ pagesBetween startVa endVa, v ∉ ms.pages) ∧
      (ms.removeMappedFrames startVa endVa).run s = some ((-1, ms), s)) ∨
    (¬ startVa.floor ≤ endVa.ceil ∧ (ms.removeMappedFrames startVa endVa).run s = none) := by
  by_cases hle : startVa.floor ≤ endVa.ceil
  · have hany : (VPNRange.toList ⟨startVa.floor, endVa.ceil, hle⟩).any
        (fun vpn => !ms.areas.any fun area => area.holds vpn) = true ↔
          ∃ v ∈ pagesBetween startVa endVa, v ∉ ms.pages := by
      rw [List.any_eq_true]
      constructor
      · rintro ⟨v, hv, hn⟩
        refine ⟨v, hv, ?_⟩
        rw [MemorySet.mem_pages, ← List.any_eq_true]
        simpa using hn
      · rintro ⟨v, hv, hn⟩
        refine ⟨v, hv, ?_⟩
        rw [MemorySet.mem_pages, ← List.any_eq_true] at hn
        simpa using hn
    by_cases hc : ∃ v ∈ pagesBetween startVa endVa, v ∉ ms.pages
    · right; left
      refine ⟨hle, hc, ?_⟩
      rw [MemorySet.removeMappedFrames, Comp.run_bind, VPNRange.new_run hle, Option.bind_some,
        if_pos (hany.mpr hc), Comp.run_pure]
    · left
      have hall : ∀ v ∈ pagesBetween startVa endVa, v ∈ ms.pages := by
        intro v hv
        by_contra hn
        exact hc ⟨v, hv, hn⟩
      obtain ⟨s', ms', hrun, hR⟩ := removeFramesLoop_run h hfr
        (List.nodup_range' : (pagesBetween startVa endVa).Nodup) hall
      refine ⟨hle, hall, s', ms', ?_, hR⟩
      rw [MemorySet.removeMappedFrames, Comp.run_bind, VPNRange.new_run hle, Option.bind_some,
        if_neg (fun hx => hc (hany.mp hx)), Comp.run_bind]
      have hrun' : (ms.removeFramesLoop
          (VPNRange.toList ⟨startVa.floor, endVa.ceil, hle⟩)).run s = some (ms', s') := hrun
      rw [hrun', Option.bind_some, Comp.run_pure]
  · right; right
    refine ⟨hle, ?_⟩
    rw [MemorySet.removeMappedFrames, Comp.run_bind, VPNRange.new_reversed hle, Option.bind_none]

end RemoveFrames

/-! ## `remove_area_with_start_vpn` -/

/-- Every area still stands for all the pages of its range. -/
def MemorySet.Full (ms : MemorySet) : Prop :=
  ∀ area ∈ ms.areas, area.entries.map Prod.fst = area.vpnRange.toList

theorem MemorySet.full_of_nil {ms : MemorySet} (h : ms.areas = []) : ms.Full := by
  intro area ha
  rw [h] at ha
  cases ha

section RemoveArea

variable {L : Layout} {rest : List Nat} {s : Phys} {pt : PageTable} {pre post : List MapArea}

theorem unmapLoop_framed_run {area : MapArea} {vs : List Nat}
    (h : Good L rest s ⟨pt, pre ++ area :: post⟩) (hfr : area.mapType = .framed)
    (hvs : area.dataFrames.map Prod.fst = vs) :
    ∃ s' area', (area.unmapLoop pt vs).run s = some (area', s') ∧ area'.dataFrames = [] ∧
      Good L rest s' ⟨pt, pre ++ post⟩ ∧ Keeps rest s s' := by
  induction vs generalizing area s with
  | nil =>
    have hnil : area.dataFrames = [] := List.map_eq_nil_iff.mp hvs
    have hptes : area.ptes = [] := by
      rw [MapArea.ptes, MapArea.entries_framed hfr, hnil, List.map_nil]
    have hframes : area.frames = [] := by rw [MapArea.frames, hnil, List.map_nil]
    exact ⟨s, area, rfl, hnil, (h.erase hptes hframes).1, Keeps.refl _ _⟩
  | cons v vs ih =>
    obtain ⟨e, es, hes, rfl, hvs'⟩ := List.map_eq_cons_iff.mp hvs
    obtain ⟨w, f⟩ := e
    have hmem : (w, f) ∈ area.dataFrames := by
      rw [hes]
      exact List.mem_cons_self
    have hok : AreaOk area := h.area area (by simp)
    have htail : (area.without w).dataFrames = es := by
      have hn := hok.nodup
      rw [hes, List.map_cons, List.nodup_cons] at hn
      rw [MapArea.without, hes]
      simp only
      rw [List.filter_cons_of_neg (by simp), List.filter_eq_self]
      intro x hx
      simp only [decide_eq_true_eq]
      intro hc
      exact hn.1 (List.mem_map.mpr ⟨x, hx, hc⟩)
    obtain ⟨s₁, hrun₁, hg₁, _, _, hsame₁, hst₁⟩ := h.unmapOne rfl hfr hmem
    obtain ⟨s₂, area₂, hrun₂, hnil, hg₂, hk₂⟩ := ih hg₁ hfr (by rw [htail, hvs'])
    refine ⟨s₂, area₂, ?_, hnil, hg₂, Keeps.trans ⟨?_, hst₁⟩ hk₂⟩
    · rw [MapArea.unmapLoop, Comp.run_bind, hrun₁, Option.bind_some, hrun₂]
    · exact hsame₁.mono (List.subset_append_right _ _)

/-- An identical area over the pages from `k` on. -/
def MapArea.identicalFrom (perm : MapPermission) (k n : Nat) : MapArea :=
  ⟨⟨k, k + n, Nat.le_add_right k n⟩, [], .identical, perm⟩

theorem MapArea.ptes_identicalFrom (perm : MapPermission) (k n : Nat) :
    (identicalFrom perm k (n + 1)).ptes =
      (k, PageTableEntry.new k (perm ||| PTEFlags.V)) :: (identicalFrom perm (k + 1) n).ptes := by
  have h₁ : k + (n + 1) - k = n + 1 := by omega
  have h₂ : k + 1 + n - (k + 1) = n := by omega
  simp only [ptes, entries, identicalFrom, VPNRange.toList, h₁, h₂, List.range'_succ, List.map_cons]

theorem unmapLoop_identical_run {area : MapArea} {k n : Nat} (hid : area.mapType = .identical)
    (h : Good L rest s ⟨pt, pre ++ MapArea.identicalFrom area.mapPerm k n :: post⟩) :
    ∃ s', (area.unmapLoop pt (List.range' k n)).run s = some (area, s') ∧
      Good L rest s' ⟨pt, pre ++ post⟩ ∧ Keeps rest s s' := by
  induction n generalizing k s with
  | zero =>
    have hptes : (MapArea.identicalFrom area.mapPerm k 0).ptes = [] := by
      simp [MapArea.ptes, MapArea.entries, MapArea.identicalFrom, VPNRange.toList]
    exact ⟨s, rfl, (h.erase hptes rfl).1, Keeps.refl _ _⟩
  | succ n ih =>
    have hentries : (MemorySet.entries L
        ⟨pt, pre ++ MapArea.identicalFrom area.mapPerm k (n + 1) :: post⟩).Perm
        ((k, PageTableEntry.new k (area.mapPerm ||| PTEFlags.V)) :: MemorySet.entries L
          ⟨pt, pre ++ MapArea.identicalFrom area.mapPerm (k + 1) n :: post⟩) := by
      have hp : (MapArea.identicalFrom area.mapPerm k (n + 1)).ptes.Perm
          ((k, PageTableEntry.new k (area.mapPerm ||| PTEFlags.V)) ::
            (MapArea.identicalFrom area.mapPerm (k + 1) n).ptes) := by
        rw [MapArea.ptes_identicalFrom]
      exact ((flatMap_perm_cons hp pre post).cons _).trans (List.Perm.swap _ _ _)
    have hframes : MemorySet.frames ⟨pt, pre ++ MapArea.identicalFrom area.mapPerm (k + 1) n :: post⟩ =
        MemorySet.frames ⟨pt, pre ++ MapArea.identicalFrom area.mapPerm k (n + 1) :: post⟩ := by
      simp only [MemorySet.frames, List.flatMap_append, List.flatMap_cons, MapArea.frames,
        MapArea.identicalFrom]
    have hok : AreaOk (MapArea.identicalFrom area.mapPerm k (n + 1)) := h.area _ (by simp)
    have hle : k + (n + 1) ≤ 2 ^ 27 := hok.le
    have harea : ∀ a ∈ pre ++ MapArea.identicalFrom area.mapPerm (k + 1) n :: post, AreaOk a := by
      intro a ha
      rw [List.mem_append, List.mem_cons] at ha
      rcases ha with ha | rfl | ha
      · exact h.area a (by simp [ha])
      · refine ⟨?_, ?_, List.Pairwise.nil, fun _ => rfl⟩
        · simp only [MapArea.identicalFrom]
          omega
        · intro v hv
          simp only [MapArea.entries, MapArea.identicalFrom, List.map_map] at hv
          obtain ⟨w, hw, rfl⟩ := List.mem_map.mp hv
          exact hw
      · exact h.area a (by simp [ha])
    have ho : Owns L.firstFrame (MemorySet.frames
        ⟨pt, pre ++ MapArea.identicalFrom area.mapPerm (k + 1) n :: post⟩ ++ rest) s pt := by
      rw [hframes]
      exact h.owns
    obtain ⟨s₁, hunmap, hg₁, _, _, hst₁⟩ :=
      Good.unmapEntry ho h.translate h.nodup hentries (by omega) harea
    obtain ⟨s₂, hrun₂, hg₂, hk₂⟩ := ih hg₁
    refine ⟨s₂, ?_, hg₂, Keeps.trans ⟨?_, hst₁⟩ hk₂⟩
    · have hne : ¬ area.mapType = .framed := by
        rw [hid]
        decide
      rw [List.range'_succ, MapArea.unmapLoop, Comp.run_bind, MapArea.unmapOne, if_neg hne,
        Comp.run_bind, Comp.run_pure, Option.bind_some, Comp.run_bind, hunmap, Option.bind_some,
        Comp.run_pure, Option.bind_some, hrun₂]
    · apply unmap_same hunmap ho.tables
      intro g hg hc
      exact (List.nodup_append.mp ho.held.nodup).2.2 g hc g (List.mem_append_right _ hg) rfl

/-- **`remove_area_with_start_vpn`** on a memory set whose areas are whole never panics and keeps the
invariant. -/
theorem removeArea_run {ms : MemorySet} (h : Good L rest s ms) (hfull : ms.Full) (startVpn : Nat) :
    ∃ s' ms', (ms.removeAreaWithStartVpn startVpn).run s = some (ms', s') ∧ Good L rest s' ms' ∧
      ms'.areas.Sublist ms.areas ∧ Keeps rest s s' := by
  cases hi : ms.areas.findIdx? fun area => area.vpnRange.l = startVpn with
  | none =>
    refine ⟨s, ms, ?_, h, List.Sublist.refl _, Keeps.refl _ _⟩
    rw [MemorySet.removeAreaWithStartVpn, hi]
    rfl
  | some i =>
    obtain ⟨pre, area, post, hareas, hlen, _⟩ := findIdx?_split hi
    have hget : ms.areas[i]? = some area := by
      rw [hareas, ← hlen, List.getElem?_append_right (Nat.le_refl _), Nat.sub_self]
      rfl
    have hmem : area ∈ ms.areas := by
      rw [hareas]
      simp
    have hg : Good L rest s ⟨ms.pageTable, pre ++ area :: post⟩ := by
      rw [← hareas]
      exact h
    have hunmap : ∃ s' area', (area.unmap ms.pageTable).run s = some (area', s') ∧
        area'.dataFrames = [] ∧ Good L rest s' ⟨ms.pageTable, pre ++ post⟩ ∧ Keeps rest s s' := by
      cases htype : area.mapType with
      | framed =>
        have hkeys := hfull area hmem
        rw [MapArea.entries_framed htype] at hkeys
        exact unmapLoop_framed_run hg htype hkeys
      | identical =>
        have hnil := (h.area area hmem).identical htype
        have heq : MapArea.identicalFrom area.mapPerm area.vpnRange.l
            (area.vpnRange.r - area.vpnRange.l) = area := by
          obtain ⟨⟨l, r, hle⟩, frames, mapType, perm⟩ := area
          simp only at htype hnil
          subst htype hnil
          simp only [MapArea.identicalFrom, Nat.add_sub_cancel' hle]
        obtain ⟨s', hrun, hgood, hk⟩ := unmapLoop_identical_run htype (by
          rw [heq]
          exact hg)
        exact ⟨s', area, hrun, hnil, hgood, hk⟩
    obtain ⟨s', area', hrun, hnil, hgood, hk⟩ := hunmap
    refine ⟨s', ⟨ms.pageTable, pre ++ post⟩, ?_, hgood, ?_, hk⟩
    · rw [MemorySet.removeAreaWithStartVpn, hi]
      simp only [hget, Comp.unwrap, Comp.run_bind, Comp.run_pure, Option.bind_some, hrun,
        MapArea.drop, hnil, List.map_nil, dropFrames]
      rw [hareas, ← hlen, List.eraseIdx_append_of_length_le (Nat.le_refl _), Nat.sub_self,
        List.eraseIdx_cons_zero]
    · rw [hareas]
      exact (List.sublist_cons_self area post).append_left pre

end RemoveArea

/-! ## Dropping -/

theorem dropAreas_run {lo : Nat} {areas : List MapArea} {held : List Nat} {s : Phys}
    (h : Held lo s.frames (areas.flatMap MapArea.frames ++ held)) :
    ∃ s', (MemorySet.dropAreas areas).run s = some ((), s') ∧ Held lo s'.frames held ∧
      s'.mem = s.mem ∧ s'.starved = s.starved := by
  induction areas generalizing s with
  | nil => exact ⟨s, rfl, h, rfl, rfl⟩
  | cons area areas ih =>
    rw [List.flatMap_cons, List.append_assoc] at h
    obtain ⟨s₁, hrun₁, hheld₁, hmem₁, _, hst₁⟩ := dropFrames_run h
    obtain ⟨s₂, hrun₂, hheld₂, hmem₂, hst₂⟩ := ih hheld₁
    refine ⟨s₂, ?_, hheld₂, hmem₂.trans hmem₁, hst₂.trans hst₁⟩
    rw [MemorySet.dropAreas, Comp.run_bind, MapArea.drop]
    rw [MapArea.frames] at hrun₁
    rw [hrun₁, Option.bind_some, hrun₂]

/-- `recycle_data_pages` gives the frames of the areas back and leaves the tables. -/
theorem recycleDataPages_run {lo : Nat} {ms : MemorySet} {held : List Nat} {s : Phys}
    (h : Held lo s.frames (ms.owned ++ held)) :
    ∃ s', ms.recycleDataPages.run s = some ({ ms with areas := [] }, s') ∧
      Held lo s'.frames (ms.pageTable.frames ++ held) ∧ s'.mem = s.mem ∧
      s'.starved = s.starved := by
  have h' : Held lo s.frames (ms.areas.flatMap MapArea.frames ++ (ms.pageTable.frames ++ held)) := by
    apply h.perm
    rw [MemorySet.owned, List.append_assoc]
    exact List.perm_append_comm_assoc _ _ _
  obtain ⟨s', hrun, hheld, hmem, hst⟩ := dropAreas_run h'
  refine ⟨s', ?_, hheld, hmem, hst⟩
  rw [MemorySet.recycleDataPages, Comp.run_bind, hrun, Option.bind_some, Comp.run_pure]

/-- Dropping a memory set gives all its frames back. -/
theorem drop_run {lo : Nat} {ms : MemorySet} {held : List Nat} {s : Phys}
    (h : Held lo s.frames (ms.owned ++ held)) :
    ∃ s', ms.drop.run s = some ((), s') ∧ Held lo s'.frames held ∧ s'.mem = s.mem ∧
      s'.starved = s.starved := by
  rw [MemorySet.owned, List.append_assoc] at h
  obtain ⟨s₁, hrun₁, hheld₁, hmem₁, _, hst₁⟩ := dropFrames_run h
  obtain ⟨s₂, hrun₂, hheld₂, hmem₂, hst₂⟩ := dropAreas_run hheld₁
  refine ⟨s₂, ?_, hheld₂, hmem₂.trans hmem₁, hst₂.trans hst₁⟩
  rw [MemorySet.drop, Comp.run_bind, hrun₁, Option.bind_some, hrun₂]

end RCore.Mm
