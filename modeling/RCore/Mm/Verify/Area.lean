import RCore.Mm.MemorySet
import RCore.Mm.Verify.Mapping

/-!
# Mapping a range of pages

`MapArea::map` goes through the pages of its range and, for a framed area, takes a frame for every
page before it maps it. `Mapped` says what has happened after some of the pages. A run of the loop
ends in one of three ways: all pages are mapped; the allocator has no frame for the next page, and
the loop returns the error; or `PageTable::map` panics on the next page, because it is mapped or
because a table for it finds no frame.
-/

namespace RCore.Mm

/-- The tables below the root that the pages need. -/
def pathsOf : List Nat → Finset Path
  | [] => ∅
  | v :: vs => PageTable.tablePaths v ∪ pathsOf vs

theorem pathsOf_length {vs : List Nat} {p : Path} (hp : p ∈ pathsOf vs) : p.length < 3 := by
  induction vs with
  | nil => simp [pathsOf] at hp
  | cons v vs ih =>
    rw [pathsOf, Finset.mem_union] at hp
    rcases hp with hp | hp
    · exact tablePaths_length hp
    · exact ih hp

theorem pathsOf_append (vs ws : List Nat) : pathsOf (vs ++ ws) = pathsOf vs ∪ pathsOf ws := by
  induction vs with
  | nil => simp [pathsOf]
  | cons v vs ih => rw [List.cons_append, pathsOf, pathsOf, ih, Finset.union_assoc]

namespace PageTable

theorem missing_mono {m : Mem} {pt : PageTable} {ps qs : Finset Path} (h : ps ⊆ qs) :
    pt.missing m ps ≤ pt.missing m qs :=
  Finset.card_le_card (Finset.filter_subset_filter _ h)

theorem missing_congr {m m' : Mem} {pt : PageTable} {ps : Finset Path}
    (h : ∀ p ∈ ps, pt.table m' p = pt.table m p) : pt.missing m' ps = pt.missing m ps := by
  have hf : ps.filter (fun p => pt.table m' p = none) = ps.filter (fun p => pt.table m p = none) :=
    Finset.filter_congr fun p hp => by rw [h p hp]
  rw [missing, missing, hf]

theorem missing_le_append {m : Mem} {pt : PageTable} (vs ws : List Nat) :
    pt.missing m (pathsOf vs) ≤ pt.missing m (pathsOf (vs ++ ws)) := by
  rw [pathsOf_append]
  exact missing_mono Finset.subset_union_left

end PageTable

namespace MapArea

/-- The frames an area holds. -/
def frames (area : MapArea) : List Nat := area.dataFrames.map Prod.snd

/-- The area after the pages of `es` have got the frames of `es`. -/
def extend (area : MapArea) (es : List (Nat × Nat)) : MapArea :=
  match area.mapType with
  | .framed => { area with dataFrames := area.dataFrames ++ es }
  | .identical => area

/-- The number of frames an area takes for a page. -/
def cost (area : MapArea) : Nat :=
  match area.mapType with
  | .framed => 1
  | .identical => 0

@[simp] theorem extend_mapType (area : MapArea) (es : List (Nat × Nat)) :
    (area.extend es).mapType = area.mapType := by
  unfold extend
  split <;> rfl

@[simp] theorem extend_mapPerm (area : MapArea) (es : List (Nat × Nat)) :
    (area.extend es).mapPerm = area.mapPerm := by
  unfold extend
  split <;> rfl

@[simp] theorem extend_vpnRange (area : MapArea) (es : List (Nat × Nat)) :
    (area.extend es).vpnRange = area.vpnRange := by
  unfold extend
  split <;> rfl

@[simp] theorem extend_nil (area : MapArea) : area.extend [] = area := by
  unfold extend
  split
  · rw [List.append_nil]
  · rfl

@[simp] theorem extend_extend (area : MapArea) (es es' : List (Nat × Nat)) :
    (area.extend es).extend es' = area.extend (es ++ es') := by
  obtain ⟨range, frames, mapType, perm⟩ := area
  cases mapType with
  | framed => simp [extend]
  | identical => rfl

@[simp] theorem extend_cost (area : MapArea) (es : List (Nat × Nat)) :
    (area.extend es).cost = area.cost := by
  unfold cost
  rw [extend_mapType]

theorem frames_extend_framed {area : MapArea} (h : area.mapType = .framed)
    (es : List (Nat × Nat)) : (area.extend es).frames = area.frames ++ es.map Prod.snd := by
  unfold extend frames
  rw [h]
  simp

theorem frames_subset_extend (area : MapArea) (es : List (Nat × Nat)) :
    area.frames ⊆ (area.extend es).frames := by
  obtain ⟨range, frames, mapType, perm⟩ := area
  cases mapType with
  | framed =>
    intro f hf
    simp only [extend, MapArea.frames, List.map_append, List.mem_append] at hf ⊢
    exact Or.inl hf
  | identical => exact List.Subset.refl _

end MapArea

/-- The pages of `es` have been mapped to the frames of `es` between `s` and `s'`. -/
structure Mapped (lo : Nat) (rest : List Nat) (area : MapArea) (s : Phys) (pt : PageTable)
    (es : List (Nat × Nat)) (s' : Phys) (pt' : PageTable) : Prop where
  owns : Owns lo ((area.extend es).frames ++ rest) s' pt'
  root : pt'.rootPpn = pt.rootPpn
  translate : ∀ v e, v < 2 ^ 27 → (pt'.translate s'.mem v = some e ↔
    pt.translate s.mem v = some e ∨
      ∃ f, (v, f) ∈ es ∧ e = PageTableEntry.new f (area.mapPerm ||| PTEFlags.V))
  absent : ∀ p, p.length < 3 → (pt'.table s'.mem p = none ↔
    pt.table s.mem p = none ∧ p ∉ pathsOf (es.map Prod.fst))
  tables : ∃ new, pt'.frames = pt.frames ++ new ∧
    new.length = pt.missing s.mem (pathsOf (es.map Prod.fst))
  free : s'.frames.free + (area.cost * es.length + pt.missing s.mem (pathsOf (es.map Prod.fst))) =
    s.frames.free
  same : SameOn (area.frames ++ rest) s.mem s'.mem
  starved : s'.starved = s.starved
  unmapped : ∀ v ∈ es.map Prod.fst, pt.translate s.mem v = none
  ppn_lt : ∀ e ∈ es, e.2 < 2 ^ 44
  /-- Frames that were taken for pages are zeroed. -/
  zeroed : area.mapType = .framed → ∀ e ∈ es, ∀ x, x / 4096 = e.2 → s'.mem x = 0

namespace Mapped

variable {lo : Nat} {rest : List Nat} {area : MapArea} {s s' s'' : Phys} {pt pt' pt'' : PageTable}
  {e : Nat × Nat} {es : List (Nat × Nat)}

theorem nil (h : Owns lo (area.frames ++ rest) s pt) : Mapped lo rest area s pt [] s pt := by
  refine ⟨?_, rfl, ?_, ?_, ⟨[], ?_, ?_⟩, ?_, SameOn.refl _ _, rfl, ?_, ?_, ?_⟩
  · rw [MapArea.extend_nil]
    exact h
  · intro v e _
    simp
  · intro p _
    simp [pathsOf]
  · rw [List.append_nil]
  · simp [pathsOf, PageTable.missing]
  · simp [pathsOf, PageTable.missing]
  · simp
  · simp
  · simp

/-- The tables still missing after the first page. -/
theorem missing_cons (h : Mapped lo rest area s pt [e] s' pt') (vs : List Nat) :
    pt.missing s.mem (pathsOf (e.1 :: vs)) =
      pt.missing s.mem (pathsOf [e.1]) + pt'.missing s'.mem (pathsOf vs) := by
  have hsplit : pathsOf (e.1 :: vs) = pathsOf [e.1] ∪ pathsOf vs := by
    rw [← pathsOf_append, List.singleton_append]
  have hunion : (pathsOf (e.1 :: vs)).filter (fun p => pt.table s.mem p = none) =
      (pathsOf [e.1]).filter (fun p => pt.table s.mem p = none) ∪
        (pathsOf vs).filter (fun p => pt'.table s'.mem p = none) := by
    ext q
    rw [hsplit]
    simp only [Finset.mem_filter, Finset.mem_union]
    by_cases hqs : q ∈ pathsOf vs
    · rw [h.absent q (pathsOf_length hqs), List.map_singleton]
      generalize (pt.table s.mem q = none) = absent
      tauto
    · simp [hqs]
  unfold PageTable.missing
  rw [hunion, Finset.card_union_of_disjoint]
  rw [Finset.disjoint_left]
  intro q hq₁ hq₂
  rw [Finset.mem_filter] at hq₁ hq₂
  exact ((h.absent q (pathsOf_length hq₂.1)).mp hq₂.2).2 hq₁.1

/-- Pages other than the first are unmapped afterwards if they were before. -/
theorem translate_none_iff (h : Mapped lo rest area s pt es s' pt') {v : Nat} (hv : v < 2 ^ 27)
    (hve : v ∉ es.map Prod.fst) :
    pt'.translate s'.mem v = none ↔ pt.translate s.mem v = none := by
  have hne : ∀ x, ¬ ∃ f, (v, f) ∈ es ∧ x = PageTableEntry.new f (area.mapPerm ||| PTEFlags.V) := by
    rintro x ⟨f, hf, _⟩
    exact hve (List.mem_map.mpr ⟨(v, f), hf, rfl⟩)
  have hiff : ∀ x, pt'.translate s'.mem v = some x ↔ pt.translate s.mem v = some x := by
    intro x
    rw [h.translate v x hv]
    constructor
    · intro hx
      rcases hx with hx | hx
      · exact hx
      · exact absurd hx (hne x)
    · exact Or.inl
  rw [Option.eq_none_iff_forall_not_mem, Option.eq_none_iff_forall_not_mem]
  constructor
  · intro hn x hx
    exact hn x ((hiff x).mpr hx)
  · intro hn x hx
    exact hn x ((hiff x).mp hx)

theorem cons (h : Mapped lo rest area s pt [e] s' pt')
    (h' : Mapped lo rest (area.extend [e]) s' pt' es s'' pt'')
    (hes : ∀ v ∈ es.map Prod.fst, v < 2 ^ 27 ∧ v ≠ e.1) :
    Mapped lo rest area s pt (e :: es) s'' pt'' := by
  have hpaths : pathsOf ((e :: es).map Prod.fst) = pathsOf [e.1] ∪ pathsOf (es.map Prod.fst) := by
    rw [← pathsOf_append, List.singleton_append, List.map_cons]
  have hmiss := h.missing_cons (es.map Prod.fst)
  have hne : ∀ v ∈ es.map Prod.fst, v ∉ ([e].map Prod.fst) := by
    intro v hv hc
    rw [List.map_singleton, List.mem_singleton] at hc
    exact (hes v hv).2 hc
  refine ⟨?_, h'.root.trans h.root, ?_, ?_, ?_, ?_, ?_, h'.starved.trans h.starved, ?_, ?_, ?_⟩
  · have ho := h'.owns
    rw [MapArea.extend_extend, List.singleton_append] at ho
    exact ho
  · intro v x hv
    rw [h'.translate v x hv, h.translate v x hv, MapArea.extend_mapPerm]
    simp only [List.mem_cons, List.not_mem_nil, or_false]
    constructor
    · rintro ((hx | ⟨f, hf, hx⟩) | ⟨f, hf, hx⟩)
      · exact Or.inl hx
      · exact Or.inr ⟨f, Or.inl hf, hx⟩
      · exact Or.inr ⟨f, Or.inr hf, hx⟩
    · rintro (hx | ⟨f, hf | hf, hx⟩)
      · exact Or.inl (Or.inl hx)
      · exact Or.inl (Or.inr ⟨f, hf, hx⟩)
      · exact Or.inr ⟨f, hf, hx⟩
  · intro p hp
    rw [h'.absent p hp, h.absent p hp, hpaths, Finset.mem_union, not_or, and_assoc]
    rfl
  · obtain ⟨new, hnew, hlen⟩ := h.tables
    obtain ⟨new', hnew', hlen'⟩ := h'.tables
    refine ⟨new ++ new', ?_, ?_⟩
    · rw [hnew', hnew, List.append_assoc]
    · rw [List.length_append, hlen, hlen']
      exact hmiss.symm
  · have hf := h.free
    have hf' := h'.free
    rw [MapArea.extend_cost] at hf'
    rw [List.length_singleton, Nat.mul_one] at hf
    rw [List.map_cons, hmiss, List.length_cons, Nat.mul_add, Nat.mul_one]
    simp only [List.map_cons, List.map_nil] at hf
    omega
  · apply h.same.trans
    apply h'.same.mono
    intro f hf
    rw [List.mem_append] at hf ⊢
    rcases hf with hf | hf
    · exact Or.inl (area.frames_subset_extend [e] hf)
    · exact Or.inr hf
  · intro v hv
    rw [List.map_cons, List.mem_cons] at hv
    rcases hv with rfl | hv
    · exact h.unmapped _ (by simp)
    · exact (h.translate_none_iff (hes v hv).1 (hne v hv)).mp (h'.unmapped v hv)
  · intro x hx
    rw [List.mem_cons] at hx
    rcases hx with rfl | hx
    · exact h.ppn_lt _ List.mem_cons_self
    · exact h'.ppn_lt x hx
  · intro htype x hx y hy
    rw [List.mem_cons] at hx
    rcases hx with rfl | hx
    · -- the other pages leave the frame of the first alone
      have hmem : x.2 ∈ (area.extend [x]).frames ++ rest := by
        rw [MapArea.frames_extend_framed htype]
        simp
      rw [h'.same x.2 hmem y hy]
      exact h.zeroed htype x List.mem_cons_self y hy
    · exact h'.zeroed ((area.extend_mapType [e]).trans htype) x hx y hy

end Mapped

/-! ## Entries of a `BTreeMap` -/

theorem lookup_eq_none_iff {l : List (Nat × Nat)} {k : Nat} :
    l.lookup k = none ↔ k ∉ l.map Prod.fst := by
  induction l with
  | nil => simp
  | cons e l ih =>
    obtain ⟨k', v⟩ := e
    rw [List.lookup_cons, List.map_cons, List.mem_cons, not_or, ← ih]
    by_cases hk : k = k'
    · simp [hk]
    · have hb : (k == k') = false := beq_false_of_ne hk
      simp only [hb]
      exact (and_iff_right hk).symm

theorem lookup_eq_some_iff {l : List (Nat × Nat)} (hn : (l.map Prod.fst).Nodup) {k v : Nat} :
    l.lookup k = some v ↔ (k, v) ∈ l := by
  induction l with
  | nil => simp
  | cons e l ih =>
    obtain ⟨k', v'⟩ := e
    rw [List.map_cons, List.nodup_cons] at hn
    rw [List.lookup_cons, List.mem_cons]
    by_cases hk : k = k'
    · subst hk
      have hnm : (k, v) ∉ l := fun hc => hn.1 (List.mem_map.mpr ⟨(k, v), hc, rfl⟩)
      simp [hnm, eq_comm]
    · have hb : (k == k') = false := beq_false_of_ne hk
      have hne : (k, v) ≠ (k', v') := fun hc => hk (congrArg Prod.fst hc)
      simp only [hb, ih hn.2, hne, false_or]

theorem insertKey_of_lt {l : List (Nat × Nat)} {k v : Nat} (h : ∀ x ∈ l.map Prod.fst, x < k) :
    insertKey k v l = l ++ [(k, v)] := by
  induction l with
  | nil => rfl
  | cons e l ih =>
    obtain ⟨k', v'⟩ := e
    have hk : k' < k := h k' (by simp)
    have hl : ∀ x ∈ l.map Prod.fst, x < k := fun x hx => h x (List.mem_cons_of_mem _ hx)
    rw [insertKey, if_neg (by omega), if_neg (by omega), ih hl, List.cons_append]

/-! ## One page -/

section MapOne

variable {lo : Nat} {rest : List Nat} {area : MapArea} {s : Phys} {pt : PageTable} {vpn : Nat}

theorem Owns.perm {rest' : List Nat} (h : Owns lo rest s pt) (hp : rest.Perm rest') :
    Owns lo rest' s pt :=
  ⟨h.tables, h.held.perm (hp.append_left _)⟩

/-- A frame taken for a page, if the area takes one, and the page mapped to it. -/
theorem mapped_of_effect {s₁ s' : Phys} {pt' : PageTable} {f : Nat} {others : List Nat}
    (ho : Owns lo (area.frames ++ rest) s pt) (hf : f < 2 ^ 44)
    (hsame : SameOn (pt.frames ++ (area.frames ++ rest)) s.mem s₁.mem)
    (hfree : s₁.frames.free + area.cost = s.frames.free) (hst : s₁.starved = s.starved)
    (hperm : others.Perm ((area.extend [(vpn, f)]).frames ++ rest))
    (heff : Effect lo others s₁ pt s' pt' (PageTable.tablePaths vpn))
    (hnone : pt.translate s₁.mem vpn = none)
    (hzero : area.mapType = .framed → ∀ x, x / 4096 = f → s₁.mem x = 0)
    (htr : ∀ v, v < 2 ^ 27 → pt'.translate s'.mem v =
      if v = vpn then some (PageTableEntry.new f (area.mapPerm ||| PTEFlags.V))
      else pt.translate s₁.mem v) :
    Mapped lo rest area s pt [(vpn, f)] s' pt' := by
  have hown : SameOn pt.frames s.mem s₁.mem := hsame.mono (List.subset_append_left _ _)
  have hpaths : pathsOf ([(vpn, f)].map Prod.fst) = PageTable.tablePaths vpn := by
    simp [pathsOf]
  have htab : ∀ p : Path, p.length < 3 → pt.table s₁.mem p = pt.table s.mem p := fun p hp =>
    ho.tables.table_congr hown (Nat.le_of_lt hp)
  have htrans : ∀ v, pt.translate s₁.mem v = pt.translate s.mem v := fun v =>
    ho.tables.translate_congr hown v
  have hmiss : pt.missing s₁.mem (PageTable.tablePaths vpn) =
      pt.missing s.mem (PageTable.tablePaths vpn) :=
    PageTable.missing_congr fun p hp => htab p (tablePaths_length hp)
  refine ⟨heff.owns.perm hperm, heff.root, ?_, ?_, ?_, ?_, ?_, heff.starved.trans hst, ?_, ?_, ?_⟩
  · intro v e hv
    rw [htr v hv]
    simp only [List.mem_singleton, Prod.mk.injEq]
    by_cases hvv : v = vpn
    · subst hvv
      rw [if_pos rfl, ← htrans, hnone, Option.some.injEq]
      constructor
      · intro he
        exact Or.inr ⟨f, ⟨rfl, rfl⟩, he.symm⟩
      · rintro (hc | ⟨g, ⟨_, rfl⟩, he⟩)
        · cases hc
        · exact he.symm
    · rw [if_neg hvv, htrans]
      constructor
      · exact Or.inl
      · rintro (he | ⟨g, ⟨hc, _⟩, _⟩)
        · exact he
        · exact absurd hc hvv
  · intro p hp
    rw [heff.absent p hp, htab p hp, hpaths]
  · obtain ⟨new, hnew, hlen⟩ := heff.frames
    refine ⟨new, hnew, ?_⟩
    rw [hlen, hmiss, hpaths]
  · have hf := heff.free
    rw [hpaths, List.length_singleton, Nat.mul_one]
    omega
  · have hkeep : SameOn (area.frames ++ rest) s.mem s₁.mem :=
      hsame.mono (List.subset_append_right _ _)
    apply hkeep.trans
    apply heff.same.mono
    intro g hg
    apply hperm.mem_iff.mpr
    rw [List.mem_append] at hg ⊢
    rcases hg with hg | hg
    · exact Or.inl (area.frames_subset_extend _ hg)
    · exact Or.inr hg
  · intro v hv
    rw [List.map_singleton, List.mem_singleton] at hv
    rw [hv, ← htrans]
    exact hnone
  · intro x hx
    rw [List.mem_singleton] at hx
    rw [hx]
    exact hf
  · intro htype x hx y hy
    rw [List.mem_singleton] at hx
    subst hx
    have hmem : f ∈ others := by
      rw [hperm.mem_iff, MapArea.frames_extend_framed htype]
      simp
    rw [heff.same f hmem y hy]
    exact hzero htype y hy

/-- **One page.** `map_one` maps the page, returns the error because no frame is free, or panics. -/
theorem mapOne_run (ho : Owns lo (area.frames ++ rest) s pt) (hv : vpn < 2 ^ 27)
    (hkeys : ∀ k ∈ area.dataFrames.map Prod.fst, k < vpn) :
    (∃ f s' pt', (area.mapOne pt vpn).run s = some ((.ok (), area.extend [(vpn, f)], pt'), s') ∧
      Mapped lo rest area s pt [(vpn, f)] s' pt' ∧ (area.mapType = .identical → f = vpn)) ∨
    (area.mapType = .framed ∧ s.frames.free = 0 ∧
      (area.mapOne pt vpn).run s =
        some ((.error "No enough physical space", area, pt), { s with starved := true })) ∨
    ((area.mapType = .framed → 0 < s.frames.free) ∧
      (s.frames.free < area.cost + pt.missing s.mem (pathsOf [vpn]) ∨
        pt.translate s.mem vpn ≠ none) ∧ (area.mapOne pt vpn).run s = none) := by
  have hpaths : pathsOf [vpn] = PageTable.tablePaths vpn := by simp [pathsOf]
  cases htype : area.mapType with
  | framed =>
    have hcost : area.cost = 1 := by simp [MapArea.cost, htype]
    have hlook : area.dataFrames.lookup vpn = none := by
      rw [lookup_eq_none_iff]
      intro hc
      exact Nat.lt_irrefl vpn (hkeys vpn hc)
    rcases frameAlloc_cases ho.held with ⟨hz, hrun⟩ | ⟨f, s₁, hrun, ht⟩
    · right; left
      refine ⟨rfl, hz, ?_⟩
      rw [MapArea.mapOne, htype]
      simp [hrun]
    · have hown : SameOn pt.frames s.mem s₁.mem := ht.same.mono (List.subset_append_left _ _)
      have hf44 : f < 2 ^ 44 := ht.held.lt_of_mem List.mem_cons_self
      have ho₁ : Owns lo (f :: (area.frames ++ rest)) s₁ pt := by
        refine ⟨ho.tables.congr hown, ht.held.perm ?_⟩
        exact List.perm_middle.symm
      have hext : area.extend [(vpn, f)] =
          { area with dataFrames := insertKey vpn f area.dataFrames } := by
        rw [MapArea.extend, htype, insertKey_of_lt hkeys]
      have hins : (area.insertFrame vpn f).run s₁ = some (area.extend [(vpn, f)], s₁) := by
        rw [MapArea.insertFrame, hlook, hext]
        rfl
      have hrest : (area.mapOne pt vpn).run s =
          ((pt.map vpn f area.mapPerm).run s₁).bind fun r =>
            some ((.ok (), area.extend [(vpn, f)], r.1), r.2) := by
        rw [MapArea.mapOne, htype]
        simp only [Comp.run_bind, hrun, Option.bind_some, hins, MapArea.extend_mapPerm,
          Comp.run_pure]
      rcases map_run ho₁ hv hf44 area.mapPerm with ⟨hnone, s', pt', hmap, heff, htr⟩ | ⟨hbad, hmap⟩
      · left
        refine ⟨f, s', pt', ?_, ?_, ?_⟩
        · rw [hrest, hmap, Option.bind_some]
        · apply mapped_of_effect ho hf44 ht.same ?_ ht.starved ?_ heff hnone ?_ htr
          · rw [hcost]
            exact ht.free
          · rw [MapArea.frames_extend_framed htype, List.append_assoc]
            exact List.perm_middle.symm
          · intro _ x hx
            rw [ht.mem, zeroFrame, if_pos hx]
        · intro hc
          cases hc
      · right; right
        refine ⟨?_, ?_, ?_⟩
        · intro _
          have := ht.free
          omega
        · rw [ho.tables.translate_congr hown] at hbad
          rcases hbad with hbad | hbad
          · left
            have hfree := ht.free
            have hmiss : pt.missing s₁.mem (PageTable.tablePaths vpn) =
                pt.missing s.mem (PageTable.tablePaths vpn) :=
              PageTable.missing_congr fun p hp =>
                ho.tables.table_congr hown (Nat.le_of_lt (tablePaths_length hp))
            rw [hpaths, hcost]
            omega
          · exact Or.inr hbad
        · rw [hrest, hmap, Option.bind_none]
  | identical =>
    have hcost : area.cost = 0 := by simp [MapArea.cost, htype]
    have hv44 : vpn < 2 ^ 44 := by omega
    have hext : area.extend [(vpn, vpn)] = area := by rw [MapArea.extend, htype]
    have hrest : (area.mapOne pt vpn).run s =
        ((pt.map vpn vpn area.mapPerm).run s).bind fun r => some ((.ok (), area, r.1), r.2) := by
      rw [MapArea.mapOne, htype]
      rfl
    rcases map_run ho hv hv44 area.mapPerm with ⟨hnone, s', pt', hmap, heff, htr⟩ | ⟨hbad, hmap⟩
    · left
      refine ⟨vpn, s', pt', ?_, ?_, fun _ => rfl⟩
      · rw [hrest, hmap, Option.bind_some, hext]
      · apply mapped_of_effect ho hv44 (SameOn.refl _ _) ?_ rfl ?_ heff hnone ?_ htr
        · rw [hcost, Nat.add_zero]
        · rw [hext]
        · intro hc
          rw [htype] at hc
          cases hc
    · right; right
      refine ⟨?_, ?_, ?_⟩
      · intro hc
        cases hc
      · rw [hpaths, hcost, Nat.zero_add]
        exact hbad
      · rw [hrest, hmap, Option.bind_none]

end MapOne

/-! ## A range of pages -/

/-- The frames that mapping the pages takes: those of the pages and those of the missing tables. -/
def MapArea.need (area : MapArea) (m : Mem) (pt : PageTable) (vs : List Nat) : Nat :=
  area.cost * vs.length + pt.missing m (pathsOf vs)

theorem MapArea.need_nil (area : MapArea) (m : Mem) (pt : PageTable) : area.need m pt [] = 0 := by
  simp [MapArea.need, pathsOf, PageTable.missing]

theorem MapArea.need_le_append (area : MapArea) (m : Mem) (pt : PageTable) (vs ws : List Nat) :
    area.need m pt vs + area.cost * ws.length ≤ area.need m pt (vs ++ ws) := by
  have hm : pt.missing m (pathsOf vs) ≤ pt.missing m (pathsOf (vs ++ ws)) :=
    PageTable.missing_le_append vs ws
  unfold MapArea.need
  rw [List.length_append, Nat.mul_add]
  omega

/-- The frames that several pages take are those the first takes and, once it is mapped, those the
others take. -/
theorem Mapped.need_cons {lo : Nat} {rest : List Nat} {area : MapArea} {s s' : Phys}
    {pt pt' : PageTable} {e : Nat × Nat} (h : Mapped lo rest area s pt [e] s' pt')
    (vs : List Nat) :
    area.need s.mem pt (e.1 :: vs) + s'.frames.free =
      (area.extend [e]).need s'.mem pt' vs + s.frames.free := by
  have hf := h.free
  have hm := h.missing_cons vs
  unfold MapArea.need
  rw [MapArea.extend_cost, List.length_cons, Nat.mul_add, Nat.mul_one, hm]
  rw [List.length_singleton, Nat.mul_one, List.map_singleton] at hf
  omega

/-- **A range of pages.** The loop of `map` maps all pages, returns the error at the first page for
which no frame is left, or panics. -/
theorem mapLoop_run {lo : Nat} {rest : List Nat} {area : MapArea} {s : Phys} {pt : PageTable}
    {vs : List Nat} (ho : Owns lo (area.frames ++ rest) s pt) (hlt : ∀ v ∈ vs, v < 2 ^ 27)
    (hsort : (area.dataFrames.map Prod.fst ++ vs).Pairwise (· < ·)) :
    (∃ es s' pt', es.map Prod.fst = vs ∧
      (area.mapLoop pt vs).run s = some ((.ok (), area.extend es, pt'), s') ∧
      Mapped lo rest area s pt es s' pt' ∧
      (area.mapType = .identical → ∀ e ∈ es, e.2 = e.1)) ∨
    (∃ vs₁ v vs₂ es s' pt', vs = vs₁ ++ v :: vs₂ ∧ area.mapType = .framed ∧
      es.map Prod.fst = vs₁ ∧ Mapped lo rest area s pt es s' pt' ∧ s'.frames.free = 0 ∧
      (area.mapLoop pt vs).run s = some ((.error "No enough physical space", area.extend es, pt'),
        { s' with starved := true })) ∨
    (∃ vs₁ v vs₂, vs = vs₁ ++ v :: vs₂ ∧ (∀ x ∈ vs₁, pt.translate s.mem x = none) ∧
      area.need s.mem pt vs₁ ≤ s.frames.free ∧
      (area.mapType = .framed → area.need s.mem pt vs₁ < s.frames.free) ∧
      (s.frames.free < area.need s.mem pt (vs₁ ++ [v]) ∨ pt.translate s.mem v ≠ none) ∧
      (area.mapLoop pt vs).run s = none) := by
  induction vs generalizing area s pt with
  | nil =>
    left
    refine ⟨[], s, pt, rfl, ?_, Mapped.nil ho, fun _ _ he => absurd he (List.not_mem_nil)⟩
    rw [MapArea.extend_nil]
    rfl
  | cons v vs ih =>
    have hv : v < 2 ^ 27 := hlt v List.mem_cons_self
    rw [List.pairwise_append, List.pairwise_cons] at hsort
    obtain ⟨hkeys, ⟨hvs, hsortvs⟩, hcross⟩ := hsort
    have hkv : ∀ k ∈ area.dataFrames.map Prod.fst, k < v := fun k hk =>
      hcross k hk v List.mem_cons_self
    rcases mapOne_run ho hv hkv with ⟨f, s₁, pt₁, hrun, hM, hid⟩ | ⟨htype, hz, hrun⟩ | ⟨hpos, hbad, hrun⟩
    · have hloop : (area.mapLoop pt (v :: vs)).run s =
          ((area.extend [(v, f)]).mapLoop pt₁ vs).run s₁ := by
        rw [MapArea.mapLoop, Comp.run_bind, hrun]
        rfl
      have hsub : ((area.extend [(v, f)]).dataFrames.map Prod.fst).Sublist
          (area.dataFrames.map Prod.fst ++ [v]) := by
        unfold MapArea.extend
        split
        · rw [List.map_append]
          exact List.Sublist.refl _
        · exact List.sublist_append_left _ _
      have hsort₁ : ((area.extend [(v, f)]).dataFrames.map Prod.fst ++ vs).Pairwise (· < ·) := by
        have hall : (area.dataFrames.map Prod.fst ++ [v] ++ vs).Pairwise (· < ·) := by
          rw [List.append_assoc, List.singleton_append, List.pairwise_append, List.pairwise_cons]
          exact ⟨hkeys, ⟨hvs, hsortvs⟩, hcross⟩
        exact hall.sublist (hsub.append (List.Sublist.refl _))
      have hne : ∀ x ∈ vs, x < 2 ^ 27 ∧ x ≠ v := fun x hx =>
        ⟨hlt x (List.mem_cons_of_mem _ hx), Nat.ne_of_gt (hvs x hx)⟩
      have htr : ∀ x ∈ vs, (pt₁.translate s₁.mem x = none ↔ pt.translate s.mem x = none) := by
        intro x hx
        apply hM.translate_none_iff (hne x hx).1
        rw [List.map_singleton, List.mem_singleton]
        exact (hne x hx).2
      rcases ih hM.owns (fun x hx => hlt x (List.mem_cons_of_mem _ hx)) hsort₁ with
        ⟨es, s₂, pt₂, hes, hrun₂, hM₂, hid₂⟩ | ⟨vs₁, w, vs₂, es, s₂, pt₂, hvs', htype, hes, hM₂, hz, hrun₂⟩ |
        ⟨vs₁, w, vs₂, hvs', hnone, hle, hlt', hbad, hrun₂⟩
      · left
        refine ⟨(v, f) :: es, s₂, pt₂, ?_, ?_, hM.cons hM₂ ?_, ?_⟩
        · rw [List.map_cons, hes]
        · rw [hloop, hrun₂, MapArea.extend_extend, List.singleton_append]
        · rw [hes]
          exact hne
        · intro hi e he
          rw [List.mem_cons] at he
          rcases he with rfl | he
          · exact hid hi
          · exact hid₂ ((MapArea.extend_mapType area _).trans hi) e he
      · right; left
        rw [MapArea.extend_mapType] at htype
        refine ⟨v :: vs₁, w, vs₂, (v, f) :: es, s₂, pt₂, ?_, htype, ?_, hM.cons hM₂ ?_, hz, ?_⟩
        · rw [hvs', List.cons_append]
        · rw [List.map_cons, hes]
        · rw [hes]
          intro x hx
          apply hne
          rw [hvs']
          exact List.mem_append_left _ hx
        · rw [hloop, hrun₂, MapArea.extend_extend, List.singleton_append]
      · right; right
        have hneed := hM.need_cons vs₁
        have hneed' := hM.need_cons (vs₁ ++ [w])
        simp only at hneed hneed'
        have hw : w ∈ vs := by
          rw [hvs']
          exact List.mem_append_right _ List.mem_cons_self
        refine ⟨v :: vs₁, w, vs₂, ?_, ?_, ?_, ?_, ?_, ?_⟩
        · rw [hvs', List.cons_append]
        · intro x hx
          rw [List.mem_cons] at hx
          rcases hx with rfl | hx
          · exact hM.unmapped _ (by simp)
          · have hx' : x ∈ vs := by
              rw [hvs']
              exact List.mem_append_left _ hx
            exact (htr x hx').mp (hnone x hx)
        · omega
        · intro hi
          have := hlt' ((MapArea.extend_mapType area _).trans hi)
          omega
        · rcases hbad with hbad | hbad
          · left
            rw [List.cons_append]
            omega
          · right
            intro hc
            exact hbad ((htr w hw).mpr hc)
        · rw [hloop, hrun₂]
    · right; left
      refine ⟨[], v, vs, [], s, pt, rfl, htype, rfl, Mapped.nil ho, hz, ?_⟩
      rw [MapArea.mapLoop, Comp.run_bind, hrun, MapArea.extend_nil]
      rfl
    · right; right
      refine ⟨[], v, vs, rfl, fun x hx => absurd hx List.not_mem_nil, ?_, ?_, ?_, ?_⟩
      · rw [MapArea.need_nil]
        exact Nat.zero_le _
      · rw [MapArea.need_nil]
        exact hpos
      · rcases hbad with hbad | hbad
        · left
          rw [List.nil_append, MapArea.need, List.length_singleton, Nat.mul_one]
          exact hbad
        · exact Or.inr hbad
      · rw [MapArea.mapLoop, Comp.run_bind, hrun, Option.bind_none]

end RCore.Mm
