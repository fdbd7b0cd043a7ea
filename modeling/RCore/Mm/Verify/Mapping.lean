import RCore.Mm.Verify.PageTable

/-!
# What `map` and `unmap` do

`Owns lo rest s pt` is the setting in which a page table works: its tables are in order and the
frames that are out are its own and those in `rest`. `Effect` says what an operation on the table
did: which tables it added, how many frames it took, and that it left the frames in `rest` alone.
-/

namespace RCore.Mm

/-- The page table is in order, and the frames in `rest` are the ones others hold. -/
structure Owns (lo : Nat) (rest : List Nat) (s : Phys) (pt : PageTable) : Prop where
  tables : Tables s.mem pt
  held : Held lo s.frames (pt.frames ++ rest)

/-- Between `s` and `s'` the page table got the tables `ps` where it did not have them. -/
structure Effect (lo : Nat) (rest : List Nat) (s : Phys) (pt : PageTable) (s' : Phys)
    (pt' : PageTable) (ps : Finset Path) : Prop where
  owns : Owns lo rest s' pt'
  root : pt'.rootPpn = pt.rootPpn
  old : ∀ p f, p.length < 3 → pt.table s.mem p = some f → pt'.table s'.mem p = some f
  absent : ∀ p, p.length < 3 →
    (pt'.table s'.mem p = none ↔ pt.table s.mem p = none ∧ p ∉ ps)
  frames : ∃ new, pt'.frames = pt.frames ++ new ∧ new.length = pt.missing s.mem ps
  free : s'.frames.free + pt.missing s.mem ps = s.frames.free
  same : SameOn rest s.mem s'.mem
  starved : s'.starved = s.starved

namespace Effect

variable {lo : Nat} {rest : List Nat} {s s' s'' : Phys} {pt pt' pt'' : PageTable}
  {ps qs : Finset Path}

/-- The tables missing in two groups are those missing in the first and, once these are there, those
missing in the second. -/
theorem missing_union (h : Effect lo rest s pt s' pt' ps) (hq : ∀ p ∈ qs, p.length < 3) :
    pt.missing s.mem (ps ∪ qs) = pt.missing s.mem ps + pt'.missing s'.mem qs := by
  unfold PageTable.missing
  have hunion : (ps ∪ qs).filter (fun p => pt.table s.mem p = none) =
      ps.filter (fun p => pt.table s.mem p = none) ∪
        qs.filter (fun p => pt'.table s'.mem p = none) := by
    ext q
    simp only [Finset.mem_filter, Finset.mem_union]
    by_cases hqs : q ∈ qs
    · rw [h.absent q (hq q hqs)]
      generalize (pt.table s.mem q = none) = absent
      tauto
    · simp [hqs]
  rw [hunion, Finset.card_union_of_disjoint]
  rw [Finset.disjoint_left]
  intro q hq₁ hq₂
  rw [Finset.mem_filter] at hq₁ hq₂
  exact ((h.absent q (hq q hq₂.1)).mp hq₂.2).2 hq₁.1

theorem trans (h : Effect lo rest s pt s' pt' ps) (h' : Effect lo rest s' pt' s'' pt'' qs)
    (hq : ∀ p ∈ qs, p.length < 3) : Effect lo rest s pt s'' pt'' (ps ∪ qs) := by
  refine ⟨h'.owns, h'.root.trans h.root, ?_, ?_, ?_, ?_, h.same.trans h'.same,
    h'.starved.trans h.starved⟩
  · intro p f hp hf
    exact h'.old p f hp (h.old p f hp hf)
  · intro p hp
    rw [h'.absent p hp, h.absent p hp, Finset.mem_union, not_or, and_assoc]
  · obtain ⟨new, hnew, hlen⟩ := h.frames
    obtain ⟨new', hnew', hlen'⟩ := h'.frames
    refine ⟨new ++ new', ?_, ?_⟩
    · rw [hnew', hnew, List.append_assoc]
    · rw [List.length_append, hlen, hlen', h.missing_union hq]
  · have hf := h.free
    have hf' := h'.free
    rw [h.missing_union hq]
    omega

end Effect

section Levels

variable {lo : Nat} {rest : List Nat} {s : Phys} {pt : PageTable} {p : Path} {i : Fin 512}
  {f : Nat}

theorem table_child (hp : pt.table s.mem p = some f) :
    pt.table s.mem (i :: p) = (slot s.mem f i).map PageTableEntry.ppn := by
  unfold PageTable.table at hp ⊢
  rw [Radix.walk, hp, Option.bind_some]

variable (ho : Owns lo rest s pt) (hp : pt.table s.mem p = some f)
include ho hp

/-- A table that is there already. -/
theorem effect_present {e : PageTableEntry} (he : slot s.mem f i = some e) :
    Effect lo rest s pt s pt {i :: p} := by
  have hne : pt.table s.mem (i :: p) ≠ none := by
    rw [table_child hp, he]
    exact Option.some_ne_none _
  have hz : pt.missing s.mem {i :: p} = 0 := by
    simp [PageTable.missing, Finset.filter_singleton, hne]
  refine ⟨ho, rfl, fun _ _ _ hf => hf, ?_, ⟨[], ?_, ?_⟩, ?_, SameOn.refl _ _, rfl⟩
  · intro q _
    rw [Finset.mem_singleton]
    constructor
    · intro hq
      refine ⟨hq, ?_⟩
      intro hqe
      rw [hqe] at hq
      exact hne hq
    · intro hq
      exact hq.1
  · rw [List.append_nil]
  · rw [hz, List.length_nil]
  · rw [hz, Nat.add_zero]

/-- A table that `find_pte_create` adds. -/
theorem effect_grow {g : Nat} {s₁ : Phys} (hl : p.length < 2) (hi : slot s.mem f i = none)
    (ht : Taken lo (pt.frames ++ rest) s g s₁) {s' : Phys}
    (hs' : s' = { s₁ with
      mem := s₁.mem.setWord 8 (pteAddr f i) (PageTableEntry.new g PTEFlags.V).bits }) :
    Effect lo rest s pt s' { pt with frames := pt.frames ++ [g] } {i :: p} ∧
      slot s'.mem f i = some (PageTableEntry.new g PTEFlags.V) ∧
      ∀ q j, q.length = 2 →
        PageTable.entry s'.mem { pt with frames := pt.frames ++ [g] } q j =
          pt.entry s.mem q j := by
  have hg44 : g < 2 ^ 44 := ht.held.lt_of_mem List.mem_cons_self
  have hgn : g ∉ pt.frames ++ rest := ht.not_mem
  have hff : f ∈ pt.frames := ho.tables.owned p f (by omega) hp
  have hfn : f ∉ rest := by
    intro hf
    exact (List.nodup_append.mp ho.held.nodup).2.2 f hff f hf rfl
  have hfg : f ≠ g := by
    intro h
    exact hgn (h ▸ List.mem_append_left rest hff)
  have hm : s'.mem = (zeroFrame s.mem g).setWord 8 (pteAddr f i)
      (PageTableEntry.new g PTEFlags.V).bits := by
    rw [hs', ← ht.mem]
  -- The slots after the two stores.
  have hfi : slot s'.mem f i = some (PageTableEntry.new g PTEFlags.V) := by
    rw [hm, slot_setWord_same _ _ _ (PageTableEntry.bits_new_lt hg44 _),
      PageTableEntry.isValid_new_V hg44, if_pos rfl]
  have hz : ∀ h, h ≠ g → slot (zeroFrame s.mem g) h = slot s.mem h := by
    intro h hh
    apply slot_congr
    apply SameOn.zeroFrame
    rw [List.mem_singleton]
    exact hh.symm
  have hfj : ∀ j, j ≠ i → slot s'.mem f j = slot s.mem f j := by
    intro j hj
    rw [hm, slot_setWord_ne _ _ _ hj, hz f hfg]
  have hgj : ∀ j, slot s'.mem g j = none := by
    intro j
    rw [hm, slot_setWord_frame _ _ _ hfg.symm, slot_zeroFrame]
  have hr : ∀ h, h ≠ f → h ≠ g → slot s'.mem h = slot s.mem h := by
    intro h hhf hhg
    rw [hm, slot_setWord_frame _ _ _ hhf, hz h hhg]
  have hfresh : ∀ q, q.length < 3 →
      Radix.walk PageTableEntry.ppn (slot s.mem) pt.rootPpn q ≠ some g := by
    intro q hq hc
    exact hgn (List.mem_append_left rest (ho.tables.owned q g hq hc))
  have hppn : (PageTableEntry.new g PTEFlags.V).ppn = g := PageTableEntry.ppn_new hg44 _
  have hl' : p.length + 1 < 3 := by omega
  have hwalk : ∀ q : Path, q.length < 3 →
      PageTable.table s'.mem { pt with frames := pt.frames ++ [g] } q =
        if q = i :: p then some g else pt.table s.mem q := fun q hq =>
    Radix.walk_grow ho.tables.apart hp hl' hi hfresh hppn hfi hfj hgj hr hq
  have hnone : pt.table s.mem (i :: p) = none := by rw [table_child hp, hi, Option.map_none]
  have hone : pt.missing s.mem {i :: p} = 1 := by
    simp [PageTable.missing, Finset.filter_singleton, hnone]
  refine ⟨⟨⟨⟨?_, ?_⟩, ?_⟩, rfl, ?_, ?_, ⟨[g], rfl, ?_⟩, ?_, ?_, ?_⟩, hfi, ?_⟩
  · exact Radix.apart_grow ho.tables.apart hp hl' hi hfresh hppn hfi hfj hgj hr
  · intro q k hq hk
    rw [hwalk q hq] at hk
    split at hk
    · cases hk
      exact List.mem_append_right _ List.mem_cons_self
    · exact List.mem_append_left _ (ho.tables.owned q k hq hk)
  · have hperm : (g :: (pt.frames ++ rest)).Perm (pt.frames ++ [g] ++ rest) := by
      rw [List.append_assoc]
      exact List.perm_middle.symm
    rw [hs']
    exact ht.held.perm hperm
  · intro q k hq hk
    rw [hwalk q hq]
    split
    · next hqe =>
      rw [hqe, hnone] at hk
      cases hk
    · exact hk
  · intro q hq
    rw [hwalk q hq, Finset.mem_singleton]
    split
    · next hqe => simp [hqe]
    · next hqe => simp [hqe]
  · rw [hone, List.length_singleton]
  · rw [hone, hs']
    exact ht.free
  · rw [hm]
    refine SameOn.trans (SameOn.zeroFrame ?_ _) (sameOn_setPte hfn _ _ _)
    intro hc
    exact hgn (List.mem_append_right _ hc)
  · rw [hs']
    exact ht.starved
  · intro q j hq
    have hne : ¬ (q = p ∧ j = i) := by
      intro hc
      rw [hc.1] at hq
      omega
    have hl := Radix.lookup_grow ho.tables.apart hp hl' hi hfresh hppn hfi hfj hgj hr
      (q := q) (by omega) j
    rw [if_neg hne] at hl
    exact hl

/-- A store into a leaf. -/
theorem effect_leaf {e : PageTableEntry} (hl : p.length = 2) (he : e.bits < 2 ^ 64) {s' : Phys}
    (hs' : s' = { s with mem := s.mem.setWord 8 (pteAddr f i) e.bits }) :
    Effect lo rest s pt s' pt ∅ ∧
      ∀ q j, q.length = 2 → pt.entry s'.mem q j =
        if q = p ∧ j = i then (if e.isValid then some e else none) else pt.entry s.mem q j := by
  have hff : f ∈ pt.frames := ho.tables.owned p f (by omega) hp
  have hfn : f ∉ rest := by
    intro hf
    exact (List.nodup_append.mp ho.held.nodup).2.2 f hff f hf rfl
  have hm : s'.mem = s.mem.setWord 8 (pteAddr f i) e.bits := by rw [hs']
  have hr : ∀ g, g ≠ f → slot s'.mem g = slot s.mem g := by
    intro g hg
    rw [hm, slot_setWord_frame _ _ _ hg]
  have hl' : p.length + 1 = 3 := by omega
  have hwalk : ∀ q : Path, q.length < 3 → pt.table s'.mem q = pt.table s.mem q := fun q hq =>
    Radix.walk_write ho.tables.apart hp hl' hr hq
  refine ⟨⟨⟨⟨?_, ?_⟩, ?_⟩, rfl, ?_, ?_, ⟨[], ?_, ?_⟩, ?_, ?_, ?_⟩, ?_⟩
  · exact Radix.apart_write ho.tables.apart hp hl' hr
  · intro q g hq hg
    rw [hwalk q hq] at hg
    exact ho.tables.owned q g hq hg
  · rw [hs']
    exact ho.held
  · intro q g hq hg
    rw [hwalk q hq]
    exact hg
  · intro q hq
    rw [hwalk q hq]
    simp
  · rw [List.append_nil]
  · simp [PageTable.missing]
  · rw [hs']
    simp [PageTable.missing]
  · rw [hm]
    exact sameOn_setPte hfn _ _ _
  · rw [hs']
  · intro q j hq
    have hq3 : q.length < 3 := by omega
    by_cases hqp : q = p
    · subst hqp
      rw [PageTable.entry_eq, PageTable.entry_eq, hwalk q hq3, hp, Option.bind_some,
        Option.bind_some]
      by_cases hji : j = i
      · subst hji
        rw [if_pos ⟨rfl, rfl⟩, hm, slot_setWord_same _ _ _ he]
      · rw [if_neg (fun hc => hji hc.2), hm, slot_setWord_ne _ _ _ hji]
    · rw [if_neg (fun hc => hqp hc.1)]
      exact Radix.lookup_write ho.tables.apart hp hl' hr hq3 hqp j

end Levels

/-! ## `find_pte_create` -/

section Create

variable {lo : Nat} {rest : List Nat} {s : Phys} {pt : PageTable}

/-- One round of the loop of `find_pte_create`: the table one level down is there afterwards, or the
round panics because no frame is free. -/
theorem findPteCreateLoop_round (ho : Owns lo rest s pt) {p : Path} {f : Nat} (i : Fin 512)
    (hp : pt.table s.mem p = some f) (hl : p.length < 2) :
    (∃ s' pt' g, Effect lo rest s pt s' pt' {i :: p} ∧ pt'.table s'.mem (i :: p) = some g ∧
      (∀ q j, q.length = 2 → pt'.entry s'.mem q j = pt.entry s.mem q j) ∧
      ∀ j idxs, (PageTable.findPteCreateLoop f pt.frames (i :: j :: idxs)).run s =
        (PageTable.findPteCreateLoop g pt'.frames (j :: idxs)).run s') ∨
    (s.frames.free < pt.missing s.mem {i :: p} ∧
      ∀ j idxs, (PageTable.findPteCreateLoop f pt.frames (i :: j :: idxs)).run s = none) := by
  cases hi : slot s.mem f i with
  | some e =>
    left
    refine ⟨s, pt, e.ppn, effect_present ho hp hi, ?_, fun _ _ _ => rfl, ?_⟩
    · rw [table_child hp, hi, Option.map_some]
    · intro j idxs
      have hread := PageTable.readPte_of_slot hi
      rw [PageTable.findPteCreateLoop]
      simp [hread, isValid_of_slot hi]
  | none =>
    have hval := isValid_of_slot_none hi
    rcases frameAlloc_cases ho.held with ⟨hz, hrun⟩ | ⟨g, s₁, hrun, ht⟩
    · right
      refine ⟨?_, ?_⟩
      · have hnone : pt.table s.mem (i :: p) = none := by rw [table_child hp, hi, Option.map_none]
        have hone : pt.missing s.mem {i :: p} = 1 := by
          simp [PageTable.missing, Finset.filter_singleton, hnone]
        omega
      · intro j idxs
        rw [PageTable.findPteCreateLoop]
        simp [hval, hrun, Comp.unwrap]
    · left
      obtain ⟨heff, hslot, hentry⟩ := effect_grow ho hp hl hi ht rfl
      have hg44 : g < 2 ^ 44 := ht.held.lt_of_mem List.mem_cons_self
      refine ⟨_, _, g, heff, ?_, hentry, ?_⟩
      · have hp' := heff.old p f (by omega) hp
        rw [table_child hp', hslot, Option.map_some, PageTableEntry.ppn_new hg44]
      · intro j idxs
        have hread := PageTable.readPte_of_slot hslot
        rw [PageTable.findPteCreateLoop]
        simp [hval, hrun, Comp.unwrap, writePte, hread, PageTableEntry.ppn_new hg44]

theorem tablePaths_length {vpn : Nat} {p : Path} (hp : p ∈ PageTable.tablePaths vpn) :
    p.length < 3 := by
  simp only [PageTable.tablePaths, Finset.mem_insert, Finset.mem_singleton] at hp
  rcases hp with rfl | rfl
  · simp
  · simp

/-- `find_pte_create` gives the last table on the way, or panics because fewer frames are free than
tables are missing. -/
theorem findPteCreate_run (ho : Owns lo rest s pt) (vpn : Nat) :
    (∃ s' pt' f, Effect lo rest s pt s' pt' (PageTable.tablePaths vpn) ∧
      pt'.table s'.mem (PageTable.leafPath vpn) = some f ∧
      (∀ q j, q.length = 2 → pt'.entry s'.mem q j = pt.entry s.mem q j) ∧
      (pt.findPteCreate vpn).run s = some ((some (pteAddr f (Fin.ofNat 512 vpn)), pt'), s')) ∨
    (s.frames.free < pt.missing s.mem (PageTable.tablePaths vpn) ∧
      (pt.findPteCreate vpn).run s = none) := by
  have hroot : pt.table s.mem [] = some pt.rootPpn := rfl
  have hpaths : PageTable.tablePaths vpn =
      {[Fin.ofNat 512 (vpn / 2 ^ 18)]} ∪ {PageTable.leafPath vpn} := rfl
  rcases findPteCreateLoop_round ho (Fin.ofNat 512 (vpn / 2 ^ 18)) hroot (by decide) with
    ⟨s₁, pt₁, f₁, heff₁, htab₁, hent₁, hrun₁⟩ | ⟨hfree, hrun⟩
  · have hlen : ∀ p ∈ ({PageTable.leafPath vpn} : Finset Path), p.length < 3 := by
      intro p hp
      rw [Finset.mem_singleton] at hp
      rw [hp]
      simp
    rcases findPteCreateLoop_round heff₁.owns (Fin.ofNat 512 (vpn / 2 ^ 9)) htab₁
      (by simp) with ⟨s₂, pt₂, f₂, heff₂, htab₂, hent₂, hrun₂⟩ | ⟨hfree, hrun⟩
    · left
      refine ⟨s₂, pt₂, f₂, ?_, htab₂, ?_, ?_⟩
      · rw [hpaths]
        exact heff₁.trans heff₂ hlen
      · intro q j hq
        rw [hent₂ q j hq, hent₁ q j hq]
      · have hrt : pt₂.rootPpn = pt.rootPpn := heff₂.root.trans heff₁.root
        rw [PageTable.findPteCreate, Comp.run_bind, indexes, hrun₁, hrun₂,
          PageTable.findPteCreateLoop]
        simp [← hrt]
    · right
      refine ⟨?_, ?_⟩
      · have hu := heff₁.missing_union hlen
        have hf := heff₁.free
        rw [hpaths, hu]
        have hfree' : s₁.frames.free < pt₁.missing s₁.mem {PageTable.leafPath vpn} := hfree
        omega
      · rw [PageTable.findPteCreate, Comp.run_bind, indexes, hrun₁, hrun]
        rfl
  · right
    refine ⟨?_, ?_⟩
    · apply Nat.lt_of_lt_of_le hfree
      apply Finset.card_le_card
      apply Finset.filter_subset_filter
      rw [hpaths]
      exact Finset.subset_union_left
    · rw [PageTable.findPteCreate, Comp.run_bind, indexes, hrun]
      rfl

/-- The entries of the last level, read as translations of page numbers. -/
theorem translate_of_entry {pt' : PageTable} {m m' : Mem} {vpn : Nat} {e : Option PageTableEntry}
    (hv : vpn < 2 ^ 27)
    (h : ∀ q j, q.length = 2 → pt'.entry m' q j =
      if q = PageTable.leafPath vpn ∧ j = Fin.ofNat 512 vpn then e else pt.entry m q j)
    {v : Nat} (hv' : v < 2 ^ 27) :
    pt'.translate m' v = if v = vpn then e else pt.translate m v := by
  rw [PageTable.translate_eq, PageTable.translate_eq, h _ _ (PageTable.leafPath_length v)]
  by_cases hvv : v = vpn
  · rw [if_pos hvv, if_pos]
    rw [hvv]
    exact ⟨rfl, rfl⟩
  · rw [if_neg hvv, if_neg]
    intro hc
    exact hvv (PageTable.eq_of_slots hv' hv hc.1 hc.2)

/-- `map` adds one translation, or panics: because the page is mapped, or because fewer frames are
free than tables are missing. -/
theorem map_run (ho : Owns lo rest s pt) {vpn ppn : Nat} (hv : vpn < 2 ^ 27) (hppn : ppn < 2 ^ 44)
    (flags : PTEFlags) :
    (pt.translate s.mem vpn = none ∧
      ∃ s' pt', (pt.map vpn ppn flags).run s = some (pt', s') ∧
        Effect lo rest s pt s' pt' (PageTable.tablePaths vpn) ∧
        ∀ v, v < 2 ^ 27 → pt'.translate s'.mem v =
          if v = vpn then some (PageTableEntry.new ppn (flags ||| PTEFlags.V))
          else pt.translate s.mem v) ∨
    ((s.frames.free < pt.missing s.mem (PageTable.tablePaths vpn) ∨
        pt.translate s.mem vpn ≠ none) ∧ (pt.map vpn ppn flags).run s = none) := by
  rcases findPteCreate_run ho vpn with ⟨s₁, pt₁, f, heff, htab, hent, hrun⟩ | ⟨hfree, hrun⟩
  · have htr : pt.translate s.mem vpn = slot s₁.mem f (Fin.ofNat 512 vpn) := by
      rw [PageTable.translate_eq, ← hent _ _ (PageTable.leafPath_length vpn), PageTable.entry_eq,
        htab, Option.bind_some]
    cases hs : slot s₁.mem f (Fin.ofNat 512 vpn) with
    | some e =>
      right
      refine ⟨Or.inr ?_, ?_⟩
      · rw [htr, hs]
        exact Option.some_ne_none e
      · have hval := isValid_of_slot hs
        have hread := PageTable.readPte_of_slot hs
        rw [PageTable.map, Comp.run_bind, hrun]
        rw [Option.bind_some]
        simp only [Comp.unwrap, Comp.run_bind, Comp.run_pure, Comp.run_get, Option.bind_some]
        rw [hread, Comp.assert, if_neg (by rw [hval]; decide), Comp.run_panic,
          Option.bind_none]
    | none =>
      left
      have hval := isValid_of_slot_none hs
      obtain ⟨s₂, hs₂⟩ : ∃ s₂ : Phys, s₂ = { s₁ with
          mem := s₁.mem.setWord 8 (pteAddr f (Fin.ofNat 512 vpn))
            (PageTableEntry.new ppn (flags ||| PTEFlags.V)).bits } := ⟨_, rfl⟩
      obtain ⟨heff', hent'⟩ := effect_leaf heff.owns htab (PageTable.leafPath_length vpn)
        (PageTableEntry.bits_new_lt hppn _) hs₂
      refine ⟨htr.trans hs, s₂, pt₁, ?_, ?_, ?_⟩
      · rw [PageTable.map, Comp.run_bind, hrun]
        simp only [Comp.unwrap, Comp.assert, hval, writePte, Option.bind_some, Comp.run_bind,
          Comp.run_pure, Comp.run_get, Comp.run_modify, Bool.false_eq_true, not_false_eq_true,
          if_true, hs₂]
      · have hu := heff.trans heff' (by simp)
        rwa [Finset.union_empty] at hu
      · intro v hv'
        apply translate_of_entry hv _ hv'
        intro q j hq
        rw [hent' q j hq, PageTableEntry.isValid_new hppn, if_pos rfl, hent q j hq]
  · right
    refine ⟨Or.inl hfree, ?_⟩
    rw [PageTable.map, Comp.run_bind, hrun, Option.bind_none]

/-- `unmap` removes one translation, or panics because there is none. -/
theorem unmap_run (ho : Owns lo rest s pt) {vpn : Nat} (hv : vpn < 2 ^ 27) :
    (∃ s', (pt.unmap vpn).run s = some ((), s') ∧ pt.translate s.mem vpn ≠ none ∧
      Effect lo rest s pt s' pt ∅ ∧
      ∀ v, v < 2 ^ 27 → pt.translate s'.mem v = if v = vpn then none else pt.translate s.mem v) ∨
    (pt.translate s.mem vpn = none ∧ (pt.unmap vpn).run s = none) := by
  have hfind := PageTable.findPte_eq s.mem pt vpn
  cases htab : pt.table s.mem (PageTable.leafPath vpn) with
  | none =>
    right
    rw [htab, Option.bind_none] at hfind
    refine ⟨?_, ?_⟩
    · rw [PageTable.translate, hfind, Option.map_none]
    · rw [PageTable.unmap]
      simp [hfind, Comp.unwrap]
  | some f =>
    rw [htab, Option.bind_some] at hfind
    cases hs : slot s.mem f (Fin.ofNat 512 vpn) with
    | none =>
      right
      rw [hs, Option.map_none] at hfind
      refine ⟨?_, ?_⟩
      · rw [PageTable.translate, hfind, Option.map_none]
      · rw [PageTable.unmap]
        simp [hfind, Comp.unwrap]
    | some e =>
      left
      rw [hs, Option.map_some] at hfind
      have hval := isValid_of_slot hs
      have hread := PageTable.readPte_of_slot hs
      obtain ⟨s₁, hs₁⟩ : ∃ s₁ : Phys, s₁ = { s with
          mem := s.mem.setWord 8 (pteAddr f (Fin.ofNat 512 vpn)) PageTableEntry.empty.bits } :=
        ⟨_, rfl⟩
      obtain ⟨heff, hent⟩ := effect_leaf ho htab (PageTable.leafPath_length vpn) (by decide) hs₁
      refine ⟨s₁, ?_, ?_, heff, ?_⟩
      · rw [PageTable.unmap]
        simp only [hfind, Comp.unwrap, Comp.assert, hread, hval, writePte, Option.bind_some,
          Comp.run_bind, Comp.run_pure, Comp.run_get, Comp.run_modify, if_true, hs₁]
      · rw [PageTable.translate, hfind, Option.map_some]
        exact Option.some_ne_none _
      · intro v hv'
        apply translate_of_entry hv _ hv'
        intro q j hq
        rw [hent q j hq, show PageTableEntry.empty.isValid = false by decide,
          if_neg (by decide : ¬ (false = true))]

/-- `unmap` stores into a table and nowhere else. -/
theorem unmap_same {s' : Phys} {vpn : Nat} (hrun : (pt.unmap vpn).run s = some ((), s'))
    (ht : Tables s.mem pt) {fs : List Nat} (hfs : ∀ f ∈ fs, f ∉ pt.frames) :
    SameOn fs s.mem s'.mem := by
  rw [PageTable.unmap, Comp.run_bind, Comp.run_get, Option.bind_some, Comp.run_bind] at hrun
  have hfind := PageTable.findPte_eq s.mem pt vpn
  cases htab : pt.table s.mem (PageTable.leafPath vpn) with
  | none =>
    rw [htab, Option.bind_none] at hfind
    rw [hfind] at hrun
    cases hrun
  | some g =>
    rw [htab, Option.bind_some] at hfind
    cases hs : slot s.mem g (Fin.ofNat 512 vpn) with
    | none =>
      rw [hs, Option.map_none] at hfind
      rw [hfind] at hrun
      cases hrun
    | some e =>
      rw [hs, Option.map_some] at hfind
      have hval := isValid_of_slot hs
      have hread := PageTable.readPte_of_slot hs
      simp only [hfind, Comp.unwrap, Comp.assert, hread, hval, writePte, Option.bind_some,
        Comp.run_bind, Comp.run_pure, Comp.run_modify, if_true, Option.some.injEq, Prod.mk.injEq,
        true_and] at hrun
      rw [← hrun]
      apply sameOn_setPte
      intro hg
      exact hfs g hg (ht.owned _ g (by simp) htab)

/-- `PageTable::new` gives an empty page table, or panics because no frame is free. -/
theorem new_run (hh : Held lo s.frames rest) :
    (∃ s' pt', PageTable.new.run s = some (pt', s') ∧ Owns lo rest s' pt' ∧
      (∀ v, pt'.translate s'.mem v = none) ∧
      (∀ p, p.length < 3 → p ≠ [] → pt'.table s'.mem p = none) ∧
      s'.frames.free + 1 = s.frames.free ∧ SameOn rest s.mem s'.mem ∧
      s'.starved = s.starved) ∨
    (s.frames.free = 0 ∧ PageTable.new.run s = none) := by
  rcases frameAlloc_cases hh with ⟨hz, hrun⟩ | ⟨f, s₁, hrun, ht⟩
  · right
    refine ⟨hz, ?_⟩
    rw [PageTable.new, Comp.run_bind, hrun]
    rfl
  · left
    have hslot : ∀ i, slot s₁.mem f i = none := by
      intro i
      rw [ht.mem, slot_zeroFrame]
    have htab : ∀ p : Path, p ≠ [] → PageTable.table s₁.mem ⟨f, [f]⟩ p = none := by
      intro p
      induction p with
      | nil => exact fun h => absurd rfl h
      | cons i p ih =>
        intro _
        cases p with
        | nil =>
          have hroot : PageTable.table s₁.mem ⟨f, [f]⟩ [] = some f := rfl
          rw [table_child hroot, hslot, Option.map_none]
        | cons j p =>
          have hprev := ih (List.cons_ne_nil _ _)
          unfold PageTable.table at hprev ⊢
          rw [Radix.walk, hprev, Option.bind_none]
    refine ⟨s₁, ⟨f, [f]⟩, ?_, ⟨⟨?_, ?_⟩, ?_⟩, ?_, ?_, ht.free, ht.same, ht.starved⟩
    · rw [PageTable.new, Comp.run_bind, hrun]
      rfl
    · intro p q g _ _ hp hq
      have hnil : ∀ r : Path, PageTable.table s₁.mem ⟨f, [f]⟩ r = some g → r = [] := by
        intro r hr
        by_contra hne
        rw [htab r hne] at hr
        cases hr
      rw [hnil p hp, hnil q hq]
    · intro p g _ hp
      by_cases hne : p = []
      · subst hne
        cases hp
        exact List.mem_singleton.mpr rfl
      · rw [htab p hne] at hp
        cases hp
    · exact ht.held
    · intro v
      rw [PageTable.translate_eq, PageTable.entry_eq, htab (PageTable.leafPath v)
        (List.cons_ne_nil _ _), Option.bind_none]
    · intro p _ hne
      exact htab p hne

end Create

end RCore.Mm
