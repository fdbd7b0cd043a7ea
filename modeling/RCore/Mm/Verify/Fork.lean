import RCore.Mm.Verify.Build

/-!
# Copying an address space

`from_existed_userspace` builds a new memory set area by area and copies the pages of each. It takes
the pages of an area from its range, while `sys_munmap` takes them from the frames the area holds:
an area from which some pages have been unmapped makes the copy panic. `Copying` is the state after
some areas; a copy that returns has the pages, permissions and bytes of the original in frames of its
own.
-/

namespace RCore.Mm

namespace Good

variable {L : Layout} {rest : List Nat} {s : Phys} {ms : MemorySet}

theorem mem_pairs {area : MapArea} {e : Nat × Nat} (ha : area ∈ ms.areas)
    (he : e ∈ area.dataFrames) : e ∈ ms.areas.flatMap MapArea.dataFrames :=
  List.mem_flatMap.mpr ⟨area, ha, he⟩

/-- Different pages of a user lie in different frames. -/
theorem ppn_inj (h : Good L rest s ms) (hfr : ms.Framed) {v w : Nat} {e e' : PageTableEntry}
    (hv : v < 2 ^ 27) (hw : w < 2 ^ 27) (he : ms.translate s.mem v = some e)
    (he' : ms.translate s.mem w = some e') (heq : e.ppn = e'.ppn) : v = w := by
  have hn : ((ms.areas.flatMap MapArea.dataFrames).map Prod.snd).Nodup := by
    have hf : (ms.areas.flatMap MapArea.dataFrames).map Prod.snd = ms.frames := by
      rw [List.map_flatMap]
      rfl
    rw [hf]
    have hn := h.held.nodup
    rw [MemorySet.owned, List.append_assoc] at hn
    exact (List.nodup_append.mp (List.nodup_append.mp hn).2.1).1
  have hlow : ∀ f ∈ ms.frames, L.trampolinePpn ≠ f := by
    intro f hf hc
    have hmem : f ∈ ms.owned ++ rest := List.mem_append_left _ (List.mem_append_right _ hf)
    have hle := h.held.le_of_mem hmem
    have hlt := L.trampolinePpn_lt
    omega
  have htr : (trampolineEntry L).ppn = L.trampolinePpn :=
    PageTableEntry.ppn_new L.trampolinePpn_lt_pow _
  rcases h.translate_framed hfr hv he with ⟨rfl, rfl⟩ | ⟨a, ha, f, hf, hppn, _⟩
  · rcases h.translate_framed hfr hw he' with ⟨rfl, rfl⟩ | ⟨a', ha', f', hf', hppn', _⟩
    · rfl
    · exact absurd (htr.symm.trans (heq.trans hppn')) (hlow f' (mem_frames ha' hf'))
  · rcases h.translate_framed hfr hw he' with ⟨rfl, rfl⟩ | ⟨a', ha', f', hf', hppn', _⟩
    · exact absurd (htr.symm.trans (heq.symm.trans hppn)) (hlow f (mem_frames ha hf))
    · have hff : f = f' := hppn.symm.trans (heq.trans hppn')
      have hpair : ((v, f) : Nat × Nat) = (w, f') :=
        List.inj_on_of_nodup_map hn (mem_pairs ha hf) (mem_pairs ha' hf') hff
      exact congrArg Prod.fst hpair

/-- A page of a user other than the trampoline's lies in a frame of the user's own. -/
theorem ppn_mem (h : Good L rest s ms) (hfr : ms.Framed) {v : Nat} {e : PageTableEntry}
    (hv : v < 2 ^ 27) (hne : v ≠ trampolineVpn) (he : ms.translate s.mem v = some e) :
    e.ppn ∈ ms.frames := by
  rcases h.translate_framed hfr hv he with ⟨hc, _⟩ | ⟨a, ha, f, hf, hppn, _⟩
  · exact absurd hc hne
  · rw [hppn]
    exact mem_frames ha hf

end Good

/-! ## Copying pages -/

section Pages

variable {L : Layout} {rest : List Nat} {s : Phys} {ms c : MemorySet}

/-- What `copyPages` does when it returns. -/
structure PagesCopied (ms c : MemorySet) (s : Phys) (vs : List Nat) (s' : Phys) : Prop where
  frames : s'.frames = s.frames
  starved : s'.starved = s.starved
  copied : ∀ v ∈ vs, ∀ e e', ms.translate s.mem v = some e → c.translate s.mem v = some e' →
    ∀ k, k < 4096 → s'.mem (e'.ppn * 4096 + k) = s.mem (e.ppn * 4096 + k)
  other : ∀ x, (∀ v ∈ vs, ∀ e', c.translate s.mem v = some e' → e'.ppn ≠ x / 4096) →
    s'.mem x = s.mem x

/-- The copy of a page leaves the tables of both spaces and everything the first one owns alone. -/
theorem copyFrame_keeps (hc : Good L (ms.owned ++ rest) s c) (hcf : c.Framed) {v : Nat}
    {d : PageTableEntry} (hd : c.translate s.mem v = some d) (src : Nat) :
    SameOn (c.pageTable.frames ++ (ms.owned ++ rest)) s.mem (copyFrame s.mem d.ppn src) :=
  SameOn.copyFrame (hc.ppn_apart hcf hd) s.mem src

theorem copyPages_run (hc : Good L (ms.owned ++ rest) s c) (hcf : c.Framed)
    (hp : Good L (c.owned ++ rest) s ms) (hpf : ms.Framed) {vs : List Nat} (hn : vs.Nodup)
    (hvs : ∀ v ∈ vs, v < 2 ^ 27 ∧ v ≠ trampolineVpn ∧ c.translate s.mem v ≠ none) :
    ((∀ v ∈ vs, ms.translate s.mem v ≠ none) ∧
      ∃ s', (MemorySet.copyPages ms c vs).run s = some ((), s') ∧ PagesCopied ms c s vs s') ∨
    ((∃ v ∈ vs, ms.translate s.mem v = none) ∧
      (MemorySet.copyPages ms c vs).run s = none) := by
  induction vs generalizing s with
  | nil =>
    left
    refine ⟨fun v hv => absurd hv List.not_mem_nil, s, rfl, rfl, rfl, ?_, fun _ _ => rfl⟩
    intro v hv
    cases hv
  | cons v vs ih =>
    rw [List.nodup_cons] at hn
    obtain ⟨hv27, hvt, hvc⟩ := hvs v List.mem_cons_self
    obtain ⟨d, hd⟩ := Option.ne_none_iff_exists'.mp hvc
    cases hsrc : ms.translate s.mem v with
    | none =>
      right
      refine ⟨⟨v, List.mem_cons_self, hsrc⟩, ?_⟩
      rw [MemorySet.copyPages]
      simp only [Comp.run_bind, Comp.run_get, Option.bind_some, hsrc, Comp.unwrap, Comp.run_panic,
        Option.bind_none]
    | some e =>
      obtain ⟨s₁, hs₁⟩ : ∃ s₁ : Phys, s₁ = { s with mem := copyFrame s.mem d.ppn e.ppn } :=
        ⟨_, rfl⟩
      have hkeep := copyFrame_keeps hc hcf hd e.ppn
      have hmem₁ : s₁.mem = copyFrame s.mem d.ppn e.ppn := by rw [hs₁]
      rw [← hmem₁] at hkeep
      have hcs : SameOn c.pageTable.frames s.mem s₁.mem :=
        hkeep.mono (List.subset_append_left _ _)
      have hps : SameOn (ms.owned ++ rest) s.mem s₁.mem :=
        hkeep.mono (List.subset_append_right _ _)
      have hpts : SameOn ms.pageTable.frames s.mem s₁.mem := by
        apply hps.mono
        intro f hf
        exact List.mem_append_left _ (List.mem_append_left _ hf)
      have hc₁ : Good L (ms.owned ++ rest) s₁ c := by
        apply hc.congr hcs
        rw [hs₁]
        exact hc.held
      have hp₁ : Good L (c.owned ++ rest) s₁ ms := by
        apply hp.congr hpts
        rw [hs₁]
        exact hp.held
      have htc : ∀ w, c.translate s₁.mem w = c.translate s.mem w := fun w =>
        hc.owns.tables.translate_congr hcs w
      have htp : ∀ w, ms.translate s₁.mem w = ms.translate s.mem w := fun w =>
        hp.owns.tables.translate_congr hpts w
      have hloop : (MemorySet.copyPages ms c (v :: vs)).run s =
          (MemorySet.copyPages ms c vs).run s₁ := by
        rw [MemorySet.copyPages]
        simp only [Comp.run_bind, Comp.run_get, Option.bind_some, hsrc, hd, Comp.unwrap,
          Comp.run_pure, Comp.run_modify, ← hs₁]
      have hvs₁ : ∀ w ∈ vs, w < 2 ^ 27 ∧ w ≠ trampolineVpn ∧ c.translate s₁.mem w ≠ none := by
        intro w hw
        rw [htc w]
        exact hvs w (List.mem_cons_of_mem _ hw)
      rcases ih hc₁ hp₁ hn.2 hvs₁ with ⟨hall, s₂, hrun, hcop⟩ | ⟨⟨w, hw, hnone⟩, hrun⟩
      · left
        refine ⟨?_, s₂, ?_, ?_, ?_, ?_, ?_⟩
        · intro w hw
          rw [List.mem_cons] at hw
          rcases hw with rfl | hw
          · rw [hsrc]
            exact Option.some_ne_none _
          · rw [← htp w]
            exact hall w hw
        · rw [hloop, hrun]
        · rw [hcop.frames, hs₁]
        · rw [hcop.starved, hs₁]
        · intro w hw x x' hx hx' k hk
          rw [List.mem_cons] at hw
          rcases hw with rfl | hw
          · -- The frame of this page is not the frame of a later one.
            rw [hsrc] at hx
            rw [hd] at hx'
            cases hx
            cases hx'
            rw [hcop.other, hmem₁, copyFrame, if_pos (by omega)]
            · congr 1
              omega
            · intro w' hw' y hy
              rw [htc] at hy
              intro hc'
              have hww := hc.ppn_inj hcf (hvs w' (List.mem_cons_of_mem _ hw')).1 hv27 hy hd
                (by omega)
              exact hn.1 (hww ▸ hw')
          · -- The page read here has not been written before.
            have hxm : x.ppn ≠ d.ppn := by
              intro hc'
              have hapart := hp.ppn_apart hpf hx
              have hdm := hc.ppn_mem hcf hv27 hvt hd
              apply hapart
              rw [hc']
              exact List.mem_append_right _
                (List.mem_append_left _ (List.mem_append_right _ hdm))
            rw [hcop.copied w hw x x' (by rw [htp]; exact hx) (by rw [htc]; exact hx') k hk, hmem₁,
              copyFrame, if_neg]
            omega
        · intro x hx
          have hxd : d.ppn ≠ x / 4096 := hx v List.mem_cons_self d hd
          rw [hcop.other, hmem₁, copyFrame, if_neg (fun hc' => hxd hc'.symm)]
          intro w hw y hy
          rw [htc] at hy
          exact hx w (List.mem_cons_of_mem _ hw) y hy
      · right
        refine ⟨⟨w, List.mem_cons_of_mem _ hw, ?_⟩, ?_⟩
        · rw [← htp w]
          exact hnone
        · rw [hloop, hrun]

end Pages

/-! ## The frame of the trampoline -/

section Low

variable {L : Layout} {rest : List Nat} {s s' : Phys} {ms : MemorySet} {area : MapArea}

theorem Held.trampoline {a : StackFrameAllocator} (h : Held L.firstFrame a rest) :
    Held 0 a (rest ++ [L.trampolinePpn]) := by
  have hlt := L.trampolinePpn_lt
  have hlo := h.lo_le
  refine ⟨⟨?_, ?_⟩, Nat.zero_le _, h.le_end, h.end_le⟩
  · have hperm : (rest ++ [L.trampolinePpn] ++ a.recycled).Perm
        (L.trampolinePpn :: (rest ++ a.recycled)) := by
      rw [List.append_assoc, List.singleton_append]
      exact List.perm_middle
    rw [hperm.nodup_iff, List.nodup_cons]
    refine ⟨fun hc => ?_, h.ledger.nodup⟩
    have hge := (h.ledger.range _ hc).1
    omega
  · intro x hx
    rw [List.mem_append, List.mem_append, List.mem_singleton] at hx
    refine ⟨Nat.zero_le _, ?_⟩
    rcases hx with (hx | rfl) | hx
    · exact h.ledger.lt_of_mem hx
    · omega
    · exact (h.ledger.range x (List.mem_append_right _ hx)).2

/-- Mapping pages leaves the trampoline's code alone. -/
theorem map_keeps_trampoline {es : List (Nat × Nat)} {pt' : PageTable} (h : Good L rest s ms)
    (hf : Fresh area)
    (hrun : (area.map ms.pageTable).run s = some ((.ok (), area.extend es, pt'), s')) :
    SameOn [L.trampolinePpn] s.mem s'.mem := by
  have ho : Owns 0 ((ms.frames ++ rest) ++ [L.trampolinePpn]) s ms.pageTable := by
    refine ⟨h.owns.tables, ?_⟩
    rw [← List.append_assoc]
    exact h.owns.held.trampoline
  rcases map_fresh_run ho hf with ⟨es', s₁, pt₁, _, hrun₁, hM, _⟩ |
    ⟨_, _, _, _, _, _, _, _, _, _, _, hrun₁⟩ | ⟨_, _, _, _, _, _, _, _, hrun₁⟩
  · rw [hrun₁] at hrun
    have hs : s₁ = s' := (Prod.mk.inj (Option.some.inj hrun)).2
    rw [← hs]
    exact hM.same.single (List.mem_append_right _ (List.mem_append_right _ List.mem_cons_self))
  · rw [hrun₁] at hrun
    cases hrun
  · rw [hrun₁] at hrun
    cases hrun

theorem newUser_keeps_trampoline {ms₀ : MemorySet} {s₀ : Phys} (hh : Held L.firstFrame s.frames rest)
    (hbare : MemorySet.newBare.run s = some (ms₀, s₀))
    (htramp : (ms₀.mapTrampoline L).run s₀ = some (ms, s')) :
    SameOn [L.trampolinePpn] s.mem s'.mem := by
  rcases new_run hh.trampoline with ⟨s₁, pt₁, hrun, ho, _, _, _, hsame, _⟩ | ⟨_, hrun⟩
  · rw [MemorySet.newBare, Comp.run_bind, hrun] at hbare
    cases hbare
    rw [mapTrampoline_eq] at htramp
    rcases map_run ho (show trampolineVpn < 2 ^ 27 by decide) L.trampolinePpn_lt_pow
      (PTEFlags.R ||| PTEFlags.X) with ⟨_, s₂, pt₂, hmap, heff, _⟩ | ⟨_, hmap⟩
    · rw [hmap] at htramp
      cases htramp
      exact (hsame.trans heff.same).mono (List.subset_append_right _ _)
    · rw [hmap] at htramp
      cases htramp
  · rw [MemorySet.newBare, Comp.run_bind, hrun] at hbare
    cases hbare

end Low

/-! ## Copying areas -/

/-- The pages of the ranges of some areas. -/
def spanOf (areas : List MapArea) : List Nat := areas.flatMap fun area => area.vpnRange.toList

theorem spanOf_append (areas : List MapArea) (area : MapArea) :
    spanOf (areas ++ [area]) = spanOf areas ++ area.vpnRange.toList := by
  rw [spanOf, spanOf, List.flatMap_append, List.flatMap_singleton]

theorem pathsOf_ne_nil {vs : List Nat} {p : Path} (hp : p ∈ pathsOf vs) : p ≠ [] := by
  induction vs with
  | nil => exact absurd hp (Finset.notMem_empty p)
  | cons v vs ih =>
    rcases Finset.mem_union.mp hp with hp | hp
    · rcases Finset.mem_insert.mp hp with rfl | hp
      · exact List.cons_ne_nil _ _
      · rw [Finset.mem_singleton.mp hp]
        exact List.cons_ne_nil _ _
    · exact ih hp

/-- `b` is a full copy of the area `a`: other frames, the rest as in `a`. -/
structure AreaCopy (a b : MapArea) : Prop where
  vpnRange : b.vpnRange = a.vpnRange
  mapPerm : b.mapPerm = a.mapPerm
  keys : b.dataFrames.map Prod.fst = a.vpnRange.toList

/-- **The state of a copy** of `ms`, begun in `s₀`, after the areas `done`. -/
structure Copying (L : Layout) (rest : List Nat) (s₀ : Phys) (ms : MemorySet) (done : List MapArea)
    (s : Phys) (c : MemorySet) : Prop where
  child : Good L (ms.owned ++ rest) s c
  framed : c.Framed
  shape : List.Forall₂ AreaCopy done c.areas
  keeps : Keeps (ms.owned ++ rest) s₀ s
  trampoline : SameOn [L.trampolinePpn] s₀.mem s.mem
  mapped : ∀ v ∈ spanOf done, ms.translate s₀.mem v ≠ none
  bytes : ∀ v e e', v < 2 ^ 27 → v ≠ trampolineVpn → ms.translate s₀.mem v = some e →
    c.translate s.mem v = some e' → ∀ k, k < 4096 →
      s.mem (e'.ppn * 4096 + k) = s₀.mem (e.ppn * 4096 + k)
  absent : ∀ p, p.length < 3 → p ≠ [] →
    (c.pageTable.table s.mem p = none ↔ p ∉ pathsOf (trampolineVpn :: spanOf done))
  free : s.frames.free + (1 + (pathsOf (trampolineVpn :: spanOf done)).card + (spanOf done).length) =
    s₀.frames.free

section Areas

variable {L : Layout} {rest : List Nat} {s₀ s : Phys} {ms c : MemorySet} {done : List MapArea}
  {area : MapArea}

/-- The parent's side of the invariant. -/
theorem Good.beside (hp : Good L rest s₀ ms) (hsame : SameOn ms.owned s₀.mem s.mem)
    (hc : Good L (ms.owned ++ rest) s c) : Good L (c.owned ++ rest) s ms := by
  refine hp.congr (hsame.mono (List.subset_append_left _ _)) ?_
  exact hc.held.perm (List.perm_append_comm_assoc _ _ _)

theorem Copying.translate_eq (h : Copying L rest s₀ ms done s c) (hp : Good L rest s₀ ms) (v : Nat) :
    ms.translate s.mem v = ms.translate s₀.mem v :=
  hp.owns.tables.translate_congr
    (h.keeps.same.mono fun _ hf => List.mem_append_left _ (List.mem_append_left _ hf)) v

/-- The pages the copy has so far. -/
theorem Copying.pages (h : Copying L rest s₀ ms done s c) : c.pages = spanOf done := by
  have hall : ∀ {as bs : List MapArea}, List.Forall₂ AreaCopy as bs →
      bs.flatMap (fun area => area.dataFrames.map Prod.fst) = spanOf as := by
    intro as bs hab
    induction hab with
    | nil => rfl
    | cons hcopy _ ih => rw [List.flatMap_cons, spanOf, List.flatMap_cons, hcopy.keys, ih, spanOf]
  exact hall h.shape

theorem Copying.unmapped_iff (h : Copying L rest s₀ ms done s c) {v : Nat} (hv : v < 2 ^ 27) :
    c.translate s.mem v = none ↔ v ≠ trampolineVpn ∧ v ∉ spanOf done := by
  rw [h.child.translate_none_iff hv, h.framed.keys, h.pages, List.mem_cons, not_or]

/-- The frames the next area takes. -/
theorem Copying.need_eq (h : Copying L rest s₀ ms done s c) (area : MapArea) (hcost : area.cost = 1) :
    area.need s.mem c.pageTable area.vpnRange.toList +
        ((pathsOf (trampolineVpn :: spanOf done)).card + (spanOf done).length) =
      (pathsOf (trampolineVpn :: spanOf (done ++ [area]))).card + (spanOf (done ++ [area])).length := by
  have hpaths : pathsOf (trampolineVpn :: spanOf (done ++ [area])) =
      pathsOf (trampolineVpn :: spanOf done) ∪ pathsOf area.vpnRange.toList := by
    rw [spanOf_append, ← List.cons_append, pathsOf_append]
  have hfilter : (pathsOf area.vpnRange.toList).filter
      (fun p => c.pageTable.table s.mem p = none) =
      pathsOf area.vpnRange.toList \ pathsOf (trampolineVpn :: spanOf done) := by
    ext p
    rw [Finset.mem_filter, Finset.mem_sdiff]
    constructor
    · rintro ⟨hp, hnone⟩
      exact ⟨hp, (h.absent p (pathsOf_length hp) (pathsOf_ne_nil hp)).mp hnone⟩
    · rintro ⟨hp, hnot⟩
      exact ⟨hp, (h.absent p (pathsOf_length hp) (pathsOf_ne_nil hp)).mpr hnot⟩
  have hcard := Finset.card_sdiff_add_card (pathsOf area.vpnRange.toList)
    (pathsOf (trampolineVpn :: spanOf done))
  rw [Finset.union_comm] at hcard
  rw [MapArea.need, PageTable.missing, hfilter, hcost, Nat.one_mul, hpaths, spanOf_append,
    List.length_append]
  omega

theorem copyAreas_run_ok {c₁ : MemorySet} {s₁ : Phys} (areas : List MapArea)
    (hpush : (c.push area.fromAnother none).run s = some ((.ok (), c₁), s₁)) :
    (MemorySet.copyAreas ms c (area :: areas)).run s =
      ((MemorySet.copyPages ms c₁ area.vpnRange.toList).run s₁).bind fun r =>
        (MemorySet.copyAreas ms c₁ areas).run r.2 := by
  rw [MemorySet.copyAreas, Comp.run_bind, hpush]
  simp only [Option.bind_some, unwrapOk, Comp.run_bind, Comp.run_pure]

/-- A copy that cannot map the next area panics. -/
theorem copyAreas_run_bad (areas : List MapArea)
    (hmap : ∀ r s', (area.fromAnother.map c.pageTable).run s = some (r, s') → r.1 ≠ .ok ()) :
    (MemorySet.copyAreas ms c (area :: areas)).run s = none := by
  rw [MemorySet.copyAreas, Comp.run_bind, MemorySet.push, Comp.run_bind]
  cases hrun : (area.fromAnother.map c.pageTable).run s with
  | none => rfl
  | some x =>
    obtain ⟨⟨r, b, pt⟩, s'⟩ := x
    cases r with
    | ok u => exact absurd rfl (hmap _ _ hrun)
    | error e =>
      simp only [Option.bind_some, Comp.run_bind]
      cases b.drop.run s' with
      | none => rfl
      | some y => rfl

/-- Copying pages leaves the tables and everything of the others alone. -/
theorem PagesCopied.same {vs : List Nat} {s' : Phys} (h : PagesCopied ms c s vs s')
    (hc : Good L rest s c) (hcf : c.Framed) : SameOn (c.pageTable.frames ++ rest) s.mem s'.mem := by
  intro f hf x hx
  apply h.other
  intro v _ e' he' hc'
  apply hc.ppn_apart hcf he'
  rw [hc', hx]
  exact hf

theorem PagesCopied.trampoline {vs : List Nat} {s' : Phys} (h : PagesCopied ms c s vs s')
    (hc : Good L rest s c) (hcf : c.Framed) (hvs : ∀ v ∈ vs, v < 2 ^ 27 ∧ v ≠ trampolineVpn) :
    SameOn [L.trampolinePpn] s.mem s'.mem := by
  intro f hf x hx
  rw [List.mem_singleton] at hf
  subst hf
  apply h.other
  intro v hv e' he' hc'
  have hmem := hc.ppn_mem hcf (hvs v hv).1 (hvs v hv).2 he'
  have hge := hc.held.le_of_mem (List.mem_append_left _ (List.mem_append_right _ hmem))
  have hlt := L.trampolinePpn_lt
  omega

theorem AreaCopy.extend {es : List (Nat × Nat)} (hframed : area.mapType = .framed)
    (hes : es.map Prod.fst = area.vpnRange.toList) : AreaCopy area (area.fromAnother.extend es) := by
  refine ⟨MapArea.extend_vpnRange _ _, MapArea.extend_mapPerm _ _, ?_⟩
  have hframed' : area.fromAnother.mapType = .framed := hframed
  rw [MapArea.extend, hframed']
  exact hes

/-- The pages of the next area have been mapped and copied. -/
theorem Copying.next (h : Copying L rest s₀ ms done s c) (hp : Good L rest s₀ ms) (hpf : ms.Framed)
    (ha : area ∈ ms.areas) {es : List (Nat × Nat)} {s₁ s₂ : Phys} {pt₁ : PageTable}
    (hes : es.map Prod.fst = area.vpnRange.toList)
    (hrun : (area.fromAnother.map c.pageTable).run s =
      some ((.ok (), area.fromAnother.extend es, pt₁), s₁))
    (hM : Mapped L.firstFrame (c.frames ++ (ms.owned ++ rest)) area.fromAnother s c.pageTable es s₁ pt₁)
    (hmapped : ∀ v ∈ area.vpnRange.toList, ms.translate s₁.mem v ≠ none)
    (hcop : PagesCopied ms ⟨pt₁, c.areas ++ [area.fromAnother.extend es]⟩ s₁ area.vpnRange.toList s₂) :
    Copying L rest s₀ ms (done ++ [area]) s₂ ⟨pt₁, c.areas ++ [area.fromAnother.extend es]⟩ := by
  have hfresh : Fresh area.fromAnother := ⟨rfl, (hp.area area ha).le⟩
  have hP : Pushed L (ms.owned ++ rest) s c area.fromAnother s₁
      ⟨pt₁, c.areas ++ [area.fromAnother.extend es]⟩ :=
    push_wlp h.child hfresh (fun hc => absurd rfl hc) _ _ (push_run_none hrun)
  have hframed := hpf area ha
  have hcf := hP.framed h.framed hframed
  have hsame := hcop.same hP.good hcf
  have hsameTab : SameOn pt₁.frames s₁.mem s₂.mem := hsame.mono (List.subset_append_left _ _)
  have hsameRest : SameOn (ms.owned ++ rest) s₁.mem s₂.mem := hsame.mono (List.subset_append_right _ _)
  have hkeeps₁ : Keeps (ms.owned ++ rest) s₀ s₁ := h.keeps.trans hP.keeps
  have hout : ∀ v ∈ area.vpnRange.toList, v < 2 ^ 27 ∧ v ≠ trampolineVpn := by
    intro v hv
    have hlt := hfresh.lt hv
    exact ⟨hlt, ((h.unmapped_iff hlt).mp (hM.unmapped v (by rw [hes]; exact hv))).1⟩
  have htp : ∀ v, ms.translate s₁.mem v = ms.translate s₀.mem v := fun v =>
    hp.owns.tables.translate_congr
      (hkeeps₁.same.mono fun _ hf => List.mem_append_left _ (List.mem_append_left _ hf)) v
  have htc : ∀ v, pt₁.translate s₂.mem v = pt₁.translate s₁.mem v := fun v =>
    hP.good.owns.tables.translate_congr hsameTab v
  refine ⟨?_, hcf, ?_, ?_, ?_, ?_, ?_, ?_, ?_⟩
  · apply hP.good.congr hsameTab
    rw [hcop.frames]
    exact hP.good.held
  · exact List.rel_append h.shape (List.Forall₂.cons (AreaCopy.extend hframed hes) List.Forall₂.nil)
  · exact hkeeps₁.trans ⟨hsameRest, hcop.starved⟩
  · exact (h.trampoline.trans (map_keeps_trampoline h.child hfresh hrun)).trans
      (hcop.trampoline hP.good hcf hout)
  · intro v hv
    rw [spanOf_append, List.mem_append] at hv
    rcases hv with hv | hv
    · exact h.mapped v hv
    · rw [← htp v]
      exact hmapped v hv
  · intro v e e' hv hvt he he' k hk
    have he₁ : pt₁.translate s₁.mem v = some e' := by
      rw [← htc v]
      exact he'
    have hown : e.ppn ∈ ms.frames := hp.ppn_mem hpf hv hvt he
    by_cases hmem : v ∈ area.vpnRange.toList
    · -- a page of this area
      rw [hcop.copied v hmem e e' (by rw [htp]; exact he) he₁ k hk]
      refine hkeeps₁.same e.ppn (List.mem_append_left _ (List.mem_append_right _ hown)) _ ?_
      omega
    · -- a page of an area before
      have hold : c.translate s.mem v = some e' := by
        rcases (hM.translate v e' hv).mp he₁ with hold | ⟨f, hf, _⟩
        · exact hold
        · exact absurd (List.mem_map.mpr ⟨(v, f), hf, rfl⟩) (by rw [hes]; exact hmem)
      have hmemc : e'.ppn ∈ c.frames := h.child.ppn_mem h.framed hv hvt hold
      have hfar : s₂.mem (e'.ppn * 4096 + k) = s₁.mem (e'.ppn * 4096 + k) := by
        apply hcop.other
        intro w hw x hx hc
        have hwv := hP.good.ppn_inj hcf (hout w hw).1 hv hx he₁ (by omega)
        exact hmem (hwv ▸ hw)
      have hnear : s₁.mem (e'.ppn * 4096 + k) = s.mem (e'.ppn * 4096 + k) := by
        refine hM.same e'.ppn (List.mem_append_right _ (List.mem_append_left _ hmemc)) _ ?_
        omega
      rw [hfar, hnear]
      exact h.bytes v e e' hv hvt he hold k hk
  · intro p hlen hne
    have htab : pt₁.table s₂.mem p = pt₁.table s₁.mem p :=
      hP.good.owns.tables.table_congr hsameTab (Nat.le_of_lt hlen)
    rw [htab, hM.absent p hlen, h.absent p hlen hne, hes, spanOf_append, ← List.cons_append,
      pathsOf_append, Finset.mem_union, not_or]
  · have hneed := h.need_eq area (by rw [MapArea.cost, hframed])
    have hfree := hM.free
    have hlen : es.length = area.vpnRange.toList.length := by rw [← hes, List.length_map]
    have hold := h.free
    have hcost : area.fromAnother.cost = area.cost := rfl
    rw [hes, hlen, hcost] at hfree
    rw [MapArea.need] at hneed
    rw [hcop.frames]
    omega

/-- **One area.** It is copied, or the copy panics: because frames are missing, because a page of the
area has been copied already, or because the parent does not map one. -/
theorem Copying.round (h : Copying L rest s₀ ms done s c) (hp : Good L rest s₀ ms) (hpf : ms.Framed)
    (ha : area ∈ ms.areas) (areas : List MapArea) :
    (∃ s' c', Copying L rest s₀ ms (done ++ [area]) s' c' ∧
      (MemorySet.copyAreas ms c (area :: areas)).run s = (MemorySet.copyAreas ms c' areas).run s') ∨
    ((s.frames.free < area.need s.mem c.pageTable area.vpnRange.toList ∨
      (∃ v ∈ area.vpnRange.toList, c.translate s.mem v ≠ none) ∨
      (∃ v ∈ area.vpnRange.toList, ms.translate s₀.mem v = none)) ∧
      (MemorySet.copyAreas ms c (area :: areas)).run s = none) := by
  have hfresh : Fresh area.fromAnother := ⟨rfl, (hp.area area ha).le⟩
  have hframed := hpf area ha
  have hcost : area.fromAnother.cost = 1 := by
    have hframed' : area.fromAnother.mapType = .framed := hframed
    rw [MapArea.cost, hframed']
  rcases map_fresh_run h.child.owns hfresh with ⟨es, s₁, pt₁, hes, hrun, hM, _⟩ |
    ⟨vs₁, v, vs₂, es, s₁, pt₁, hvs, _, hes, hM, hz, hrun⟩ | ⟨vs₁, v, vs₂, hvs, _, _, _, hbad, hrun⟩
  · have hpush := push_run_none hrun
    have hP : Pushed L (ms.owned ++ rest) s c area.fromAnother s₁
        ⟨pt₁, c.areas ++ [area.fromAnother.extend es]⟩ :=
      push_wlp h.child hfresh (fun hc => absurd rfl hc) _ _ hpush
    have hcf := hP.framed h.framed hframed
    have hkeeps₁ : Keeps (ms.owned ++ rest) s₀ s₁ := h.keeps.trans hP.keeps
    have hparent : Good L (MemorySet.owned ⟨pt₁, c.areas ++ [area.fromAnother.extend es]⟩ ++ rest) s₁ ms :=
      hp.beside (hkeeps₁.same.mono (List.subset_append_left _ _)) hP.good
    have hvs : ∀ v ∈ area.vpnRange.toList, v < 2 ^ 27 ∧ v ≠ trampolineVpn ∧
        MemorySet.translate s₁.mem ⟨pt₁, c.areas ++ [area.fromAnother.extend es]⟩ v ≠ none := by
      intro v hv
      have hlt := hfresh.lt hv
      have hv' : v ∈ es.map Prod.fst := by rw [hes]; exact hv
      refine ⟨hlt, ((h.unmapped_iff hlt).mp (hM.unmapped v hv')).1, ?_⟩
      obtain ⟨⟨w, f⟩, hf, rfl⟩ := List.mem_map.mp hv'
      have htr := (hM.translate w _ hlt).mpr (Or.inr ⟨f, hf, rfl⟩)
      rw [show MemorySet.translate s₁.mem ⟨pt₁, c.areas ++ [area.fromAnother.extend es]⟩ w = _ from htr]
      exact Option.some_ne_none _
    have htp : ∀ v, ms.translate s₁.mem v = ms.translate s₀.mem v := fun v =>
      hp.owns.tables.translate_congr
        (hkeeps₁.same.mono fun _ hf => List.mem_append_left _ (List.mem_append_left _ hf)) v
    rcases copyPages_run hP.good hcf hparent hpf (VPNRange.nodup_toList _) hvs with
      ⟨hall, s₂, hcopy, hcop⟩ | ⟨⟨w, hw, hnone⟩, hcopy⟩
    · left
      refine ⟨s₂, _, h.next hp hpf ha hes hrun hM hall hcop, ?_⟩
      rw [copyAreas_run_ok areas hpush, hcopy, Option.bind_some]
    · right
      refine ⟨Or.inr (Or.inr ⟨w, hw, by rw [← htp w]; exact hnone⟩), ?_⟩
      rw [copyAreas_run_ok areas hpush, hcopy, Option.bind_none]
  · right
    refine ⟨Or.inl ?_, copyAreas_run_bad areas fun r s' hr => ?_⟩
    · have hle := area.fromAnother.need_le_append s.mem c.pageTable vs₁ (v :: vs₂)
      have hfree := hM.free
      rw [hes, ← List.length_map Prod.fst, hes] at hfree
      rw [← hvs] at hle
      rw [List.length_cons, hcost] at hle
      have hneed : area.fromAnother.need s.mem c.pageTable area.fromAnother.vpnRange.toList =
          area.need s.mem c.pageTable area.vpnRange.toList := rfl
      rw [hneed] at hle
      unfold MapArea.need at hle ⊢
      omega
    · rw [hrun] at hr
      cases hr
      simp
  · right
    refine ⟨?_, copyAreas_run_bad areas fun r s' hr => ?_⟩
    · have hle := area.fromAnother.need_le_append s.mem c.pageTable (vs₁ ++ [v]) vs₂
      rw [List.append_assoc, List.singleton_append, ← hvs] at hle
      have hneed : area.fromAnother.need s.mem c.pageTable area.fromAnother.vpnRange.toList =
          area.need s.mem c.pageTable area.vpnRange.toList := rfl
      rw [hneed] at hle
      rcases hbad with hbad | hbad
      · exact Or.inl (by omega)
      · refine Or.inr (Or.inl ⟨v, ?_, hbad⟩)
        have hmem : v ∈ vs₁ ++ v :: vs₂ := List.mem_append_right _ List.mem_cons_self
        rw [← hvs] at hmem
        exact hmem
    · rw [hrun] at hr
      cases hr

/-- The frames a copy takes: the root, the tables of all pages, and the pages. -/
def MemorySet.copyCost (ms : MemorySet) : Nat :=
  1 + (pathsOf (trampolineVpn :: spanOf ms.areas)).card + (spanOf ms.areas).length

/-- The pages of a full address space are those of its ranges. -/
theorem MemorySet.Full.pages (hfull : ms.Full) (hpf : ms.Framed) : ms.pages = spanOf ms.areas := by
  have hall : ∀ areas : List MapArea, (∀ a ∈ areas, a ∈ ms.areas) →
      areas.flatMap (fun area => area.dataFrames.map Prod.fst) = spanOf areas := by
    intro areas
    induction areas with
    | nil => exact fun _ => rfl
    | cons a areas ih =>
      intro hsub
      have ha := hsub a List.mem_cons_self
      have hkeys := hfull a ha
      rw [MapArea.entries_framed (hpf a ha)] at hkeys
      rw [List.flatMap_cons, spanOf, List.flatMap_cons, hkeys,
        ih fun b hb => hsub b (List.mem_cons_of_mem _ hb), spanOf]
  exact hall ms.areas fun _ ha => ha

theorem Good.nodup_pages (hp : Good L rest s ms) (hpf : ms.Framed) : (trampolineVpn :: ms.pages).Nodup := by
  have hn := hp.nodup
  rwa [hpf.keys L] at hn

theorem spanOf_mono {done todo : List MapArea} (h : ms.areas = done ++ todo) :
    (pathsOf (trampolineVpn :: spanOf done)).card ≤ (pathsOf (trampolineVpn :: spanOf ms.areas)).card ∧
      (spanOf done).length ≤ (spanOf ms.areas).length := by
  have hspan : spanOf ms.areas = spanOf done ++ spanOf todo := by
    rw [h, spanOf, List.flatMap_append]
    rfl
  rw [hspan, ← List.cons_append, pathsOf_append, List.length_append]
  exact ⟨Finset.card_le_card Finset.subset_union_left, Nat.le_add_right _ _⟩

/-- **All areas.** -/
theorem Copying.copyAreas_run (h : Copying L rest s₀ ms done s c) (hp : Good L rest s₀ ms)
    (hpf : ms.Framed) {todo : List MapArea} (hsplit : ms.areas = done ++ todo) :
    (∃ s' c', (MemorySet.copyAreas ms c todo).run s = some (c', s') ∧
      Copying L rest s₀ ms ms.areas s' c') ∨
    ((s₀.frames.free < ms.copyCost ∨ ¬ ms.Full) ∧ (MemorySet.copyAreas ms c todo).run s = none) := by
  induction todo generalizing done s c with
  | nil =>
    left
    rw [List.append_nil] at hsplit
    exact ⟨s, c, rfl, hsplit ▸ h⟩
  | cons area todo ih =>
    have ha : area ∈ ms.areas := by
      rw [hsplit]
      exact List.mem_append_right _ List.mem_cons_self
    have hsplit' : ms.areas = (done ++ [area]) ++ todo := by
      rw [hsplit, List.append_assoc, List.singleton_append]
    rcases h.round hp hpf ha todo with ⟨s', c', hnext, hrun⟩ | ⟨hbad, hrun⟩
    · rw [hrun]
      exact ih hnext hsplit'
    · right
      refine ⟨?_, hrun⟩
      rcases hbad with hfree | ⟨v, hv, hmapped⟩ | ⟨v, hv, hnone⟩
      · left
        have hneed := h.need_eq area (by rw [MapArea.cost, hpf area ha])
        have hold := h.free
        obtain ⟨hmono₁, hmono₂⟩ := spanOf_mono hsplit'
        unfold MemorySet.copyCost
        omega
      · right
        intro hfull
        have hnd := hp.nodup_pages hpf
        have hspan : spanOf ms.areas = spanOf done ++ (area.vpnRange.toList ++ spanOf todo) := by
          rw [hsplit, spanOf, List.flatMap_append, List.flatMap_cons]
          rfl
        rw [hfull.pages hpf, hspan, List.nodup_cons, List.mem_append, List.mem_append, not_or, not_or,
          List.nodup_append] at hnd
        have hlt : v < 2 ^ 27 := by
          have hle := (hp.area area ha).le
          have hin := VPNRange.mem_toList.mp hv
          omega
        apply hmapped
        rw [h.unmapped_iff hlt]
        refine ⟨?_, fun hc => hnd.2.2.2 v hc v (List.mem_append_left _ hv) rfl⟩
        rintro rfl
        exact hnd.1.2.1 hv
      · right
        intro hfull
        have hkeys := hfull area ha
        rw [← hkeys] at hv
        have hlt : v < 2 ^ 27 := by
          have hle := (hp.area area ha).le
          have hin := VPNRange.mem_toList.mp ((hp.area area ha).keys v hv)
          omega
        rw [hp.translate_none_iff hlt] at hnone
        apply hnone
        rw [MemorySet.entries, List.map_cons, List.map_flatMap]
        refine List.mem_cons_of_mem _ (List.mem_flatMap.mpr ⟨area, ha, ?_⟩)
        rw [MapArea.map_fst_ptes]
        exact hv

/-- A copy before its first area. -/
theorem Copying.start (hp : Good L rest s ms) {c₀ : MemorySet} {s₁ s₂ : Phys}
    (hbare : MemorySet.newBare.run s = some (c₀, s₁)) (htramp : (c₀.mapTrampoline L).run s₁ = some (c, s₂))
    (hareas : c.areas = []) (hc : Good L (ms.owned ++ rest) s₂ c)
    (htab : ∀ p, p.length < 3 → p ≠ [] →
      (c.pageTable.table s₂.mem p = none ↔ p ∉ pathsOf [trampolineVpn]))
    (hfree : s₂.frames.free + (1 + (pathsOf [trampolineVpn]).card) = s.frames.free)
    (hk : Keeps (ms.owned ++ rest) s s₂) : Copying L rest s ms [] s₂ c := by
  have hcf : c.Framed := MemorySet.framed_of_nil hareas
  refine ⟨hc, hcf, ?_, hk, newUser_keeps_trampoline hp.held hbare htramp, ?_, ?_, htab, hfree⟩
  · rw [hareas]
    exact List.Forall₂.nil
  · intro v hv
    cases hv
  · intro v e e' hv hvt _ he'
    have hnone : c.translate s₂.mem v = none := by
      rw [hc.translate_none_iff hv, hcf.keys, MemorySet.pages, hareas, List.flatMap_nil,
        List.mem_singleton]
      exact hvt
    rw [hnone] at he'
    cases he'

/-- **`from_existed_userspace`** copies the address space, or panics: because frames are missing, or
because an area has lost pages. -/
theorem fromExistedUserspace_run (hp : Good L rest s ms) (hpf : ms.Framed) :
    (∃ s' c, (MemorySet.fromExistedUserspace L ms).run s = some (c, s') ∧
      Copying L rest s ms ms.areas s' c) ∨
    ((s.frames.free < ms.copyCost ∨ ¬ ms.Full) ∧
      (MemorySet.fromExistedUserspace L ms).run s = none) := by
  rw [MemorySet.fromExistedUserspace]
  rcases newUser_run hp.held with ⟨c₀, s₁, c, s₂, hbare, htramp, hareas, hc, htab, hfree, hk⟩ | ⟨hlt, hrun⟩
  · have hstart := Copying.start hp hbare htramp hareas hc htab hfree hk
    rw [Comp.run_bind, hbare, Option.bind_some, Comp.run_bind, htramp, Option.bind_some]
    exact hstart.copyAreas_run hp hpf (List.nil_append _).symm
  · right
    refine ⟨Or.inl ?_, ?_⟩
    · have hmono : (pathsOf [trampolineVpn]).card ≤ (pathsOf (trampolineVpn :: spanOf ms.areas)).card := by
        rw [← List.singleton_append, pathsOf_append]
        exact Finset.card_le_card Finset.subset_union_left
      unfold MemorySet.copyCost
      omega
    · rw [Comp.run_bind] at hrun
      rw [Comp.run_bind]
      cases hb : MemorySet.newBare.run s with
      | none => rfl
      | some r =>
        rw [hb, Option.bind_some] at hrun
        rw [Option.bind_some, Comp.run_bind, hrun, Option.bind_none]

/-- A copy that returns shows that every area was full. -/
theorem Copying.full (h : Copying L rest s₀ ms ms.areas s c) (hp : Good L rest s₀ ms) (hpf : ms.Framed) :
    ms.Full := by
  intro area ha
  have hok := hp.area area ha
  rw [MapArea.entries_framed (hpf area ha)]
  have hnd := h.child.nodup_pages h.framed
  rw [h.pages, List.nodup_cons] at hnd
  have hmem : ∀ v ∈ area.vpnRange.toList, v ∈ area.dataFrames.map Prod.fst := by
    intro v hv
    have hspan : v ∈ spanOf ms.areas := List.mem_flatMap.mpr ⟨area, ha, hv⟩
    have hlt : v < 2 ^ 27 := by
      have hle := hok.le
      have hin := VPNRange.mem_toList.mp hv
      omega
    obtain ⟨e, he⟩ := Option.ne_none_iff_exists'.mp (h.mapped v hspan)
    rcases hp.translate_framed hpf hlt he with ⟨hvt, _⟩ | ⟨a, ha', f, hf, _⟩
    · exact absurd (hvt ▸ hspan) hnd.1
    · -- the area that maps the page has it in its range, and no other has
      have hkey : v ∈ a.dataFrames.map Prod.fst := List.mem_map.mpr ⟨(v, f), hf, rfl⟩
      have hrange : v ∈ a.vpnRange.toList := by
        apply (hp.area a ha').keys
        rw [MapArea.entries_framed (hpf a ha')]
        exact hkey
      have heq : a = area := by
        by_contra hne
        have hsymm : Std.Symm (Function.onFun List.Disjoint fun area : MapArea => area.vpnRange.toList) :=
          ⟨fun _ _ hd => hd.symm⟩
        have hdis := (List.nodup_flatMap.mp hnd.2).2.forall ha' ha hne
        exact hdis hrange hv
      rw [← heq]
      exact hkey
  have hperm : (area.dataFrames.map Prod.fst).Perm area.vpnRange.toList := by
    rw [List.perm_ext_iff_of_nodup hok.nodup (VPNRange.nodup_toList _)]
    intro v
    refine ⟨fun hv => ?_, hmem v⟩
    apply hok.keys
    rw [MapArea.entries_framed (hpf area ha)]
    exact hv
  exact List.Perm.eq_of_pairwise
    (fun a b _ _ hab hba => absurd (Nat.lt_trans hab hba) (Nat.lt_irrefl _)) hok.sorted
    List.pairwise_lt_range' hperm

/-- **The copy maps what the original maps, with the same permissions.** -/
theorem Copying.flags (h : Copying L rest s₀ ms ms.areas s c) (hp : Good L rest s₀ ms) (hpf : ms.Framed)
    {v : Nat} (hv : v < 2 ^ 27) :
    (c.translate s.mem v).map PageTableEntry.flags = (ms.translate s₀.mem v).map PageTableEntry.flags := by
  have hfull := h.full hp hpf
  by_cases hvt : v = trampolineVpn
  · rw [hvt, h.child.translate_trampoline, hp.translate_trampoline]
  · cases hc : c.translate s.mem v with
    | none =>
      have hnone := (h.unmapped_iff hv).mp hc
      have hspan : v ∉ ms.pages := by
        rw [hfull.pages hpf]
        exact hnone.2
      have hparent : ms.translate s₀.mem v = none := by
        rw [hp.translate_none_iff hv, hpf.keys, List.mem_cons, not_or]
        exact ⟨hvt, hspan⟩
      rw [hparent]
    | some e' =>
      rcases h.child.translate_framed h.framed hv hc with ⟨hc', _⟩ | ⟨b, hb, f', hf', _, hflags'⟩
      · exact absurd hc' hvt
      · -- the area it is copied from has the page too
        obtain ⟨a, ha, hcopy⟩ : ∃ a ∈ ms.areas, AreaCopy a b := by
          obtain ⟨i, hi, rfl⟩ := List.getElem_of_mem hb
          have hi' : i < ms.areas.length := by rw [h.shape.length_eq]; exact hi
          exact ⟨ms.areas[i], List.getElem_mem hi', h.shape.get hi' hi⟩
        have hkey : v ∈ a.dataFrames.map Prod.fst := by
          have hkeys := hfull a ha
          rw [MapArea.entries_framed (hpf a ha)] at hkeys
          rw [hkeys, ← hcopy.keys]
          exact List.mem_map.mpr ⟨(v, f'), hf', rfl⟩
        obtain ⟨⟨w, f⟩, hf, rfl⟩ := List.mem_map.mp hkey
        obtain ⟨e, he, _, hflags⟩ := hp.translate_area hpf ha hf
        rw [he, Option.map_some, Option.map_some, hflags, hflags', hcopy.mapPerm]

end Areas

end RCore.Mm
