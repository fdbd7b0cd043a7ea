import RCore.Mm.Verify.Sv39

/-!
# The inner entries of a page table

The kernel writes an inner entry of a page table in one place, `find_pte_create`, and writes a pointer.
So every address space that a process or the kernel can build has `Pointers` for its inner entries, and
the hart reads it as the kernel does.
-/

namespace RCore.Mm

/-- A page table in order, as far as a walk through it goes. -/
structure Inner (m : Mem) (pt : PageTable) : Prop where
  tables : Tables m pt
  pointers : Pointers m pt

section Tables

variable {m m' : Mem} {pt : PageTable}

theorem Inner.congr (h : Inner m pt) (hs : SameOn pt.frames m m') : Inner m' pt := by
  refine ⟨h.tables.congr hs, fun p i e hl he => ?_⟩
  rw [h.tables.entry_congr hs (by omega)] at he
  exact h.pointers p i e hl he

/-- A store to a leaf. -/
theorem Inner.leaf (h : Inner m pt) {p : Path} {f : Nat} (htab : pt.table m p = some f) (hl : p.length = 2)
    (i : Fin 512) (v : Nat) : Inner (m.setWord 8 (pteAddr f i) v) pt := by
  have hr : ∀ g, g ≠ f → slot (m.setWord 8 (pteAddr f i) v) g = slot m g :=
    fun g hg => slot_setWord_frame _ _ _ hg
  have hl' : p.length + 1 = 3 := by omega
  have hwalk : ∀ q : Path, q.length < 3 → pt.table (m.setWord 8 (pteAddr f i) v) q = pt.table m q :=
    fun q hq => Radix.walk_write h.tables.apart htab hl' hr hq
  refine ⟨⟨Radix.apart_write h.tables.apart htab hl' hr, ?_⟩, ?_⟩
  · intro q g hq hg
    rw [hwalk q hq] at hg
    exact h.tables.owned q g hq hg
  · intro q j e hq he
    have hne : q ≠ p := by
      rintro rfl
      omega
    have hold : pt.entry (m.setWord 8 (pteAddr f i) v) q j = pt.entry m q j :=
      Radix.lookup_write h.tables.apart htab hl' hr (by omega) hne j
    rw [hold] at he
    exact h.pointers q j e hq he

end Tables

/-! ## `map` and `unmap` -/

section Calls

variable {lo : Nat} {rest : List Nat} {s : Phys} {pt : PageTable} {p : Path} {i : Fin 512} {f : Nat}

/-- A table that `find_pte_create` adds. -/
theorem pointers_grow (ho : Owns lo rest s pt) (hp : Pointers s.mem pt) (htab : pt.table s.mem p = some f)
    (hl : p.length < 2) (hi : slot s.mem f i = none) {g : Nat} {s₁ : Phys}
    (ht : Taken lo (pt.frames ++ rest) s g s₁) :
    Pointers (s₁.mem.setWord 8 (pteAddr f i) (PageTableEntry.new g PTEFlags.V).bits)
      { pt with frames := pt.frames ++ [g] } := by
  obtain ⟨heff, hslot, _⟩ := effect_grow ho htab hl hi ht rfl
  have hg44 : g < 2 ^ 44 := ht.held.lt_of_mem List.mem_cons_self
  have hgn : g ∉ pt.frames := fun hc => ht.not_mem (List.mem_append_left _ hc)
  have hfg : f ≠ g := fun hc => hgn (hc ▸ ho.tables.owned p f (by omega) htab)
  intro q j e hq he
  rw [PageTable.entry_eq] at he
  cases hold : pt.table s.mem q with
  | some h =>
    rw [heff.old q h (by omega) hold, Option.bind_some] at he
    have hhg : h ≠ g := fun hc => hgn (hc ▸ ho.tables.owned q h (by omega) hold)
    by_cases hhf : h = f
    · subst hhf
      by_cases hji : j = i
      · subst hji
        rw [hslot] at he
        cases he
        refine ⟨PageTableEntry.flags_new hg44 _, ?_⟩
        have hv := PTEFlags.V.toNat_lt
        rw [PageTableEntry.bits_new hg44]
        omega
      · rw [slot_setWord_ne _ _ _ hji, ht.mem, slot_congr (SameOn.zeroFrame (by simpa using hfg.symm) s.mem)] at he
        refine hp q j e hq ?_
        rw [PageTable.entry_eq, hold, Option.bind_some, he]
    · rw [slot_setWord_frame _ _ _ hhf, ht.mem, slot_congr (SameOn.zeroFrame (by simpa using hhg.symm) s.mem)] at he
      refine hp q j e hq ?_
      rw [PageTable.entry_eq, hold, Option.bind_some, he]
  | none =>
    -- the new table, which is empty
    have habs := heff.absent q (by omega)
    rw [hold] at habs
    by_cases hqp : q = i :: p
    · have hnew := table_child (i := i) (heff.old p f (by omega) htab)
      rw [hslot, Option.map_some, PageTableEntry.ppn_new hg44, ← hqp] at hnew
      rw [hnew, Option.bind_some, slot_setWord_frame _ _ _ hfg.symm, ht.mem, slot_zeroFrame] at he
      cases he
    · rw [habs.mpr ⟨rfl, by simpa using hqp⟩] at he
      cases he

/-- `find_pte_create` keeps the inner entries pointers. -/
theorem findPteCreateLoop_pointers {idxs : List (Fin 512)} (ho : Owns lo rest s pt) (hp : Pointers s.mem pt)
    (htab : pt.table s.mem p = some f) (hl : p.length + idxs.length = 3) :
    (PageTable.findPteCreateLoop f pt.frames idxs).wlp
      (fun r s' => Pointers s'.mem { pt with frames := r.2 }) s := by
  induction idxs generalizing s pt p f with
  | nil =>
    rw [PageTable.findPteCreateLoop, Comp.wlp_pure]
    exact hp
  | cons i idxs ih =>
    rw [PageTable.findPteCreateLoop]
    split
    · rw [Comp.wlp_pure]
      exact hp
    next hne =>
      have hlen : p.length < 2 := by
        cases idxs with
        | nil => exact absurd rfl hne
        | cons j idxs =>
          simp only [List.length_cons] at hl
          omega
      rw [List.length_cons] at hl
      rw [Comp.wlp_bind, Comp.wlp_get]
      cases hi : slot s.mem f i with
      | some e =>
        have hchild : pt.table s.mem (i :: p) = some e.ppn := by rw [table_child htab, hi, Option.map_some]
        rw [PageTable.readPte_of_slot hi, isValid_of_slot hi]
        exact ih ho hp hchild (by rw [List.length_cons]; omega)
      | none =>
        rw [isValid_of_slot_none hi]
        simp only [Bool.not_false, if_true, Comp.wlp_bind]
        rcases frameAlloc_cases ho.held with ⟨_, hrun⟩ | ⟨g, s₁, hrun, ht⟩
        · rw [Comp.wlp_of_run hrun, Comp.wlp_unwrap]
          intro a ha
          cases ha
        · rw [Comp.wlp_of_run hrun, Comp.wlp_unwrap]
          rintro a ha
          cases ha
          obtain ⟨heff, hslot, _⟩ := effect_grow ho htab hlen hi ht rfl
          have hg44 : g < 2 ^ 44 := ht.held.lt_of_mem List.mem_cons_self
          have hnew := table_child (i := i) (heff.old p f (by omega) htab)
          rw [hslot, Option.map_some, PageTableEntry.ppn_new hg44] at hnew
          rw [writePte, Comp.wlp_modify, Comp.wlp_get, PageTable.readPte_of_slot hslot, PageTableEntry.ppn_new hg44]
          exact ih heff.owns (pointers_grow ho hp htab hlen hi ht) hnew (by rw [List.length_cons]; omega)

/-- A store to a leaf. -/
theorem pointers_leaf (ho : Owns lo rest s pt) (hp : Pointers s.mem pt) (htab : pt.table s.mem p = some f)
    (hl : p.length = 2) (i : Fin 512) (v : Nat) : Pointers (s.mem.setWord 8 (pteAddr f i) v) pt :=
  (Inner.leaf ⟨ho.tables, hp⟩ htab hl i v).pointers

theorem pointers_congr (ho : Owns lo rest s pt) (hp : Pointers s.mem pt) {m : Mem}
    (hs : SameOn pt.frames s.mem m) : Pointers m pt :=
  (Inner.congr ⟨ho.tables, hp⟩ hs).pointers

/-- `map` stores to a leaf. -/
theorem map_pointers (ho : Owns lo rest s pt) (hp : Pointers s.mem pt) (vpn ppn : Nat) (flags : PTEFlags) :
    (pt.map vpn ppn flags).wlp (fun pt' s' => Pointers s'.mem pt') s := by
  have hroot : pt.table s.mem [] = some pt.rootPpn := rfl
  have hfind : (pt.findPteCreate vpn).wlp (fun r s' => Pointers s'.mem r.2) s := by
    rw [PageTable.findPteCreate]
    simp only [Comp.wlp_bind, Comp.wlp_pure]
    exact findPteCreateLoop_pointers ho hp hroot rfl
  rw [PageTable.map, Comp.wlp_bind]
  rcases findPteCreate_run ho vpn with ⟨s₁, pt₁, g, heff, htab, _, hrun⟩ | ⟨_, hrun⟩
  · rw [Comp.wlp_of_run hrun]
    simp only [writePte, Comp.wlp_bind, Comp.wlp_unwrap, Comp.wlp_get, Comp.wlp_assert, Comp.wlp_modify,
      Comp.wlp_pure]
    rintro a ha _
    cases ha
    exact pointers_leaf heff.owns (hfind _ _ hrun) htab (PageTable.leafPath_length vpn) _ _
  · intro a s' hc
    rw [hrun] at hc
    cases hc

/-- A new page table has no entries. -/
theorem new_pointers (hh : Held lo s.frames rest) : PageTable.new.wlp (fun pt s' => Pointers s'.mem pt) s := by
  rcases new_run hh with ⟨s', pt', hrun, _, _, htab, _⟩ | ⟨_, hrun⟩
  · rw [Comp.wlp_of_run hrun]
    intro p i e hl he
    have hchild : pt'.table s'.mem (i :: p) = none := htab _ (by rw [List.length_cons]; omega) (List.cons_ne_nil _ _)
    rw [PageTable.entry_eq] at he
    obtain ⟨g, hg, hslot⟩ := Option.bind_eq_some_iff.mp he
    rw [table_child hg, hslot] at hchild
    cases hchild
  · intro a s' hc
    rw [hrun] at hc
    cases hc

/-! ## Areas -/

theorem mapOne_pointers {area : MapArea} {vpn : Nat} (ho : Owns lo (area.frames ++ rest) s pt)
    (hp : Pointers s.mem pt) (hkeys : ∀ k ∈ area.dataFrames.map Prod.fst, k < vpn) :
    (area.mapOne pt vpn).wlp (fun r s' => Pointers s'.mem r.2.2) s := by
  rw [MapArea.mapOne]
  cases area.mapType with
  | framed =>
    have hlook : area.dataFrames.lookup vpn = none :=
      lookup_eq_none_iff.mpr fun hc => Nat.lt_irrefl vpn (hkeys vpn hc)
    simp only [Comp.wlp_bind]
    rcases frameAlloc_cases ho.held with ⟨_, hrun⟩ | ⟨g, s₁, hrun, ht⟩
    · rw [Comp.wlp_of_run hrun, Comp.wlp_pure]
      exact hp
    · have hsame : SameOn pt.frames s.mem s₁.mem := ht.same.mono (List.subset_append_left _ _)
      have ho₁ : Owns lo (g :: (area.frames ++ rest)) s₁ pt :=
        ⟨ho.tables.congr hsame, ht.held.perm List.perm_middle.symm⟩
      rw [Comp.wlp_of_run hrun]
      simp only [MapArea.insertFrame, hlook, Comp.wlp_bind, Comp.wlp_pure]
      exact map_pointers ho₁ (pointers_congr ho hp hsame) _ _ _
  | identical =>
    simp only [Comp.wlp_bind, Comp.wlp_pure]
    exact map_pointers ho hp _ _ _

theorem mapLoop_pointers {area : MapArea} {vs : List Nat} (ho : Owns lo (area.frames ++ rest) s pt)
    (hp : Pointers s.mem pt) (hlt : ∀ v ∈ vs, v < 2 ^ 27)
    (hsort : (area.dataFrames.map Prod.fst ++ vs).Pairwise (· < ·)) :
    (area.mapLoop pt vs).wlp (fun r s' => Pointers s'.mem r.2.2) s := by
  induction vs generalizing area s pt with
  | nil =>
    rw [MapArea.mapLoop, Comp.wlp_pure]
    exact hp
  | cons v vs ih =>
    have hkeys : ∀ k ∈ area.dataFrames.map Prod.fst, k < v := fun k hk =>
      (List.pairwise_append.mp hsort).2.2 k hk v List.mem_cons_self
    have hone := mapOne_pointers ho hp hkeys
    rw [MapArea.mapLoop, Comp.wlp_bind]
    rcases mapOne_run ho (hlt v List.mem_cons_self) hkeys with ⟨g, s', pt', hrun, hM, _⟩ | ⟨_, _, hrun⟩ | ⟨_, _, hrun⟩
    · rw [Comp.wlp_of_run hrun]
      have hsub : ((area.extend [(v, g)]).dataFrames.map Prod.fst).Sublist
          (area.dataFrames.map Prod.fst ++ [v]) := by
        unfold MapArea.extend
        split
        · rw [List.map_append]
          exact List.Sublist.refl _
        · exact List.sublist_append_left _ _
      rw [← List.singleton_append, ← List.append_assoc] at hsort
      exact ih hM.owns (hone _ _ hrun) (fun w hw => hlt w (List.mem_cons_of_mem _ hw))
        (hsort.sublist (hsub.append (List.Sublist.refl _)))
    · rw [Comp.wlp_of_run hrun, Comp.wlp_pure]
      exact hp
    · intro a s' hc
      rw [hrun] at hc
      cases hc

end Calls

/-! ## Address spaces -/

section Spaces

variable {L : Layout} {rest : List Nat} {s s' : Phys} {ms ms' c : MemorySet} {area : MapArea}

/-- The stores of `copy_data` go to pages. -/
theorem copyDataLoop_pointers (h : Good L rest s ms) (hfr : ms.Framed) (hp : Pointers s.mem ms.pageTable)
    (area : MapArea) (data : List UInt8) (ks : List Nat) :
    (area.copyDataLoop ms.pageTable data ks).wlp (fun _ s' => Pointers s'.mem ms.pageTable) s := by
  induction ks generalizing s with
  | nil =>
    rw [MapArea.copyDataLoop, Comp.wlp_pure]
    exact hp
  | cons k ks ih =>
    rw [MapArea.copyDataLoop]
    simp only [Comp.wlp_bind, Comp.wlp_get, Comp.wlp_unwrap, storePhys, Comp.wlp_modify]
    intro e he
    have hfits : e.ppn * 4096 % 4096 + ((data.drop (k * 4096)).take 4096).length ≤ 4096 := by
      rw [Nat.mul_mod_left, List.length_take]
      omega
    have hsame := h.same_store hfr he (Nat.mul_div_cancel _ (by decide)) hfits rfl
    exact ih (h.store hfr he (Nat.mul_div_cancel _ (by decide)) hfits rfl).1
      (pointers_congr h.owns hp (hsame.mono (List.subset_append_left _ _)))

/-- **`push`** keeps the inner entries pointers, also when it fails. -/
theorem push_pointers (h : Good L rest s ms) (hp : Pointers s.mem ms.pageTable) (hf : Fresh area)
    {data : Option (List UInt8)} (hdata : data ≠ none → ms.Framed ∧ area.mapType = .framed) :
    (ms.push area data).wlp (fun r s' => Pointers s'.mem r.2.pageTable) s := by
  have ho : Owns L.firstFrame (area.frames ++ (ms.frames ++ rest)) s ms.pageTable := by
    rw [hf.frames, List.nil_append]
    exact h.owns
  have hmap : (area.map ms.pageTable).wlp (fun r s' => Pointers s'.mem r.2.2) s :=
    mapLoop_pointers ho hp (fun v hv => hf.lt hv) hf.sorted
  rw [MemorySet.push, Comp.wlp_bind]
  rcases map_fresh_run h.owns hf with ⟨es, s₁, pt₁, hes, hrun, hM, hid⟩ |
    ⟨_, _, _, es, s₁, pt₁, _, _, _, hM, _, hrun⟩ | ⟨_, _, _, _, _, _, _, _, hrun⟩
  · have hp₁ : Pointers s₁.mem pt₁ := hmap _ _ hrun
    rw [Comp.wlp_of_run hrun]
    cases data with
    | none =>
      simp only [Comp.wlp_pure]
      exact hp₁
    | some data =>
      obtain ⟨hfr, htype⟩ := hdata (Option.some_ne_none _)
      have hg := h.pushed hf hes hid hM
      have hfr' : MemorySet.Framed ⟨pt₁, ms.areas ++ [area.extend es]⟩ := by
        intro a ha
        rw [List.mem_append, List.mem_singleton] at ha
        rcases ha with ha | rfl
        · exact hfr a ha
        · rw [MapArea.extend_mapType, htype]
      simp only [Comp.wlp_bind, MapArea.copyData, Comp.wlp_assert, Comp.wlp_pure]
      intro _
      exact copyDataLoop_pointers hg hfr' hp₁ _ _ _
  · have hp₁ : Pointers s₁.mem pt₁ := hmap _ _ hrun
    rw [Comp.wlp_of_run hrun]
    have hheld : Held L.firstFrame ({ s₁ with starved := true } : Phys).frames
        ((area.extend es).frames ++ (pt₁.frames ++ (ms.frames ++ rest))) :=
      hM.owns.held.perm (List.perm_append_comm_assoc _ _ _)
    obtain ⟨s₂, hdrop, _, hmem, _⟩ := dropFrames_run hheld
    simp only [Comp.wlp_bind, MapArea.drop]
    rw [MapArea.frames] at hdrop
    rw [Comp.wlp_of_run hdrop, Comp.wlp_pure, hmem]
    exact hp₁
  · intro a s' hc
    rw [hrun] at hc
    cases hc

/-- A good address space that the hart can follow. -/
structure Wired (L : Layout) (rest : List Nat) (s : Phys) (ms : MemorySet) : Prop where
  good : Good L rest s ms
  pointers : Pointers s.mem ms.pageTable

theorem Wired.congr {rest' : List Nat} (h : Wired L rest s ms) (hs : SameOn ms.pageTable.frames s.mem s'.mem)
    (hh : Held L.firstFrame s'.frames (ms.owned ++ rest')) : Wired L rest' s' ms :=
  ⟨h.good.congr hs hh, pointers_congr h.good.owns h.pointers hs⟩

theorem Wired.push (h : Wired L rest s ms) (hf : Fresh area) {data : Option (List UInt8)}
    (hdata : data ≠ none → ms.Framed ∧ area.mapType = .framed) :
    (ms.push area data).wlp (fun r s' => match r.1 with
      | .ok _ => Pushed L rest s ms area s' r.2 ∧ Wired L rest s' r.2
      | .error _ => s'.starved = true) s := by
  refine ((push_wlp h.good hf hdata).and (push_pointers h.good h.pointers hf hdata)).mono ?_
  rintro ⟨r, ms'⟩ s' ⟨hr, hp⟩
  cases r with
  | ok => exact ⟨hr, hr.good, hp⟩
  | error => exact hr.1

theorem Wired.pushNew (h : Wired L rest s ms) (start stop : Nat) (mapType : MapType) (mapPerm : MapPermission) :
    (ms.pushNew start stop mapType mapPerm none).wlp (fun ms' s' =>
      (∃ hle, Pushed L rest s ms (newArea start stop hle mapType mapPerm) s' ms') ∧ Wired L rest s' ms') s := by
  rw [MemorySet.pushNew, MapArea.new]
  simp only [Comp.wlp_bind, VPNRange.wlp_new, Comp.wlp_pure]
  intro hle
  refine (h.push (fresh_new hle mapType) fun hc => absurd rfl hc).mono ?_
  rintro ⟨r, ms'⟩ s' hr
  cases r with
  | ok =>
    simp only [unwrapOk, Comp.wlp_pure]
    exact ⟨⟨hle, hr.1⟩, hr.2⟩
  | error => simp only [unwrapOk, Comp.wlp_panic]

/-- A new memory set with its trampoline. -/
theorem newUser_wired (hh : Held L.firstFrame s.frames rest) {Q : MemorySet → Phys → Prop}
    (hQ : ∀ ms s', ms.areas = [] → Wired L rest s' ms → Q ms s') :
    MemorySet.newBare.wlp (fun ms s' => (ms.mapTrampoline L).wlp Q s') s := by
  have hp : MemorySet.newBare.wlp (fun ms s' => (ms.mapTrampoline L).wlp
      (fun ms' s'' => Pointers s''.mem ms'.pageTable) s') s := by
    rw [MemorySet.newBare]
    simp only [Comp.wlp_bind, Comp.wlp_pure]
    have hnew := new_pointers hh
    rcases new_run hh with ⟨s₀, pt₀, hrun, ho, _⟩ | ⟨_, hrun⟩
    · rw [Comp.wlp_of_run hrun]
      intro ms' s' hms
      rw [mapTrampoline_eq] at hms
      obtain ⟨⟨pt', s₁⟩, hmap, hms⟩ := Option.bind_eq_some_iff.mp hms
      cases hms
      exact map_pointers ho (hnew _ _ hrun) _ _ _ _ _ hmap
    · intro a s' hc
      rw [hrun] at hc
      cases hc
  have hg := newUser_wlp (L := L) hh (Q := fun ms s' => ms.areas = [] ∧ Good L rest s' ms)
    fun ms s' ha hg _ => ⟨ha, hg⟩
  refine (hg.and hp).mono fun ms₀ s₀ h => ?_
  refine (h.1.and h.2).mono fun ms s' h' => ?_
  exact hQ ms s' h'.1.1 ⟨h'.1.2, h'.2⟩

theorem mapSegments_wired (elf : ElfFile) (phs : List ProgramHeader) (maxEndVpn : Nat) (h : Wired L rest s ms)
    (hfr : ms.Framed) :
    (MemorySet.mapSegments elf ms maxEndVpn phs).wlp (fun r s' => Wired L rest s' r.1 ∧ r.1.Framed) s := by
  induction phs generalizing s ms maxEndVpn with
  | nil =>
    rw [MemorySet.mapSegments, Comp.wlp_pure]
    exact ⟨h, hfr⟩
  | cons ph phs ih =>
    rw [MemorySet.mapSegments]
    split
    · simp only [MapArea.new, Comp.wlp_bind, VPNRange.wlp_new, Comp.wlp_pure, Comp.wlp_assert]
      intro hle _
      refine (h.push (fresh_new hle .framed) fun _ => ⟨hfr, rfl⟩).mono ?_
      rintro ⟨r, ms'⟩ s' hr
      cases r with
      | ok =>
        simp only [unwrapOk, Comp.wlp_pure]
        exact ih _ hr.2 (hr.1.framed hfr rfl)
      | error => simp only [unwrapOk, Comp.wlp_panic]
    · exact ih _ h hfr

/-- The space of a program. -/
theorem fromElf_wired (hh : Held L.firstFrame s.frames rest) (elf : ElfFile) :
    (MemorySet.fromElf L elf).wlp (fun r s' => Wired L rest s' r.1) s := by
  rw [MemorySet.fromElf]
  simp only [Comp.wlp_bind]
  refine newUser_wired hh fun ms₀ s₀ hareas h₀ => ?_
  refine (mapSegments_wired elf _ 0 h₀ (MemorySet.framed_of_nil hareas)).mono ?_
  rintro ⟨ms₁, maxEndVpn⟩ s₁ ⟨h₁, _⟩
  refine (h₁.pushNew _ _ _ _).mono fun ms₂ s₂ h₂ => ?_
  refine (h₂.2.pushNew _ _ _ _).mono fun ms₃ s₃ h₃ => ?_
  rw [Comp.wlp_pure]
  exact h₃.2

/-- The copies of pages go to pages. -/
theorem copyPages_wired (h : Wired L rest s c) (hfr : c.Framed) (vs : List Nat) :
    (MemorySet.copyPages ms c vs).wlp (fun _ s' => Wired L rest s' c) s := by
  induction vs generalizing s with
  | nil =>
    rw [MemorySet.copyPages, Comp.wlp_pure]
    exact h
  | cons v vs ih =>
    rw [MemorySet.copyPages]
    simp only [Comp.wlp_bind, Comp.wlp_get, Comp.wlp_unwrap, Comp.wlp_modify]
    intro e _ d hd
    have hsame := SameOn.copyFrame (h.good.ppn_apart hfr hd) s.mem e.ppn
    exact ih (h.congr (hsame.mono (List.subset_append_left _ _)) h.good.held)

theorem copyAreas_wired (h : Wired L rest s c) (hfr : c.Framed) (areas : List MapArea)
    (hareas : ∀ a ∈ areas, AreaOk a ∧ a.mapType = .framed) :
    (MemorySet.copyAreas ms c areas).wlp (fun c' s' => Wired L rest s' c') s := by
  induction areas generalizing s c with
  | nil =>
    rw [MemorySet.copyAreas, Comp.wlp_pure]
    exact h
  | cons a areas ih =>
    obtain ⟨hok, hframed⟩ := hareas a List.mem_cons_self
    have hfresh : Fresh a.fromAnother := ⟨rfl, hok.le⟩
    rw [MemorySet.copyAreas]
    simp only [Comp.wlp_bind]
    refine (h.push hfresh fun hc => absurd rfl hc).mono ?_
    rintro ⟨r, c₁⟩ s₁ hr
    cases r with
    | ok =>
      simp only [unwrapOk, Comp.wlp_pure]
      have hfr₁ := hr.1.framed hfr hframed
      refine (copyPages_wired hr.2 hfr₁ _).mono fun _ s₂ h₂ => ?_
      exact ih h₂ hfr₁ fun b hb => hareas b (List.mem_cons_of_mem _ hb)
    | error => simp only [unwrapOk, Comp.wlp_panic]

/-- The copy of a space. -/
theorem fromExistedUserspace_wired (hp : Good L rest s ms) (hpf : ms.Framed) :
    (MemorySet.fromExistedUserspace L ms).wlp (fun c s' => Wired L (ms.owned ++ rest) s' c) s := by
  rw [MemorySet.fromExistedUserspace]
  simp only [Comp.wlp_bind]
  refine newUser_wired hp.held fun c s₁ hareas h₁ => ?_
  exact copyAreas_wired h₁ (MemorySet.framed_of_nil hareas) _ fun a ha => ⟨hp.area a ha, hpf a ha⟩

/-! ## The system calls -/

theorem sysMmap_wired (h : Wired L rest s ms) (start len prot : Nat) :
    (sysMmap ms start len prot).wlp (fun r s' => r.1 = 0 → Wired L rest s' r.2) s := by
  rw [sysMmap]
  split
  · rw [Comp.wlp_pure]
    intro hc
    cases hc
  · simp only [Comp.wlp_bind, VPNRange.wlp_new, Comp.wlp_get]
    intro hle
    split
    · rw [Comp.wlp_pure]
      intro hc
      cases hc
    · simp only [MemorySet.insertFramedArea, MapArea.new, Comp.wlp_bind, VPNRange.wlp_new, Comp.wlp_pure]
      intro hle'
      refine (h.push (fresh_new hle' .framed) (fun hc => absurd rfl hc)).mono ?_
      rintro ⟨r, ms'⟩ s' hr
      cases r with
      | ok =>
        simp only [Comp.wlp_pure]
        exact fun _ => hr.2
      | error =>
        simp only [Comp.wlp_pure]
        intro hc
        cases hc

/-- `unmap` stores to a leaf. -/
theorem Inner.unmap {pt : PageTable} (h : Inner s.mem pt) (vpn : Nat) :
    (pt.unmap vpn).wlp (fun _ s' => Inner s'.mem pt) s := by
  rw [PageTable.unmap]
  simp only [writePte, Comp.wlp_bind, Comp.wlp_get, Comp.wlp_unwrap, Comp.wlp_assert, Comp.wlp_modify]
  rintro a ha _
  rw [PageTable.findPte_eq] at ha
  obtain ⟨g, htab, hg⟩ := Option.bind_eq_some_iff.mp ha
  obtain ⟨e, _, rfl⟩ := Option.map_eq_some_iff.mp hg
  exact h.leaf htab (PageTable.leafPath_length vpn) _ _

theorem frameDealloc_mem (ppn : Nat) (s : Phys) : (frameDealloc ppn).wlp (fun _ s' => s'.mem = s.mem) s := by
  simp only [frameDealloc, Comp.wlp_bind, Comp.wlp_get, Comp.wlp_unwrap, Comp.wlp_modify]
  exact fun _ _ => trivial

theorem removeFrame_mem (area : MapArea) (vpn : Nat) (s : Phys) :
    (area.removeFrame vpn).wlp (fun _ s' => s'.mem = s.mem) s := by
  rw [MapArea.removeFrame]
  cases area.dataFrames.lookup vpn with
  | none => simp only [Comp.wlp_pure]
  | some old =>
    simp only [Comp.wlp_bind, Comp.wlp_pure]
    exact frameDealloc_mem old s

theorem Inner.unmapOne {pt : PageTable} (h : Inner s.mem pt) (area : MapArea) (vpn : Nat) :
    (area.unmapOne pt vpn).wlp (fun _ s' => Inner s'.mem pt) s := by
  rw [MapArea.unmapOne]
  split
  · simp only [Comp.wlp_bind, Comp.wlp_pure]
    exact (removeFrame_mem area vpn s).mono fun _ s₁ hs₁ => Inner.unmap (hs₁ ▸ h) vpn
  · simp only [Comp.wlp_bind, Comp.wlp_pure]
    exact h.unmap vpn

theorem Inner.removeFramesLoop (ms : MemorySet) (h : Inner s.mem ms.pageTable) (vpns : List Nat) :
    (ms.removeFramesLoop vpns).wlp (fun ms' s' => Inner s'.mem ms'.pageTable) s := by
  induction vpns generalizing ms s with
  | nil =>
    rw [MemorySet.removeFramesLoop, Comp.wlp_pure]
    exact h
  | cons v vpns ih =>
    rw [MemorySet.removeFramesLoop]
    simp only [Comp.wlp_bind, Comp.wlp_unwrap]
    intro _ _ area _
    refine (h.unmapOne area v).mono fun area₁ s₁ h₁ => ?_
    refine (removeFrame_mem area₁ v s₁).mono fun area₂ s₂ h₂ => ?_
    exact ih _ (h₂ ▸ h₁)

theorem sysMunmap_wired (h : Wired L rest s ms) (hfr : ms.Framed) (start len : Nat) :
    (sysMunmap ms start len).wlp (fun r s' => Wired L rest s' r.2) s := by
  have hin : (sysMunmap ms start len).wlp (fun r s' => Inner s'.mem r.2.pageTable) s := by
    have h₀ : Inner s.mem ms.pageTable := ⟨h.good.owns.tables, h.pointers⟩
    rw [sysMunmap]
    split
    · rw [Comp.wlp_pure]
      exact h₀
    · simp only [Comp.wlp_bind, VPNRange.wlp_new, Comp.wlp_get]
      intro _
      split
      · rw [Comp.wlp_pure]
        exact h₀
      · rw [MemorySet.removeMappedFrames]
        simp only [Comp.wlp_bind, VPNRange.wlp_new]
        intro _
        split
        · rw [Comp.wlp_pure]
          exact h₀
        · simp only [Comp.wlp_bind, Comp.wlp_pure]
          exact h₀.removeFramesLoop ms _
  refine ((sysMunmap_wlp h.good hfr start len).and hin).mono ?_
  rintro ⟨r, ms'⟩ s' ⟨⟨hr, rfl⟩ | ⟨_, hR⟩, hp⟩
  · cases hr
    exact h
  · exact ⟨hR.good, hp.pointers⟩

/-- **The hart can follow every space that a process can build.** -/
theorem UserSpace.wired (h : UserSpace L rest s ms) : Wired L rest s ms := by
  induction h with
  | fromElf hh hrun => exact fromElf_wired hh _ _ _ hrun
  | mmap _ hrun ih => exact sysMmap_wired ih _ _ _ _ _ hrun rfl
  | munmap hu hrun ih => exact sysMunmap_wired ih hu.good.2 _ _ _ _ hrun
  | fork hu hrun _ => exact fromExistedUserspace_wired hu.good.1 hu.good.2 _ _ hrun
  | other _ hsame hh ih => exact ih.congr hsame hh

/-! ## The space of the kernel -/

theorem insertFramedArea_wired (h : Wired L rest s ms) (hfull : ms.Full) (startVa endVa : VirtAddr)
    (permission : MapPermission) :
    (ms.insertFramedArea startVa endVa permission).wlp (fun r s' => match r.1 with
      | .ok _ => Wired L rest s' r.2 ∧ r.2.Full
      | .error _ => s'.starved = true) s := by
  rw [MemorySet.insertFramedArea, MapArea.new]
  simp only [Comp.wlp_bind, VPNRange.wlp_new, Comp.wlp_pure]
  intro hle
  refine (h.push (fresh_new hle .framed) fun hc => absurd rfl hc).mono ?_
  rintro ⟨r, ms'⟩ s' hr
  cases r with
  | ok => exact ⟨hr.2, hr.1.full (fresh_new hle .framed) hfull⟩
  | error => exact hr

theorem Inner.unmapLoop {pt : PageTable} (h : Inner s.mem pt) (area : MapArea) (vpns : List Nat) :
    (area.unmapLoop pt vpns).wlp (fun _ s' => Inner s'.mem pt) s := by
  induction vpns generalizing area s with
  | nil =>
    rw [MapArea.unmapLoop, Comp.wlp_pure]
    exact h
  | cons v vpns ih =>
    rw [MapArea.unmapLoop, Comp.wlp_bind]
    exact (h.unmapOne area v).mono fun area' s' h' => ih h' area'

theorem dropFrames_mem (ppns : List Nat) (s : Phys) : (dropFrames ppns).wlp (fun _ s' => s'.mem = s.mem) s := by
  induction ppns generalizing s with
  | nil =>
    rw [dropFrames, Comp.wlp_pure]
  | cons f ppns ih =>
    rw [dropFrames, Comp.wlp_bind]
    exact (frameDealloc_mem f s).mono fun _ s₁ h₁ => (ih s₁).mono fun _ _ h => h.trans h₁

theorem removeArea_wired (h : Wired L rest s ms) (hfull : ms.Full) (startVpn : Nat) :
    (ms.removeAreaWithStartVpn startVpn).wlp (fun ms' s' => Wired L rest s' ms' ∧ ms'.Full) s := by
  have hin : (ms.removeAreaWithStartVpn startVpn).wlp (fun ms' s' => Inner s'.mem ms'.pageTable) s := by
    have h₀ : Inner s.mem ms.pageTable := ⟨h.good.owns.tables, h.pointers⟩
    rw [MemorySet.removeAreaWithStartVpn]
    split
    · simp only [Comp.wlp_bind, Comp.wlp_unwrap, Comp.wlp_pure, MapArea.unmap, MapArea.drop]
      intro area _
      refine (h₀.unmapLoop area _).mono fun area' s₁ h₁ => ?_
      exact (dropFrames_mem _ s₁).mono fun _ s₂ h₂ => h₂ ▸ h₁
    · rw [Comp.wlp_pure]
      exact h₀
  obtain ⟨s', ms', hrun, hg, hsub, _⟩ := removeArea_run h.good hfull startVpn
  rw [Comp.wlp_of_run hrun] at hin ⊢
  exact ⟨⟨hg, hin.pointers⟩, fun area ha => hfull area (hsub.subset ha)⟩

theorem newKernel_wired (hh : Held L.firstFrame s.frames rest) :
    (MemorySet.newKernel L).wlp (fun ms s' => s'.starved = true ∨ Wired L rest s' ms ∧ ms.Full) s := by
  rw [MemorySet.newKernel]
  simp only [Comp.wlp_bind]
  refine newUser_wired hh fun ms₀ s₀ hareas h₀ => ?_
  have hall : ∀ {s ms}, Wired L rest s ms → ms.Full → ∀ start stop mapPerm,
      (ms.pushNew start stop .identical mapPerm none).wlp (fun ms' s' => Wired L rest s' ms' ∧ ms'.Full) s := by
    intro s ms h hfull start stop mapPerm
    refine (h.pushNew start stop .identical mapPerm).mono ?_
    rintro ms' s' ⟨⟨hle, hP⟩, h'⟩
    exact ⟨h', hP.full (fresh_new hle .identical) hfull⟩
  refine (hall h₀ (MemorySet.full_of_nil hareas) _ _ _).mono fun ms₁ s₁ h₁ => ?_
  refine (hall h₁.1 h₁.2 _ _ _).mono fun ms₂ s₂ h₂ => ?_
  refine (hall h₂.1 h₂.2 _ _ _).mono fun ms₃ s₃ h₃ => ?_
  refine (hall h₃.1 h₃.2 _ _ _).mono fun ms₄ s₄ h₄ => ?_
  refine (hall h₄.1 h₄.2 _ _ _).mono fun ms₅ s₅ h₅ => ?_
  rw [MapArea.new]
  simp only [Comp.wlp_bind, VPNRange.wlp_new, Comp.wlp_pure]
  intro hle
  refine (h₅.1.push (fresh_new hle .identical) fun hc => absurd rfl hc).mono ?_
  rintro ⟨r, ms'⟩ s' hr
  cases r with
  | ok => exact Or.inr ⟨hr.2, hr.1.full (fresh_new hle .identical) h₅.2⟩
  | error => exact Or.inl hr

/-! ## The root stays -/

theorem map_root (pt : PageTable) (v f : Nat) (flags : PTEFlags) (s : Phys) :
    (pt.map v f flags).wlp (fun pt' _ => pt'.rootPpn = pt.rootPpn) s := by
  rw [PageTable.map, PageTable.findPteCreate]
  simp only [Comp.wlp_bind, Comp.wlp_pure, Comp.wlp_unwrap, Comp.wlp_get, Comp.wlp_assert, writePte, Comp.wlp_modify]
  intro r s' _ _ _ _
  trivial

theorem mapOne_root (area : MapArea) (pt : PageTable) (v : Nat) (s : Phys) :
    (area.mapOne pt v).wlp (fun r _ => r.2.2.rootPpn = pt.rootPpn) s := by
  rw [MapArea.mapOne]
  cases area.mapType with
  | framed =>
    simp only [Comp.wlp_bind]
    intro r s₁ _
    cases r with
    | none =>
      rw [Comp.wlp_pure]
    | some frame =>
      simp only [Comp.wlp_bind]
      intro area' s₂ _
      refine (map_root pt v frame _ s₂).mono fun pt' _ h => ?_
      rw [Comp.wlp_pure]
      exact h
  | identical =>
    simp only [Comp.wlp_bind]
    refine (map_root pt v v _ s).mono fun pt' _ h => ?_
    rw [Comp.wlp_pure]
    exact h

theorem mapLoop_root (vs : List Nat) (area : MapArea) (pt : PageTable) (s : Phys) :
    (area.mapLoop pt vs).wlp (fun r _ => r.2.2.rootPpn = pt.rootPpn) s := by
  induction vs generalizing area pt s with
  | nil => rw [MapArea.mapLoop, Comp.wlp_pure]
  | cons v vs ih =>
    rw [MapArea.mapLoop, Comp.wlp_bind]
    refine (mapOne_root area pt v s).mono ?_
    rintro ⟨r, area', pt'⟩ s' h
    cases r with
    | ok => exact (ih area' pt' s').mono fun _ _ h' => h'.trans h
    | error =>
      rw [Comp.wlp_pure]
      exact h

theorem insertFramedArea_root (ms : MemorySet) (startVa endVa : VirtAddr) (permission : MapPermission) (s : Phys) :
    (ms.insertFramedArea startVa endVa permission).wlp (fun r _ => r.2.token = ms.token) s := by
  have hpush : ∀ area s, (ms.push area none).wlp (fun r _ => r.2.token = ms.token) s := by
    intro area s
    rw [MemorySet.push, Comp.wlp_bind]
    refine (mapLoop_root _ area ms.pageTable s).mono ?_
    rintro ⟨r, area', pt'⟩ s' (h : pt'.rootPpn = _)
    have htoken : pt'.token = ms.pageTable.token := by rw [PageTable.token, PageTable.token, h]
    cases r with
    | ok =>
      simp only [Comp.wlp_pure]
      exact htoken
    | error =>
      simp only [Comp.wlp_bind, Comp.wlp_pure]
      intro _ s'' _
      exact htoken
  rw [MemorySet.insertFramedArea, Comp.wlp_bind]
  exact fun area s' _ => hpush area s'

theorem removeArea_root (ms : MemorySet) (vpn : Nat) (s : Phys) :
    (ms.removeAreaWithStartVpn vpn).wlp (fun ms' _ => ms'.token = ms.token) s := by
  rw [MemorySet.removeAreaWithStartVpn]
  split
  · simp only [Comp.wlp_bind, Comp.wlp_unwrap, Comp.wlp_pure]
    intro area _ area' s' _ _ s'' _
    rfl
  · rw [Comp.wlp_pure]

/-- **The spaces the kernel can have**: `new_kernel`, and kernel stacks come and go. -/
inductive KernelSpace (L : Layout) : List Nat → Phys → MemorySet → Prop
  | newKernel {rest : List Nat} {s s' : Phys} {ms : MemorySet} (hh : Held L.firstFrame s.frames rest)
      (hrun : (MemorySet.newKernel L).run s = some (ms, s')) (hst : s'.starved = false) : KernelSpace L rest s' ms
  | newStack {rest : List Nat} {s s' : Phys} {ms ms' : MemorySet} {startVa endVa : VirtAddr}
      (h : KernelSpace L rest s ms)
      (hrun : (ms.insertFramedArea startVa endVa (PTEFlags.R ||| PTEFlags.W)).run s = some ((.ok (), ms'), s')) :
      KernelSpace L rest s' ms'
  | dropStack {rest : List Nat} {s s' : Phys} {ms ms' : MemorySet} {vpn : Nat} (h : KernelSpace L rest s ms)
      (hrun : (ms.removeAreaWithStartVpn vpn).run s = some (ms', s')) : KernelSpace L rest s' ms'
  /-- The rest of the kernel and the programs go on. -/
  | other {rest rest' : List Nat} {s s' : Phys} {ms : MemorySet} (h : KernelSpace L rest s ms)
      (hsame : SameOn ms.pageTable.frames s.mem s'.mem)
      (hh : Held L.firstFrame s'.frames (ms.owned ++ rest')) : KernelSpace L rest' s' ms

/-- **The hart can follow every space of the kernel.** -/
theorem KernelSpace.wired (h : KernelSpace L rest s ms) : Wired L rest s ms ∧ ms.Full := by
  induction h with
  | newKernel hh hrun hst =>
    refine (newKernel_wired hh _ _ hrun).resolve_left fun hc => ?_
    rw [hst] at hc
    cases hc
  | newStack _ hrun ih => exact insertFramedArea_wired ih.1 ih.2 _ _ _ _ _ hrun
  | dropStack _ hrun ih => exact removeArea_wired ih.1 ih.2 _ _ _ hrun
  | other _ hsame hh ih => exact ⟨ih.1.congr hsame hh, ih.2⟩

end Spaces

end RCore.Mm
