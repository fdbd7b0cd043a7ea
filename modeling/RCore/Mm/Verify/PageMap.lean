import Mathlib.Data.Set.Finite.Basic
import RCore.Mm.Verify.Mapping

/-!
# The page table refines a partial map

The abstract model of a page table is a partial map from page numbers to entries. `Built` are the
page tables that `PageTable::new` and any sequence of `map` and `unmap` give, together with the map
they stand for; between two calls the rest of the kernel may do anything that leaves the frames of
the table alone. `RefinesMap` says that the table and the map answer every call alike.
-/

namespace RCore.Mm

/-- A partial map from page numbers to entries. -/
abbrev PageMap := Nat → Option PageTableEntry

/-- The page tables built by a sequence of calls, with the map each stands for. -/
inductive Built (lo : Nat) : List Nat → Phys → PageTable → PageMap → Prop
  | new {rest : List Nat} {s s' : Phys} {pt : PageTable} (hh : Held lo s.frames rest)
      (hrun : PageTable.new.run s = some (pt, s')) : Built lo rest s' pt fun _ => none
  | map {rest : List Nat} {s s' : Phys} {pt pt' : PageTable} {m : PageMap} {vpn ppn : Nat}
      {flags : PTEFlags} (h : Built lo rest s pt m) (hv : vpn < 2 ^ 27) (hp : ppn < 2 ^ 44)
      (hrun : (pt.map vpn ppn flags).run s = some (pt', s')) :
      Built lo rest s' pt'
        (Function.update m vpn (some (PageTableEntry.new ppn (flags ||| PTEFlags.V))))
  | unmap {rest : List Nat} {s s' : Phys} {pt : PageTable} {m : PageMap} {vpn : Nat}
      (h : Built lo rest s pt m) (hv : vpn < 2 ^ 27)
      (hrun : (pt.unmap vpn).run s = some ((), s')) :
      Built lo rest s' pt (Function.update m vpn none)
  | others {rest rest' : List Nat} {s s' : Phys} {pt : PageTable} {m : PageMap}
      (h : Built lo rest s pt m) (hs : SameOn pt.frames s.mem s'.mem)
      (hh : Held lo s'.frames (pt.frames ++ rest')) : Built lo rest' s' pt m

/-- The page table answers every call as the partial map does. -/
structure RefinesMap (s : Phys) (pt : PageTable) (m : PageMap) : Prop where
  finite : {v | m v ≠ none}.Finite
  translate : ∀ v, v < 2 ^ 27 → pt.translate s.mem v = m v
  map : ∀ vpn ppn flags, vpn < 2 ^ 27 → ppn < 2 ^ 44 →
    pt.missing s.mem (PageTable.tablePaths vpn) ≤ s.frames.free →
    ((pt.map vpn ppn flags).run s = none ↔ m vpn ≠ none) ∧
    ∀ pt' s', (pt.map vpn ppn flags).run s = some (pt', s') →
      (∃ e, pt'.translate s'.mem vpn = some e ∧ e.ppn = ppn ∧ e.flags = flags ||| PTEFlags.V) ∧
      ∀ v, v < 2 ^ 27 → v ≠ vpn → pt'.translate s'.mem v = m v
  unmap : ∀ vpn, vpn < 2 ^ 27 →
    ((pt.unmap vpn).run s = none ↔ m vpn = none) ∧
    ∀ s', (pt.unmap vpn).run s = some ((), s') →
      pt.translate s'.mem vpn = none ∧ ∀ v, v < 2 ^ 27 → v ≠ vpn → pt.translate s'.mem v = m v
  translateVa : ∀ va : VirtAddr, pt.translateVa s.mem va =
    (m va.floor).map fun e => e.ppn * 4096 + va.pageOffset
  token : ∀ vpn, (PageTable.fromToken pt.token).translate s.mem vpn = pt.translate s.mem vpn

namespace PageTable

theorem ppn_lt (e : PageTableEntry) : e.ppn < 2 ^ 44 := Nat.mod_lt _ (by decide)

theorem translateVa_eq (m : Mem) (pt : PageTable) (va : VirtAddr) :
    pt.translateVa m va =
      (pt.translate m va.floor).map fun e => e.ppn * 4096 + va.pageOffset := by
  have hoff := va.pageOffset_lt
  unfold translateVa
  congr 1
  funext e
  have hp := ppn_lt e
  rw [Nat.mod_eq_of_lt]
  omega

theorem rootPpn_fromToken {pt : PageTable} (h : pt.rootPpn < 2 ^ 44) :
    (fromToken pt.token).rootPpn = pt.rootPpn := by
  have hor : 2 ^ 63 * 1 + pt.rootPpn = 2 ^ 63 * 1 ||| pt.rootPpn :=
    Nat.two_pow_add_eq_or_of_lt (by omega) 1
  have htok : pt.token = 2 ^ 63 + pt.rootPpn := by
    rw [token]
    exact hor.symm
  have hmod : (2 ^ 63 + pt.rootPpn) % 2 ^ 44 = pt.rootPpn := by omega
  rw [fromToken, htok]
  exact hmod

/-- A walk starts at the root and knows nothing else of the table. -/
theorem translate_of_root {m : Mem} {pt pt' : PageTable} (h : pt'.rootPpn = pt.rootPpn)
    (vpn : Nat) : pt'.translate m vpn = pt.translate m vpn := by
  rw [translate, translate, findPte, findPte, h]

end PageTable

theorem Owns.root_lt {lo : Nat} {rest : List Nat} {s : Phys} {pt : PageTable}
    (h : Owns lo rest s pt) : pt.rootPpn < 2 ^ 44 :=
  h.held.lt_of_mem (List.mem_append_left _ h.tables.root_mem)

theorem Owns.translate_token {lo : Nat} {rest : List Nat} {s : Phys} {pt : PageTable}
    (h : Owns lo rest s pt) (m : Mem) (vpn : Nat) :
    (PageTable.fromToken pt.token).translate m vpn = pt.translate m vpn :=
  PageTable.translate_of_root (PageTable.rootPpn_fromToken h.root_lt) vpn

namespace Built

variable {lo : Nat} {rest : List Nat} {s : Phys} {pt : PageTable} {m : PageMap}

theorem owns (h : Built lo rest s pt m) : Owns lo rest s pt := by
  induction h with
  | new hh hrun =>
    rcases new_run hh with ⟨s₁, pt₁, hrun₁, ho, _⟩ | ⟨_, hrun₁⟩
    · rw [hrun₁] at hrun
      cases hrun
      exact ho
    · rw [hrun₁] at hrun
      cases hrun
  | map _ hv hp hrun ih =>
    rcases map_run ih hv hp _ with ⟨_, s₁, pt₁, hrun₁, heff, _⟩ | ⟨_, hrun₁⟩
    · rw [hrun₁] at hrun
      cases hrun
      exact heff.owns
    · rw [hrun₁] at hrun
      cases hrun
  | unmap _ hv hrun ih =>
    rcases unmap_run ih hv with ⟨s₁, hrun₁, _, heff, _⟩ | ⟨_, hrun₁⟩
    · rw [hrun₁] at hrun
      cases hrun
      exact heff.owns
    · rw [hrun₁] at hrun
      cases hrun
  | others _ hs hh ih => exact ⟨ih.tables.congr hs, hh⟩

theorem translate (h : Built lo rest s pt m) {v : Nat} (hv : v < 2 ^ 27) :
    pt.translate s.mem v = m v := by
  induction h generalizing v with
  | new hh hrun =>
    rcases new_run hh with ⟨s₁, pt₁, hrun₁, _, htr, _⟩ | ⟨_, hrun₁⟩
    · rw [hrun₁] at hrun
      cases hrun
      exact htr v
    · rw [hrun₁] at hrun
      cases hrun
  | map h hvpn hp hrun ih =>
    rcases map_run h.owns hvpn hp _ with ⟨_, s₁, pt₁, hrun₁, _, htr⟩ | ⟨_, hrun₁⟩
    · rw [hrun₁] at hrun
      cases hrun
      rw [htr v hv, Function.update_apply, ih hv]
    · rw [hrun₁] at hrun
      cases hrun
  | unmap h hvpn hrun ih =>
    rcases unmap_run h.owns hvpn with ⟨s₁, hrun₁, _, _, htr⟩ | ⟨_, hrun₁⟩
    · rw [hrun₁] at hrun
      cases hrun
      rw [htr v hv, Function.update_apply, ih hv]
    · rw [hrun₁] at hrun
      cases hrun
  | others h hs hh ih =>
    rw [h.owns.tables.translate_congr hs]
    exact ih hv

theorem finite (h : Built lo rest s pt m) : {v | m v ≠ none}.Finite := by
  induction h with
  | new => simp
  | @map _ _ _ _ _ _ vpn _ _ _ _ _ _ ih =>
    apply (ih.insert vpn).subset
    intro v hv
    by_cases hvv : v = vpn
    · exact Or.inl hvv
    · rw [Set.mem_ofPred_eq, Function.update_of_ne hvv] at hv
      exact Or.inr hv
  | @unmap _ _ _ _ _ vpn _ _ _ ih =>
    apply ih.subset
    intro v hv
    by_cases hvv : v = vpn
    · rw [Set.mem_ofPred_eq, hvv, Function.update_self] at hv
      exact absurd rfl hv
    · rw [Set.mem_ofPred_eq, Function.update_of_ne hvv] at hv
      exact hv
  | others _ _ _ ih => exact ih

end Built

/-- **The page table refines a partial map**, however it was built. -/
theorem built_refinesMap {lo : Nat} {rest : List Nat} {s : Phys} {pt : PageTable} {m : PageMap}
    (h : Built lo rest s pt m) : RefinesMap s pt m := by
  have htr : ∀ v, v < 2 ^ 27 → pt.translate s.mem v = m v := fun v hv => h.translate hv
  refine ⟨h.finite, htr, ?_, ?_, ?_, fun vpn => h.owns.translate_token s.mem vpn⟩
  · intro vpn ppn flags hv hp hfree
    rcases map_run h.owns hv hp flags with ⟨hnone, s₁, pt₁, hrun, _, hmap⟩ | ⟨hbad, hrun⟩
    · rw [htr vpn hv] at hnone
      refine ⟨?_, ?_⟩
      · rw [hrun, hnone]
        simp
      · intro pt' s' hrun'
        rw [hrun] at hrun'
        cases hrun'
        refine ⟨⟨PageTableEntry.new ppn (flags ||| PTEFlags.V), ?_, PageTableEntry.ppn_new hp _,
          PageTableEntry.flags_new hp _⟩, ?_⟩
        · rw [hmap vpn hv, if_pos rfl]
        · intro v hv' hne
          rw [hmap v hv', if_neg hne, htr v hv']
    · have hmapped : m vpn ≠ none := by
        rcases hbad with hbad | hbad
        · exact absurd hfree (Nat.not_le_of_lt hbad)
        · rwa [htr vpn hv] at hbad
      refine ⟨?_, ?_⟩
      · exact iff_of_true hrun hmapped
      · intro pt' s' hrun'
        rw [hrun] at hrun'
        cases hrun'
  · intro vpn hv
    rcases unmap_run h.owns hv with ⟨s₁, hrun, hsome, _, hunmap⟩ | ⟨hnone, hrun⟩
    · rw [htr vpn hv] at hsome
      refine ⟨?_, ?_⟩
      · rw [hrun]
        exact iff_of_false (Option.some_ne_none _) hsome
      · intro s' hrun'
        rw [hrun] at hrun'
        cases hrun'
        refine ⟨?_, ?_⟩
        · rw [hunmap vpn hv, if_pos rfl]
        · intro v hv' hne
          rw [hunmap v hv', if_neg hne, htr v hv']
    · rw [htr vpn hv] at hnone
      refine ⟨iff_of_true hrun hnone, ?_⟩
      intro s' hrun'
      rw [hrun] at hrun'
      cases hrun'
  · intro va
    rw [PageTable.translateVa_eq, htr _ va.floor_lt]

/-- A machine with four frames, and the page tables of one page on it. -/
theorem built_refinesMap_page :
    ∃ s pt, Built 0x807fc [] s pt (Function.update (fun _ => none) 0x10000
        (some (PageTableEntry.new 0x80200 (PTEFlags.R ||| PTEFlags.V)))) ∧
      RefinesMap s pt (Function.update (fun _ => none) 0x10000
        (some (PageTableEntry.new 0x80200 (PTEFlags.R ||| PTEFlags.V)))) := by
  have hheld : Held 0x807fc (⟨0x807fc, 0x80800, []⟩ : StackFrameAllocator) [] := by
    refine ⟨⟨List.nodup_nil, ?_⟩, Nat.le_refl _, by decide, by decide⟩
    intro x hx
    cases hx
  obtain ⟨s, pt, hrun, ho, htr, htab, hfree, _, _⟩ | ⟨hz, _⟩ :=
    new_run (s := ⟨fun _ => 0, ⟨0x807fc, 0x80800, []⟩, false⟩) hheld
  · have hthree : s.frames.free + 1 = 4 := hfree.trans (by decide)
    have hmiss : pt.missing s.mem (PageTable.tablePaths 0x10000) ≤ 2 := by
      apply (Finset.card_filter_le _ _).trans
      exact Finset.card_le_two
    obtain ⟨_, s', pt', hmap, _, _⟩ | ⟨hbad, _⟩ :=
      map_run ho (show 0x10000 < 2 ^ 27 by decide) (show 0x80200 < 2 ^ 44 by decide) PTEFlags.R
    · have hb := Built.map (Built.new hheld hrun) (by decide) (by decide) hmap
      exact ⟨s', pt', hb, built_refinesMap hb⟩
    · rcases hbad with hbad | hbad
      · omega
      · exact absurd (htr _) hbad
  · exact absurd hz (by decide)

end RCore.Mm
