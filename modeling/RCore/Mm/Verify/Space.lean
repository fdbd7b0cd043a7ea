import RCore.Mm.Verify.Exhaustion
import RCore.Mm.Verify.PageMap

/-!
# The invariant of an address space

A memory set records its mappings in its page table and in its areas. `Good` says that the two
records agree: the entries of the table are the trampoline's and those the areas stand for. It also
fixes who owns what: the frames of the tables, the frames the areas hold, and the frames in `rest`
that others hold are all different, and no other frame is out.
-/

namespace RCore.Mm

/-- The page of the trampoline. -/
def trampolineVpn : Nat := 2 ^ 27 - 1

/-- The page of the trap context. -/
def trapContextVpn : Nat := 2 ^ 27 - 2

theorem floor_trampoline : (VirtAddr.ofUsize trampoline).floor = trampolineVpn := by decide

theorem floor_trapContext : (VirtAddr.ofUsize trapContext).floor = trapContextVpn := by decide

/-- The entry of the trampoline. -/
def trampolineEntry (L : Layout) : PageTableEntry :=
  PageTableEntry.new L.trampolinePpn (PTEFlags.R ||| PTEFlags.X ||| PTEFlags.V)

namespace Layout

variable (L : Layout)

theorem trampolinePpn_lt : L.trampolinePpn < L.firstFrame := by
  have ha := L.aligned
  have ho := L.ordered
  unfold trampolinePpn firstFrame
  omega

theorem firstFrame_le : L.firstFrame ≤ 0x80800 := by
  have hf := L.fits
  unfold firstFrame
  omega

theorem trampolinePpn_lt_pow : L.trampolinePpn < 2 ^ 44 := by
  have h := L.trampolinePpn_lt
  have h' := L.firstFrame_le
  omega

end Layout

namespace MapArea

/-- The mappings an area stands for. -/
def entries (area : MapArea) : List (Nat × Nat) :=
  match area.mapType with
  | .framed => area.dataFrames
  | .identical => area.vpnRange.toList.map fun v => (v, v)

/-- The page-table entries of an area. -/
def ptes (area : MapArea) : List (Nat × PageTableEntry) :=
  area.entries.map fun e => (e.1, PageTableEntry.new e.2 (area.mapPerm ||| PTEFlags.V))

theorem mem_ptes {area : MapArea} {v : Nat} {e : PageTableEntry} :
    (v, e) ∈ area.ptes ↔
      ∃ f, (v, f) ∈ area.entries ∧ e = PageTableEntry.new f (area.mapPerm ||| PTEFlags.V) := by
  unfold ptes
  rw [List.mem_map]
  constructor
  · rintro ⟨⟨w, f⟩, hf, he⟩
    cases he
    exact ⟨f, hf, rfl⟩
  · rintro ⟨f, hf, rfl⟩
    exact ⟨(v, f), hf, rfl⟩

theorem map_fst_ptes (area : MapArea) : area.ptes.map Prod.fst = area.entries.map Prod.fst := by
  unfold ptes
  rw [List.map_map]
  rfl

theorem entries_framed {area : MapArea} (h : area.mapType = .framed) :
    area.entries = area.dataFrames := by
  rw [entries, h]

end MapArea

/-- The invariant of an area. -/
structure AreaOk (area : MapArea) : Prop where
  le : area.vpnRange.r ≤ 2 ^ 27
  keys : ∀ v ∈ area.entries.map Prod.fst, v ∈ area.vpnRange.toList
  sorted : (area.dataFrames.map Prod.fst).Pairwise (· < ·)
  identical : area.mapType = .identical → area.dataFrames = []

namespace MemorySet

/-- The frames the areas hold. -/
def frames (ms : MemorySet) : List Nat := ms.areas.flatMap MapArea.frames

/-- All frames a memory set owns. -/
def owned (ms : MemorySet) : List Nat := ms.pageTable.frames ++ ms.frames

/-- The mappings a memory set stands for. -/
def entries (L : Layout) (ms : MemorySet) : List (Nat × PageTableEntry) :=
  (trampolineVpn, trampolineEntry L) :: ms.areas.flatMap MapArea.ptes

/-- The areas of a user's address space. -/
def Framed (ms : MemorySet) : Prop := ∀ area ∈ ms.areas, area.mapType = .framed

theorem framed_of_nil {ms : MemorySet} (h : ms.areas = []) : ms.Framed := by
  intro area ha
  rw [h] at ha
  cases ha

end MemorySet

/-- **The invariant of a memory set** whose frames are next to those in `rest`. -/
structure Good (L : Layout) (rest : List Nat) (s : Phys) (ms : MemorySet) : Prop where
  owns : Owns L.firstFrame (ms.frames ++ rest) s ms.pageTable
  translate : ∀ v e, v < 2 ^ 27 → (ms.translate s.mem v = some e ↔ (v, e) ∈ ms.entries L)
  nodup : ((ms.entries L).map Prod.fst).Nodup
  area : ∀ area ∈ ms.areas, AreaOk area

namespace Good

variable {L : Layout} {rest rest' : List Nat} {s s' : Phys} {ms : MemorySet}

theorem held (h : Good L rest s ms) : Held L.firstFrame s.frames (ms.owned ++ rest) := by
  have hh := h.owns.held
  rwa [← List.append_assoc] at hh

theorem perm (h : Good L rest s ms) (hp : rest.Perm rest') : Good L rest' s ms :=
  ⟨h.owns.perm (hp.append_left _), h.translate, h.nodup, h.area⟩

/-- The invariant depends on the memory only through the frames of the page table. -/
theorem congr (h : Good L rest s ms) (hs : SameOn ms.pageTable.frames s.mem s'.mem)
    (hh : Held L.firstFrame s'.frames (ms.owned ++ rest')) : Good L rest' s' ms := by
  refine ⟨⟨h.owns.tables.congr hs, ?_⟩, ?_, h.nodup, h.area⟩
  · rw [← List.append_assoc]
    exact hh
  · intro v e hv
    rw [← h.translate v e hv, MemorySet.translate, MemorySet.translate,
      h.owns.tables.translate_congr hs]

theorem translate_none_iff (h : Good L rest s ms) {v : Nat} (hv : v < 2 ^ 27) :
    ms.translate s.mem v = none ↔ v ∉ (ms.entries L).map Prod.fst := by
  constructor
  · intro hn hmem
    obtain ⟨⟨w, e⟩, he, rfl⟩ := List.mem_map.mp hmem
    rw [(h.translate w e hv).mpr he] at hn
    cases hn
  · intro hmem
    rw [Option.eq_none_iff_forall_not_mem]
    intro e he
    exact hmem (List.mem_map.mpr ⟨(v, e), (h.translate v e hv).mp he, rfl⟩)

theorem lt_of_key (h : Good L rest s ms) {v : Nat} (hv : v ∈ (ms.entries L).map Prod.fst) :
    v < 2 ^ 27 := by
  rw [MemorySet.entries, List.map_cons, List.mem_cons, List.map_flatMap, List.mem_flatMap] at hv
  rcases hv with rfl | ⟨area, ha, hv⟩
  · exact (by decide : trampolineVpn < 2 ^ 27)
  · rw [MapArea.map_fst_ptes] at hv
    have hok := h.area area ha
    have hr := VPNRange.mem_toList.mp (hok.keys v hv)
    have hle := hok.le
    omega

/-- A frame of the areas is neither one of the tables nor one of the others. -/
theorem frame_apart (h : Good L rest s ms) {f : Nat} (hf : f ∈ ms.frames) :
    f ∉ ms.pageTable.frames ++ rest := by
  have hn := h.held.nodup
  rw [MemorySet.owned, List.append_assoc] at hn
  have h₁ := List.nodup_append.mp hn
  have h₂ := List.nodup_append.mp h₁.2.1
  intro hc
  rw [List.mem_append] at hc
  rcases hc with hc | hc
  · exact h₁.2.2 f hc f (List.mem_append_left _ hf) rfl
  · exact h₂.2.2 f hf f hc rfl

/-- The trampoline's frame is nobody's. -/
theorem trampoline_apart (h : Good L rest s ms) :
    L.trampolinePpn ∉ ms.pageTable.frames ++ rest := by
  intro hc
  have hmem : L.trampolinePpn ∈ ms.owned ++ rest := by
    rw [MemorySet.owned, List.append_assoc]
    rw [List.mem_append] at hc ⊢
    rcases hc with hc | hc
    · exact Or.inl hc
    · exact Or.inr (List.mem_append_right _ hc)
  have hle := h.held.le_of_mem hmem
  have hlt := L.trampolinePpn_lt
  omega

/-- In a user's address space every translation leads to the trampoline or to a frame of the areas. -/
theorem translate_framed (h : Good L rest s ms) (hfr : ms.Framed) {v : Nat} {e : PageTableEntry}
    (hv : v < 2 ^ 27) (he : ms.translate s.mem v = some e) :
    (v = trampolineVpn ∧ e = trampolineEntry L) ∨
      ∃ area ∈ ms.areas, ∃ f, (v, f) ∈ area.dataFrames ∧ e.ppn = f ∧
        e.flags = area.mapPerm ||| PTEFlags.V := by
  rw [h.translate v e hv, MemorySet.entries, List.mem_cons, List.mem_flatMap] at he
  rcases he with he | ⟨area, ha, he⟩
  · cases he
    exact Or.inl ⟨rfl, rfl⟩
  · right
    obtain ⟨f, hf, rfl⟩ := MapArea.mem_ptes.mp he
    rw [MapArea.entries_framed (hfr area ha)] at hf
    have hmem : f ∈ ms.owned ++ rest := by
      apply List.mem_append_left
      apply List.mem_append_right
      exact List.mem_flatMap.mpr ⟨area, ha, List.mem_map.mpr ⟨(v, f), hf, rfl⟩⟩
    have hlt := h.held.lt_of_mem hmem
    exact ⟨area, ha, f, hf, PageTableEntry.ppn_new hlt _, PageTableEntry.flags_new hlt _⟩

theorem mem_frames {area : MapArea} {e : Nat × Nat} (ha : area ∈ ms.areas)
    (he : e ∈ area.dataFrames) : e.2 ∈ ms.frames :=
  List.mem_flatMap.mpr ⟨area, ha, List.mem_map.mpr ⟨e, he, rfl⟩⟩

/-- The frame behind a page of a user is neither a table's nor another's. -/
theorem ppn_apart (h : Good L rest s ms) (hfr : ms.Framed) {v : Nat} {e : PageTableEntry}
    (he : ms.translate s.mem v = some e) : e.ppn ∉ ms.pageTable.frames ++ rest := by
  have hmod : ms.translate s.mem (v % 2 ^ 27) = some e := by
    rw [← he, MemorySet.translate, MemorySet.translate, PageTable.translate_mod]
  rcases h.translate_framed hfr (Nat.mod_lt _ (by decide)) hmod with
    ⟨_, rfl⟩ | ⟨area, ha, f, hf, hppn, _⟩
  · rw [trampolineEntry, PageTableEntry.ppn_new L.trampolinePpn_lt_pow]
    exact h.trampoline_apart
  · rw [hppn]
    exact h.frame_apart (mem_frames ha hf)

/-- A frame of an area is mapped, with the permissions of the area. -/
theorem translate_area (h : Good L rest s ms) (hfr : ms.Framed) {area : MapArea} (ha : area ∈ ms.areas)
    {v f : Nat} (hf : (v, f) ∈ area.dataFrames) :
    ∃ e, ms.translate s.mem v = some e ∧ e.ppn = f ∧ e.flags = area.mapPerm ||| PTEFlags.V := by
  have hlt : f < 2 ^ 44 :=
    h.held.lt_of_mem (List.mem_append_left _ (List.mem_append_right _ (mem_frames ha hf)))
  have hmem : (v, f) ∈ area.entries := by
    rw [MapArea.entries_framed (hfr area ha)]
    exact hf
  have hent : (v, PageTableEntry.new f (area.mapPerm ||| PTEFlags.V)) ∈ ms.entries L :=
    List.mem_cons_of_mem _ (List.mem_flatMap.mpr ⟨area, ha, MapArea.mem_ptes.mpr ⟨f, hmem, rfl⟩⟩)
  have hv := h.lt_of_key (List.mem_map.mpr ⟨_, hent, rfl⟩)
  exact ⟨_, (h.translate v _ hv).mpr hent, PageTableEntry.ppn_new hlt _, PageTableEntry.flags_new hlt _⟩

theorem translate_trampoline (h : Good L rest s ms) :
    ms.translate s.mem trampolineVpn = some (trampolineEntry L) :=
  (h.translate _ _ (by decide)).mpr List.mem_cons_self

end Good

end RCore.Mm
