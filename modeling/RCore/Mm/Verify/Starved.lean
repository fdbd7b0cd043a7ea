import RCore.Mm.MemorySet

/-!
# Conditions on the allocator

What the allocator and stores do not give up, no function on address spaces gives up. `starved` is such a
condition: it records that `frame_alloc` has returned `None`, and a state that is not starved shows that every
allocation on the way to it has succeeded. That no frame is left that was never used is another one.
-/

namespace RCore.Mm

open RCore.Comp

/-- The allocator and stores do not give up `P`. -/
structure Kept (P : Phys → Prop) : Prop where
  frameAlloc : Stable P frameAlloc
  frameDealloc : ∀ ppn, Stable P (frameDealloc ppn)
  mem : ∀ (s : Phys) (m : Mem), P s → P { s with mem := m }

/-- `x` never takes `starved` back. -/
abbrev Lasting {α : Type} (x : Comp Phys α) : Prop := Stable (fun s => s.starved = true) x

theorem kept_starved : Kept fun s => s.starved = true := by
  refine ⟨?_, fun ppn => ?_, fun _ _ hs => hs⟩
  · refine stable_get.bind fun s => ?_
    cases s.frames.alloc with
    | none =>
      refine Stable.bind (stable_modify ?_) fun _ => stable_pure _
      exact fun _ _ => rfl
    | some r =>
      refine Stable.bind (stable_modify ?_) fun _ => stable_pure _
      exact fun _ hs => hs
  · exact stable_get.bind fun _ => (stable_unwrap _).bind fun _ => stable_modify fun _ hs => hs

/-- All frames below `stop` have been used before. -/
def AllUsed (stop : Nat) (s : Phys) : Prop := s.frames.current = stop ∧ s.frames.end_ = stop

theorem kept_allUsed (stop : Nat) : Kept (AllUsed stop) := by
  refine ⟨fun s hs => ?_, fun ppn s hs => ?_, fun _ _ hs => hs⟩
  · rw [Mm.frameAlloc, wlp_bind, wlp_get]
    cases halloc : s.frames.alloc with
    | none =>
      simp only [wlp_bind, wlp_modify, wlp_pure]
      exact hs
    | some r =>
      simp only [wlp_bind, wlp_modify, wlp_pure]
      rw [StackFrameAllocator.alloc] at halloc
      cases hrecycled : s.frames.recycled with
      | nil =>
        rw [hrecycled] at halloc
        simp only [hs.1, hs.2, if_true] at halloc
        cases halloc
      | cons ppn rest =>
        rw [hrecycled] at halloc
        cases halloc
        exact hs
  · rw [Mm.frameDealloc]
    simp only [wlp_bind, wlp_get, wlp_unwrap, wlp_modify]
    intro frames hdealloc
    rw [StackFrameAllocator.dealloc] at hdealloc
    split at hdealloc
    · cases hdealloc
    · cases hdealloc
      exact hs

theorem stable_rangeNew {P : Phys → Prop} (start stop : Nat) : Stable P (VPNRange.new start stop) := by
  rw [VPNRange.new]
  split
  · exact stable_pure _
  · exact stable_panic

theorem stable_areaNew {P : Phys → Prop} (startVa endVa : VirtAddr) (mapType : MapType) (mapPerm : MapPermission) :
    Stable P (MapArea.new startVa endVa mapType mapPerm) :=
  (stable_rangeNew _ _).bind fun _ => stable_pure _

theorem stable_unwrapOk {P : Phys → Prop} (r : Except String Unit) : Stable P (unwrapOk r) := by
  cases r with
  | ok => exact stable_pure _
  | error => exact stable_panic

namespace Kept

variable {P : Phys → Prop} (hP : Kept P)
include hP

theorem dropFrames (ppns : List Nat) : Stable P (dropFrames ppns) := by
  induction ppns with
  | nil => exact stable_pure _
  | cons ppn ppns ih => exact (hP.frameDealloc ppn).bind fun _ => ih

theorem writePte (a : Nat) (pte : PageTableEntry) : Stable P (writePte a pte) :=
  stable_modify fun s hs => hP.mem s _ hs

theorem storePhys (pa : Nat) (bs : List UInt8) : Stable P (storePhys pa bs) :=
  stable_modify fun s hs => hP.mem s _ hs

/-! ## Page tables -/

theorem findPteCreateLoop (ppn : Nat) (frames : List Nat) (idxs : List (Fin 512)) :
    Stable P (PageTable.findPteCreateLoop ppn frames idxs) := by
  induction idxs generalizing ppn frames with
  | nil => exact stable_pure _
  | cons i idxs ih =>
    rw [PageTable.findPteCreateLoop]
    refine stable_ite (stable_pure _) (stable_get.bind fun s => ?_)
    refine stable_ite ?_ (ih _ _)
    refine hP.frameAlloc.bind fun _ => (stable_unwrap _).bind fun frame => ?_
    exact (hP.writePte _ _).bind fun _ => stable_get.bind fun _ => ih _ _

theorem map (pt : PageTable) (vpn ppn : Nat) (flags : PTEFlags) : Stable P (pt.map vpn ppn flags) := by
  have hfind : Stable P (pt.findPteCreate vpn) :=
    (hP.findPteCreateLoop _ _ _).bind fun _ => stable_pure _
  refine hfind.bind fun _ => (stable_unwrap _).bind fun _ => stable_get.bind fun _ => ?_
  exact (stable_assert _).bind fun _ => (hP.writePte _ _).bind fun _ => stable_pure _

/-! ## Areas and memory sets -/

theorem insertFrame (area : MapArea) (vpn frame : Nat) : Stable P (area.insertFrame vpn frame) := by
  rw [MapArea.insertFrame]
  split
  · exact (hP.frameDealloc _).bind fun _ => stable_pure _
  · exact stable_pure _

theorem mapOne (area : MapArea) (pt : PageTable) (vpn : Nat) : Stable P (area.mapOne pt vpn) := by
  rw [MapArea.mapOne]
  split
  · refine hP.frameAlloc.bind fun r => ?_
    cases r with
    | none => exact stable_pure _
    | some frame =>
      exact (hP.insertFrame _ _ _).bind fun _ => (hP.map _ _ _ _).bind fun _ => stable_pure _
  · exact (hP.map _ _ _ _).bind fun _ => stable_pure _

theorem mapLoop (area : MapArea) (pt : PageTable) (vpns : List Nat) :
    Stable P (area.mapLoop pt vpns) := by
  induction vpns generalizing area pt with
  | nil => exact stable_pure _
  | cons vpn vpns ih =>
    refine (hP.mapOne area pt vpn).bind fun r => ?_
    obtain ⟨r, area, pt⟩ := r
    cases r with
    | ok => exact ih _ _
    | error => exact stable_pure _

theorem copyDataLoop (area : MapArea) (pt : PageTable) (data : List UInt8) (ks : List Nat) :
    Stable P (area.copyDataLoop pt data ks) := by
  induction ks with
  | nil => exact stable_pure _
  | cons k ks ih =>
    exact stable_get.bind fun _ => (stable_unwrap _).bind fun _ => (hP.storePhys _ _).bind fun _ => ih

theorem push (ms : MemorySet) (area : MapArea) (data : Option (List UInt8)) :
    Stable P (ms.push area data) := by
  refine (hP.mapLoop _ _ _).bind fun r => ?_
  obtain ⟨r, area', pt⟩ := r
  cases r with
  | ok =>
    cases data with
    | none => exact stable_pure _
    | some data =>
      have hcopy : Stable P (area'.copyData pt data) :=
        (stable_assert _).bind fun _ => hP.copyDataLoop _ _ _ _
      exact hcopy.bind fun _ => stable_pure _
  | error => exact (hP.dropFrames _).bind fun _ => stable_pure _

theorem insertFramedArea (ms : MemorySet) (startVa endVa : VirtAddr) (permission : MapPermission) :
    Stable P (ms.insertFramedArea startVa endVa permission) :=
  (stable_areaNew _ _ _ _).bind fun _ => hP.push _ _ _

theorem pushNew (ms : MemorySet) (start stop : Nat) (mapType : MapType) (mapPerm : MapPermission)
    (data : Option (List UInt8)) : Stable P (ms.pushNew start stop mapType mapPerm data) :=
  (stable_areaNew _ _ _ _).bind fun _ => (hP.push _ _ _).bind fun _ =>
    (stable_unwrapOk _).bind fun _ => stable_pure _

theorem newBare : Stable P MemorySet.newBare :=
  Stable.bind (hP.frameAlloc.bind fun _ => (stable_unwrap _).bind fun _ => stable_pure _)
    fun _ => stable_pure _

theorem mapTrampoline (L : Layout) (ms : MemorySet) : Stable P (ms.mapTrampoline L) :=
  Stable.bind ((stable_assert _).bind fun _ => stable_pure _) fun _ => (stable_assert _).bind fun _ =>
    (hP.map _ _ _ _).bind fun _ => stable_pure _

theorem mapSegments (elf : ElfFile) (ms : MemorySet) (maxEndVpn : Nat) (phs : List ProgramHeader) :
    Stable P (MemorySet.mapSegments elf ms maxEndVpn phs) := by
  induction phs generalizing ms maxEndVpn with
  | nil => exact stable_pure _
  | cons ph phs ih =>
    rw [MemorySet.mapSegments]
    refine stable_ite ?_ (ih _ _)
    refine (stable_areaNew _ _ _ _).bind fun _ => (stable_assert _).bind fun _ => ?_
    exact (hP.push _ _ _).bind fun _ => (stable_unwrapOk _).bind fun _ => ih _ _

theorem fromElf (L : Layout) (elf : ElfFile) : Stable P (MemorySet.fromElf L elf) := by
  refine hP.newBare.bind fun _ => (hP.mapTrampoline L _).bind fun _ => ?_
  refine (hP.mapSegments _ _ _ _).bind fun _ => (hP.pushNew _ _ _ _ _ _).bind fun _ => ?_
  exact (hP.pushNew _ _ _ _ _ _).bind fun _ => stable_pure _

end Kept

end RCore.Mm
