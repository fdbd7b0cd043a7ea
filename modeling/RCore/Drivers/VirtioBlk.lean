import RCore.Mm.FrameAllocator

/-!
# DMA memory of the block device

The functions of `os/src/drivers/block/virtio_blk.rs` that the VirtIO driver calls for memory that it shares with the device.
The trackers of its frames are kept in `QUEUE_FRAMES`; the frames are given back by their numbers.
-/

namespace RCore.Drivers

open RCore Mm

/-- Physical memory, the frames of the `FrameTracker`s that there are, and what the driver has got. -/
structure DmaState where
  phys : Phys
  /-- The trackers that are not in `QUEUE_FRAMES`. -/
  live : List Nat
  /-- `QUEUE_FRAMES` -/
  queueFrames : List Nat
  /-- The ranges that `virtio_dma_alloc` has returned. -/
  obtained : List (Nat × Nat)

namespace DmaState

/-- A function of the memory manager. -/
def onPhys {α : Type} (x : Comp Phys α) : Comp DmaState α := Comp.zoom phys (fun s phys => { s with phys }) x

/-- `n` rounds of the loop of `virtio_dma_alloc` from `i` on. -/
def dmaAllocLoop : Nat → Nat → Nat → Comp DmaState Nat
  | 0, _, ppnBase => return ppnBase
  | n + 1, i, ppnBase => do
    let frame ← onPhys frameAlloc
    let ppn ← Comp.unwrap frame
    let ppnBase := if i = 0 then ppn else ppnBase
    Comp.assert (ppn = ppnBase + i)
    Comp.modify fun s => { s with queueFrames := s.queueFrames ++ [ppn] }
    dmaAllocLoop n (i + 1) ppnBase

/-- `virtio_dma_alloc` -/
def virtioDmaAlloc (pages : Nat) : Comp DmaState Nat := do
  let ppnBase ← dmaAllocLoop pages 0 0
  return ppnBase * 4096

/-- The loop of `virtio_dma_dealloc`. -/
def dmaDeallocLoop : Nat → Nat → Comp DmaState Unit
  | 0, _ => return ()
  | n + 1, ppnBase => do
    onPhys (frameDealloc ppnBase)
    dmaDeallocLoop n (ppnBase + 1)

/-- `virtio_dma_dealloc`. The conversion of the address asserts that it is aligned. -/
def virtioDmaDealloc (pa pages : Nat) : Comp DmaState Nat := do
  Comp.assert (pa % 4096 = 0)
  dmaDeallocLoop pages (pa / 4096)
  return 0

end DmaState

/-- What can happen next. -/
inductive DmaOp where
  /-- `frame_alloc`, of anyone. -/
  | alloc
  /-- The drop of the tracker at a place of `live`. -/
  | drop (i : Nat)
  | dmaAlloc (pages : Nat)
  | dmaDealloc (pa pages : Nat)

namespace DmaState

/-- One step. -/
def step : DmaOp → Comp DmaState Unit
  | .alloc => do
    let frame ← onPhys frameAlloc
    Comp.modify fun s => { s with live := frame.toList ++ s.live }
  | .drop i => do
    let s ← Comp.get
    match s.live[i]? with
    | some frame => do
      onPhys (frameDealloc frame)
      Comp.modify fun s => { s with live := s.live.eraseIdx i }
    | none => return ()
  | .dmaAlloc pages => do
    let pa ← virtioDmaAlloc pages
    Comp.modify fun s => { s with obtained := (pa, pages) :: s.obtained }
  | .dmaDealloc pa pages => do
    let _ ← virtioDmaDealloc pa pages
    return ()

/-- The driver gives back only what it has got. -/
def Allowed (s : DmaState) : DmaOp → Prop
  | .dmaDealloc pa pages => (pa, pages) ∈ s.obtained
  | _ => True

/-- A run, and the states in it. -/
inductive Runs : DmaState → List DmaOp → List DmaState → Prop
  | nil (s : DmaState) : Runs s [] [s]
  | cons {s s' : DmaState} {op : DmaOp} {ops : List DmaOp} {states : List DmaState} (ha : s.Allowed op)
      (h : (step op).run s = some ((), s')) (hrun : Runs s' ops states) : Runs s (op :: ops) (s :: states)

/-- The allocator of the frames from `l` to `r` after `init`, and no trackers. -/
def start (l r : Nat) (mem : Mem) : DmaState := ⟨⟨mem, StackFrameAllocator.new.init l r, false⟩, [], [], []⟩

end DmaState

end RCore.Drivers
