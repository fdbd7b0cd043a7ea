import RCore.Mm.Address

/-!
# Physical frames

The frame allocator and the memory it manages (`os/src/mm/frame_allocator.rs`). `Phys` is the state
every function of the memory manager runs over: the bytes of physical memory, addressed by physical
address, the global `FRAME_ALLOCATOR`, and `starved`, which records that `frame_alloc` has returned
`None` since the start of the run.

A `FrameTracker` is the number of the frame it tracks; where the code drops one, the model calls
`frameDealloc`.
-/

namespace RCore.Mm

/-- `StackFrameAllocator`. The first element of `recycled` is the top of the code's stack. -/
structure StackFrameAllocator where
  /-- The first frame never used. -/
  current : Nat
  /-- The end of the frames never used. -/
  end_ : Nat
  recycled : List Nat
  deriving DecidableEq

namespace StackFrameAllocator

/-- `StackFrameAllocator::new` -/
def new : StackFrameAllocator := ⟨0, 0, []⟩

/-- `StackFrameAllocator::init` -/
def init (a : StackFrameAllocator) (l r : Nat) : StackFrameAllocator := { a with current := l, end_ := r }

/-- `StackFrameAllocator::alloc` -/
def alloc (a : StackFrameAllocator) : Option (Nat × StackFrameAllocator) :=
  match a.recycled with
  | ppn :: rest => some (ppn, { a with recycled := rest })
  | [] => if a.current = a.end_ then none else some (a.current, { a with current := a.current + 1 })

/-- `StackFrameAllocator::dealloc`: `none` is the panic of its check. -/
def dealloc (a : StackFrameAllocator) (ppn : Nat) : Option StackFrameAllocator :=
  if ppn ≥ a.current ∨ ppn ∈ a.recycled then none
  else some { a with recycled := ppn :: a.recycled }

/-- The number of frames that can still be allocated. -/
def free (a : StackFrameAllocator) : Nat := a.recycled.length + (a.end_ - a.current)

end StackFrameAllocator

/-- The state of the memory manager. -/
structure Phys where
  mem : Mem
  frames : StackFrameAllocator
  /-- `frame_alloc` has returned `None`. -/
  starved : Bool

/-- Fill a frame with zeros. -/
def zeroFrame (m : Mem) (ppn : Nat) : Mem := fun x => if x / 4096 = ppn then 0 else m x

/-- Copy the bytes of a frame over another frame. -/
def copyFrame (m : Mem) (dst src : Nat) : Mem :=
  fun x => if x / 4096 = dst then m (src * 4096 + x % 4096) else m x

/-- `frame_alloc`: the frame comes zeroed, by `FrameTracker::new`. -/
def frameAlloc : Comp Phys (Option Nat) := do
  let s ← Comp.get
  match s.frames.alloc with
  | some (ppn, frames) =>
    Comp.modify fun s => { s with mem := zeroFrame s.mem ppn, frames := frames }
    return some ppn
  | none =>
    Comp.modify fun s => { s with starved := true }
    return none

/-- `frame_dealloc`, the drop of a `FrameTracker`. -/
def frameDealloc (ppn : Nat) : Comp Phys Unit := do
  let s ← Comp.get
  let frames ← Comp.unwrap (s.frames.dealloc ppn)
  Comp.modify fun s => { s with frames := frames }

/-- Drop a collection of `FrameTracker`s in order. -/
def dropFrames : List Nat → Comp Phys Unit
  | [] => pure ()
  | ppn :: ppns => do
    frameDealloc ppn
    dropFrames ppns

end RCore.Mm
