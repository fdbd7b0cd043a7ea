import RCore.Lib.Mem
import RCore.Mm.UserBuffer

/-!
# Pipes

The ring buffer of a pipe and the two ends of it (`os/src/fs/pipe.rs`), and any number of processes
that read and write it. A call of `read` or `write` runs until it returns or suspends its process;
nothing else runs in between, and anything may run before it is resumed.
-/

namespace RCore.Fs

open RCore Mm

/-! ## The ring buffer -/

/-- `RING_BUFFER_SIZE` -/
abbrev ringBufferSize : Nat := 32

/-- `RingBufferStatus` -/
inductive RingBufferStatus where
  | full
  | empty
  | normal
  deriving DecidableEq

/-- `PipeRingBuffer`, without its write end. -/
structure PipeRingBuffer where
  arr : Vector UInt8 ringBufferSize
  head : Fin ringBufferSize
  tail : Fin ringBufferSize
  status : RingBufferStatus

namespace PipeRingBuffer

/-- `PipeRingBuffer::new` -/
def new : PipeRingBuffer := ⟨Vector.replicate ringBufferSize 0, 0, 0, .empty⟩

/-- `PipeRingBuffer::read_byte`. The addition is modulo the size. -/
def readByte (r : PipeRingBuffer) : UInt8 × PipeRingBuffer :=
  let c := r.arr[r.head]
  let head := r.head + 1
  (c, { r with head, status := if head = r.tail then .empty else .normal })

/-- `PipeRingBuffer::write_byte` -/
def writeByte (r : PipeRingBuffer) (byte : UInt8) : PipeRingBuffer :=
  let tail := r.tail + 1
  { r with arr := r.arr.set r.tail byte, tail, status := if tail = r.head then .full else .normal }

/-- `PipeRingBuffer::available_read` -/
def availableRead (r : PipeRingBuffer) : Nat :=
  if r.status = .empty then 0
  else if r.tail > r.head then r.tail.val - r.head.val
  else r.tail.val + ringBufferSize - r.head.val

/-- `PipeRingBuffer::available_write` -/
def availableWrite (r : PipeRingBuffer) : Nat :=
  if r.status = .full then 0 else ringBufferSize - r.availableRead

end PipeRingBuffer

/-- What a pipe works on. -/
structure PipeState where
  ring : PipeRingBuffer
  /-- The strong count of the write end, to which the ring buffer has a `Weak`. -/
  writeEnds : Nat
  mem : Mem
  /-- The bytes passed to `write_byte` so far; nothing reads it. -/
  written : List UInt8
  /-- The bytes `read_byte` has returned so far; nothing reads it. -/
  handedOut : List UInt8
  /-- `read_byte` has been called on an empty ring, or `write_byte` on a full one; nothing reads it. -/
  misused : Bool

namespace PipeState

/-- `PipeRingBuffer::all_write_ends_closed` -/
def allWriteEndsClosed (s : PipeState) : Bool := s.writeEnds = 0

/-- `make_pipe` -/
def makePipe (mem : Mem) : PipeState := ⟨.new, 1, mem, [], [], false⟩

/-- A call of `read_byte`. -/
def readByte : Comp PipeState UInt8 := do
  let s ← Comp.get
  let (c, ring) := s.ring.readByte
  Comp.modify fun s => { s with
    ring
    handedOut := s.handedOut ++ [c]
    misused := s.misused || s.ring.availableRead = 0 }
  return c

/-- A call of `write_byte`. -/
def writeByte (byte : UInt8) : Comp PipeState Unit :=
  Comp.modify fun s => { s with
    ring := s.ring.writeByte byte
    written := s.written ++ [byte]
    misused := s.misused || s.ring.availableWrite = 0 }

end PipeState

/-! ## Reading and writing -/

/-- `Pipe`, without its buffer. -/
structure Pipe where
  readable : Bool
  writable : Bool

/-- `Pipe::read_end_with_buffer` -/
def Pipe.readEndWithBuffer : Pipe := ⟨true, false⟩

/-- `Pipe::write_end_with_buffer` -/
def Pipe.writeEndWithBuffer : Pipe := ⟨false, true⟩

/-- The local variables of a `read` or `write`. -/
structure Transfer where
  bufIter : UserBufferIterator
  /-- `read_size` or `write_size` -/
  size : Nat
  /-- The bytes moved so far, with their addresses; nothing reads it. -/
  moved : List (Nat × UInt8)

/-- How a call gives the processor up. -/
inductive Outcome where
  /-- It returns `size`. -/
  | returned (t : Transfer)
  | suspended (t : Transfer)

namespace Pipe

/-- The `for` loop of `read` and `write` over the bytes still to move, and whether it ends the call.
`move` moves the byte that belongs to an address. -/
def moveBatch (move : Nat → Comp PipeState UInt8) : Nat → Transfer → Comp PipeState (Bool × Transfer)
  | 0, t => return (false, t)
  | n + 1, t => do
    let (byteRef, bufIter) ← t.bufIter.next
    match byteRef with
    | some a => do
      let c ← move a
      moveBatch move n { bufIter, size := t.size + 1, moved := t.moved ++ [(a, c)] }
    | none => return (true, { t with bufIter })

/-- The loop of `read` and `write` up to a suspension: `room` is how many bytes can be moved, and
`closed` ends the call if none can. `fuel` bounds the rounds. -/
def moveLoop (room : PipeState → Nat) (closed : PipeState → Bool) (move : Nat → Comp PipeState UInt8) :
    Nat → Transfer → Comp PipeState Outcome
  | 0, _ => Comp.panic
  | fuel + 1, t => do
    let s ← Comp.get
    if room s = 0 then
      if closed s then return .returned t else return .suspended t
    else do
      let (ended, t) ← moveBatch move (room s) t
      if ended then return .returned t else moveLoop room closed move fuel t

/-- `*byte_ref = ring_buffer.read_byte()` -/
def readMove (a : Nat) : Comp PipeState UInt8 := do
  let c ← PipeState.readByte
  Comp.modify fun s => { s with mem := s.mem.write a [c] }
  return c

/-- `ring_buffer.write_byte(*byte_ref)` -/
def writeMove (a : Nat) : Comp PipeState UInt8 := do
  let s ← Comp.get
  PipeState.writeByte (s.mem a)
  return s.mem a

/-- The loop of `read`. -/
def readLoop : Nat → Transfer → Comp PipeState Outcome :=
  moveLoop (fun s => s.ring.availableRead) PipeState.allWriteEndsClosed readMove

/-- The loop of `write`, which nothing but the end of the buffer ends. -/
def writeLoop : Nat → Transfer → Comp PipeState Outcome :=
  moveLoop (fun s => s.ring.availableWrite) (fun _ => false) writeMove

/-- Go on with a `read`. Every round but the last moves a byte, so one more round than there are bytes
left is enough. -/
def resumeRead (t : Transfer) : Comp PipeState Outcome := readLoop (t.bufIter.left.length + 1) t

/-- Go on with a `write`. -/
def resumeWrite (t : Transfer) : Comp PipeState Outcome := writeLoop (t.bufIter.left.length + 1) t

/-- `Pipe::read` up to a suspension. -/
def read (pipe : Pipe) (buf : UserBuffer) : Comp PipeState Outcome := do
  Comp.assert (pipe.readable = true)
  resumeRead ⟨buf.intoIter, 0, []⟩

/-- `Pipe::write` up to a suspension. -/
def write (pipe : Pipe) (buf : UserBuffer) : Comp PipeState Outcome := do
  Comp.assert (pipe.writable = true)
  resumeWrite ⟨buf.intoIter, 0, []⟩

end Pipe

/-! ## Readers and writers -/

/-- A call that is suspended. -/
inductive Call where
  | read (t : Transfer)
  | write (t : Transfer)

/-- A pipe and the processes that are suspended in a call. -/
structure PipeSystem where
  pipe : PipeState
  calls : Nat → Option Call

/-- What can happen next. -/
inductive PipeOp where
  /-- The process calls `read`. -/
  | read (process : Nat) (buf : UserBuffer)
  | write (process : Nat) (buf : UserBuffer)
  /-- The process is fetched again. -/
  | resume (process : Nat)
  /-- Write ends are opened or closed. -/
  | setWriteEnds (n : Nat)
  /-- A byte of user memory changes. -/
  | store (a : Nat) (byte : UInt8)

namespace PipeSystem

/-- Run a part of a call. -/
def attend (process : Nat) (call : Transfer → Call) (x : Comp PipeState Outcome) :
    Comp PipeSystem (Option Outcome) := do
  let o ← Comp.zoom PipeSystem.pipe (fun s p => { s with pipe := p }) x
  let rest := match o with
    | .returned _ => none
    | .suspended t => some (call t)
  Comp.modify fun s => { s with calls := Function.update s.calls process rest }
  return some o

/-- One step, and how the call in it ended. -/
def step : PipeOp → Comp PipeSystem (Option Outcome)
  | .read process buf => do
    let s ← Comp.get
    -- a suspended process makes no calls
    Comp.assert ((s.calls process).isNone = true)
    attend process .read (Pipe.readEndWithBuffer.read buf)
  | .write process buf => do
    let s ← Comp.get
    Comp.assert ((s.calls process).isNone = true)
    attend process .write (Pipe.writeEndWithBuffer.write buf)
  | .resume process => do
    let s ← Comp.get
    match ← Comp.unwrap (s.calls process) with
    | .read t => attend process .read (Pipe.resumeRead t)
    | .write t => attend process .write (Pipe.resumeWrite t)
  | .setWriteEnds n => do
    Comp.modify fun s => { s with pipe := { s.pipe with writeEnds := n } }
    return none
  | .store a byte => do
    Comp.modify fun s => { s with pipe := { s.pipe with mem := s.pipe.mem.write a [byte] } }
    return none

/-- The states after `make_pipe` and any number of steps that satisfy `ok`. -/
inductive Reached (ok : PipeSystem → PipeOp → Prop) : PipeSystem → Prop
  | start (mem : Mem) : Reached ok ⟨.makePipe mem, fun _ => none⟩
  | step {s s' : PipeSystem} {o : Option Outcome} (op : PipeOp) (hs : Reached ok s) (hok : ok s op)
      (h : (step op).run s = some (o, s')) : Reached ok s'

end PipeSystem

end RCore.Fs
