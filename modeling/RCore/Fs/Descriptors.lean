import RCore.Fs.FdTable

/-!
# Processes that share pipes

Processes with their descriptor tables, and the system calls that move the ends of pipes between them:
`sys_pipe`, `sys_dup`, `sys_close`, `sys_open`, `fork`, `exec`, `exit`, `waitpid`, and `sys_read` and
`sys_write` up to a suspension. The strong count of the write end of a pipe is kept as the code keeps it:
a clone adds one to it and a drop takes one away.
-/

namespace RCore.Fs

open RCore Mm

/-- Whether a process runs, waits for its parent to collect it, or has been collected. -/
inductive ProcessStatus where
  | running
  | zombie
  | gone
  deriving DecidableEq

/-- What a process has for descriptors. -/
structure Process where
  status : ProcessStatus
  fdTable : FdTable
  children : List Nat
  /-- The call of `read` or `write` that has suspended it, with the local variable `file`. -/
  call : Option (File × Call)

/-- All processes that there have been, the pipes, and user memory. -/
structure FdSystem where
  processes : List Process
  pipes : List PipeState
  mem : Mem

/-- What can happen next: a system call of the process `p`. -/
inductive FdOp where
  | pipe (p : Nat)
  | dup (p fd : Nat)
  | close (p fd : Nat)
  /-- `found` is whether there is such a file. -/
  | open (p : Nat) (path : List Char) (readable writable found : Bool)
  | fork (p : Nat)
  | exec (p : Nat)
  | exit (p : Nat)
  | waitpid (p child : Nat)
  | read (p fd : Nat) (buf : UserBuffer)
  | write (p fd : Nat) (buf : UserBuffer)
  /-- The process is fetched again in a call that has suspended it. -/
  | resume (p : Nat)

namespace FdSystem

/-- `INITPROC`, with nothing but its standard descriptors. -/
def start (mem : Mem) : FdSystem := ⟨[⟨.running, .new, [], none⟩], [], mem⟩

/-- The process `p`. -/
def process (p : Nat) : Comp FdSystem Process := do
  let s ← Comp.get
  Comp.unwrap s.processes[p]?

/-- Change the process `p`. -/
def setProcess (p : Nat) (q : Process) : Comp FdSystem Unit :=
  Comp.modify fun s => { s with processes := s.processes.set p q }

/-- The process `p`, which makes a system call. -/
def caller (p : Nat) : Comp FdSystem Process := do
  let q ← process p
  Comp.assert (q.status = .running ∧ q.call.isNone = true)
  return q

/-- Change the strong count of the write end of a pipe. -/
def count (file : File) (f : Nat → Nat) : Comp FdSystem Unit :=
  match file with
  | .pipeWrite i => Comp.modify fun s => { s with
      pipes := s.pipes.modify i fun pipe => { pipe with writeEnds := f pipe.writeEnds } }
  | _ => return ()

/-- `Arc::clone` -/
def cloneFile (file : File) : Comp FdSystem Unit := count file (· + 1)

/-- The drop of an `Arc`. -/
def dropFile (file : File) : Comp FdSystem Unit := count file (· - 1)

/-- Do something with every file of a list. -/
def forFiles (f : File → Comp FdSystem Unit) : List File → Comp FdSystem Unit
  | [] => return ()
  | file :: files => do
    f file
    forFiles f files

/-- Run a function of the pipe `i`. -/
def onPipe {α : Type} (i : Nat) (x : Comp PipeState α) : Comp FdSystem α := do
  let s ← Comp.get
  let pipe ← Comp.unwrap s.pipes[i]?
  let (a, pipe) ← Comp.unwrap (x.run { pipe with mem := s.mem })
  Comp.modify fun s => { s with pipes := s.pipes.set i pipe, mem := pipe.mem }
  return a

/-- Run a part of a call of `p`, which holds a clone of `file`. -/
def attend (p i : Nat) (file : File) (call : Transfer → Call) (x : Comp PipeState Outcome) :
    Comp FdSystem (Option Outcome) := do
  let q ← process p
  let o ← onPipe i x
  match o with
  | .returned _ => do
    setProcess p { q with call := none }
    dropFile file
  | .suspended t => setProcess p { q with call := some (file, call t) }
  return some o

/-- `exit_current_and_run_next`: `INITPROC` gets the children. The descriptors stay. -/
def exit (p : Nat) : Comp FdSystem Unit := do
  let q ← caller p
  -- the cell of `INITPROC` is borrowed while that of the task is
  Comp.assert (p ≠ 0)
  setProcess p { q with status := .zombie, children := [] }
  let init ← process 0
  setProcess 0 { init with children := init.children ++ q.children }

/-- `sys_waitpid` for a child that is a zombie: its control block is dropped. -/
def waitpid (p child : Nat) : Comp FdSystem Unit := do
  let q ← caller p
  Comp.assert (child ∈ q.children ∧ child ≠ p)
  let c ← process child
  Comp.assert (c.status = .zombie)
  setProcess p { q with children := q.children.erase child }
  setProcess child { c with status := .gone, fdTable := [], call := none }
  forFiles dropFile c.fdTable.files

/-- One step, and how the call of `read` or `write` in it ended. -/
def step : FdOp → Comp FdSystem (Option Outcome)
  | .pipe p => do
    let q ← caller p
    let s ← Comp.get
    Comp.modify fun s => { s with pipes := s.pipes ++ [.makePipe s.mem] }
    setProcess p { q with fdTable := (q.fdTable.sysPipe s.pipes.length).2 }
    return none
  | .dup p fd => do
    let q ← caller p
    forFiles cloneFile (q.fdTable.file fd).toList
    setProcess p { q with fdTable := (q.fdTable.sysDup fd).2 }
    return none
  | .close p fd => do
    let q ← caller p
    setProcess p { q with fdTable := (q.fdTable.sysClose fd).2 }
    forFiles dropFile (q.fdTable.file fd).toList
    return none
  | .open p path readable writable found => do
    let q ← caller p
    let inode := if found then some (.inode path readable writable) else none
    setProcess p { q with fdTable := (q.fdTable.sysOpen inode).2 }
    return none
  | .fork p => do
    let q ← caller p
    let s ← Comp.get
    forFiles cloneFile q.fdTable.files
    setProcess p { q with children := q.children ++ [s.processes.length] }
    Comp.modify fun s => { s with processes := s.processes ++ [⟨.running, q.fdTable, [], none⟩] }
    return none
  | .exec p => do
    -- the descriptors stay
    let _ ← caller p
    return none
  | .exit p => do
    exit p
    return none
  | .waitpid p child => do
    waitpid p child
    return none
  | .read p fd buf => do
    let q ← caller p
    match q.fdTable.file fd with
    | some file => do
      cloneFile file
      if ¬ file.readable then do
        dropFile file
        return none
      else
        match file with
        | .pipeRead i => attend p i file .read (Pipe.readEndWithBuffer.read buf)
        | _ => do
          dropFile file
          return none
    | none => return none
  | .write p fd buf => do
    let q ← caller p
    match q.fdTable.file fd with
    | some file =>
      if ¬ file.writable then return none
      else do
        cloneFile file
        match file with
        | .pipeWrite i => attend p i file .write (Pipe.writeEndWithBuffer.write buf)
        | _ => do
          dropFile file
          return none
    | none => return none
  | .resume p => do
    let q ← process p
    match q.call with
    | some (.pipeRead i, .read t) => attend p i (.pipeRead i) .read (Pipe.resumeRead t)
    | some (.pipeWrite i, .write t) => attend p i (.pipeWrite i) .write (Pipe.resumeWrite t)
    | _ => Comp.panic

/-- The states after any number of steps. -/
inductive Reached : FdSystem → Prop
  | start (mem : Mem) : Reached (start mem)
  | step {s s' : FdSystem} {o : Option Outcome} (op : FdOp) (hs : Reached s)
      (h : (step op).run s = some (o, s')) : Reached s'

end FdSystem

end RCore.Fs
