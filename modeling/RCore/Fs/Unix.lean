import RCore.Fs.OpenFiles

/-!
# Files as programs see them

What the file system calls are for, said without blocks, inodes on a disk or a cache. There are files, which are
sequences of bytes, names for them, open files, which are a file and an offset, and for every process a map from
descriptors to open files. A process that opens or duplicates gets the lowest descriptor that is free.

`unlinkat` is as the kernel has it: it counts the link down and leaves the name.
-/

namespace RCore.Fs

open RCore Mm

/-- A file. -/
structure UnixFile where
  bytes : List UInt8
  nlink : UInt32

/-- An open file: which one, and where the next read or write of it begins. -/
structure OpenFile where
  file : Nat
  offset : Nat
  readable : Bool
  writable : Bool

/-- The names in the order in which they were bound, the files and the open files by number, and what the
descriptors of each process stand for. -/
structure Unix where
  names : List (String × Nat)
  files : List UnixFile
  opened : List OpenFile
  processes : List (Nat → Option FileRef)

namespace Unix

/-- `new` written over the bytes from `offset` on, with zeros before it where there are none. -/
def overwrite (old : List UInt8) (offset : Nat) (new : List UInt8) : List UInt8 :=
  (old ++ List.replicate (offset - old.length) 0).take offset ++ new ++ old.drop (offset + new.length)

/-- The file that a name is bound to. -/
def find (name : String) (u : Unix) : Option Nat := (u.names.find? fun p => p.1 = name).map Prod.snd

/-- Other bytes for a file. -/
def setBytes (u : Unix) (j : Nat) (bytes : List UInt8) : Unix :=
  { u with files := u.files.modify j fun f => { f with bytes } }

/-- A new file with one name. -/
def addFile (u : Unix) (name : String) : Unix :=
  { u with names := u.names ++ [(name, u.files.length)], files := u.files ++ [⟨[], 1⟩] }

/-- One name more for a file. -/
def addName (u : Unix) (name : String) (j : Nat) : Unix :=
  { u with
    names := u.names ++ [(name, j)]
    files := u.files.modify j fun f => { f with nlink := f.nlink + 1 } }

/-- One more open file. -/
def addOpened (u : Unix) (o : OpenFile) : Unix := { u with opened := u.opened ++ [o] }

/-- The lowest descriptor that stands for nothing. -/
noncomputable def lowest (fds : Nat → Option FileRef) : Nat := sInf {fd | fds fd = none}

/-- A process with the descriptors `fds` gets one for `file`. -/
noncomputable def install (u : Unix) (p : Nat) (fds : Nat → Option FileRef) (file : FileRef) : Int × Unix :=
  (lowest fds, { u with processes := u.processes.set p (Function.update fds (lowest fds) (some file)) })

/-- The file at a path, emptied or made if the flags ask for it. -/
def openFile (u : Unix) (path : String) (flags : OpenFlags) : Option Nat × Unix :=
  match u.find path with
  | some j => (some j, if flags.contains .CREATE || flags.contains .TRUNC then u.setBytes j [] else u)
  | none => if flags.contains .CREATE then (some u.files.length, u.addFile path) else (none, u)

/-- `read` of an open file into a buffer that holds `old`. -/
def read (u : Unix) (n : Nat) (old : List UInt8) : Option (FileAnswer × Unix) := do
  let o ← u.opened[n]?
  if o.readable then
    let f ← u.files[o.file]?
    let s := (f.bytes.drop o.offset).take old.length
    return (.bytes s.length (s ++ old.drop s.length),
      { u with opened := u.opened.set n { o with offset := o.offset + s.length } })
  else return (.bytes (-1) old, u)

/-- `write` of an open file; nothing is written if there is nothing to write. -/
def write (u : Unix) (n : Nat) (new : List UInt8) : Option (FileAnswer × Unix) := do
  let o ← u.opened[n]?
  if o.writable then
    if new = [] then return (.status 0, u)
    else
      let f ← u.files[o.file]?
      return (.status new.length,
        { u.setBytes o.file (overwrite f.bytes o.offset new) with
          opened := u.opened.set n { o with offset := o.offset + new.length } })
  else return (.status (-1), u)

/-- `fstat` of an open file. Files are numbered from 1 on. -/
def fstat (u : Unix) (n : Nat) : Option FileAnswer := do
  let o ← u.opened[n]?
  let f ← u.files[o.file]?
  return .stat 0 (some ⟨0, o.file + 1, StatMode.FILE, f.nlink.toNat, Vector.replicate 7 0⟩)

/-- One call: the answer and what follows. `none` is a panic of the kernel. -/
noncomputable def step : FileOp → Unix → Option (FileAnswer × Unix)
  | .open_ p path flags, u => do
    let fds ← u.processes[p]?
    let flags ← OpenFlags.fromBits flags
    match u.openFile path flags with
    | (some j, v) =>
      let (fd, v) := (v.addOpened ⟨j, 0, flags.readWrite.1, flags.readWrite.2⟩).install p fds (.osInode v.opened.length)
      return (.status fd, v)
    | (none, v) => return (.status (-1), v)
  | .close p fd, u => do
    let fds ← u.processes[p]?
    match fds fd with
    | some _ => return (.status 0, { u with processes := u.processes.set p (Function.update fds fd none) })
    | none => return (.status (-1), u)
  | .dup p fd, u => do
    let fds ← u.processes[p]?
    match fds fd with
    | some file =>
      let (fd, u) := u.install p fds file
      return (.status fd, u)
    | none => return (.status (-1), u)
  | .read p fd buf other, u => do
    let fds ← u.processes[p]?
    match fds fd with
    | some (.osInode n) => u.read n buf.flatten
    | some (.other f) =>
      return if f.readable then (.bytes (asIsize other.1) other.2.flatten, u) else (.bytes (-1) buf.flatten, u)
    | none => return (.bytes (-1) buf.flatten, u)
  | .write p fd buf other, u => do
    let fds ← u.processes[p]?
    match fds fd with
    | some (.osInode n) => u.write n buf.flatten
    | some (.other f) => return if f.writable then (.status (asIsize other), u) else (.status (-1), u)
    | none => return (.status (-1), u)
  | .fstat p fd, u => do
    let fds ← u.processes[p]?
    match fds fd with
    | some (.osInode n) => return (← u.fstat n, u)
    | some (.other _) => return (.stat 0 (some statNew), u)
    | none => return (.stat (-1) none, u)
  | .linkat olddirfd oldpath newdirfd newpath flags, u =>
    if olddirfd = atFdcwd ∧ newdirfd = atFdcwd ∧ flags = 0 then
      match u.find newpath, u.find oldpath with
      | none, some j => some (.status 0, u.addName newpath j)
      | _, _ => some (.status (-1), u)
    else none
  | .unlinkat dirfd path flags, u =>
    if dirfd = atFdcwd ∧ flags = 0 then
      match u.find path with
      | some j => some (.status 0, { u with files := u.files.modify j fun f => { f with nlink := f.nlink - 1 } })
      | none => some (.status (-1), u)
    else none
  | .fork p, u => do
    let fds ← u.processes[p]?
    return (.status u.processes.length, { u with processes := u.processes ++ [fds] })
  | .load path, u => some (.data ((u.find path).bind fun j => u.files[j]?.map UnixFile.bytes), u)
  | .ls, u => some (.names (u.names.map Prod.fst), u)

end Unix

end RCore.Fs
