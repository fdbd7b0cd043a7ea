import RCore.Fs.FdTable
import RCore.Fs.Inode
import RCore.Fs.Stdio
import RCore.Lib.Refine

/-!
# The file system calls

`open_file` (`os/src/fs/inode.rs`) and the functions of `os/src/syscall/fs.rs`, on the descriptor tables of all
processes. An `OSInode` is an object of the kernel that several descriptors refer to: `dup` and `fork` copy the
reference, and so share the offset. Paths and buffers are here what the translation of a user pointer has given.

The other files that a descriptor can refer to have their own state (`Fs.Stdio`, `Fs.Pipe`); what they answer to
a read or a write is an argument of the call. A process that has exited makes no calls, and what it leaves in its
table has no effect on the others.
-/

namespace RCore.EasyFs.Inode

open RCore Prog

/-- `Inode::mode` -/
def mode (ino : Inode) : EfsM DiskInodeType :=
  ino.readDiskInode fun diskNode => pure (if diskNode.isDir then .directory else .file)

end RCore.EasyFs.Inode

namespace RCore.Fs

open RCore Prog EasyFs Mm

/-- `OpenFlags` -/
abbrev OpenFlags := UInt32

namespace OpenFlags

def RDONLY : OpenFlags := 0
def WRONLY : OpenFlags := 0x1
def RDWR : OpenFlags := 0x2
def CREATE : OpenFlags := 0x200
def TRUNC : OpenFlags := 0x400

/-- `OpenFlags::from_bits` -/
def fromBits (bits : UInt32) : Option OpenFlags :=
  if bits &&& ~~~(WRONLY ||| RDWR ||| CREATE ||| TRUNC) = 0 then some bits else none

/-- `OpenFlags::contains` -/
def contains (flags flag : OpenFlags) : Bool := flags &&& flag = flag

/-- `OpenFlags::read_write`: readable and writable. -/
def readWrite (flags : OpenFlags) : Bool × Bool :=
  if flags = 0 then (true, false) else if contains flags WRONLY then (false, true) else (true, true)

end OpenFlags

namespace StatMode

def NULL : Nat := 0
def DIR : Nat := 0o040000
def FILE : Nat := 0o100000

end StatMode

/-- `Stat::new` -/
def statNew : Stat := ⟨0, 0, StatMode.NULL, 0, Vector.replicate 7 0⟩

/-- `OSInode::fstat` -/
def OSInode.fstat (file : OSInode) : EfsM Stat := do
  let type ← file.inner.inode.mode
  let ino ← file.inner.inode.inodeId
  let nlink ← file.inner.inode.nlink
  let mode := match type with
    | .file => StatMode.FILE
    | .directory => StatMode.DIR
  pure ⟨0, ino.toNat, mode, nlink.toNat, Vector.replicate 7 0⟩

/-- What an `Arc<dyn File>` points to: an `OSInode` by its number, or another file. -/
inductive FileRef where
  | osInode (n : Nat)
  | other (f : File)
  deriving DecidableEq

/-- The `OSInode`s that were opened, and the `fd_table` of every process. -/
structure OpenFiles where
  osInodes : List OSInode
  fdTables : List (Slots FileRef)

/-- When the kernel makes `INITPROC`. -/
def OpenFiles.start : OpenFiles := ⟨[], [FdTable.new.map fun f => f.map .other]⟩

variable (fs : EasyFileSystem)

/-- `open_file` -/
def openFile (name : String) (flags : OpenFlags) : EfsM (Option OSInode) := do
  let (readable, writable) := flags.readWrite
  if flags.contains .CREATE then
    match ← fs.rootInode.find fs name with
    | some inode => do
      -- clear size
      inode.clear fs
      pure (some (OSInode.new readable writable inode))
    | none => do
      -- create file
      let inode ← fs.rootInode.create fs name
      pure (inode.map (OSInode.new readable writable))
  else
    match ← fs.rootInode.find fs name with
    | some inode =>
      if flags.contains .TRUNC then do
        inode.clear fs
        pure (some (OSInode.new readable writable inode))
      else
        pure (some (OSInode.new readable writable inode))
    | none => pure none

/-- `open_file` and `read_all`, as `sys_exec` loads a program and the kernel `initproc`. -/
def loadApp (path : String) : EfsM (Option (List UInt8)) := do
  match ← openFile fs path OpenFlags.RDONLY with
  | some appInode => do
    let r ← appInode.readAll (indirect2Bound * blockSz + 1)
    pure (r.map Prod.fst)
  | none => pure none

namespace OpenFiles

variable (s : OpenFiles)

/-- `File::readable` -/
def readable : FileRef → Bool
  | .osInode n => s.osInodes[n]?.any OSInode.readable
  | .other f => f.readable

/-- `File::writable` -/
def writable : FileRef → Bool
  | .osInode n => s.osInodes[n]?.any OSInode.writable
  | .other f => f.writable

/-- The `fd_table` of the current task. -/
def fdTable (p : Nat) : EfsM (Slots FileRef) := unwrap s.fdTables[p]?

/-- `alloc_fd`, and the file put there. -/
def install (p : Nat) (fdTable : Slots FileRef) (file : FileRef) : Int × OpenFiles :=
  let (fd, fdTable) := fdTable.put file
  (fd, { s with fdTables := s.fdTables.set p fdTable })

/-- `sys_open` -/
def sysOpen (p : Nat) (path : String) (flags : UInt32) : EfsM (Int × OpenFiles) := do
  let fdTable ← s.fdTable p
  let flags ← unwrap (OpenFlags.fromBits flags)
  match ← openFile fs path flags with
  | some inode =>
    pure ({ s with osInodes := s.osInodes ++ [inode] }.install p fdTable (.osInode s.osInodes.length))
  | none => pure (-1, s)

/-- `sys_close` -/
def sysClose (p fd : Nat) : EfsM (Int × OpenFiles) := do
  let fdTable ← s.fdTable p
  match fdTable.slot fd with
  | some _ => pure (0, { s with fdTables := s.fdTables.set p (fdTable.set fd none) })
  | none => pure (-1, s)

/-- `sys_dup` -/
def sysDup (p fd : Nat) : EfsM (Int × OpenFiles) := do
  let fdTable ← s.fdTable p
  match fdTable.slot fd with
  | some file => pure (s.install p fdTable file)
  | none => pure (-1, s)

/-- `sys_read`: the result, and what it leaves in the slices. `other` is what another file answers. -/
def sysRead (p fd : Nat) (buf : List (List UInt8)) (other : Nat × List (List UInt8)) :
    EfsM ((Int × List (List UInt8)) × OpenFiles) := do
  let fdTable ← s.fdTable p
  match fdTable.slot fd with
  | some file =>
    if s.readable file then
      match file with
      | .osInode n => do
        let inode ← unwrap s.osInodes[n]?
        let (size, buf, inode) ← inode.read buf
        pure ((asIsize size, buf), { s with osInodes := s.osInodes.set n inode })
      | .other _ => pure ((asIsize other.1, other.2), s)
    else pure ((-1, buf), s)
  | none => pure ((-1, buf), s)

/-- `sys_write` -/
def sysWrite (p fd : Nat) (buf : List (List UInt8)) (other : Nat) : EfsM (Int × OpenFiles) := do
  let fdTable ← s.fdTable p
  match fdTable.slot fd with
  | some file =>
    if s.writable file then
      match file with
      | .osInode n => do
        let inode ← unwrap s.osInodes[n]?
        let (size, inode) ← inode.write fs buf
        pure (asIsize size, { s with osInodes := s.osInodes.set n inode })
      | .other _ => pure (asIsize other, s)
    else pure (-1, s)
  | none => pure (-1, s)

/-- `sys_fstat`: the result, and what it stores. -/
def sysFstat (p fd : Nat) : EfsM (Int × Option Stat) := do
  let fdTable ← s.fdTable p
  match fdTable.slot fd with
  | some (.osInode n) => do
    let inode ← unwrap s.osInodes[n]?
    let stat ← inode.fstat
    pure (0, some stat)
  | some (.other _) => pure (0, some statNew)
  | none => pure (-1, none)

/-- The tables when `fork` has copied that of the parent. -/
def fork (p : Nat) : EfsM OpenFiles := do
  let fdTable ← s.fdTable p
  pure { s with fdTables := s.fdTables ++ [fdTable] }

end OpenFiles

/-- `AT_FDCWD` -/
def atFdcwd : Int := -100

/-- `sys_linkat` -/
def sysLinkat (olddirfd : Int) (oldpath : String) (newdirfd : Int) (newpath : String) (flags : UInt32) : EfsM Int := do
  assert (olddirfd = atFdcwd)
  assert (newdirfd = atFdcwd)
  assert (flags = 0)
  fs.rootInode.linkat fs oldpath newpath

/-- `sys_unlinkat` -/
def sysUnlinkat (dirfd : Int) (path : String) (flags : UInt32) : EfsM Int := do
  assert (dirfd = atFdcwd)
  assert (flags = 0)
  fs.rootInode.unlinkat fs path

/-- A call of process `p`; `load` is what `exec` does with a path, and `ls` is `list_apps`. -/
inductive FileOp where
  | open_ (p : Nat) (path : String) (flags : UInt32)
  | close (p fd : Nat)
  | dup (p fd : Nat)
  | read (p fd : Nat) (buf : List (List UInt8)) (other : Nat × List (List UInt8))
  | write (p fd : Nat) (buf : List (List UInt8)) (other : Nat)
  | fstat (p fd : Nat)
  | linkat (olddirfd : Int) (oldpath : String) (newdirfd : Int) (newpath : String) (flags : UInt32)
  | unlinkat (dirfd : Int) (path : String) (flags : UInt32)
  | fork (p : Nat)
  | load (path : String)
  | ls

/-- What the caller gets: of a read also the bytes that are then in its buffer. -/
inductive FileAnswer where
  | status (r : Int)
  | bytes (r : Int) (buf : List UInt8)
  | stat (r : Int) (stat : Option Stat)
  | data (r : Option (List UInt8))
  | names (l : List String)

/-- One call. -/
def OpenFiles.step (s : OpenFiles) : FileOp → EfsM (FileAnswer × OpenFiles)
  | .open_ p path flags => do
    let (r, s) ← s.sysOpen fs p path flags
    pure (.status r, s)
  | .close p fd => do
    let (r, s) ← s.sysClose p fd
    pure (.status r, s)
  | .dup p fd => do
    let (r, s) ← s.sysDup p fd
    pure (.status r, s)
  | .read p fd buf other => do
    let ((r, buf), s) ← s.sysRead p fd buf other
    pure (.bytes r buf.flatten, s)
  | .write p fd buf other => do
    let (r, s) ← s.sysWrite fs p fd buf other
    pure (.status r, s)
  | .fstat p fd => do
    let (r, stat) ← s.sysFstat p fd
    pure (.stat r stat, s)
  | .linkat olddirfd oldpath newdirfd newpath flags => do
    let r ← sysLinkat fs olddirfd oldpath newdirfd newpath flags
    pure (.status r, s)
  | .unlinkat dirfd path flags => do
    let r ← sysUnlinkat fs dirfd path flags
    pure (.status r, s)
  | .fork p => do
    let t ← s.fork p
    pure (.status s.fdTables.length, t)
  | .load path => do
    let r ← loadApp fs path
    pure (.data r, s)
  | .ls => do
    let l ← fs.rootInode.ls
    pure (.names l, s)

end RCore.Fs
