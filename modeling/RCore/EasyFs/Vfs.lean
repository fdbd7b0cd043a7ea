import RCore.EasyFs.Efs

/-!
# Inodes

The model of `easy-fs/src/vfs.rs`. An `Inode` is the position of a disk inode; its methods hold the
lock of the disk inode's block while they work on the blocks of the file.
-/

namespace RCore.EasyFs

open RCore Prog

/-- `Inode`: where its disk inode is. -/
structure Inode where
  blockId : Nat
  blockOffset : Nat
deriving DecidableEq, Repr

/-- The position of an inode number. -/
def EasyFileSystem.inode (fs : EasyFileSystem) (inodeId : UInt32) : Inode :=
  ⟨(fs.getDiskInodePos inodeId).1.toNat, (fs.getDiskInodePos inodeId).2⟩

/-- `EasyFileSystem::root_inode`. -/
def EasyFileSystem.rootInode (fs : EasyFileSystem) : Inode := fs.inode 0

namespace Inode

variable (ino : Inode)

/-- Run `f` on the disk inode, read-only. -/
def readDiskInode {α : Type} (f : DiskInode → EfsM α) : EfsM α :=
  withRead ino.blockId fun b => do
    assert (ino.blockOffset + diskInodeSize ≤ blockSz)
    f (DiskInode.decode b ino.blockOffset)

/-- Run `f` on the disk inode and store the inode it returns. -/
def modifyDiskInode {α : Type} (f : DiskInode → EfsM (α × DiskInode)) : EfsM α :=
  withModify ino.blockId fun b => do
    assert (ino.blockOffset + diskInodeSize ≤ blockSz)
    let (a, di) ← f (DiskInode.decode b ino.blockOffset)
    pure (a, di.encode b ino.blockOffset)

/-- `Inode::inode_id`. -/
def inodeId : EfsM UInt32 := ino.readDiskInode fun di => pure di.inodeId

/-- `Inode::nlink`. -/
def nlink : EfsM UInt32 := ino.readDiskInode fun di => pure di.nlink

/-! ## Looking up names -/

/-- Read record `i` of a directory into a buffer of `direntSz` bytes. -/
def readDirent (di : DiskInode) (i : Nat) (buf : List UInt8) : EfsM (List UInt8) := do
  let (n, buf) ← di.readAt (direntSz * i) buf
  assert (n = direntSz)
  pure buf

/-- The loop of `find_inode_id` over `n` records from record `i` on. -/
def findLoop (name : String) (di : DiskInode) : Nat → Nat → List UInt8 → EfsM (Option UInt32)
  | 0, _, _ => pure none
  | n + 1, i, buf => do
    let buf ← readDirent di i buf
    let dirent := DirEntry.ofBytes buf
    let entryName ← unwrap dirent.getName
    if entryName = name then
      pure (some dirent.inodeNumber)
    else
      findLoop name di n (i + 1) buf

/-- `Inode::find_inode_id`. -/
def findInodeId (name : String) (di : DiskInode) : EfsM (Option UInt32) := do
  assert (di.isDir = true)
  findLoop name di (di.size.toNat / direntSz) 0 DirEntry.newZeros.asBytes

/-- `Inode::find`. -/
def find (fs : EasyFileSystem) (name : String) : EfsM (Option Inode) :=
  ino.readDiskInode fun di => do
    let id ← findInodeId name di
    pure (id.map fs.inode)

/-- The loop of `ls` over `n` records from record `i` on. -/
def lsLoop (di : DiskInode) : Nat → Nat → EfsM (List String)
  | 0, _ => pure []
  | n + 1, i => do
    let buf ← readDirent di i DirEntry.newZeros.asBytes
    let name ← unwrap (DirEntry.ofBytes buf).getName
    let rest ← lsLoop di n (i + 1)
    pure (name :: rest)

/-- `Inode::ls`. -/
def ls : EfsM (List String) :=
  ino.readDiskInode fun di => lsLoop di (di.size.toNat / direntSz) 0

/-! ## Growing -/

/-- `n` calls of `alloc_data`. -/
def allocBlocks (fs : EasyFileSystem) : Nat → EfsM (List UInt32)
  | 0 => pure []
  | n + 1 => do
    let b ← fs.allocData
    let bs ← allocBlocks fs n
    pure (b :: bs)

/-- `Inode::increase_size`: the disk inode it leaves. -/
def increaseSize (fs : EasyFileSystem) (newSize : UInt32) (di : DiskInode) : EfsM DiskInode :=
  if newSize < di.size then
    pure di
  else do
    let blocksNeeded ← di.blocksNumNeeded newSize
    let v ← allocBlocks fs blocksNeeded.toNat
    di.increaseSize newSize v

/-- Append a record to a directory: the common end of `create` and `linkat`. -/
def appendDirent (fs : EasyFileSystem) (dirent : EfsM DirEntry) (di : DiskInode) :
    EfsM DiskInode := do
  let fileCount := di.size.toNat / direntSz
  let newSize := (fileCount + 1) * direntSz
  let di ← increaseSize fs (UInt32.ofNat newSize) di
  let dirent ← dirent
  let _ ← di.writeAt (fileCount * direntSz) dirent.asBytes
  pure di

/-! ## The calls -/

/-- `Inode::create`, on the root inode. -/
def create (fs : EasyFileSystem) (name : String) : EfsM (Option Inode) := do
  let found ← ino.readDiskInode fun rootInode => do
    assert (rootInode.isDir = true)
    findInodeId name rootInode
  if found.isSome then
    pure none
  else do
    -- create a new file, alloc an inode id
    let newInodeId ← fs.allocInode
    let newInode := fs.inode newInodeId
    -- initialize it with empty
    newInode.modifyDiskInode fun _ => pure ((), DiskInode.initialized newInodeId .file)
    -- append file in the dirent
    ino.modifyDiskInode fun rootInode => do
      let rootInode ← appendDirent fs (DirEntry.new name newInodeId) rootInode
      pure ((), rootInode)
    Prog.sync (pure ())
    pure (some newInode)

/-- `dealloc_data` on every block of a list. -/
def deallocBlocks (fs : EasyFileSystem) : List UInt32 → EfsM Unit
  | [] => pure ()
  | b :: bs => do
    fs.deallocData b
    deallocBlocks fs bs

/-- `Inode::clear`. -/
def clear (fs : EasyFileSystem) : EfsM Unit := do
  ino.modifyDiskInode fun di => do
    let size := di.size
    let (v, di) ← di.clearSize
    assert (v.length = (DiskInode.totalBlocks size).toNat)
    deallocBlocks fs v
    pure ((), di)
  Prog.sync (pure ())

/-- `Inode::read_at`. -/
def readAt (offset : Nat) (buf : List UInt8) : EfsM (Nat × List UInt8) :=
  ino.readDiskInode fun di => di.readAt offset buf

/-- `Inode::write_at`. -/
def writeAt (fs : EasyFileSystem) (offset : Nat) (buf : List UInt8) : EfsM Nat := do
  let size ← ino.modifyDiskInode fun di => do
    let di ← increaseSize fs (UInt32.ofNat (offset + buf.length)) di
    let n ← di.writeAt offset buf
    pure (n, di)
  Prog.sync (pure ())
  pure size

/-- `Inode::linkat`, on the root inode, with flags 0. -/
def linkat (fs : EasyFileSystem) (oldpath newpath : String) : EfsM Int := do
  let found ← ino.readDiskInode fun rootInode => do
    assert (rootInode.isDir = true)
    findInodeId newpath rootInode
  if found.isSome then
    pure (-1)
  else do
    let old ← ino.readDiskInode fun rootInode => do
      assert (rootInode.isDir = true)
      findInodeId oldpath rootInode
    match old with
    | some oldInodeId => do
      -- make sure oldpath is a file
      let target ← ino.find fs oldpath
      let target ← unwrap target
      target.readDiskInode fun oldDiskNode => assert (oldDiskNode.isFile = true)
      -- update the link number
      let target ← ino.find fs oldpath
      let target ← unwrap target
      target.modifyDiskInode fun di => pure ((), di.incNlink)
      let dirent ← DirEntry.new newpath oldInodeId
      ino.modifyDiskInode fun rootInode => do
        let rootInode ← appendDirent fs (pure dirent) rootInode
        pure ((), rootInode)
      pure 0
    | none => pure (-1)

/-- The loop of `unlinkat` over `n` records from record `i` on: `0` when it met the name. -/
def unlinkLoop (path : String) (di : DiskInode) (fileCount : Nat) :
    Nat → Nat → List UInt8 → EfsM Int
  | 0, _, _ => pure (-1)
  | n + 1, i, buf => do
    let buf ← readDirent di i buf
    let name ← unwrap (DirEntry.ofBytes buf).getName
    if name = path then do
      -- write an empty record to cover the old one
      let _ ← di.writeAt (fileCount * direntSz) DirEntry.newZeros.asBytes
      pure 0
    else
      unlinkLoop path di fileCount n (i + 1) buf

/-- `Inode::unlinkat`, on the root inode, with flags 0. -/
def unlinkat (fs : EasyFileSystem) (path : String) : EfsM Int := do
  let found ← ino.readDiskInode fun rootInode => do
    assert (rootInode.isDir = true)
    findInodeId path rootInode
  match found with
  | some _ => do
    let res ← ino.modifyDiskInode fun rootInode => do
      let fileCount := rootInode.size.toNat / direntSz
      let res ← unlinkLoop path rootInode fileCount fileCount 0 DirEntry.newZeros.asBytes
      pure (res, rootInode)
    if res = 0 then do
      -- update the link number
      let target ← ino.find fs path
      let target ← unwrap target
      target.modifyDiskInode fun di => pure ((), di.decNlink)
      pure res
    else
      pure res
  | none => pure (-1)

end Inode

end RCore.EasyFs
