import RCore.EasyFs.Vfs

/-!
# Open files

The `OSInode` of `os/src/fs/inode.rs`: a file of the file system with the offset of the next read or write. A `UserBuffer` is
here the list of the contents of its slices; `read` leaves other contents in them. The inner cell is passed on by each call.

`read_all` reads until a read returns 0; it is given a number of rounds, and what it returns is `none` if it is not over by
then.
-/

namespace RCore.Fs

open RCore Prog EasyFs

/-- `OSInodeInner` -/
structure OSInodeInner where
  offset : Nat
  inode : Inode

/-- `OSInode` -/
structure OSInode where
  readable : Bool
  writable : Bool
  inner : OSInodeInner

namespace OSInode

/-- `OSInode::new` -/
def new (readable writable : Bool) (inode : Inode) : OSInode := ⟨readable, writable, ⟨0, inode⟩⟩

/-- The loop of `read_all`: `v` has been read, and `buffer` is what the last read left. -/
def readAllLoop : Nat → OSInodeInner → List UInt8 → List UInt8 → EfsM (Option (List UInt8 × OSInodeInner))
  | 0, _, _, _ => pure none
  | fuel + 1, inner, buffer, v => do
    let (len, buffer) ← inner.inode.readAt inner.offset buffer
    if len = 0 then
      pure (some (v, inner))
    else
      readAllLoop fuel { inner with offset := inner.offset + len } buffer (v ++ buffer.take len)

/-- `OSInode::read_all` -/
def readAll (fuel : Nat) (file : OSInode) : EfsM (Option (List UInt8 × OSInode)) := do
  let r ← readAllLoop fuel file.inner (List.replicate 512 0) []
  pure (r.map fun (v, inner) => (v, { file with inner }))

/-- The loop of `read` over the slices. -/
def readLoop : List (List UInt8) → OSInodeInner → Nat → EfsM (Nat × List (List UInt8) × OSInodeInner)
  | [], inner, totalReadSize => pure (totalReadSize, [], inner)
  | slice :: slices, inner, totalReadSize => do
    let (readSize, slice) ← inner.inode.readAt inner.offset slice
    if readSize = 0 then
      pure (totalReadSize, slice :: slices, inner)
    else do
      let (total, slices, inner) ←
        readLoop slices { inner with offset := inner.offset + readSize } (totalReadSize + readSize)
      pure (total, slice :: slices, inner)

/-- `File::read`: the count, and what it leaves in the slices. -/
def read (file : OSInode) (buf : List (List UInt8)) : EfsM (Nat × List (List UInt8) × OSInode) := do
  let (total, buf, inner) ← readLoop buf file.inner 0
  pure (total, buf, { file with inner })

/-- The loop of `write` over the slices. -/
def writeLoop (fs : EasyFileSystem) : List (List UInt8) → OSInodeInner → Nat → EfsM (Nat × OSInodeInner)
  | [], inner, totalWriteSize => pure (totalWriteSize, inner)
  | slice :: slices, inner, totalWriteSize => do
    let writeSize ← inner.inode.writeAt fs inner.offset slice
    assert (writeSize = slice.length)
    writeLoop fs slices { inner with offset := inner.offset + writeSize } (totalWriteSize + writeSize)

/-- `File::write` -/
def write (fs : EasyFileSystem) (file : OSInode) (buf : List (List UInt8)) : EfsM (Nat × OSInode) := do
  let (total, inner) ← writeLoop fs buf file.inner 0
  pure (total, { file with inner })

end OSInode

end RCore.Fs
