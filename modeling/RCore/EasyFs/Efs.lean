import RCore.EasyFs.Layout

/-!
# The file system on a device

The model of `easy-fs/src/efs.rs`. A device is cut into the super block, the inode bitmap, the inode
area, the data bitmap and the data area, in this order. `Geometry` holds the numbers
`EasyFileSystem::create` computes for this cut, in `u32` arithmetic as the release build does it;
`EasyFileSystem` keeps those of them that the running file system uses.
-/

namespace RCore.EasyFs

open RCore Prog

/-- `EasyFileSystem`, without the device handle. -/
structure EasyFileSystem where
  inodeBitmap : Bitmap
  dataBitmap : Bitmap
  inodeAreaStartBlock : UInt32
  dataAreaStartBlock : UInt32
deriving DecidableEq, Repr

/-- The block counts `EasyFileSystem::create` computes. -/
structure Geometry where
  totalBlocks : UInt32
  inodeBitmapBlocks : UInt32
  inodeAreaBlocks : UInt32
  dataTotalBlocks : UInt32
  dataBitmapBlocks : UInt32
  dataAreaBlocks : UInt32
deriving DecidableEq, Repr

namespace Geometry

/-- The layout arithmetic of `EasyFileSystem::create`. -/
def compute (totalBlocks inodeBitmapBlocks : UInt32) : Geometry :=
  -- how many blocks are needed to store all the disk inodes
  let inodeNum := (Bitmap.mk 1 inodeBitmapBlocks.toNat).maxBits
  let inodeAreaBlocks := UInt32.ofNat ((inodeNum * diskInodeSize + blockSz - 1) / blockSz)
  let inodeTotalBlocks := inodeBitmapBlocks + inodeAreaBlocks
  -- and the rest goes to the data areas
  let dataTotalBlocks := totalBlocks - 1 - inodeTotalBlocks
  let dataBitmapBlocks := (dataTotalBlocks + 4096) / 4097
  let dataAreaBlocks := dataTotalBlocks - dataBitmapBlocks
  { totalBlocks, inodeBitmapBlocks, inodeAreaBlocks, dataTotalBlocks, dataBitmapBlocks,
    dataAreaBlocks }

/-- The file system object for a geometry. -/
def toEfs (g : Geometry) : EasyFileSystem where
  inodeBitmap := ⟨1, g.inodeBitmapBlocks.toNat⟩
  dataBitmap := ⟨(1 + g.inodeBitmapBlocks + g.inodeAreaBlocks).toNat, g.dataBitmapBlocks.toNat⟩
  inodeAreaStartBlock := 1 + g.inodeBitmapBlocks
  dataAreaStartBlock := 1 + (g.inodeBitmapBlocks + g.inodeAreaBlocks) + g.dataBitmapBlocks

/-- The super block for a geometry. -/
def superBlock (g : Geometry) : SuperBlock :=
  .initialized g.totalBlocks g.inodeBitmapBlocks g.inodeAreaBlocks g.dataBitmapBlocks
    g.dataAreaBlocks

/-- The inode bitmap and the inode area fit on the device: no subtraction of the layout arithmetic
goes below zero. -/
def NoUnderflow (g : Geometry) : Prop :=
  1 + g.inodeBitmapBlocks.toNat + g.inodeAreaBlocks.toNat ≤ g.totalBlocks.toNat

instance (g : Geometry) : Decidable g.NoUnderflow := inferInstanceAs (Decidable (_ ≤ _))

end Geometry

namespace EasyFileSystem

variable (fs : EasyFileSystem)

/-- Block and offset of an inode. -/
def getDiskInodePos (inodeId : UInt32) : UInt32 × Nat :=
  let inodesPerBlock := UInt32.ofNat (blockSz / diskInodeSize)
  (fs.inodeAreaStartBlock + inodeId / inodesPerBlock,
    (inodeId % inodesPerBlock).toNat * diskInodeSize)

/-- `EasyFileSystem::get_data_block_id`. -/
def getDataBlockId (dataBlockId : UInt32) : UInt32 := fs.dataAreaStartBlock + dataBlockId

def allocInode : EfsM UInt32 := do
  let bit ← fs.inodeBitmap.alloc
  let bit ← unwrap bit
  pure (UInt32.ofNat bit)

/-- Allocate a block; the result is its number on the device. -/
def allocData : EfsM UInt32 := do
  let bit ← fs.dataBitmap.alloc
  let bit ← unwrap bit
  pure (UInt32.ofNat bit + fs.dataAreaStartBlock)

/-- Zero a block and mark it free. -/
def deallocData (blockId : UInt32) : EfsM Unit := do
  withModify blockId.toNat fun _ => pure ((), Bytes.zero blockSz)
  fs.dataBitmap.dealloc (blockId - fs.dataAreaStartBlock).toNat

/-- Zero the first `n` blocks of the device, from block `i` on. -/
def clearBlocks : Nat → Nat → EfsM Unit
  | 0, _ => pure ()
  | n + 1, i => do
    withModify i fun _ => pure ((), Bytes.zero blockSz)
    clearBlocks n (i + 1)

/-- `EasyFileSystem::create`. -/
def create (totalBlocks inodeBitmapBlocks : UInt32) : EfsM EasyFileSystem := do
  let g := Geometry.compute totalBlocks inodeBitmapBlocks
  let efs := g.toEfs
  -- clear all blocks
  clearBlocks totalBlocks.toNat 0
  -- initialize the super block
  withModify 0 fun b => pure ((), g.superBlock.encode b)
  -- create a disk inode for the root directory
  let rootId ← efs.allocInode
  assert (rootId = 0)
  let (rootInodeBlockId, rootInodeOffset) := efs.getDiskInodePos 0
  withModify rootInodeBlockId.toNat fun b => do
    assert (rootInodeOffset + diskInodeSize ≤ blockSz)
    pure ((), (DiskInode.initialized 0 .directory).encode b rootInodeOffset)
  Prog.sync (pure ())
  pure efs

/-- `EasyFileSystem::open`. -/
def open_ : EfsM EasyFileSystem :=
  withRead 0 fun b => do
    let superBlock := SuperBlock.decode b
    assert (superBlock.isValid = true)
    let inodeTotalBlocks := superBlock.inodeBitmapBlocks + superBlock.inodeAreaBlocks
    pure {
      inodeBitmap := ⟨1, superBlock.inodeBitmapBlocks.toNat⟩
      dataBitmap := ⟨(1 + inodeTotalBlocks).toNat, superBlock.dataBitmapBlocks.toNat⟩
      inodeAreaStartBlock := 1 + superBlock.inodeBitmapBlocks
      dataAreaStartBlock := 1 + inodeTotalBlocks + superBlock.dataBitmapBlocks }

end EasyFileSystem

end RCore.EasyFs
