import RCore.EasyFs.Bitmap

/-!
# On-disk structures

The model of `easy-fs/src/layout.rs`: the super block, the disk inode with its direct, single
indirect and double indirect blocks, and the directory entry.

The records are packed into blocks byte by byte, as the `repr(C)` structures are: little-endian
words in declaration order. `modify` on a record is in place, so writing a `DiskInode` back leaves
the three padding bytes after its type byte alone.

Block counts and loop counters are natural numbers where the source computes them in `usize`, and
`UInt32` where it computes in `u32` (the release build, which wraps). A `while` loop is a recursion
on its trip count.
-/

namespace RCore.EasyFs

open RCore Prog

/-! ## Constants -/

/-- `EFS_MAGIC`. -/
abbrev efsMagic : UInt32 := 0x3b800001

/-- `NAME_LENGTH_LIMIT`. -/
abbrev nameLengthLimit : Nat := 27

/-- `INODE_DIRECT_COUNT`. -/
abbrev inodeDirectCount : Nat := 28

/-- `DIRENT_SZ`. -/
abbrev direntSz : Nat := 32

/-- `INODE_INDIRECT1_COUNT`, `BLOCK_SZ / 4`. -/
abbrev inodeIndirect1Count : Nat := 128

/-- `INODE_INDIRECT2_COUNT`, `INODE_INDIRECT1_COUNT * INODE_INDIRECT1_COUNT`. -/
abbrev inodeIndirect2Count : Nat := 16384

/-- `INDIRECT1_BOUND`, `DIRECT_BOUND + INODE_INDIRECT1_COUNT`. -/
abbrev indirect1Bound : Nat := 156

/-- `INDIRECT2_BOUND`, `INDIRECT1_BOUND + INODE_INDIRECT2_COUNT`. -/
abbrev indirect2Bound : Nat := 16540

/-- `size_of::<DiskInode>()`: 33 words of 4 bytes, one type byte, padded to the alignment 4. -/
abbrev diskInodeSize : Nat := 136

/-- Entry `k` of a block seen as an `IndirectBlock`, `[u32; 128]`. -/
def u32At (b : Block) (k : Nat) : UInt32 := UInt32.ofNat (b.word 4 (4 * k))

/-- Overwrite entry `k` of a block seen as an `IndirectBlock`. -/
def setU32 (b : Block) (k : Nat) (v : UInt32) : Block := b.setWord 4 (4 * k) v.toNat

/-! ## The super block -/

/-- `SuperBlock`. -/
structure SuperBlock where
  magic : UInt32
  totalBlocks : UInt32
  inodeBitmapBlocks : UInt32
  inodeAreaBlocks : UInt32
  dataBitmapBlocks : UInt32
  dataAreaBlocks : UInt32
deriving DecidableEq, Repr

namespace SuperBlock

/-- The super block at the start of a block. -/
def decode (b : Block) : SuperBlock where
  magic := u32At b 0
  totalBlocks := u32At b 1
  inodeBitmapBlocks := u32At b 2
  inodeAreaBlocks := u32At b 3
  dataBitmapBlocks := u32At b 4
  dataAreaBlocks := u32At b 5

/-- Write a super block to the start of a block. -/
def encode (sb : SuperBlock) (b : Block) : Block :=
  setU32 (setU32 (setU32 (setU32 (setU32 (setU32 b 0 sb.magic) 1 sb.totalBlocks)
    2 sb.inodeBitmapBlocks) 3 sb.inodeAreaBlocks) 4 sb.dataBitmapBlocks) 5 sb.dataAreaBlocks

/-- `SuperBlock::initialize`. -/
def initialized (totalBlocks inodeBitmapBlocks inodeAreaBlocks dataBitmapBlocks
    dataAreaBlocks : UInt32) : SuperBlock :=
  { magic := efsMagic, totalBlocks, inodeBitmapBlocks, inodeAreaBlocks, dataBitmapBlocks,
    dataAreaBlocks }

def isValid (sb : SuperBlock) : Bool := sb.magic == efsMagic

end SuperBlock

/-! ## The disk inode -/

/-- `DiskInodeType`. -/
inductive DiskInodeType
  | file
  | directory
deriving DecidableEq, Repr

namespace DiskInodeType

/-- The discriminant. -/
def toByte : DiskInodeType → UInt8
  | file => 0
  | directory => 1

/-- The type a discriminant stands for. -/
def ofByte (b : UInt8) : DiskInodeType := if b = 0 then file else directory

end DiskInodeType

/-- `DiskInode`. -/
structure DiskInode where
  inodeId : UInt32
  size : UInt32
  direct : Vector UInt32 inodeDirectCount
  indirect1 : UInt32
  indirect2 : UInt32
  nlink : UInt32
  type : DiskInodeType
deriving DecidableEq, Repr

namespace DiskInode

/-- Word `k` of the record at `off`. -/
def field (b : Block) (off k : Nat) : UInt32 := UInt32.ofNat (b.word 4 (off + 4 * k))

/-- The record at offset `off` of a block. -/
def decode (b : Block) (off : Nat) : DiskInode where
  inodeId := field b off 0
  size := field b off 1
  direct := Vector.ofFn fun k => field b off (2 + k)
  indirect1 := field b off 30
  indirect2 := field b off 31
  nlink := field b off 32
  type := .ofByte (b.byte (off + 132))

/-- The words of a record, in declaration order. -/
def words (di : DiskInode) : List UInt32 :=
  [di.inodeId, di.size] ++ di.direct.toList ++ [di.indirect1, di.indirect2, di.nlink]

/-- The bytes of a record, without the padding at its end. -/
def bytes (di : DiskInode) : List UInt8 :=
  (di.words.flatMap fun w => leEncode 4 w.toNat) ++ [di.type.toByte]

/-- Write a record to offset `off` of a block. -/
def encode (di : DiskInode) (b : Block) (off : Nat) : Block := b.splice off di.bytes

/-- `DiskInode::initialize`. -/
def initialized (inodeId : UInt32) (type : DiskInodeType) : DiskInode where
  inodeId := inodeId
  size := 0
  direct := Vector.replicate inodeDirectCount 0
  indirect1 := 0
  indirect2 := 0
  nlink := 1
  type := type

def incNlink (di : DiskInode) : DiskInode := { di with nlink := di.nlink + 1 }

def decNlink (di : DiskInode) : DiskInode := { di with nlink := di.nlink - 1 }

def isDir (di : DiskInode) : Bool := di.type == .directory

def isFile (di : DiskInode) : Bool := di.type == .file

/-- The block that holds data block `innerId` of a file. -/
def getBlockId (di : DiskInode) (innerId : Nat) : EfsM UInt32 :=
  if h : innerId < inodeDirectCount then
    pure di.direct[innerId]
  else if innerId < indirect1Bound then
    withRead di.indirect1.toNat fun indirect => pure (u32At indirect (innerId - inodeDirectCount))
  else if innerId < indirect2Bound then do
    let last := innerId - indirect1Bound
    let indirect1 ← withRead di.indirect2.toNat fun indirect2 =>
      pure (u32At indirect2 (last / inodeIndirect1Count))
    withRead indirect1.toNat fun indirect1 => pure (u32At indirect1 (last % inodeIndirect1Count))
  else
    abort

/-- `DiskInode::_data_blocks`. -/
def dataBlocksOf (size : UInt32) : UInt32 := (size + 512 - 1) / 512

/-- `DiskInode::data_blocks`. -/
def dataBlocks (di : DiskInode) : UInt32 := dataBlocksOf di.size

/-- The number of blocks of a file of `dataBlocks` data blocks, index blocks included. -/
def totalBlocksFor (dataBlocks : Nat) : Nat :=
  let total := dataBlocks
  let total := if dataBlocks > inodeDirectCount then total + 1 else total
  if dataBlocks > indirect1Bound then
    total + 1 + (dataBlocks - indirect1Bound + inodeIndirect1Count - 1) / inodeIndirect1Count
  else
    total

/-- `DiskInode::total_blocks`. -/
def totalBlocks (size : UInt32) : UInt32 :=
  UInt32.ofNat (totalBlocksFor (dataBlocksOf size).toNat)

/-- `DiskInode::blocks_num_needed`. -/
def blocksNumNeeded (di : DiskInode) (newSize : UInt32) : EfsM UInt32 := do
  assert (newSize ≥ di.size)
  pure (totalBlocks newSize - totalBlocks di.size)

/-! ### Growing a file -/

/-- `new_blocks.next().unwrap()`. -/
def next : List UInt32 → EfsM (UInt32 × List UInt32)
  | [] => abort
  | b :: bs => pure (b, bs)

/-- Fill `n` entries of `direct` from entry `current` on. -/
def fillDirect : Nat → Nat → DiskInode → List UInt32 → EfsM (DiskInode × List UInt32)
  | 0, _, di, bs => pure (di, bs)
  | n + 1, current, di, bs => do
    let (b, bs) ← next bs
    fillDirect n (current + 1) { di with direct := di.direct.setIfInBounds current b } bs

/-- Fill `n` entries of an index block from entry `current` on. -/
def fillIndirect1 : Nat → Nat → Block → List UInt32 → EfsM (List UInt32 × Block)
  | 0, _, indirect1, bs => pure (bs, indirect1)
  | n + 1, current, indirect1, bs => do
    let (b, bs) ← next bs
    fillIndirect1 n (current + 1) (setU32 indirect1 current b) bs

/-- Fill `n` data blocks of the double indirect tree, from entry `b0` of second-level block `a0`
on. A second-level block is taken from the list when its first entry is. -/
def fillIndirect2 : Nat → Nat → Nat → Block → List UInt32 → EfsM (List UInt32 × Block)
  | 0, _, _, indirect2, bs => pure (bs, indirect2)
  | n + 1, a0, b0, indirect2, bs => do
    assert (a0 < inodeIndirect1Count)
    let (indirect2, bs) ←
      if b0 = 0 then do
        let (b, bs) ← next bs
        pure (setU32 indirect2 a0 b, bs)
      else
        pure (indirect2, bs)
    let bs ← withModify (u32At indirect2 a0).toNat fun indirect1 => do
      let (b, bs) ← next bs
      pure (bs, setU32 indirect1 b0 b)
    if b0 + 1 = inodeIndirect1Count then
      fillIndirect2 n (a0 + 1) 0 indirect2 bs
    else
      fillIndirect2 n a0 (b0 + 1) indirect2 bs

/-- The end of `increase_size`, for a file with more than `INODE_DIRECT_COUNT +
INODE_INDIRECT1_COUNT` data blocks: the double indirect block and the blocks behind it. The counts
are those of the data blocks after the direct ones. -/
def growIndirect2 (di : DiskInode) (current total : Nat) (bs : List UInt32) : EfsM DiskInode := do
  -- alloc indirect2
  let (di, bs) ←
    if current = inodeIndirect1Count then do
      let (b, bs) ← next bs
      pure ({ di with indirect2 := b }, bs)
    else
      pure (di, bs)
  let current := current - inodeIndirect1Count
  let total := total - inodeIndirect1Count
  -- fill indirect2 from (a0, b0) to (a1, b1)
  let _ ← withModify di.indirect2.toNat fun indirect2 =>
    fillIndirect2 (total - current) (current / inodeIndirect1Count)
      (current % inodeIndirect1Count) indirect2 bs
  pure di

/-- The part of `increase_size` for a file with more than `INODE_DIRECT_COUNT` data blocks: the
single indirect block and the blocks behind it, then the rest. -/
def growIndirect1 (di : DiskInode) (current total : Nat) (bs : List UInt32) : EfsM DiskInode := do
  -- alloc indirect1
  let (di, bs) ←
    if current = inodeDirectCount then do
      let (b, bs) ← next bs
      pure ({ di with indirect1 := b }, bs)
    else
      pure (di, bs)
  let current := current - inodeDirectCount
  let total := total - inodeDirectCount
  -- fill indirect1
  let bs ← withModify di.indirect1.toNat fun indirect1 =>
    fillIndirect1 (min total inodeIndirect1Count - current) current indirect1 bs
  let current := max current (min total inodeIndirect1Count)
  if total > inodeIndirect1Count then
    growIndirect2 di current total bs
  else
    pure di

/-- `DiskInode::increase_size`: the inode it leaves. -/
def increaseSize (di : DiskInode) (newSize : UInt32) (newBlocks : List UInt32) :
    EfsM DiskInode := do
  let current := di.dataBlocks.toNat
  let di := { di with size := newSize }
  let total := di.dataBlocks.toNat
  -- fill direct
  let (di, bs) ← fillDirect (min total inodeDirectCount - current) current di newBlocks
  let current := max current (min total inodeDirectCount)
  if total > inodeDirectCount then
    growIndirect1 di current total bs
  else
    pure di

/-! ### Clearing a file -/

/-- The blocks behind the first `n` second-level index blocks, each index block first. -/
def collectIndirect2 (indirect2 : Block) : Nat → Nat → EfsM (List UInt32)
  | 0, _ => pure []
  | n + 1, a => do
    let entry := u32At indirect2 a
    let v ← withModify entry.toNat fun indirect1 =>
      pure ((List.range inodeIndirect1Count).map (u32At indirect1), indirect1)
    let rest ← collectIndirect2 indirect2 n (a + 1)
    pure (entry :: v ++ rest)

/-- `DiskInode::clear_size`: the blocks to deallocate and the inode it leaves. -/
def clearSize (di : DiskInode) : EfsM (List UInt32 × DiskInode) := do
  let dataBlocks := di.dataBlocks.toNat
  let di := { di with size := 0 }
  -- direct
  let count := min dataBlocks inodeDirectCount
  let v := di.direct.toList.take count
  let di := { di with direct := Vector.ofFn fun k => if k < count then 0 else di.direct[k] }
  -- indirect1 block
  if dataBlocks > inodeDirectCount then do
    let v := v ++ [di.indirect1]
    let dataBlocks := dataBlocks - inodeDirectCount
    let entries ← withModify di.indirect1.toNat fun indirect1 =>
      pure ((List.range (min dataBlocks inodeIndirect1Count)).map (u32At indirect1), indirect1)
    let v := v ++ entries
    let di := { di with indirect1 := 0 }
    -- indirect2 block
    if dataBlocks > inodeIndirect1Count then do
      let v := v ++ [di.indirect2]
      let dataBlocks := dataBlocks - inodeIndirect1Count
      assert (dataBlocks ≤ inodeIndirect2Count)
      let a1 := dataBlocks / inodeIndirect1Count
      let b1 := dataBlocks % inodeIndirect1Count
      let entries ← withModify di.indirect2.toNat fun indirect2 => do
        -- full indirect1 blocks
        let full ← collectIndirect2 indirect2 a1 0
        -- last indirect1 block
        let last ←
          if b1 > 0 then do
            let entry := u32At indirect2 a1
            let part ← withModify entry.toNat fun indirect1 =>
              pure ((List.range b1).map (u32At indirect1), indirect1)
            pure (entry :: part)
          else
            pure []
        pure (full ++ last, indirect2)
      pure (v ++ entries, { di with indirect2 := 0 })
    else
      pure (v, di)
  else
    pure (v, di)

/-! ### Reading and writing -/

/-- Overwrite the bytes of a buffer from `off` on. -/
def bufSplice (buf : List UInt8) (off : Nat) (src : List UInt8) : List UInt8 :=
  buf.take off ++ src ++ buf.drop (off + src.length)

/-- The loop of `read_at`, from byte `pos` on up to byte `last`; `readSize` bytes of `buf` are
already filled. The first argument bounds the number of blocks still to visit. -/
def readLoop (di : DiskInode) (last : Nat) : Nat → Nat → Nat → List UInt8 →
    EfsM (Nat × List UInt8)
  | 0, _, _, _ => abort
  | n + 1, pos, readSize, buf => do
    let endCurrentBlock := min ((pos / blockSz + 1) * blockSz) last
    let blockReadSize := endCurrentBlock - pos
    let blockId ← di.getBlockId (pos / blockSz)
    let src ← withRead blockId.toNat fun b => pure (b.slice (pos % blockSz) blockReadSize)
    let buf := bufSplice buf readSize src
    let readSize := readSize + blockReadSize
    if endCurrentBlock = last then
      pure (readSize, buf)
    else
      readLoop di last n endCurrentBlock readSize buf

/-- `DiskInode::read_at`: the number of bytes read and the buffer it leaves. -/
def readAt (di : DiskInode) (offset : Nat) (buf : List UInt8) : EfsM (Nat × List UInt8) :=
  let last := min ((offset + buf.length) % 2 ^ 64) di.size.toNat
  if offset ≥ last then
    pure (0, buf)
  else
    readLoop di last (last / blockSz - offset / blockSz + 1) offset 0 buf

/-- The loop of `write_at`, from byte `start` on up to byte `last`; `writeSize` bytes of `buf` are
already written. The first argument bounds the number of blocks still to visit. -/
def writeLoop (di : DiskInode) (last : Nat) (buf : List UInt8) : Nat → Nat → Nat → EfsM Nat
  | 0, _, _ => abort
  | n + 1, start, writeSize => do
    let endCurrentBlock := min ((start / blockSz + 1) * blockSz) last
    let blockWriteSize := endCurrentBlock - start
    let blockId ← di.getBlockId (start / blockSz)
    withModify blockId.toNat fun b =>
      pure ((), b.splice (start % blockSz) ((buf.drop writeSize).take blockWriteSize))
    let writeSize := writeSize + blockWriteSize
    if endCurrentBlock = last then
      pure writeSize
    else
      writeLoop di last buf n endCurrentBlock writeSize

/-- `DiskInode::write_at`: the number of bytes written. -/
def writeAt (di : DiskInode) (offset : Nat) (buf : List UInt8) : EfsM Nat := do
  let last := min ((offset + buf.length) % 2 ^ 64) di.size.toNat
  assert (offset ≤ last)
  writeLoop di last buf (last / blockSz - offset / blockSz + 1) offset 0

end DiskInode

/-! ## The directory entry -/

/-- The bytes of a name. -/
def nameBytes (name : String) : List UInt8 := name.toByteArray.data.toList

/-- `DirEntry`. -/
structure DirEntry where
  name : Vector UInt8 (nameLengthLimit + 1)
  inodeNumber : UInt32
deriving DecidableEq, Repr

namespace DirEntry

/-- `DirEntry::new_zeros`. -/
def newZeros : DirEntry where
  name := Vector.replicate (nameLengthLimit + 1) 0
  inodeNumber := 0

/-- `DirEntry::new`, which panics on a name that does not fit. -/
def new (name : String) (inodeNumber : UInt32) : EfsM DirEntry := do
  assert ((nameBytes name).length ≤ nameLengthLimit + 1)
  pure { name := Vector.ofFn fun k => (nameBytes name).getD k 0, inodeNumber }

/-- `DirEntry::as_bytes`. -/
def asBytes (e : DirEntry) : List UInt8 := e.name.toList ++ leEncode 4 e.inodeNumber.toNat

/-- The entry whose bytes are read into `as_bytes_mut`. -/
def ofBytes (bs : List UInt8) : DirEntry where
  name := Vector.ofFn fun k => bs.getD k 0
  inodeNumber := UInt32.ofNat (leDecode ((bs.drop (nameLengthLimit + 1)).take 4))

/-- `DirEntry::name`: the bytes before the first NUL, `none` where the source panics because there
is no NUL or the bytes are not UTF-8. -/
def getName (e : DirEntry) : Option String :=
  match e.name.toList.findIdx? (· = 0) with
  | some len => String.fromUTF8? ⟨(e.name.toList.take len).toArray⟩
  | none => none

end DirEntry

end RCore.EasyFs
