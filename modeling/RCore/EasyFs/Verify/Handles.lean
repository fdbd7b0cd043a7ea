import RCore.EasyFs.Verify.Cached
import RCore.EasyFs.Vfs

/-!
# How many handles the routines hold

No routine of the file system holds more than three handles at a time: one on the block of a disk
inode, and under it one on an index block and one on the block behind it, or one on a block of a
bitmap or of data. Lookups store nothing. `Nests` lemmas below follow the code, routine by routine.
-/

namespace RCore.EasyFs

open RCore Prog

variable {w : Bool} {n : Nat}

namespace Nests

theorem assert {c : Prop} [Decidable c] : Nests w n (Prog.assert c : EfsM Unit) := by
  unfold Prog.assert
  split
  · exact .ret ()
  · exact .abort

theorem unwrap {α : Type} (o : Option α) : Nests w n (Prog.unwrap o : EfsM α) := by
  cases o with
  | some a => exact .ret a
  | none => exact .abort

end Nests

/-! ## Bitmaps -/

namespace Bitmap

theorem allocFrom_nests (bm : Bitmap) (k blockId : Nat) : Nests true (n + 1) (bm.allocFrom k blockId) := by
  induction k generalizing blockId with
  | zero => exact .ret none
  | succ k ih =>
    refine .bind (.modify _ fun b => .ret _) ?_
    rintro (_ | p)
    · exact ih (blockId + 1)
    · exact .ret _

theorem alloc_nests (bm : Bitmap) : Nests true (n + 1) bm.alloc := bm.allocFrom_nests bm.blocks 0

theorem dealloc_nests (bm : Bitmap) (bit : Nat) : Nests true (n + 1) (bm.dealloc bit) :=
  .modify _ fun _ => .bind .assert fun _ => .ret _

end Bitmap

/-! ## Disk inodes -/

namespace DiskInode

theorem getBlockId_nests (di : DiskInode) (innerId : Nat) : Nests w (n + 1) (di.getBlockId innerId) := by
  unfold getBlockId
  split
  · exact .ret _
  · split
    · exact .read _ fun _ => .ret _
    · split
      · exact .bind (.read _ fun _ => .ret _) fun _ => .read _ fun _ => .ret _
      · exact .abort

theorem blocksNumNeeded_nests (di : DiskInode) (newSize : UInt32) :
    Nests w n (di.blocksNumNeeded newSize) :=
  .bind .assert fun _ => .ret _

theorem next_nests (bs : List UInt32) : Nests w n (next bs) := by
  cases bs with
  | nil => exact .abort
  | cons b bs => exact .ret _

theorem fillDirect_nests (k current : Nat) (di : DiskInode) (bs : List UInt32) :
    Nests w n (fillDirect k current di bs) := by
  induction k generalizing current di bs with
  | zero => exact .ret _
  | succ k ih => exact .bind (next_nests bs) fun r => ih _ _ _

theorem fillIndirect1_nests (k current : Nat) (b : Block) (bs : List UInt32) :
    Nests w n (fillIndirect1 k current b bs) := by
  induction k generalizing current b bs with
  | zero => exact .ret _
  | succ k ih => exact .bind (next_nests bs) fun r => ih _ _ _

theorem fillIndirect2_nests (k a0 b0 : Nat) (b : Block) (bs : List UInt32) :
    Nests true (n + 1) (fillIndirect2 k a0 b0 b bs) := by
  induction k generalizing a0 b0 b bs with
  | zero => exact .ret _
  | succ k ih =>
    refine .bind .assert fun _ => ?_
    extract_lets rest
    have hrest : ∀ r, Nests true (n + 1) (rest r) := by
      intro r
      refine .bind (.modify _ fun _ => .bind (next_nests _) fun _ => .ret _) fun bs => ?_
      split
      · exact ih _ _ _ _
      · exact ih _ _ _ _
    split
    · exact .bind (next_nests bs) fun _ => .bind (.ret _) hrest
    · exact .bind (.ret _) hrest

theorem growIndirect2_nests (di : DiskInode) (current total : Nat) (bs : List UInt32) :
    Nests true (n + 2) (di.growIndirect2 current total bs) := by
  unfold growIndirect2
  extract_lets current' total' rest
  have hrest : ∀ r, Nests true (n + 2) (rest r) := fun _ =>
    .bind (.modify _ fun _ => fillIndirect2_nests _ _ _ _ _) fun _ => .ret _
  split
  · exact .bind (next_nests bs) fun _ => .bind (.ret _) hrest
  · exact .bind (.ret _) hrest

theorem growIndirect1_nests (di : DiskInode) (current total : Nat) (bs : List UInt32) :
    Nests true (n + 2) (di.growIndirect1 current total bs) := by
  unfold growIndirect1
  extract_lets current' total' current'' rest
  have hrest : ∀ r, Nests true (n + 2) (rest r) := by
    intro r
    refine .bind (.modify _ fun _ => fillIndirect1_nests _ _ _ _) fun bs => ?_
    split
    · exact growIndirect2_nests _ _ _ _
    · exact .ret _
  split
  · exact .bind (next_nests bs) fun _ => .bind (.ret _) hrest
  · exact .bind (.ret _) hrest

theorem increaseSize_nests (di : DiskInode) (newSize : UInt32) (bs : List UInt32) :
    Nests true (n + 2) (di.increaseSize newSize bs) := by
  refine .bind (fillDirect_nests _ _ _ _) fun r => ?_
  simp only
  split
  · exact growIndirect1_nests _ _ _ _
  · exact .ret _

theorem collectIndirect2_nests (b : Block) (k a : Nat) :
    Nests true (n + 1) (collectIndirect2 b k a) := by
  induction k generalizing a with
  | zero => exact .ret _
  | succ k ih => exact .bind (.modify _ fun _ => .ret _) fun _ => .bind (ih _) fun _ => .ret _

theorem clearSize_nests (di : DiskInode) : Nests true (n + 2) di.clearSize := by
  unfold clearSize
  extract_lets
  split
  · refine .bind (.modify _ fun _ => .ret _) fun _ => ?_
    extract_lets
    split
    · refine .bind .assert fun _ => .bind (.modify _ fun indirect2 => ?_) fun _ => .ret _
      refine .bind (collectIndirect2_nests _ _ _) fun full => ?_
      extract_lets rest entry
      split
      · exact .bind (.modify _ fun _ => .ret _) fun _ => .bind (.ret _) fun _ => .ret _
      · exact .bind (.ret _) fun _ => .ret _
    · exact .ret _
  · exact .ret _

theorem readLoop_nests (di : DiskInode) (last k pos readSize : Nat) (buf : List UInt8) :
    Nests w (n + 1) (di.readLoop last k pos readSize buf) := by
  induction k generalizing pos readSize buf with
  | zero => exact .abort
  | succ k ih =>
    refine .bind (getBlockId_nests _ _) fun _ => .bind (.read _ fun _ => .ret _) fun _ => ?_
    split
    · exact .ret _
    · exact ih _ _ _

theorem readAt_nests (di : DiskInode) (offset : Nat) (buf : List UInt8) :
    Nests w (n + 1) (di.readAt offset buf) := by
  unfold readAt
  simp only
  split
  · exact .ret _
  · exact readLoop_nests _ _ _ _ _ _

theorem writeLoop_nests (di : DiskInode) (last : Nat) (buf : List UInt8) (k start writeSize : Nat) :
    Nests true (n + 1) (di.writeLoop last buf k start writeSize) := by
  induction k generalizing start writeSize with
  | zero => exact .abort
  | succ k ih =>
    refine .bind (getBlockId_nests _ _) fun _ => .bind (.modify _ fun _ => .ret _) fun _ => ?_
    split
    · exact .ret _
    · exact ih _ _

theorem writeAt_nests (di : DiskInode) (offset : Nat) (buf : List UInt8) :
    Nests true (n + 1) (di.writeAt offset buf) :=
  .bind .assert fun _ => writeLoop_nests _ _ _ _ _ _

end DiskInode

theorem DirEntry.new_nests (name : String) (inodeNumber : UInt32) :
    Nests w n (DirEntry.new name inodeNumber) :=
  .bind .assert fun _ => .ret _

/-! ## The file system -/

namespace EasyFileSystem

variable (fs : EasyFileSystem)

theorem allocInode_nests : Nests true (n + 1) fs.allocInode :=
  .bind (Bitmap.alloc_nests _) fun bit => .bind (.unwrap bit) fun _ => .ret _

theorem allocData_nests : Nests true (n + 1) fs.allocData :=
  .bind (Bitmap.alloc_nests _) fun bit => .bind (.unwrap bit) fun _ => .ret _

theorem deallocData_nests (b : UInt32) : Nests true (n + 1) (fs.deallocData b) :=
  .bind (.modify _ fun _ => .ret _) fun _ => Bitmap.dealloc_nests _ _

theorem clearBlocks_nests (k i : Nat) : Nests true (n + 1) (clearBlocks k i) := by
  induction k generalizing i with
  | zero => exact .ret _
  | succ k ih => exact .bind (.modify _ fun _ => .ret _) fun _ => ih _

end EasyFileSystem

/-! ## Inodes -/

namespace Inode

variable (ino : Inode) (fs : EasyFileSystem)

theorem readDiskInode_nests {α : Type} {f : DiskInode → EfsM α} (hf : ∀ di, Nests w n (f di)) :
    Nests w (n + 1) (ino.readDiskInode f) :=
  .read _ fun _ => .bind .assert fun _ => hf _

theorem modifyDiskInode_nests {α : Type} {f : DiskInode → EfsM (α × DiskInode)}
    (hf : ∀ di, Nests true n (f di)) : Nests true (n + 1) (ino.modifyDiskInode f) :=
  .modify _ fun _ => .bind .assert fun _ => .bind (hf _) fun _ => .ret _

theorem readDirent_nests (di : DiskInode) (i : Nat) (buf : List UInt8) :
    Nests w (n + 1) (readDirent di i buf) :=
  .bind (DiskInode.readAt_nests _ _ _) fun _ => .bind .assert fun _ => .ret _

theorem findLoop_nests (name : String) (di : DiskInode) (k i : Nat) (buf : List UInt8) :
    Nests w (n + 1) (findLoop name di k i buf) := by
  induction k generalizing i buf with
  | zero => exact .ret _
  | succ k ih =>
    refine .bind (readDirent_nests _ _ _) fun _ => .bind (.unwrap _) fun _ => ?_
    split
    · exact .ret _
    · exact ih _ _

theorem findInodeId_nests (name : String) (di : DiskInode) :
    Nests w (n + 1) (findInodeId name di) :=
  .bind .assert fun _ => findLoop_nests _ _ _ _ _

/-- The lookup at the start of the calls on the directory. -/
theorem lookup_nests (name : String) : Nests w (n + 2) (ino.readDiskInode fun di => do
    Prog.assert (di.isDir = true)
    findInodeId name di) :=
  ino.readDiskInode_nests fun _ => .bind .assert fun _ => findInodeId_nests _ _

theorem find_nests (name : String) : Nests w (n + 2) (ino.find fs name) :=
  ino.readDiskInode_nests fun _ => .bind (findInodeId_nests _ _) fun _ => .ret _

theorem lsLoop_nests (di : DiskInode) (k i : Nat) : Nests w (n + 1) (lsLoop di k i) := by
  induction k generalizing i with
  | zero => exact .ret _
  | succ k ih =>
    exact .bind (readDirent_nests _ _ _) fun _ => .bind (.unwrap _) fun _ => .bind (ih _) fun _ =>
      .ret _

theorem ls_nests : Nests w (n + 2) ino.ls := ino.readDiskInode_nests fun _ => lsLoop_nests _ _ _

theorem readAt_nests (offset : Nat) (buf : List UInt8) : Nests w (n + 2) (ino.readAt offset buf) :=
  ino.readDiskInode_nests fun _ => DiskInode.readAt_nests _ _ _

theorem allocBlocks_nests (k : Nat) : Nests true (n + 1) (allocBlocks fs k) := by
  induction k with
  | zero => exact .ret _
  | succ k ih => exact .bind fs.allocData_nests fun _ => .bind ih fun _ => .ret _

theorem increaseSize_nests (newSize : UInt32) (di : DiskInode) :
    Nests true (n + 2) (increaseSize fs newSize di) := by
  unfold increaseSize
  split
  · exact .ret _
  · exact .bind (DiskInode.blocksNumNeeded_nests _ _) fun _ => .bind (allocBlocks_nests _ _) fun _ =>
      DiskInode.increaseSize_nests _ _ _

theorem appendDirent_nests {dirent : EfsM DirEntry} (hd : Nests true (n + 2) dirent)
    (di : DiskInode) : Nests true (n + 2) (appendDirent fs dirent di) :=
  .bind (increaseSize_nests _ _ _) fun _ => .bind hd fun _ => .bind (DiskInode.writeAt_nests _ _ _)
    fun _ => .ret _

theorem deallocBlocks_nests (bs : List UInt32) : Nests true (n + 1) (deallocBlocks fs bs) := by
  induction bs with
  | nil => exact .ret _
  | cons b bs ih => exact .bind (fs.deallocData_nests b) fun _ => ih

end Inode

end RCore.EasyFs
