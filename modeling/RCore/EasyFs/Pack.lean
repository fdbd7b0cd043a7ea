import RCore.EasyFs.Vfs

/-!
# The packer

`easy_fs_pack` of `easy-fs-fuse/src/main.rs`, which makes the disk image with the programs. The names in the source
directory and the files of the host are arguments, and the blocks of the image file are the store.
-/

namespace RCore.EasyFs

open RCore Prog

/-- `TOTAL_BLOCKS` -/
def Pack.totalBlocks : Nat := 0x4000

end RCore.EasyFs
