import RCore.Lib.Bits
import RCore.Lib.Prog
import RCore.EasyFs.Bitmap
import RCore.EasyFs.Layout
import RCore.EasyFs.Efs
import RCore.EasyFs.Vfs
import RCore.EasyFs.Verify.BlockTree
import RCore.EasyFs.Verify.FileIO
import RCore.EasyFs.Verify.Geometry
import RCore.EasyFs.Verify.Bitmap
import RCore.EasyFs.Verify.Alloc
import RCore.EasyFs.Verify.Owned
import RCore.EasyFs.Verify.FileRep
import RCore.EasyFs.Verify.Indexing
import RCore.EasyFs.Verify.Calls
import RCore.EasyFs.Verify.Contents
import RCore.EasyFs.Verify.Names
import RCore.EasyFs.Verify.Unlink
import RCore.EasyFs.Verify.Entries
import RCore.EasyFs.Verify.Touched
import RCore.Lib.Comp
import RCore.Lib.Ledger
import RCore.Lib.Mem
import RCore.Lib.Radix
import RCore.Lib.Riscv
import RCore.Mm.Address
import RCore.Mm.FrameAllocator
import RCore.Mm.PageTable
import RCore.Mm.Sv39
import RCore.Mm.Verify.Frames
import RCore.Mm.Verify.PageTable
import RCore.Mm.Verify.Mapping
import RCore.Mm.MemorySet
import RCore.Mm.Verify.Area
import RCore.Mm.Verify.Exhaustion
import RCore.Mm.Verify.PageMap
import RCore.Mm.Verify.Space
import RCore.Mm.Verify.Push
import RCore.Mm.Verify.Remove
import RCore.Mm.Verify.Fork
import RCore.EasyFs.BlockCache
import RCore.EasyFs.Verify.Cache
import RCore.EasyFs.Verify.Reopen
import RCore.EasyFs.Verify.Transparent
import RCore.EasyFs.Verify.Devices
import RCore.EasyFs.Verify.Cached
import RCore.EasyFs.Verify.Handles
import RCore.EasyFs.Verify.Durable
import RCore.EasyFs.Verify.Locks
import RCore.EasyFs.Verify.LockOrder
import RCore.Fs.Inode
import RCore.Fs.Verify.Inode
import RCore.Lib.PriorityQueue
import RCore.Task.Scheduler
import RCore.Task.Kernel
import RCore.Task.Process
import RCore.Task.Verify.Stride
import RCore.Task.Verify.Table
import RCore.Task.Verify.Tree
import RCore.Task.Verify.Moves
import RCore.Task.Verify.Steps
import RCore.Mm.Verify.Build
import RCore.Task.Verify.Boot
import RCore.Task.Verify.Scheduling
import RCore.Task.Verify.Waiting
import RCore.Mm.Verify.Spaces
import RCore.Mm.Verify.Estate
import RCore.Task.Verify.Memory
import RCore.Mm.Verify.Starved
import RCore.Mm.Verify.Ranges
import RCore.Task.Verify.MemorySteps
import RCore.Task.Verify.Spawn
import RCore.Task.Verify.Isolation
import RCore.Task.Verify.Children
import RCore.Task.Verify.Stacks
import RCore.Task.Verify.Lifetimes
import RCore.Fs.Pipe
import RCore.Lib.Ring
import RCore.Mm.Verify.Mmap
import RCore.Fs.Verify.Pipe
import RCore.Task.Trap
import RCore.Task.Verify.Pending
import RCore.Task.Verify.Traps
import RCore.Task.Verify.Handlers
import RCore.Task.Verify.Kill
import RCore.Fs.Descriptors
import RCore.Fs.Verify.Descriptors
import RCore.User.Program
import RCore.User.Shell
import RCore.User.Verify.Shell
import RCore.User.CommandLine
import RCore.User.Verify.CommandLine
import RCore.Lib.Guarded
import RCore.Task.Cells
import RCore.Task.Verify.Erasure
import RCore.Task.Verify.Cells
import RCore.Mm.Verify.Munmap
import RCore.Mm.Verify.Sv39
import RCore.Mm.Verify.Pointers
import RCore.Mm.Verify.Access
import RCore.Mm.Verify.Sections
import RCore.Task.Trampoline
import RCore.Task.Verify.Trampoline
import RCore.Task.Verify.Trapping
import RCore.Task.Switch
import RCore.Task.Verify.Switch
import RCore.Mm.UserMemory
import RCore.Mm.Verify.UserMemory
import RCore.Mm.Verify.Owners
import RCore.Drivers.VirtioBlk
import RCore.Drivers.Verify.VirtioBlk
import RCore.Mm.Verify.UserString
import RCore.Fs.Stdio
import RCore.Fs.Verify.Stdio
import RCore.Task.Verify.Masks
import RCore.Mm.Verify.Elf
import RCore.Mm.Verify.ElfData
import RCore.Lib.Strings
import RCore.Mm.Verify.UserStack
import RCore.Task.Exec
import RCore.User.Start
import RCore.Task.Verify.Exec
import RCore.User.Verify.Start
import RCore.User.Sleep
import RCore.User.Verify.Sleep
import RCore.Mm.Verify.UserStruct
import RCore.Task.Verify.Actions
import RCore.Task.Verify.Hidden
import RCore.Task.Verify.Caught
import RCore.Task.Verify.Reports
import RCore.Task.Verify.Sending
import RCore.Task.Verify.Follows
import RCore.Task.Verify.Hosted
import RCore.Task.Verify.Confinement
import RCore.Task.Verify.Preemption
import RCore.EasyFs.Pack
import RCore.EasyFs.Verify.Carried
import RCore.EasyFs.Verify.SuperBlock
import RCore.Fs.OpenFiles
import RCore.Fs.Unix
import RCore.Fs.Verify.Image
import RCore.Fs.Verify.Sharing
