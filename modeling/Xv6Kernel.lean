import Xv6Kernel.Lib.Machine
import Xv6Kernel.Lib.Chain
import Xv6Kernel.Lib.Except
import Xv6Kernel.Lib.Bytes
import Xv6Kernel.Lib.Radix
import Xv6Kernel.Proc.State
import Xv6Kernel.Proc.Vm
import Xv6Kernel.Proc.Mlfq
import Xv6Kernel.Proc.Switch
import Xv6Kernel.Proc.Process
import Xv6Kernel.Proc.Thread
import Xv6Kernel.Proc.Step
import Xv6Kernel.Proc.Counts
import Xv6Kernel.Proc.LwpSafety
import Xv6Kernel.Proc.Groups
import Xv6Kernel.Proc.Stride
import Xv6Kernel.Proc.Scheduling
import Xv6Kernel.Proc.AddressSpace
import Xv6Kernel.Fs.Layout
import Xv6Kernel.Fs.Alloc
import Xv6Kernel.Fs.Inode
import Xv6Kernel.Fs.Tree
import Xv6Kernel.Fs.Bmap
import Xv6Kernel.Fs.BlockMap
import Xv6Kernel.Fs.Free
import Xv6Kernel.Fs.Write
import Xv6Kernel.Fs.Ownership
import Xv6Kernel.Fs.Content
import Xv6Kernel.Fs.FileStore
import Xv6Kernel.Fs.Refinement
import Xv6Kernel.Lib.Refinement
import Xv6Kernel.Lib.Interleaving
import Xv6Kernel.Lib.LockOrder
import Xv6Kernel.Lib.DiskWrites
import Xv6Kernel.Fs.Log
import Xv6Kernel.Proc.SlotClaim
import Xv6Kernel.Sync.Semaphore
import Xv6Kernel.Sync.RwLock
import Xv6Kernel.Proc.FileRefs
import Xv6Kernel.Sync.Spinlock
import Xv6Kernel.Sync.UserLock
import Xv6Kernel.Sync.Sleeplock
import Xv6Kernel.Proc.SyscallArgs
import Xv6Kernel.Fs.Links
import Xv6Kernel.Fs.LinkTree
import Xv6Kernel.Fs.PosIO
import Xv6Kernel.Fs.Mkfs
import Xv6Kernel.Fs.BmapIndex
import Xv6Kernel.Proc.ThreadRing
import Xv6Kernel.Fs.Path
import Xv6Kernel.Lib.Ring
import Xv6Kernel.Sync.Pipe
import Xv6Kernel.Fs.Bcache
import Xv6Kernel.Fs.LogOps
import Xv6Kernel.Dev.Console
import Xv6Kernel.User.Umalloc
import Xv6Kernel.Mem.Kalloc
import Xv6Kernel.Dev.Ide
import Xv6Kernel.User.Grep
import Xv6Kernel.Proc.ExecArgs
