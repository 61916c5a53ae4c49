import TinyOs.Basic
import TinyOs.Lib.Extent
import TinyOs.Lib.Count
import TinyOs.Lib.Buckets
import TinyOs.Lib.DLink
import TinyOs.Kernel.List
import TinyOs.Kernel.ListPtr
import TinyOs.Kernel.ListRefine
import TinyOs.Vm.Swap
import TinyOs.Vm.State
import TinyOs.Vm.Frame
import TinyOs.Vm.Machine
import TinyOs.Vm.Hand
import TinyOs.Vm.UserMemory
import TinyOs.Vm.View
import TinyOs.Vm.TableInv
import TinyOs.Vm.Agree
import TinyOs.Vm.SwapAccount
import TinyOs.Userprog.SyscallArgs
import TinyOs.Userprog.Fd
import TinyOs.Threads.Malloc
import TinyOs.Threads.Exit
import TinyOs.Vm.Locks
import TinyOs.Threads.Sched
import TinyOs.Threads.SchedInv
import TinyOs.Threads.SemaInv
import TinyOs.Kernel.Hash
import TinyOs.Kernel.HashSpec
import TinyOs.Kernel.HashInv
import TinyOs.Kernel.Bitmap
import TinyOs.Filesys.Inode
import TinyOs.Filesys.InodeInv
import TinyOs.Filesys.Directory
import TinyOs.Filesys.DirSpec
import TinyOs.Filesys.DirMap
import TinyOs.Filesys.Create
import TinyOs.Filesys.FilesysInv
import TinyOs.Filesys.FileHeap
import TinyOs.Userprog.Process
import TinyOs.Filesys.Open
import TinyOs.Userprog.Mmap
import TinyOs.Userprog.ProcessInv
import TinyOs.Userprog.Exec
import TinyOs.Arithmetic
import TinyOs.Kernel.BitmapElems
import TinyOs.Kernel.BitmapAlloc
import TinyOs.Userprog.Args
import TinyOs.Vm.Clock
import TinyOs.Lib.BitField
import TinyOs.Userprog.Pagedir
import TinyOs.Userprog.PagedirInv
import TinyOs.Filesys.InodeData
import TinyOs.Userprog.Load
import TinyOs.Vm.Munmap
import TinyOs.Lib.Runs
import TinyOs.Kernel.ListOps
import TinyOs.Kernel.ListSort
import TinyOs.Kernel.HashIter
import TinyOs.Libc.String
import TinyOs.Libc.Stdio
import TinyOs.Lib.HeapOrder
import TinyOs.Libc.Stdlib
import TinyOs.Lib.Ring
import TinyOs.Devices.Intq
import TinyOs.Devices.IntqWait
import TinyOs.Devices.Serial
import TinyOs.Devices.SerialInv
import TinyOs.Devices.Vga
import TinyOs.Devices.VgaPage
import TinyOs.Kernel.Console
import TinyOs.Libc.Random
import TinyOs.Devices.Timer
import TinyOs.Threads.Palloc
import TinyOs.Kernel.ListOrdered
import TinyOs.Devices.Kbd
import TinyOs.Threads.Init
import TinyOs.Filesys.FreeMapFile
