import QuackOS.Lib.Run
import QuackOS.Lib.Slots
import QuackOS.Lib.Generations
import QuackOS.Lib.Ring
import QuackOS.Lib.RingRemoval
import QuackOS.Lib.RingHoles
import QuackOS.Lib.Semaphore
import QuackOS.Lib.SortedQueue
import QuackOS.Lib.References
import QuackOS.Lib.Bytes
import QuackOS.Cap.Basic
import QuackOS.Cap.Derive
import QuackOS.Cap.DeriveTree
import QuackOS.Cap.Rights
import QuackOS.Cap.CSpace
import QuackOS.Cap.Revocation
import QuackOS.Cap.Lookup
import QuackOS.Cap.Syscalls
import QuackOS.Cap.Atomicity
import QuackOS.Sche.Thread
import QuackOS.Sche.Generation
import QuackOS.Sche.Queue
import QuackOS.Sche.Fifo
import QuackOS.Sche.Removal
import QuackOS.Sche.Context
import QuackOS.Sche.Invariant
import QuackOS.Sche.Lifecycle
import QuackOS.Sche.Priority
import QuackOS.Sche.Reaping
import QuackOS.Proc.Table
import QuackOS.Proc.Server
import QuackOS.Proc.Lifecycle
import QuackOS.Proc.Ids
import QuackOS.Proc.ThreadList
import QuackOS.Trap.Context
import QuackOS.Trap.Privilege
import QuackOS.Trap.Reflection
import QuackOS.Ipc.Message
import QuackOS.Ipc.Channel
import QuackOS.Ipc.WaitQueue
import QuackOS.Trap.Errno
import QuackOS.Ipc.Codec
import QuackOS.Ipc.Notify
import QuackOS.Ipc.Rendezvous
import QuackOS.Ipc.Kernel
import QuackOS.Ipc.Timer
import QuackOS.Ipc.Waiting
import QuackOS.Ipc.Runs
import QuackOS.Ipc.Delivery
import QuackOS.Fs.Rpc
import QuackOS.Fs.Routing
import QuackOS.Lib.Slice
import QuackOS.Lib.Store
import QuackOS.Fs.Wire
import QuackOS.Fs.Client
import QuackOS.Fs.Writes
import QuackOS.Fs.Server
import QuackOS.Fs.Isolation
import QuackOS.Lib.Buffer
import QuackOS.Lib.Records
import QuackOS.Ext4.Bitmap
import QuackOS.Ext4.BitmapRuns
import QuackOS.Ext4.Extent
import QuackOS.Ext4.Alloc
import QuackOS.Ext4.Volume
import QuackOS.Ext4.Accounting
import QuackOS.Ext4.Inode
import QuackOS.Lib.Crc
import QuackOS.Ext4.Checksum
import QuackOS.Ext4.Crc32c
import QuackOS.Ext4.Dir
import QuackOS.Ext4.InodeDisk
import QuackOS.Ext4.InodeTable
import QuackOS.Ext4.Pages
import QuackOS.Ext4.Names
import QuackOS.Ext4.DirRecords
import QuackOS.Ext4.DirEdits
import QuackOS.Ext4.DirCodec
import QuackOS.Lib.Fuel
import QuackOS.Ext4.DirScans
import QuackOS.Ext4.DirUpdates
import QuackOS.Ext4.DirFiles
import QuackOS.Ext4.DirGrowth
import QuackOS.Ext4.DirChecksum
import QuackOS.Fs.Mount
import QuackOS.Fs.MountRuns
import QuackOS.Fs.MountInvariant
import QuackOS.Fs.References
import QuackOS.Fs.Coherence
import QuackOS.Fs.Listing
import QuackOS.Fs.Dirents
import QuackOS.Ext4.Owns
import QuackOS.Fs.Unlink
import QuackOS.Fs.Backing
import QuackOS.Ext4.Ownership
import QuackOS.Lib.Intervals
import QuackOS.Ext4.ExtentMap
import QuackOS.Lib.Simulation
import QuackOS.Lib.Contents
import QuackOS.Ext4.Contents
import QuackOS.Ext4.FileWrites
import QuackOS.Ext4.FileResizes
import QuackOS.Ext4.WriteBack
import QuackOS.Ext4.FileStore
import QuackOS.Ext4.Residents
import QuackOS.Fs.Image
import QuackOS.Fs.Mirror
import QuackOS.Fs.ImageServer
import QuackOS.Lib.Radix
import QuackOS.Mm.Frames
import QuackOS.Mm.Pool
import QuackOS.Mm.Pte
import QuackOS.Mm.PageTable
import QuackOS.Mm.AddressSpaces
import QuackOS.Mm.Walk
import QuackOS.Mm.Kernel
import QuackOS.Mm.Mapping
import QuackOS.Mm.Lookup
import QuackOS.Mm.Syscalls
import QuackOS.Mm.Calls
import QuackOS.Mm.Leaves
import QuackOS.Mm.Clone
import QuackOS.Mm.Unmapping
import QuackOS.Mm.Shortage
import QuackOS.Mm.Grant
import QuackOS.Mm.Bulk
import QuackOS.Mm.Conservation
import QuackOS.Linux.FdTable
import QuackOS.Linux.Task
import QuackOS.Linux.Files
import QuackOS.Lib.Cursor
import QuackOS.Lib.LineEdit
import QuackOS.Linux.Console
import QuackOS.Linux.CanonicalRead
import QuackOS.Lib.Paths
import QuackOS.Linux.Chdir
import QuackOS.Linux.Duplication
import QuackOS.Linux.Pipes
import QuackOS.Lib.Gather
import QuackOS.Linux.Writev
import QuackOS.Linux.PipeFifo
import QuackOS.Linux.Handles
import QuackOS.Linux.Children
import QuackOS.Linux.Exec
import QuackOS.Linux.InitialStack
import QuackOS.Linux.Memory
import QuackOS.Linux.Heap
import QuackOS.Linux.Placement
import QuackOS.Linux.MmapFailure
import QuackOS.Vm.Vma
import QuackOS.Vm.VmaTable
import QuackOS.Lib.Bisect
import QuackOS.Vm.VmaEdits
import QuackOS.Vm.VmaLookup
import QuackOS.Vm.VmaInvariant
import QuackOS.Vm.VmaMap
import QuackOS.Vm.VmaFailure
import QuackOS.Vm.Server
import QuackOS.Vm.Brk
import QuackOS.Vm.Layout
import QuackOS.Vm.PageFault
import QuackOS.Vm.Filled
import QuackOS.Vm.Prefault
import QuackOS.Lib.Links
import QuackOS.Lib.Tiling
import QuackOS.Vm.Buddy
import QuackOS.Vm.BuddyPacking
import QuackOS.Vm.BuddyTiling
import QuackOS.Vm.Allocator
import QuackOS.Vm.PageCache
import QuackOS.Lib.Fallible
import QuackOS.Elf.Loader
import QuackOS.Elf.Pages
import QuackOS.Elf.Plan
import QuackOS.Elf.Safety
import QuackOS.Elf.Image
import QuackOS.Elf.Contents
