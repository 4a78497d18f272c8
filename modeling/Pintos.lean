import Pintos.Lib.Runs
import Pintos.Lib.Tokens
import Pintos.Lib.Ops
import Pintos.Lib.Walks
import Pintos.Filesys.Path
import Pintos.Filesys.DentryCache
import Pintos.Filesys.CacheTransparency
import Pintos.Filesys.AddEntry
import Pintos.Filesys.Coherence
import Pintos.Lib.WriteBack
import Pintos.Filesys.BcacheRefinement
import Pintos.Filesys.BcacheConcurrent
import Pintos.Kernel.Bitmap
import Pintos.Lib.Ownership
import Pintos.Lib.Table
import Pintos.Userprog.Lifecycle
import Pintos.Userprog.Lifetimes
import Pintos.Userprog.StaleVpages
import Pintos.Vm.Content
import Pintos.Vm.FrameOwnership
import Pintos.Vm.Invisible
import Pintos.Lib.Raising
import Pintos.Threads.Donation
import Pintos.Threads.DonationGraph
import Pintos.Threads.EffectivePriority
import Pintos.Threads.PriorityInversion
import Pintos.Threads.DonationWalk
import Pintos.Threads.CondSignal
import Pintos.Threads.MlfqsBounds
import Pintos.Lib.Slabs
import Pintos.Threads.MallocSizes
import Pintos.Threads.Palloc
import Pintos.Threads.Preemption
import Pintos.Userprog.InfoLifetime
import Pintos.Userprog.UserPages
import Pintos.Userprog.MmapRelease
import Pintos.Userprog.UserPointers
import Pintos.Filesys.Serialize
import Pintos.Filesys.Canonicalize
import Pintos.Filesys.DirLock
import Pintos.Lib.Overlay
import Pintos.Filesys.Sector
import Pintos.Filesys.InodeLayout
import Pintos.Filesys.InodeIo
import Pintos.Filesys.InodeCreate
import Pintos.Filesys.InodeExpand
import Pintos.Filesys.InodeReadWrite
import Pintos.Filesys.InodeGrow
import Pintos.Filesys.InodeGrowHuge
import Pintos.Filesys.InodeLimit
import Pintos.Vm.SwapSlots
import Pintos.Vm.PageIn
import Pintos.Userprog.MmapAtomic
import Pintos.Userprog.StackGrowth
import Pintos.Userprog.MmapRefs
import Pintos.Userprog.MappedAccess
import Pintos.Userprog.MappedPages
import Pintos.Userprog.MappedTail
import Pintos.Lib.Words
import Pintos.Kernel.BitmapGroups
import Pintos.Kernel.BitmapScan
import Pintos.Filesys.FreeMapFile
import Pintos.Filesys.Granting
import Pintos.Filesys.InodeMoves
import Pintos.Filesys.Volumes
import Pintos.Filesys.Owning
import Pintos.Lib.ListFile
import Pintos.Filesys.VolumeStore
import Pintos.Filesys.DirMap
import Pintos.Filesys.DenyWrite
import Pintos.Threads.RoundRobin
import Pintos.Userprog.Descriptors
import Pintos.Userprog.FilePosition
import Pintos.Userprog.CopyBounds
import Pintos.Userprog.KilledProcess
import Pintos.Userprog.Arguments
import Pintos.Userprog.Segment
import Pintos.Userprog.Loader
import Pintos.Userprog.ExecName
import Pintos.Userprog.ExecRefs
import Pintos.Kernel.Arithmetic
import Pintos.Kernel.ListSort
import Pintos.Kernel.SortArray
import Pintos.Kernel.UstarChecksum
import Pintos.Kernel.HashIteration
import Pintos.Kernel.Strtok
import Pintos.Kernel.FormatInteger
import Pintos.Devices.Intq
import Pintos.Devices.Partition
import Pintos.Userprog.PageDirectory
import Pintos.Kernel.Console
import Pintos.Devices.Serial
import Pintos.Lib.Scrolling
import Pintos.Devices.Vga
import Pintos.Kernel.ListOps
import Pintos.Kernel.ListFamily
import Pintos.Filesys.Fsutil
import Pintos.Userprog.Signals
