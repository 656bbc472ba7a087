import Flopperating.Data.LinkedList
import Flopperating.Data.Transition
import Flopperating.Data.DyadicBlocks
import Flopperating.Data.LinearProbing
import Flopperating.Mem.PmmRuns
import Flopperating.Mem.PmmBootMemory
import Flopperating.Mem.PmmMulti
import Flopperating.Mem.PmmMultiRuns
import Flopperating.Mem.BoxHash
import Flopperating.Mem.Heap
import Flopperating.Data.Extent
import Flopperating.Data.ByteFile
import Flopperating.Mem.HeapInvariant
import Flopperating.Mem.HeapMoves
import Flopperating.Mem.HeapSpec
import Flopperating.Mem.HeapRuns
import Flopperating.Mem.HeapHeaders
import Flopperating.Data.TwoLevel
import Flopperating.Mem.PageTable
import Flopperating.Mem.Vmm
import Flopperating.Mem.VmmSpec
import Flopperating.Mem.VmmRegions
import Flopperating.Mem.VmmLoops
import Flopperating.Mem.VmmRefine
import Flopperating.Mem.VmmIsolation
import Flopperating.Data.DoublyLinked
import Flopperating.Mem.VmmClass
import Flopperating.Mem.VmmClassSpec
import Flopperating.Mem.VmmClassRuns
import Flopperating.Mem.VmmSearch
import Flopperating.Mem.VmmAllOrNothing
import Flopperating.Mem.VmmApart
import Flopperating.Mem.VmmRegionRuns
import Flopperating.Mem.VmmNuke
import Flopperating.Mem.VmmUser
import Flopperating.Mem.VmmCopy
import Flopperating.Mem.VmmLeak
import Flopperating.Sys.Memory
import Flopperating.Sys.MemoryLoops
import Flopperating.Sys.MemoryGrow
import Flopperating.Sys.MemoryConfined
import Flopperating.Sys.MemoryFrames
import Flopperating.Sys.MemoryLive
import Flopperating.Fs.Tmpfs
import Flopperating.Fs.TmpfsSpec
import Flopperating.Lib.Str
import Flopperating.Fs.Vfs
import Flopperating.Fs.VfsInvariant
import Flopperating.Fs.VfsMounts
import Flopperating.Fs.VfsRuns
import Flopperating.Fs.VfsHeap
import Flopperating.Fs.TmpfsTruncate
import Flopperating.Fs.TmpfsNodes
import Flopperating.Task.Pipe
import Flopperating.Task.PipeFifo
import Flopperating.Task.PipeRefs
import Flopperating.Data.NameTree
import Flopperating.Fs.TmpfsTree
import Flopperating.Fs.TmpfsTreeInv
import Flopperating.Fs.TmpfsCreate
import Flopperating.Fs.TmpfsRename
import Flopperating.Fs.TmpfsTreeRuns
import Flopperating.Fs.TmpfsHandles
import Flopperating.Sys.Files
import Flopperating.Task.ProcessSpec
import Flopperating.Task.ForkCounts
import Flopperating.Mem.VmmCopyFails
import Flopperating.Task.ForkFails
import Flopperating.Data.RefCount
import Flopperating.Sys.FileHolders
import Flopperating.Sys.FileRuns
import Flopperating.Sys.FdTable
import Flopperating.Task.Signal
import Flopperating.Task.SignalSpec
import Flopperating.Task.Sched
import Flopperating.Task.Mutex
import Flopperating.Task.SchedSpec
import Flopperating.Task.SchedSpace
import Flopperating.Task.ThreadOps
import Flopperating.Task.SchedSleep
import Flopperating.Task.SchedWaiting
import Flopperating.Task.ThreadCalls
import Flopperating.Task.Registry
import Flopperating.Task.RegistrySpec
import Flopperating.Data.TracedMemory
import Flopperating.Sys.UserPointers
import Flopperating.Sys.UserConfined
import Flopperating.Sys.Dispatch
import Flopperating.Sys.DispatchSpec
import Flopperating.Task.MutexHandOver
import Flopperating.Task.Pushlock
import Flopperating.Task.PushlockWaiting
import Flopperating.Task.Turnstile
import Flopperating.Task.TurnstileApart
import Flopperating.Task.PriorityInheritance
import Flopperating.Task.Spinlock
import Flopperating.Mem.Paging
import Flopperating.Data.Tiling
import Flopperating.Mem.Early
import Flopperating.Mem.EarlySpec
import Flopperating.Mem.EarlyRuns
import Flopperating.Mem.Pager
import Flopperating.Mem.PagerConfined
import Flopperating.Mem.PagerPages
import Flopperating.Mem.PagerRuns
import Flopperating.Sys.OpenClose
import Flopperating.Data.FifoServer
import Flopperating.Drivers.Ata
import Flopperating.Drivers.AtaQueue
import Flopperating.Mem.PmmMergeBounds
import Flopperating.Mem.HeapPages
import Flopperating.Mem.HeapBoxes
import Flopperating.Mem.HeapServe
import Flopperating.Mem.HeapCovers
import Flopperating.Data.FirstFit
import Flopperating.Mem.VmmFit
import Flopperating.Sys.MunmapExact
import Flopperating.Data.BoundedBuffer
import Flopperating.Lib.Printf
import Flopperating.Data.Numeral
import Flopperating.Lib.PrintfSpec
import Flopperating.Lib.PrintfWithin
import Flopperating.Lib.PrintfC
import Flopperating.Mem.VmmCheck
import Flopperating.Mem.VmmStrncpy
import Flopperating.Mem.VmmShuffle
import Flopperating.Data.RunSearch
import Flopperating.Mem.VmmFreeRange
import Flopperating.Mem.VmmFindAligned
import Flopperating.Task.PipePeer
import Flopperating.Task.Waitpid
import Flopperating.Fs.TmpfsWorld
import Flopperating.Sys.CopyRange
import Flopperating.Fs.PathBuffers
import Flopperating.Fs.VfsPaths
import Flopperating.Drivers.AtaRegisters
import Flopperating.Lib.Refcount
import Flopperating.Task.SchedSelect
import Flopperating.Task.SchedTick
import Flopperating.Task.SchedBoost
import Flopperating.Task.TurnstileOrder
import Flopperating.Mem.EarlyBoot
import Flopperating.Task.ProcessMemory
import Flopperating.Mem.VmmScatter
import Flopperating.Fs.DirectoryLists
import Flopperating.Fs.ListingOwners
import Flopperating.Lib.StrCopy
import Flopperating.Lib.Atoi
import Flopperating.Mem.Memmove
import Flopperating.Data.Fields
import Flopperating.Lib.StrSplit
import Flopperating.Lib.StrReplace
import Flopperating.Lib.StrTok
import Flopperating.Drivers.Framebuffer
import Flopperating.Task.ThreadQueue
import Flopperating.Drivers.Acpi
import Flopperating.Data.ColoredText
import Flopperating.Data.Latch
import Flopperating.Data.Reversal
import Flopperating.Data.X86
import Flopperating.Drivers.Keyboard
import Flopperating.Sys.InterruptRuns
import Flopperating.Sys.UserFiles
import Flopperating.Task.ContextSwitch
