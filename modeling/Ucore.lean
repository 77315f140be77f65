import Ucore.Lib.Links
import Ucore.Lib.Extents
import Ucore.Lib.Dyadic
import Ucore.Lib.Runs
import Ucore.ListEntry
import Ucore.Pmm.FreeArea
import Ucore.Lemmas.FreeAreaAux
import Ucore.Lemmas.FreeList
import Ucore.Pmm.FreeListRun
import Ucore.Theorems.FreeLists
import Ucore.Pmm.Buddy
import Ucore.Lemmas.BuddyAux
import Ucore.Lemmas.BuddyLists
import Ucore.Lemmas.BuddyLoops
import Ucore.Theorems.Buddy
import Ucore.Lib.Frames
import Ucore.Vm.Mmu
import Ucore.Vm.State
import Ucore.Vm.Swap
import Ucore.Vm.Mapping
import Ucore.Vm.Tables
import Ucore.Lib.Fibers
import Ucore.Vm.Maps
import Ucore.Lemmas.VmWalk
import Ucore.Lemmas.VmEntry
import Ucore.Theorems.PageTable
import Ucore.Lemmas.VmOwned
import Ucore.Theorems.RefCounts
import Ucore.Lib.RingBuffer
import Ucore.Dev.Stdin
import Ucore.Theorems.Stdin
import Ucore.Lib.Deltas
import Ucore.Sched.Timer
import Ucore.Theorems.Timers
import Ucore.Process.Pid
import Ucore.Theorems.Pid
import Ucore.Lib.SkewTrees
import Ucore.SkewHeap
import Ucore.Sched.Stride
import Ucore.Theorems.RunQueue
import Ucore.Lib.HalfRange
import Ucore.Theorems.Stride
import Ucore.Theorems.StrideSleep
import Ucore.Fs.Vfs
import Ucore.Fs.VfsDev
import Ucore.Lemmas.VfsRefs
import Ucore.Theorems.Vfs
import Ucore.Lib.Cycles
import Ucore.Mm.Slob
import Ucore.Lemmas.SlobAux
import Ucore.Theorems.Slob
import Ucore.Process.Proc
import Ucore.Process.Calls
import Ucore.Process.System
import Ucore.Lib.Triples
import Ucore.Lemmas.ProcSteps
import Ucore.Lemmas.ProcTable
import Ucore.Lemmas.ProcCore
import Ucore.Theorems.InitPanic
import Ucore.Theorems.BuddyMerge
import Ucore.Theorems.VmaList
import Ucore.Theorems.DeviceTable
import Ucore.Theorems.SwapSlots
import Ucore.Process.LoadIcode
import Ucore.Theorems.LoadIcode
import Ucore.Theorems.Leftovers
import Ucore.Lib.DiskWords
import Ucore.Fs.Mksfs
import Ucore.Lemmas.MksfsMap
import Ucore.Lemmas.MksfsAppend
import Ucore.Lemmas.MksfsWalk
import Ucore.Lemmas.MksfsTree
import Ucore.Lemmas.MksfsClose
import Ucore.Theorems.MksfsImage
import Ucore.Lemmas.MksfsTotal
import Ucore.Lemmas.MksfsCount
import Ucore.Theorems.MksfsLinks
import Ucore.Theorems.BuddyAlloc
import Ucore.Theorems.FitChoice
import Ucore.Theorems.FindVma
import Ucore.Vm.SwapManagers
import Ucore.Theorems.Fifo
import Ucore.Theorems.Clock
import Ucore.Theorems.ClockHand
import Ucore.Theorems.OutOfPages
import Ucore.Vm.PageFault
import Ucore.Lemmas.PageFault
import Ucore.Theorems.PageFault
import Ucore.Lemmas.VmSwap
import Ucore.Theorems.Replacement
import Ucore.Vm.Access
import Ucore.Theorems.DemandPaging
import Ucore.Lib.Turns
import Ucore.Theorems.RoundRobin
import Ucore.Process.MmLock
import Ucore.Theorems.ForkFails
import Ucore.Mm.Kmalloc
import Ucore.Lemmas.SlobRounds
import Ucore.Theorems.SlobSearch
import Ucore.Theorems.Kmalloc
import Ucore.Theorems.SkewHeaps
import Ucore.Fs.PathBuffer
import Ucore.Theorems.DevicePath
import Ucore.Fs.OpenCalls
import Ucore.Theorems.OpenCreates
import Ucore.Process.LoadMemory
import Ucore.Lemmas.LoadHom
import Ucore.Lemmas.LoadFlow
import Ucore.Theorems.ExecCleanup
import Ucore.Theorems.ImageBounds
import Ucore.Theorems.ImageInside
import Ucore.Theorems.MmUsers
import Ucore.Theorems.ListEntries
import Ucore.Libs.Memory
import Ucore.Theorems.Memmove
import Ucore.Theorems.EntryLayout
import Ucore.Theorems.CacheTable
import Ucore.Dev.Disk0
import Ucore.Theorems.DiskRequests
import Ucore.Lib.Cursors
import Ucore.Debug.Kmonitor
import Ucore.Theorems.ArgSplit
import Ucore.User.Sh
import Ucore.Lemmas.ShTokens
import Ucore.Theorems.Redirection
import Ucore.Lib.Numerals
import Ucore.Libs.Printfmt
import Ucore.Libs.Strtol
import Ucore.Lemmas.Printnum
import Ucore.Theorems.NumberText
import Ucore.Theorems.NumericFields
import Ucore.Lemmas.Vprintfmt
import Ucore.Theorems.Snprintf
import Ucore.Theorems.Kills
import Ucore.Theorems.PowerRounding
import Ucore.Lemmas.ProcLists
import Ucore.Lib.Siblings
import Ucore.Lemmas.ProcTree
import Ucore.Theorems.ProcessTable
import Ucore.Theorems.WakeUps
import Ucore.Theorems.ExitCodes
import Ucore.Lib.Riscv
import Ucore.Trap.Trapentry
import Ucore.Lemmas.Trapentry
import Ucore.Trap.Kernel
import Ucore.Trap.Threads
import Ucore.Lemmas.Threads
import Ucore.Theorems.Processors
import Ucore.Theorems.Overtaking
import Ucore.Lib.Amortized
import Ucore.Lib.SkewCosts
import Ucore.Theorems.QueueCosts
import Ucore.Theorems.ImageTree
import Ucore.Mm.Kfree
import Ucore.Lemmas.SlobFrame
import Ucore.Theorems.KernelHeap
import Ucore.Libs.Formats
import Ucore.Theorems.FormatMeaning
import Ucore.Lib.AffineCycles
import Ucore.Libs.Rand
import Ucore.Theorems.Rand
