import Flan.Lib.Chains
import Flan.Lib.CString
import Flan.Lib.Mem
import Flan.Lib.Radix
import Flan.Lib.Ring
import Flan.Lib.Runs
import Flan.Lib.Span
import Flan.Memory.Pmm
import Flan.Memory.PmmInit
import Flan.Memory.PmmBounds
import Flan.Memory.Kheap
import Flan.Memory.KheapBlocks
import Flan.Memory.KheapRun
import Flan.Memory.KheapLedger
import Flan.Memory.KheapCarve
import Flan.Memory.KheapCoalesce
import Flan.Memory.KheapRetry
import Flan.Memory.KheapRealloc
import Flan.Memory.KheapReturn
import Flan.Memory.Vmm
import Flan.Memory.PageTables
import Flan.Memory.VmmWrites
import Flan.Memory.VmmRun
import Flan.Memory.VmmInit
import Flan.Proc.Queue
import Flan.Proc.Sched
import Flan.Proc.Exclusion
import Flan.Proc.RoundRobin
import Flan.Proc.Context
import Flan.Proc.GsBase
import Flan.Proc.FsBase
import Flan.Proc.Process
import Flan.Proc.Elf
import Flan.Proc.Image
import Flan.Proc.Confined
import Flan.Proc.ElfHalt
import Flan.Sys.Mmap
import Flan.Sys.MmapFailure
import Flan.Sys.MmapRange
import Flan.Proc.UserMemory
import Flan.Proc.UserStack
import Flan.Sys.Vector
import Flan.Sys.VectorInsert
import Flan.Sys.Fildes
import Flan.Sys.Descriptors
import Flan.Sys.Openings
import Flan.Sys.FileIo
import Flan.Fs.Str
import Flan.Dev.Print
import Flan.Dev.Itoa
import Flan.Fs.Node
import Flan.Fs.Hashmap
import Flan.Fs.HashmapRemove
import Flan.Fs.Tmpfs
import Flan.Fs.Handles
import Flan.Fs.FileBuffer
import Flan.Fs.Vfs
import Flan.Fs.Tree
import Flan.Fs.Reach
import Flan.Fs.Resolve
import Flan.Fs.WalkSafety
import Flan.Fs.PathMap
import Flan.Fs.Spelling
import Flan.Fs.CStr
import Flan.Fs.Walks
import Flan.Fs.Initramfs
import Flan.Fs.InitramfsKeys
import Flan.Fs.InitramfsFrames
import Flan.Acpi.Madt
import Flan.Acpi.Rsdt
import Flan.Dev.Ioapic
import Flan.Dev.Lapic
import Flan.Sys.Log
import Flan.Lib.Guarded
import Flan.Lib.Code
import Flan.Lib.OneCall
import Flan.Lib.Walk
import Flan.Sys.Spinlock
import Flan.Memory.PmmLocked
import Flan.Dev.PrintSmp
import Flan.Memory.Gdt
import Flan.Proc.QueueLocked
import Flan.Sys.Smp
import Flan.Sys.SmpCount
import Flan.Lib.X64
import Flan.Sys.Entry
import Flan.Sys.SyscallEntry
import Flan.Proc.Fairness
import Flan.Proc.Preemption
import Flan.Proc.AddressSpace
import Flan.Memory.PageWalk
