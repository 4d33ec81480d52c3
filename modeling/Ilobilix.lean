import Ilobilix.Foundation.Transition
import Ilobilix.Foundation.LinkedList
import Ilobilix.Foundation.Nesting
import Ilobilix.Foundation.Buddy
import Ilobilix.Foundation.Fuel
import Ilobilix.Foundation.Radix
import Ilobilix.Foundation.Intervals
import Ilobilix.Foundation.Counting
import Ilobilix.Foundation.Bytes
import Ilobilix.Foundation.Maps
import Ilobilix.Lib.Math
import Ilobilix.Lib.Semaphore
import Ilobilix.Lib.Spinlock
import Ilobilix.Lib.Mutex
import Ilobilix.Lib.Rwlock
import Ilobilix.Lib.SpinlockIrq
import Ilobilix.Lib.TicketLock
import Ilobilix.Scheduler.Preemption
import Ilobilix.Scheduler.Queues
import Ilobilix.Scheduler.Places
import Ilobilix.Scheduler.Exclusive
import Ilobilix.Scheduler.Lost
import Ilobilix.Scheduler.Accounting
import Ilobilix.Memory.Pmm.Model
import Ilobilix.Memory.Pmm.Lists
import Ilobilix.Memory.Pmm.PageDb
import Ilobilix.Memory.Pmm.Operations
import Ilobilix.Memory.Pmm.Run
import Ilobilix.Memory.Pagemap.Arch
import Ilobilix.Memory.Pagemap.Model
import Ilobilix.Memory.Pagemap.Walk
import Ilobilix.Memory.Pagemap.Pages
import Ilobilix.Memory.Pagemap.Small
import Ilobilix.Memory.Pagemap.Refinement
import Ilobilix.Memory.Pagemap.Mixed
import Ilobilix.Memory.Pagemap.Run
import Ilobilix.Memory.Vmm.Model
import Ilobilix.Memory.Vmm.Object
import Ilobilix.Memory.Vmm.Calls
import Ilobilix.Memory.Vmm.Tree
import Ilobilix.Memory.Vmm.View
import Ilobilix.Memory.Vmm.Syscalls
import Ilobilix.Memory.Vmm.Failure
import Ilobilix.Memory.Vmm.FreeRegion
import Ilobilix.Memory.Vmm.Fault
import Ilobilix.Memory.Vmm.Coherence
import Ilobilix.Fs.Tmpfs
import Ilobilix.Fs.FdTable
import Ilobilix.Fs.Descriptors
import Ilobilix.Fs.Open
import Ilobilix.Fs.Vfs.Model
import Ilobilix.Fs.Vfs.Walk
import Ilobilix.Fs.Vfs.Invariant
import Ilobilix.Fs.Vfs.DotDot
import Ilobilix.Fs.Vfs.Create
import Ilobilix.Fs.Vfs.Steps
import Ilobilix.Fs.Vfs.Names
import Ilobilix.Fs.Vfs.Termination
import Ilobilix.Elf.Stack
import Ilobilix.Scheduler.Thread
import Ilobilix.Scheduler.Groups
import Ilobilix.Memory.Pmm.Accounting
import Ilobilix.Fs.Vfs.Links
import Ilobilix.Uacpi.Workers
import Ilobilix.Uacpi.Completion
import Ilobilix.Arch.PageFaults
import Ilobilix.Memory.Vmm.Overlay
import Ilobilix.Elf.Load
import Ilobilix.Memory.Vmm.Mapped
import Ilobilix.Memory.Vmm.Panic
import Ilobilix.Memory.Vmm.CopyOnWrite
import Ilobilix.Arch.Interrupts
import Ilobilix.Foundation.Dependencies
import Ilobilix.Lib.Initgraph
import Ilobilix.Drivers.Timers
import Ilobilix.Lib.StdList
import Ilobilix.System.Pci
import Ilobilix.Drivers.Ustar.Format
import Ilobilix.Drivers.Ustar.Load
import Ilobilix.Foundation.PairCoding
import Ilobilix.Elf.Kallsyms.Compression
import Ilobilix.Elf.Kallsyms.RoundTrip
import Ilobilix.Memory.Pmm.Completeness
import Ilobilix.Memory.Pagemap.Encoding
import Ilobilix.Memory.Pagemap.Destroy
import Ilobilix.Memory.Pmm.Init
import Ilobilix.Memory.Pmm.Ownership
import Ilobilix.Memory.Pagemap.Alloc
import Ilobilix.Memory.Pagemap.MapAlloc
import Ilobilix.Memory.Pagemap.Dealloc
import Ilobilix.Lib.Freqfrac
import Ilobilix.Lib.Str2int
import Ilobilix.Elf.Kallsyms.Lookup
import Ilobilix.Drivers.Kvmclock
import Ilobilix.Drivers.Ustar.Walk
import Ilobilix.Fs.Vectored
import Ilobilix.Fs.Lseek
import Ilobilix.Elf.Module
import Ilobilix.Scheduler.Sleeper
import Ilobilix.Fs.Vfs.HardLinks
import Ilobilix.Fs.Vfs.Avoiding
import Ilobilix.Fs.Vfs.Mounting
import Ilobilix.Fs.Vfs.Unlinking
import Ilobilix.Arch.Ioapic
import Ilobilix.Lib.Calendar
import Ilobilix.Lib.Timespec
import Ilobilix.System.ConfigSpace
import Ilobilix.Foundation.Masks
import Ilobilix.System.Bars
import Ilobilix.System.Madt
import Ilobilix.System.Router
import Ilobilix.System.Net.Packets
import Ilobilix.System.Net.Receive
import Ilobilix.Foundation.OnesComplement
import Ilobilix.System.Net.Checksum
import Ilobilix.System.Net.Build
import Ilobilix.Foundation.Splice
import Ilobilix.Libc.String
import Ilobilix.Uacpi.ThreadId
import Ilobilix.Memory.Vmm.Objects
import Ilobilix.Lib.Rbtree.Runs
import Ilobilix.Foundation.ShiftRegister
import Ilobilix.System.Net.Lan
import Ilobilix.Lib.Random
import Ilobilix.Uacpi.Event
