import Neos.Library.BitMemory
import Neos.Library.PartialSteps
import Neos.Library.Numerals
import Neos.Library.BuddyTree
import Neos.Library.BuddyRuns
import Neos.Kernel.CLib
import Neos.Kmalloc.Model
import Neos.Kmalloc.ControlStructure
import Neos.Kmalloc.TreeOps
import Neos.Kmalloc.Setup
import Neos.Kmalloc.Requests
import Neos.Kmalloc.Tables
import Neos.Kmalloc.Accesses
import Neos.Kmalloc.Overlap
import Neos.Kmalloc.Crowded
import Neos.Kmalloc.Descriptors
import Neos.Kmalloc.Run
import Neos.Kmalloc.Separation
import Neos.Kmalloc.FreeRuns
import Neos.Kmalloc.Restore
import Neos.Kmalloc.Marking
import Neos.Kmalloc.Footprint
import Neos.Kmalloc.MemoryMap
import Neos.Kmalloc.Sizes
import Neos.Kmalloc.Summaries
import Neos.Kmalloc.Realloc
import Neos.Kmalloc.Reserve
import Neos.Vfs.Model
import Neos.Scheduler.Model
import Neos.Scheduler.Counts
import Neos.Scheduler.Descriptors
import Neos.Scheduler.Switching
import Neos.Scheduler.Stacks
import Neos.Syscall.Model
import Neos.Vfs.Paths
import Neos.Vfs.Open
import Neos.Syscall.Opening
import Neos.Syscall.Gdt
import Neos.Syscall.Brk
import Neos.Library.Ownership
import Neos.Vfs.StateBlocks
import Neos.Library.PointerList
import Neos.Vfs.Mounting
import Neos.Vfs.MountTrie
import Neos.Vfs.NullFree
import Neos.Vfs.Walk
import Neos.Syscall.Ownership
import Neos.Syscall.Killing
import Neos.Console.Model
import Neos.Console.Bounds
import Neos.Console.Runs
import Neos.Console.Buffer
import Neos.Console.Sequences
import Neos.Console.Motion
import Neos.Console.Rendition
import Neos.Console.Shortcuts
import Neos.Console.Scrolling
import Neos.Console.Erasing
import Neos.Console.Terminal
import Neos.Print.Model
import Neos.Print.Specifiers
import Neos.Print.Numbers
import Neos.Library.ByteRange
import Neos.Library.Machine32
import Neos.Library.LinkedChain
import Neos.Elf.Model
import Neos.Elf.Loading
import Neos.Elf.Containment
import Neos.Elf.Contents
import Neos.Elf.Reads
import Neos.Scheduler.Creation
import Neos.Fat.Model
import Neos.Fat.Volume
import Neos.Fat.Chains
import Neos.Fat.Writing
import Neos.Fat.Entries
import Neos.Fat.Files
import Neos.Fat.Room
import Neos.Fat.Search
import Neos.Fat.Boot
import Neos.Fat.Full
import Neos.Fat.Reading
import Neos.Fat.Lookup
import Neos.Fat.Listing
import Neos.Fat.Scan
import Neos.Fat.Resolve
import Neos.Fat.Walks
import Neos.Fat.Readdir
import Neos.Fat.Driver
import Neos.Fat.Termination
import Neos.Fat.LongNames
import Neos.Fat.Removal
import Neos.Fat.Frames
import Neos.Fat.Creation
import Neos.Fat.ShortNames
import Neos.Fat.Operations
import Neos.Fat.Coherence
import Neos.Fat.Opening
import Neos.Fat.Ownership
import Neos.Fat.FirstClusters
import Neos.Fat.Handles
import Neos.Fat.Gaps
import Neos.Fat.Sharing
import Neos.Vfs.Guarded
import Neos.Vfs.Components
import Neos.Vfs.Descent
import Neos.Vfs.Trace
import Neos.Vfs.TraceBuffer
import Neos.Vfs.Directory
import Neos.Procfs.Model
import Neos.Procfs.Depth
import Neos.Procfs.Names
import Neos.Procfs.Reference
import Neos.Procfs.Trace
import Neos.Procfs.Retrace
import Neos.Syscall.Dirents
import Neos.Syscall.DirentRecords
import Neos.Procfs.Listing
import Neos.Procfs.Enumeration
import Neos.Procfs.Positions
import Neos.Floppy.Model
import Neos.Floppy.Transfers
import Neos.Floppy.Writing
import Neos.Interrupt.Model
import Neos.Interrupt.Frame
import Neos.Interrupt.Stub
import Neos.Interrupt.Exit
import Neos.Library.Simulation
import Neos.Library.ByteFiles
import Neos.Fat.Success
import Neos.Fat.Isolation
import Neos.Fat.Store
import Neos.Vfs.FileDriver
import Neos.Fat.Fatfs
import Neos.Syscall.FileCalls
import Neos.Kmalloc.IdealHeap
import Neos.Library.TimeSharing
import Neos.Interrupt.Switch
import Neos.Interrupt.Preemption
