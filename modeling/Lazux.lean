import Lazux.Lib.PagedMemory
import Lazux.Lib.Bitset
import Lazux.Lib.RadixForest
import Lazux.Lib.Ring
import Lazux.Platform
import Lazux.Pmm
import Lazux.Sv39
import Lazux.Uart
import Lazux.LineDiscipline
import Lazux.AddressSpace
import Lazux.UserPointer
import Lazux.Process
import Lazux.Elf
import Lazux.Sched
import Lazux.System
import Lazux.Coordination
import Lazux.Transitions
import Lazux.Control
import Lazux.Ownership
import Lazux.PageTables
import Lazux.KernelMap
import Lazux.Release
import Lazux.Copy
import Lazux.Image
import Lazux.UserAccess
import Lazux.Heap
import Lazux.Isolation
import Lazux.Spawn
import Lazux.Calls
import Lazux.Execute
import Lazux.Safety
import Lazux.Boot
import Lazux.Lib.Trace
import Lazux.Actions
import Lazux.Reads
import Lazux.Handler
import Lazux.Confinement
import Lazux.Effects
import Lazux.Resume
import Lazux.Context
import Lazux.Preempt
import Lazux.Family
import Lazux.Deadlock
import Lazux.Orphans
import Lazux.Fork
import Lazux.FirstProcess
import Lazux.Protection
import Lazux.Loader
import Lazux.Completeness
import Lazux.Footprint
import Lazux.Contents
import Lazux.Conduct
import Lazux.Legal
import Lazux.HeapExact
import Lazux.Devices
import Lazux.Lib.ByteMemory
import Lazux.Malloc
import Lazux.Allocator
import Lazux.Integrity
import Lazux.Promises
import Lazux.Exec
import Lazux.Names
import Lazux.Ramdisk
import Lazux.Files
import Lazux.Console
import Lazux.Fairness
import Lazux.FramePool
import Lazux.Strings
import Lazux.Translation
import Lazux.Lib.Numeral
import Lazux.Printers
import Lazux.Lib.Runs
import Lazux.Shell
import Lazux.Readers
import Lazux.Survival
import Lazux.Freeing
import Lazux.Lib.Lockstep
import Lazux.Residue
import Lazux.Lifetime
import Lazux.Conservation
import Lazux.Refinement
import Lazux.Output
import Lazux.Processor
import Lazux.Programs
import Lazux.Disk
import Lazux.Session
import Lazux.Formats
import Lazux.Heaps
import Lazux.Overlay
