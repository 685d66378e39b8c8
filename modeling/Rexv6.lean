import Rexv6.Param
import Rexv6.Klib.PriorityQueue
import Rexv6.Klib.QueueRuns
import Rexv6.Klib.Vector
import Rexv6.Klib.VectorCells
import Rexv6.Klib.VectorOperations
import Rexv6.Klib.VectorLists
import Rexv6.Klib.VectorBuffers
import Rexv6.Foundation.LittleEndian
import Rexv6.Foundation.Execution
import Rexv6.Foundation.IndexList
import Rexv6.Foundation.Counting
import Rexv6.Foundation.Ledger
import Rexv6.Foundation.Overwrite
import Rexv6.Foundation.Program
import Rexv6.Foundation.Rousing
import Rexv6.Foundation.Mutex
import Rexv6.Foundation.Headcount
import Rexv6.Foundation.Bitmap
import Rexv6.Foundation.Resumption
import Rexv6.Foundation.Holdings
import Rexv6.Foundation.Dyadic
import Rexv6.Foundation.BinaryHeap
import Rexv6.Fs.Layout
import Rexv6.Fs.Machine
import Rexv6.Fs.Blocks
import Rexv6.Fs.Allocation
import Rexv6.Fs.Contents
import Rexv6.Fs.Cache
import Rexv6.Fs.Editing
import Rexv6.Fs.Directories
import Rexv6.Mkfs.Machine
import Rexv6.Mkfs.Appending
import Rexv6.Mkfs.Image
import Rexv6.Mkfs.Regions
import Rexv6.Mkfs.Reading
import Rexv6.Sched.Machine
import Rexv6.Sched.Transitions
import Rexv6.Sched.Exclusion
import Rexv6.Sched.SysSleep
import Rexv6.Sched.Sleeping
import Rexv6.Locking.Sleeplock
import Rexv6.Locking.Interrupts
import Rexv6.Logging.Machine
import Rexv6.Logging.Buffers
import Rexv6.Logging.Recovery
import Rexv6.Logging.History
import Rexv6.Logging.CrashAtomicity
import Rexv6.Logging.Admission
import Rexv6.Buddy.Machine
import Rexv6.Buddy.Marks
import Rexv6.Buddy.FreeLists
import Rexv6.Buddy.Cover
import Rexv6.Buddy.Initialization
import Rexv6.Buddy.Conservation
import Rexv6.Buddy.Coalescing
import Rexv6.Buddy.DoubleFree
import Rexv6.Buddy.Links
import Rexv6.Buddy.Sized
import Rexv6.Buddy.Rounding
import Rexv6.Vm.Machine
import Rexv6.Vm.PageTables
import Rexv6.Vm.Mapping
import Rexv6.Vm.UserMemory
import Rexv6.Vm.AddressSpaces
import Rexv6.Vm.Ownership
import Rexv6.Vm.Process
import Rexv6.Vm.Images
import Rexv6.Vm.ProcessSize
import Rexv6.Foundation.Tally
import Rexv6.Calls.Machine
import Rexv6.Logging.Sleepers
import Rexv6.Logging.Views
import Rexv6.Foundation.Association
import Rexv6.Fs.DirectoryMaps
import Rexv6.Calls.Directories
import Rexv6.Vm.Translation
import Rexv6.Vm.CopyOut
import Rexv6.Vm.Copying
import Rexv6.Vm.UserStack
import Rexv6.Vm.Isolation
import Rexv6.Fs.Resolution
import Rexv6.Exec.Outcome
import Rexv6.Calls.SharedFile
import Rexv6.Libc.Memmove
import Rexv6.Grep.Matcher
import Rexv6.Grep.Lines
import Rexv6.Syscall.Arguments
import Rexv6.Mp.Configuration
import Rexv6.Klib.VectorAccess
import Rexv6.Shell.Parser
import Rexv6.Shell.Tokens
import Rexv6.Shell.Grammar
import Rexv6.Shell.Strings
import Rexv6.Shell.Recognition
import Rexv6.Foundation.Circuit
import Rexv6.Umalloc.Machine
import Rexv6.Umalloc.Tiling
import Rexv6.Umalloc.Invariant
import Rexv6.Umalloc.Requests
import Rexv6.Cxxrt.Guard
import Rexv6.Disk.Machine
import Rexv6.Disk.Validity
