import YuzuOS.Library.Run
import YuzuOS.Library.StableQueue
import YuzuOS.Kernel.Plist
import YuzuOS.Proofs.PlistQueue
import YuzuOS.Proofs.PlistRefinement
import YuzuOS.Kernel.Scheduler
import YuzuOS.Kernel.VirtualFs
import YuzuOS.Kernel.System
import YuzuOS.Proofs.SchedulerQueue
import YuzuOS.Proofs.SchedulerSteps
import YuzuOS.Proofs.SchedulerExit
import YuzuOS.Proofs.SchedulerService
import YuzuOS.Proofs.SchedulerFiles
import YuzuOS.Kernel.Bitmap
import YuzuOS.Kernel.Physical
import YuzuOS.Proofs.PhysicalFrames
import YuzuOS.Kernel.Align
import YuzuOS.Kernel.Malloc
import YuzuOS.Library.Chain
import YuzuOS.Proofs.HeapTiling
import YuzuOS.Kernel.Ext2
import YuzuOS.Library.BlockTree
import YuzuOS.Proofs.Ext2Reading
import YuzuOS.Proofs.Ext2Files
import YuzuOS.Kernel.Mmap
import YuzuOS.Proofs.Ext2Lookup
import YuzuOS.Proofs.MemoryAreas
import YuzuOS.Proofs.SchedulerFairness
import YuzuOS.Kernel.Control
import YuzuOS.Proofs.ControlSections
import YuzuOS.Proofs.ControlAcknowledge
import YuzuOS.Proofs.PhysicalInit
import YuzuOS.Kernel.PathFind
import YuzuOS.Proofs.PathCache
import YuzuOS.Kernel.UserProcess
import YuzuOS.Kernel.Elf32
import YuzuOS.Libc.Malloc
import YuzuOS.Proofs.UserBreak
import YuzuOS.Proofs.LibcHeap
import YuzuOS.Proofs.ElfSegments
import YuzuOS.Proofs.ElfAreas
import YuzuOS.Proofs.ElfLoading
import YuzuOS.Proofs.ElfImage
import YuzuOS.Proofs.ElfSafety
import YuzuOS.Kernel.Execve
import YuzuOS.Library.RingHeap
import YuzuOS.Proofs.DlistSequences
import YuzuOS.Proofs.ExecveFailure
import YuzuOS.Proofs.Descriptors
import YuzuOS.Proofs.BreakContract
import YuzuOS.Core.Ini
import YuzuOS.Proofs.IniLines
import YuzuOS.Proofs.IniRoundTrip
import YuzuOS.Kernel.Format
import YuzuOS.Kernel.Serial
import YuzuOS.Kernel.Stdio
import YuzuOS.Proofs.FormatCursors
import YuzuOS.Proofs.FormatBuffer
import YuzuOS.Proofs.FormatEarly
import YuzuOS.Kernel.Ext2Operations
import YuzuOS.Proofs.PathWalks
import YuzuOS.Proofs.Ext2Operations
import YuzuOS.Proofs.ExecveHeap
import YuzuOS.Proofs.ExecveCopies
import YuzuOS.Proofs.ExecveArguments
import YuzuOS.Proofs.ExecveLaunch
import YuzuOS.Proofs.PhysicalSearch
import YuzuOS.Proofs.HeapPages
import YuzuOS.Proofs.HeapAlign
import YuzuOS.Kernel.Syscall
import YuzuOS.Proofs.SyscallTable
import YuzuOS.Kernel.Fork
import YuzuOS.Proofs.ForkCopies
import YuzuOS.Kernel.Virtual
import YuzuOS.Proofs.PageTables
import YuzuOS.Kernel.Teardown
import YuzuOS.Proofs.Teardown
import YuzuOS.Kernel.MmapPages
import YuzuOS.Proofs.MmapPages
import YuzuOS.Kernel.Log
import YuzuOS.Proofs.LogLines
import YuzuOS.Proofs.NumberLayout
import YuzuOS.Proofs.IniStrip
import YuzuOS.Proofs.FormatScan
import YuzuOS.Proofs.PathBuffer
import YuzuOS.Proofs.DirectorySearch
import YuzuOS.Kernel.Ext2Inode
import YuzuOS.Proofs.InodeTable
import YuzuOS.Kernel.Frames
import YuzuOS.Proofs.FrameZero
import YuzuOS.Proofs.HeapSizes
import YuzuOS.Proofs.LibcSizes
import YuzuOS.Proofs.IniReading
import YuzuOS.Proofs.IniKinds
import YuzuOS.Proofs.IniSafety
import YuzuOS.Proofs.IniResult
import YuzuOS.Library.Search
import YuzuOS.Proofs.Ext2Search
import YuzuOS.Libc.Unistd
import YuzuOS.Libc.Environ
import YuzuOS.Proofs.ExecLists
import YuzuOS.Proofs.Getenv
import YuzuOS.Proofs.ExecPath
import YuzuOS.Kernel.Pci
import YuzuOS.Library.Routes
import YuzuOS.Proofs.PciScan
import YuzuOS.Kernel.Directories
import YuzuOS.Proofs.KernelHalf
import YuzuOS.Proofs.ScratchPages
import YuzuOS.Proofs.ForkPages
import YuzuOS.Proofs.ForkDirectory
import YuzuOS.Proofs.ForkIsolation
import YuzuOS.Kernel.Ide
import YuzuOS.Proofs.IdeTransfers
import YuzuOS.Kernel.Ext2Mount
import YuzuOS.Proofs.Ext2Image
import YuzuOS.Library.Interleave
import YuzuOS.Services.System
import YuzuOS.Proofs.SystemServices
import YuzuOS.Proofs.ReservedFrames
import YuzuOS.Kernel.Interrupts
import YuzuOS.Library.Simulation
import YuzuOS.Proofs.InterruptEntry
import YuzuOS.Proofs.InterruptControllers
import YuzuOS.Proofs.InterruptLines
import YuzuOS.Kernel.VirtualInit
import YuzuOS.Proofs.BootPages
import YuzuOS.Kernel.SyscallEntry
import YuzuOS.Proofs.ForkReturns
import YuzuOS.Library.StackWords
import YuzuOS.Kernel.Switch
import YuzuOS.Proofs.ThreadSwitches
