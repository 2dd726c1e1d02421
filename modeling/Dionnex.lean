import Dionnex.LabelledRuns
import Dionnex.PackedBits
import Dionnex.PmmBitmap
import Dionnex.PmmInit
import Dionnex.PmmSafety
import Dionnex.PmmCounter
import Dionnex.PmmRegions
import Dionnex.ByteMemory
import Dionnex.PageTables
import Dionnex.Vmm
import Dionnex.VmmTranslation
import Dionnex.VmmCalls
import Dionnex.VmmExhaustion
import Dionnex.VmmSelfMapping
import Dionnex.UserPages
import Dionnex.UserMemory
import Dionnex.HeapBreak
import Dionnex.MmapRegions
import Dionnex.PagedAccess
import Dionnex.ElfLoader
import Dionnex.TwinRuns
import Dionnex.X86Stack
import Dionnex.BoundedMap
import Dionnex.KernelString
import Dionnex.Ramfs
import Dionnex.RamfsRefinement
import Dionnex.RamfsVfs
import Dionnex.RamfsResidue
import Dionnex.FileRanges
import Dionnex.Task
import Dionnex.ContextSwitch
import Dionnex.LinkedChain
import Dionnex.TaskScheduler
import Dionnex.TaskLists
import Dionnex.TaskTurns
import Dionnex.Process
import Dionnex.ProcessLists
import Dionnex.ProcessScheduler
import Dionnex.ProcessFork
import Dionnex.FirstFit
import Dionnex.KernelHeap
import Dionnex.HeapBlocks
import Dionnex.HeapPages
import Dionnex.HeapRealloc
import Dionnex.HeapSizes
import Dionnex.HeapTiling
import Dionnex.HeapRestored
import Dionnex.HeapOwnership
import Dionnex.ProcessImage
import Dionnex.FreshMemory
import Dionnex.FailureAtomicity
import Dionnex.HeapWrites
import Dionnex.MachineWrites
import Dionnex.AddressSpaces
import Dionnex.Syscalls
import Dionnex.KernelRange
import Dionnex.UserRights
import Dionnex.CircularBuffer
import Dionnex.KernelLog
import Dionnex.Printk
import Dionnex.Keyboard
import Dionnex.Interrupts
import Dionnex.NameResolution
import Dionnex.Vfs
import Dionnex.VfsPaths
import Dionnex.VfsMounts
import Dionnex.VfsFiles
import Dionnex.OpenHandles
import Dionnex.RamfsNames
import Dionnex.RamfsListing
import Dionnex.PathTokens
import Dionnex.LastComponents
import Dionnex.ElfContents
import Dionnex.ElfAccesses
import Dionnex.Elf
import Dionnex.ModuleImage
import Dionnex.ModuleLoader
import Dionnex.ModuleRelocations
import Dionnex.ModuleNames
import Dionnex.ModuleLinking
import Dionnex.ModuleReloading
import Dionnex.StringBuffers
import Dionnex.NumberStrings
import Dionnex.NumberPrinters
import Dionnex.TimerSleep
import Dionnex.VgaConsole
import Dionnex.ShellLines
import Dionnex.StringAppends
import Dionnex.KernelMessages
import Dionnex.Procfs
import Dionnex.ShellCommands
import Dionnex.ShellRedirects
import Dionnex.WhileLoops
import Dionnex.VesaLines
import Dionnex.VesaCircles
import Dionnex.GregorianCalendar
import Dionnex.Rtc
import Dionnex.RtcFormats
import Dionnex.UserShell
import Dionnex.Hexdump
import Dionnex.KeyboardModifiers
import Dionnex.ModuleRegistry
import Dionnex.Smp
import Dionnex.Strtok
import Dionnex.MemoryMoves
import Dionnex.TaskQueues
import Dionnex.ShellWords
import Dionnex.PaintedCells
import Dionnex.VesaCanvas
import Dionnex.VesaShapes
import Dionnex.HeapFrames
import Dionnex.SoftwareCanvas
import Dionnex.WordBytes
import Dionnex.PortDevices
import Dionnex.PciConfig
import Dionnex.PciScan
import Dionnex.AtaChannels
import Dionnex.AtaSectors
import Dionnex.PriorityChip
import Dionnex.PicLines
import Dionnex.KernelConsole
import Dionnex.AtaDrives
import Dionnex.X86Protection
import Dionnex.BootTables
import Dionnex.InterruptStubs
import Dionnex.InterruptNesting
