import Rizzos.ByteMemory
import Rizzos.WordFill
import Rizzos.CInt
import Rizzos.StepRuns
import Rizzos.Memory
import Rizzos.UtilsBitmap
import Rizzos.BusySet
import Rizzos.PageFrameAllocator
import Rizzos.PageFrameRequests
import Rizzos.PageFrameInit
import Rizzos.PageFrameCounters
import Rizzos.FreeMemoryCounter
import Rizzos.KernelFrames
import Rizzos.Pci
import Rizzos.Acpi
import Rizzos.StructLayout
import Rizzos.Fat
import Rizzos.FatRootDirectory
import Rizzos.ElfLoader
import Rizzos.MemberWrites
import Rizzos.Ahci
import Rizzos.AhciRead
import Rizzos.AhciConfigure
import Rizzos.AhciTables
import Rizzos.AhciPointers
import Rizzos.AhciStaleness
import Rizzos.AhciProbe
import Rizzos.TableTree
import Rizzos.Paging
import Rizzos.PageTableManager
import Rizzos.PageTableTree
import Rizzos.PageTableMap
import Rizzos.PageTableRuns
import Rizzos.PageTableTranslation
import Rizzos.PageTableRequests
import Rizzos.PageTableEffect
import Rizzos.PageTableExhaustion
import Rizzos.PageTableCount
import Rizzos.LinkedList
import Rizzos.KernelHeap
import Rizzos.HeapSegments
import Rizzos.HeapOperations
import Rizzos.HeapAllocation
import Rizzos.HeapDerefs
import Rizzos.HeapMalloc
import Rizzos.HeapRuns
import Rizzos.HeapCoalescing
import Rizzos.HeapPreservation
import Rizzos.HeapFirstFit
import Rizzos.HeapHeaders
import Rizzos.PageFrameSupply
import Rizzos.KernelMemory
import Rizzos.HeapBacking
import Rizzos.HeapProgram
import Rizzos.HeapExhaustion
import Rizzos.InterruptTable
import Rizzos.ProgramHeaderWalk
import Rizzos.ConfigurationTable
import Rizzos.BootFiles
import Rizzos.BootSequence
import Rizzos.ScatteredWrites
import Rizzos.BasicGraphics
import Rizzos.ConsoleBounds
import Rizzos.MouseCursor
import Rizzos.CursorTransparency
import Rizzos.PS2Mouse
import Rizzos.MouseMovement
import Rizzos.Keyboard
import Rizzos.Pit
import Rizzos.CpuFeatures
import Rizzos.WordScan
import Rizzos.Numerals
import Rizzos.StbSprintf
import Rizzos.SprintfNumbers
import Rizzos.SprintfCopy
import Rizzos.SprintfFormat
import Rizzos.SprintfReading
import Rizzos.PortAccess
import Rizzos.PS2Controller
import Rizzos.InterruptController
import Rizzos.KernelInterrupts
import Rizzos.KernelEvents
import Rizzos.KernelPrint
import Rizzos.RealMode
import Rizzos.LegacyBoot
import Rizzos.LegacyBootRoutines
import Rizzos.LegacyBootDisk
import Rizzos.LegacyBootStart
import Rizzos.AhciDisk
import Rizzos.AhciDriver
