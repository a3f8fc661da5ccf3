import HolyOs.Foundation.Window
import HolyOs.Foundation.Word
import HolyOs.Foundation.Transition
import HolyOs.Foundation.PackedBits
import HolyOs.Foundation.Pool
import HolyOs.Foundation.ByteMemory
import HolyOs.Foundation.BlockList
import HolyOs.Foundation.BlockRuns
import HolyOs.Foundation.Ring
import HolyOs.Foundation.Recursion
import HolyOs.Foundation.Loop
import HolyOs.Foundation.Preorder
import HolyOs.Foundation.Positional
import HolyOs.Foundation.Page
import HolyOs.Foundation.Latch
import HolyOs.Foundation.LineEditor
import HolyOs.Foundation.Processor
import HolyOs.Foundation.Handshake
import HolyOs.Foundation.PortIo
import HolyOs.Foundation.Remap
import HolyOs.Lib.String
import HolyOs.Lib.CString
import HolyOs.Lib.Compare
import HolyOs.Lib.Numerals
import HolyOs.Lib.Canonical
import HolyOs.Lib.Sprintf
import HolyOs.Lib.FormatBounds
import HolyOs.Cpu.Spinlock
import HolyOs.Cpu.MutualExclusion
import HolyOs.Cpu.Monitor
import HolyOs.Cpu.Interrupt
import HolyOs.Cpu.Controller
import HolyOs.Cpu.Delivery
import HolyOs.Cpu.Descriptors
import HolyOs.Cpu.Stub
import HolyOs.Mm.Pmm
import HolyOs.Mm.PmmOwnership
import HolyOs.Mm.PmmCount
import HolyOs.Mm.PmmInit
import HolyOs.Mm.PmmMap
import HolyOs.Mm.BootMemory
import HolyOs.Mm.PmmBoot
import HolyOs.Mm.PmmBitmap
import HolyOs.Mm.PmmZero
import HolyOs.Mm.PmmPlacement
import HolyOs.Mm.PmmStartup
import HolyOs.Mm.PmmWalk
import HolyOs.Mm.Vmm
import HolyOs.Mm.AddressSpace
import HolyOs.Mm.VmmOutcome
import HolyOs.Mm.VmmClient
import HolyOs.Mm.VmmOwnership
import HolyOs.Mm.VmmTables
import HolyOs.Mm.VmmCounter
import HolyOs.Mm.VmmFree
import HolyOs.Mm.VmmWalk
import HolyOs.Mm.VmmFailure
import HolyOs.Mm.VmmPermissions
import HolyOs.Mm.Mmu
import HolyOs.Mm.Heap
import HolyOs.Mm.HeapList
import HolyOs.Mm.HeapMerge
import HolyOs.Mm.HeapOps
import HolyOs.Mm.BlockHeap
import HolyOs.Mm.HeapCalls
import HolyOs.Mm.HeapClient
import HolyOs.Mm.HeapIsolation
import HolyOs.Mm.HeapAccounting
import HolyOs.Mm.HeapRequests
import HolyOs.Mm.HeapLock
import HolyOs.Mm.LockDiscipline
import HolyOs.Mm.HeapPages
import HolyOs.Mm.HeapFresh
import HolyOs.Mm.HeapStale
import HolyOs.Mm.HeapCoalesce
import HolyOs.Mm.HeapMove
import HolyOs.Mm.HeapCost
import HolyOs.Mm.HeapNull
import HolyOs.Mm.KernelMemory
import HolyOs.Drivers.Input
import HolyOs.Drivers.Selection
import HolyOs.Drivers.DriverTables
import HolyOs.Drivers.Constructors
import HolyOs.Drivers.Keyboard
import HolyOs.Drivers.Shift
import HolyOs.Drivers.Pci
import HolyOs.Drivers.PciTree
import HolyOs.Drivers.PciPorts
import HolyOs.Drivers.VgaProbe
import HolyOs.Drivers.Vga
import HolyOs.Drivers.Serial
import HolyOs.Drivers.I8042
import HolyOs.Terminal.Tty
import HolyOs.Terminal.PageView
import HolyOs.Terminal.Line
import HolyOs.Terminal.Attributes
import HolyOs.Terminal.Command
import HolyOs.Terminal.Echo
import HolyOs.Kernel.EventLoop
import HolyOs.Kernel.Pipeline
import HolyOs.Kernel.Kprintf
