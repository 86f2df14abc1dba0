import Lios.Lib.Outcome
import Lios.Lib.Loops
import Lios.Lib.Chase
import Lios.Lib.Overwrite
import Lios.Lib.Layers
import Lios.Lib.Gaps
import Lios.Lib.LinkedList
import Lios.Lib.DoublyLinked
import Lios.Lib.Runs
import Lios.Lib.Ring
import Lios.Lib.Tiling
import Lios.Lib.ByteStore
import Lios.Lib.Bitmap
import Lios.Lib.Stride
import Lios.Lib.Records
import Lios.Lib.WordTable
import Lios.Lib.FiniteMap
import Lios.Lib.Numerals
import Lios.Lib.Assembly
import Lios.Lib.ByteFormat
import Lios.Lib.Stack
import Lios.Util.Const
import Lios.Util.Kmath
import Lios.Util.Misc
import Lios.Util.ArrayList
import Lios.Util.ArrayListCalls
import Lios.Util.ArrayListRuns
import Lios.Mem.Pmm
import Lios.Mem.PmmFrames
import Lios.Mem.PmmFreeList
import Lios.Mem.PmmClear
import Lios.Mem.PmmInit
import Lios.Mem.PmmLayout
import Lios.Mem.PmmBuild
import Lios.Mem.PmmWrites
import Lios.Mem.PmmLists
import Lios.Mem.PmmPlacement
import Lios.Mem.PmmAssigned
import Lios.Lib.PointerTree
import Lios.Lib.NodePage
import Lios.Mem.Page
import Lios.Mem.PageTree
import Lios.Mem.PageMap
import Lios.Mem.PageFrames
import Lios.Mem.PageHalves
import Lios.Mem.PageSpace
import Lios.Mem.PageFallback
import Lios.Mem.Mmu
import Lios.Mem.PageBuffer
import Lios.Mem.Vmm
import Lios.Mem.VmmPages
import Lios.Mem.VmmTable
import Lios.Mem.VmmBlocks
import Lios.Mem.VmmRanges
import Lios.Mem.VmmMap
import Lios.Mem.VmmList
import Lios.Mem.VmmCover
import Lios.Mem.VmmFragments
import Lios.Mem.VmmRemove
import Lios.Mem.VmmCoalesce
import Lios.Mem.Vmalloc
import Lios.Mem.VmallocBitmap
import Lios.Mem.VmallocNodes
import Lios.Mem.VmallocLevels
import Lios.Mem.VmallocSearch
import Lios.Mem.VmallocAccounts
import Lios.Mem.VmallocGrow
import Lios.Mem.VmallocRelease
import Lios.Mem.VmallocRuns
import Lios.Mem.VmallocCopy
import Lios.Mem.VmallocContainment
import Lios.Mem.VmallocAlignment
import Lios.Mem.VmallocOutcome
import Lios.Mem.VmallocReserve
import Lios.File.Fat32
import Lios.File.Fat32Chain
import Lios.File.Fat32Read
import Lios.File.Fat32Lookup
import Lios.File.Fat32Damage
import Lios.File.Fat32Nibble
import Lios.File.Fat32New
import Lios.File.Fat32Table
import Lios.File.Fat32Create
import Lios.File.Fat32Reopen
import Lios.File.Fat32Space
import Lios.File.Fat32Slots
import Lios.File.Nvme
import Lios.File.NvmeRings
import Lios.File.NvmeStatus
import Lios.File.NvmeFind
import Lios.File.Dma
import Lios.File.DmaBuffers
import Lios.File.Gpt
import Lios.File.GptTable
import Lios.File.DmaPosition
import Lios.Boot.MemoryMap
import Lios.Boot.BootFrames
import Lios.Boot.Multiboot
import Lios.Boot.MultibootTags
import Lios.Boot.MultibootPmm
import Lios.Boot.Loader
import Lios.Boot.LoaderTables
import Lios.Boot.HigherHalf
import Lios.Boot.KernelWindow
import Lios.Int.Interrupt
import Lios.Int.Entry
import Lios.Int.EntryRuns
import Lios.Int.Keyboard
import Lios.Int.KeyboardLine
import Lios.Int.KeyboardModifiers
import Lios.Int.Syscall
import Lios.Int.SyscallWrite
import Lios.Int.SyscallRead
import Lios.Io.VgaFont
import Lios.Io.Vga
import Lios.Io.VgaDraw
import Lios.Io.VgaCells
import Lios.Io.VgaScreen
import Lios.Io.VgaBounds
import Lios.Io.Output
import Lios.Io.OutputText
import Lios.Io.VgaFontReads
import Lios.Io.VgaAgree
import Lios.Proc.Elf
import Lios.Proc.ElfMemory
import Lios.Proc.ElfFile
import Lios.Proc.ElfSegments
import Lios.Proc.ElfSample
import Lios.Proc.ElfImage
import Lios.Proc.ElfKernel
import Lios.Proc.ElfCoverage
import Lios.Proc.ElfReads
import Lios.Proc.ElfResources
import Lios.File.NvmeDiscovery
