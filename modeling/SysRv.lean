import SysRv.GuardedRuns
import SysRv.WordBitmaps
import SysRv.BumpAllocation
import SysRv.KernelTypes
import SysRv.Kalloc
import SysRv.KallocAligned
import SysRv.KallocExhausted
import SysRv.Kpalloc
import SysRv.KpallocSpec
import SysRv.KpallocFirstFit
import SysRv.KpallocRoundTrip
import SysRv.KpallocMark
import SysRv.KpallocRuns
import SysRv.KpallocCoverage
import SysRv.KpallocAccounting
import SysRv.ReservedMemory
import SysRv.Spinlock
import SysRv.SpinlockExclusion
import SysRv.SpinlockProgress
import SysRv.SpinlockSections
import SysRv.Rv64
import SysRv.Rv64Harts
import SysRv.Sv39
import SysRv.RadixWalk
import SysRv.Sv39Walk
import SysRv.Sv39Faults
import SysRv.Sv39Access
import SysRv.Sv39Marks
import SysRv.Sv39Dirty
import SysRv.BootMap
import SysRv.Boot
import SysRv.BootPaging
import SysRv.BootRun
import SysRv.BootHarts
import SysRv.Cpu
import SysRv.Trap
import SysRv.TrapContext
import SysRv.Interrupts
import SysRv.ByteMemory
import SysRv.ForwardCopy
import SysRv.ListSplits
import SysRv.Nesting
import SysRv.NestingOrder
import SysRv.KString
import SysRv.KStringOrder
import SysRv.KStringCopy
import SysRv.Printf
import SysRv.PrintfScan
import SysRv.Numerals
import SysRv.PrintfHelpers
import SysRv.PrintfFormats
import SysRv.PrintfReads
import SysRv.PrintfTruncated
import SysRv.PrintfDecimal
import SysRv.PrintfHex
import SysRv.PrintfText
import SysRv.Panic
import SysRv.PrintfCount
import SysRv.FdtTokens
import SysRv.Fdt
import SysRv.FdtSpec
import SysRv.KStringMemory
import SysRv.FdtParse
import SysRv.FdtLoop
import SysRv.FdtBlob
import SysRv.FdtStack
import SysRv.FdtTree
import SysRv.FdtMalformed
import SysRv.FdtInsertion
import SysRv.FdtFrame
import SysRv.FdtProgress
import SysRv.FdtAnswers
import SysRv.FdtTables
import SysRv.FdtKept
import SysRv.FdtOrder
import SysRv.BootContents
import SysRv.FdtCover
import SysRv.FdtResync
import SysRv.FdtLookup
import SysRv.FdtChildren
import SysRv.FdtMemory
import SysRv.ArchInit
import SysRv.BootConsole
import SysRv.FdtObjects
import SysRv.HeapPages
