import Elysium.Dyadic
import Elysium.DyadicLayout
import Elysium.Machine
import Elysium.Pmm
import Elysium.PmmRegion
import Elysium.PmmTracks
import Elysium.PmmFree
import Elysium.PmmAlloc
import Elysium.PmmRuns
import Elysium.PmmSafety
import Elysium.Vm
import Elysium.VmTree
import Elysium.VmHole
import Elysium.VmJoined
import Elysium.VmOwned
import Elysium.VmInsert
import Elysium.VmPool
import Elysium.VmMap
import Elysium.VmFirstFit
import Elysium.VmCarve
import Elysium.VmRefill
import Elysium.VmUnmap
import Elysium.Semaphore
import Elysium.Uacpi
import Elysium.X86
import Elysium.SyscallEntry
import Elysium.VmUnmapExact
import Elysium.VmSetting
import Elysium.VmSegment
import Elysium.VmRewrite
import Elysium.VmRewriteExact
import Elysium.VmKeeps
import Elysium.VmRuns
import Elysium.VmScratch
import Elysium.Runs
import Elysium.VmCanonical
import Elysium.VmOrder
import Elysium.Ptm
import Elysium.PtmBits
import Elysium.PtmTree
import Elysium.PtmGrow
import Elysium.PtmWalk
import Elysium.PtmMap
import Elysium.PtmBuilt
import Elysium.PtmMapExact
import Elysium.PtmRange
import Elysium.PtmUnmap
import Elysium.PtmRewrite
import Elysium.PtmRewriteExact
import Elysium.PtmShared
import Elysium.PtmSpaces
import Elysium.Transitions
import Elysium.Mutex
import Elysium.MutexSafety
import Elysium.Time
import Elysium.Tlb
import Elysium.TlbSafety
import Elysium.Sched
import Elysium.SchedSafety
import Elysium.SchedRuns
import Elysium.Chain
import Elysium.Slab
import Elysium.SlabObjects
import Elysium.SlabShelves
import Elysium.SlabDepot
import Elysium.SlabDirect
import Elysium.SlabDirectRuns
import Elysium.SlabRuns
import Elysium.SlabCreate
import Elysium.SlabCalls
import Elysium.Heap
import Elysium.HeapSizes
import Elysium.HeapSafety
import Elysium.HeapRuns
import Elysium.Init
import Elysium.InitOrder
import Elysium.InitBoot
import Elysium.IntrusiveList
import Elysium.Ioapic
import Elysium.ListFamilies
import Elysium.Process
import Elysium.ProcessLists
import Elysium.Reaper
import Elysium.Interrupts
import Elysium.InterruptsShape
import Elysium.InterruptsYield
import Elysium.InterruptsWork
import Elysium.Namespaces
import Elysium.Vfs
import Elysium.VfsMounts
import Elysium.VfsLookup
import Elysium.VfsTable
import Elysium.TmpfsFile
import Elysium.Events
import Elysium.Demand
import Elysium.VmCopy
import Elysium.VmPaging
import Elysium.PtmPhysical
import Elysium.PtmSupply
import Elysium.PtmPhysicalExact
import Elysium.PtmBreak
import Elysium.PmmPages
import Elysium.UserSpace
import Elysium.UserRuns
import Elysium.UserUnmap
import Elysium.UserCopy
import Elysium.UserLedger
import Elysium.UserLazy
import Elysium.UserZero
import Elysium.UserRequests
import Elysium.UserPages
import Elysium.UserStrings
import Elysium.KernelBuffer
import Elysium.SysvStack
import Elysium.SysvWrites
import Elysium.SysvExact
import Elysium.Elf
import Elysium.ElfSegment
import Elysium.ElfLoad
import Elysium.ElfPlaces
import Elysium.ElfBuffers
import Elysium.ElfSafety
import Elysium.Pci
import Elysium.PciPorts
import Elysium.PciWrites
import Elysium.PciEnumerate
import Elysium.PciVisits
import Elysium.PciTopology
import Elysium.Format
import Elysium.FormatSpec
import Elysium.Digits
import Elysium.FormatNumber
import Elysium.FormatMachine
import Elysium.FormatTermination
import Elysium.FormatSimulation
import Elysium.FormatLayout
import Elysium.FormatParse
import Elysium.FormatExact
import Elysium.FormatString
import Elysium.Rb
import Elysium.Bitmap
import Elysium.Earlymem
import Elysium.EarlymemRuns
import Elysium.EarlymemMetadata
import Elysium.DeferredOrder
import Elysium.InterruptsFlags
import Elysium.MutexYieldSafety
import Elysium.HeapRealloc
import Elysium.PmmAddFree
import Elysium.VmSplit
import Elysium.LittleEndian
import Elysium.Relocation
import Elysium.FormatLookup
import Elysium.TmpfsMap
import Elysium.VfsSlashes
import Elysium.VfsExclusive
import Elysium.VfsReads
import Elysium.Visits
import Elysium.Rdsk
import Elysium.RdskSearch
import Elysium.RdskListing
import Elysium.RdskNodes
import Elysium.CopyOrder
import Elysium.X86Strings
import Elysium.MemMove
import Elysium.HandOver
import Elysium.HandOverSafety
import Elysium.RbRuns
import Elysium.FreedSizes
import Elysium.ThreadsResume
import Elysium.InterruptFrames
import Elysium.RbSearch
import Elysium.Spinlock
import Elysium.SchedFair
import Elysium.IoapicMap
import Elysium.InterruptVectors
import Elysium.PtmFrames
import Elysium.BootMaps
