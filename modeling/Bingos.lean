import Bingos.MachineWords
import Bingos.StepRuns
import Bingos.RingBuffers
import Bingos.PipeModel
import Bingos.PipeFifo
import Bingos.DescriptorRuns
import Bingos.FrameRuns
import Bingos.SchedulerPlacement
import Bingos.MmapModel
import Bingos.MmapPages
import Bingos.MmapAgreement
import Bingos.HeapGrowth
import Bingos.DirectoryRelease
import Bingos.BootMapping
import Bingos.ElfLoading
import Bingos.VmChains
import Bingos.KmallocRecycling
import Bingos.VfsLookup
import Bingos.InitrdRoundTrip
import Bingos.Ext2Inodes
import Bingos.ModuleRelocation
import Bingos.EarlyBlocks
import Bingos.InterruptNesting
import Bingos.SleepTiming
import Bingos.SchedulerQueues
import Bingos.SleepRuns
import Bingos.HashmapRefinement
import Bingos.MountRuns
import Bingos.SharedOffsets
import Bingos.AtaModel
import Bingos.AtaTransfers
import Bingos.AtaWrites
import Bingos.BlockTilings
import Bingos.Calendar
import Bingos.ClockChain
import Bingos.Ext2DirectoryModel
import Bingos.Ext2Enumeration
import Bingos.Ext2Lookup
import Bingos.MallocBlocks
import Bingos.MallocRuns
import Bingos.ModuleRejection
import Bingos.PrintModel
import Bingos.PrintVerbatim
import Bingos.Terminals
import Bingos.VesaConsole
import Bingos.VgaConsole
import Bingos.DescriptorFailures
import Bingos.DirectoryListings
import Bingos.Ext2Walks
import Bingos.ForkPermissions
import Bingos.FrameWindows
import Bingos.KmallocRoom
import Bingos.MmapAccess
import Bingos.PhysicalAddresses
import Bingos.VfsMountPoints
import Bingos.BreakRequests
import Bingos.DottedQuads
import Bingos.HashmapDeletion
import Bingos.Ipv4Checksums
import Bingos.KernelSymbols
import Bingos.MktimeInstants
import Bingos.ModuleCommons
import Bingos.FontDrawing
import Bingos.PciScan
import Bingos.StringTokens
import Bingos.PipeBlocking
import Bingos.AtaPorts
import Bingos.ShellInput
import Bingos.ExitStatus
