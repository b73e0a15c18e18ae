import DuckOs.AccessModes
import DuckOs.AppendWrites
import DuckOs.BlockCacheCoherence
import DuckOs.ByteStrings
import DuckOs.CachedPages
import DuckOs.CopyOnWrite
import DuckOs.DiskAdapter
import DuckOs.FailedCalls
import DuckOs.FatChains
import DuckOs.FatMount
import DuckOs.FileLives
import DuckOs.FileOffsets
import DuckOs.FrameTrackers
import DuckOs.GapSearch
import DuckOs.GuardNesting
import DuckOs.KernelEntries
import DuckOs.LazySplits
import DuckOs.MmapFailure
import DuckOs.MountRoundTrip
import DuckOs.OverlapUnmaps
import DuckOs.PageSoundness
import DuckOs.PathResolution
import DuckOs.PipeDelivery
import DuckOs.ProcessTree
import DuckOs.ProgramBreak
import DuckOs.ProtectionRequests
import DuckOs.RenamedPaths
import DuckOs.SeekCalls
import DuckOs.SegmentData
import DuckOs.TimeSpecs
import DuckOs.TmpfsFiles
import DuckOs.VfsAgreement
import DuckOs.WaitSelection
import DuckOs.WorkingDirectories
