import Rozofs.MojetteRoundTrip
import Rozofs.DamagedBlocks
import Rozofs.ReadModifyWrite
import Rozofs.WriteAssignment
import Rozofs.RingSerialisation
import Rozofs.BufferCoherence
import Rozofs.CacheContents
import Rozofs.LockExclusion
import Rozofs.FileSerialisation
import Rozofs.CacheMap
import Rozofs.RebuildOverlap
import Rozofs.BlockArray
import Rozofs.RootCacheMap
import Rozofs.StreamFraming
import Rozofs.RebuildTransform
import Rozofs.WritebackTransparent
import Rozofs.DiskTableMap
import Rozofs.QuotaLimits
import Rozofs.TimerTiming
import Rozofs.TrashRemoval
import Rozofs.InodeNumbers
import Rozofs.ReadQuorum
import Rozofs.LockFreeing
import Rozofs.LockSetting
import Rozofs.BlockCrc
import Rozofs.DistributionSpread
import Rozofs.ThinRecompute
import Rozofs.GeoUpdates
import Rozofs.RebuildRelocation
import Rozofs.RenameAtomic
import Rozofs.BlockOffsets
import Rozofs.HeaderSelection
import Rozofs.FullBucket
import Rozofs.DirentRepair
import Rozofs.NameChunks
import Rozofs.CopyCount
import Rozofs.RenameMoves
import Rozofs.RecycledInode
import Rozofs.CircularMoves
import Rozofs.DistributionFailure
import Rozofs.VolumeDistribution
import Rozofs.ThinBlockCount
import Rozofs.WrappedRanks
import Rozofs.MapperDevices
import Rozofs.WordBitmap
import Rozofs.ChunkScan
import Rozofs.IndirectTable
import Rozofs.IndirectMap
import Rozofs.SlotIsolation
import Rozofs.PartialFold
import Rozofs.Transform
import Rozofs.TransformRoundTrip
import Rozofs.NestedTree
import Rozofs.IpFilter
import Rozofs.ByteMemory
import Rozofs.XattrFormat
import Rozofs.XattrSet
import Rozofs.XattrInode
import Rozofs.XattrUpdate
import Rozofs.XattrRuns
import Rozofs.Transactions
import Rozofs.TransactionOutcomes
import Rozofs.StreamSend
import Rozofs.StreamChannel
import Rozofs.LinkedPath
import Rozofs.DirentFiles
import Rozofs.DirentPaths
import Rozofs.DirentInsertion
import Rozofs.DirentWalk
import Rozofs.DirentRemoval
import Rozofs.DirentAllocation
import Rozofs.DirentControl
import Rozofs.DirentRequests
import Rozofs.KeyedMap
import Rozofs.DirentEntries
import Rozofs.DirentMap
