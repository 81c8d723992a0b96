import Rkvs.Model.MemTable
import Rkvs.Analysis.WalParser
import Rkvs.Analysis.SegmentNames
import Rkvs.Analysis.SegmentDirectory
import Rkvs.Interface.LogHistory
import Rkvs.Interface.LogImage
import Rkvs.Analysis.WalAppend
import Rkvs.Analysis.LogSimulation
import Rkvs.Analysis.LogFiles
import Rkvs.Analysis.ImageReads
import Rkvs.Analysis.LogOrder
import Rkvs.Analysis.Replay
import Rkvs.Analysis.Corruption
import Rkvs.Analysis.Start
import Rkvs.Analysis.TornWrite
import Rkvs.Analysis.Restart
import Rkvs.Analysis.RecoveryReport
import Rkvs.Interface.Acknowledged
import Rkvs.Analysis.SettledLog
import Rkvs.Analysis.Durability
import Rkvs.Model.Protocol
import Rkvs.Model.Connection
import Rkvs.Interface.RequestFrames
import Rkvs.Analysis.RequestParser
import Rkvs.Analysis.FrameParser
import Rkvs.Analysis.RequestCodec
import Rkvs.Analysis.ConnectionLoop
import Rkvs.Library.Outcome
import Rkvs.Interface.ReachableWorker
import Rkvs.Analysis.WriteOutcome
import Rkvs.Analysis.WriterSafety
import Rkvs.Model.SstSegment
import Rkvs.Interface.SstFiles
import Rkvs.Analysis.SstEntries
import Rkvs.Analysis.SstIndex
import Rkvs.Analysis.SstOpen
import Rkvs.Analysis.SstWriter
import Rkvs.Analysis.SegmentLookup
import Rkvs.Library.Newest
import Rkvs.Library.FirstFound
import Rkvs.Library.Run
import Rkvs.Model.SstLevel
import Rkvs.Interface.SstLevels
import Rkvs.Analysis.SstLevels
import Rkvs.Analysis.LevelMerge
import Rkvs.Model.SstCompaction
import Rkvs.Interface.Compaction
import Rkvs.Analysis.CompactionLoop
import Rkvs.Analysis.CompactionLookups
import Rkvs.Analysis.LevelCompaction
import Rkvs.Model.SstRecovery
import Rkvs.Interface.Recovery
import Rkvs.Analysis.RecoveryFiles
import Rkvs.Analysis.RecoveryGrouping
import Rkvs.Analysis.Recovery
import Rkvs.Analysis.RecoverySteps
import Rkvs.Analysis.RecoveryMerges
import Rkvs.Interface.Crash
import Rkvs.Analysis.CrashFiles
import Rkvs.Analysis.CrashRecovery
import Rkvs.Analysis.CrashRestart
import Rkvs.Interface.CompactionThread
import Rkvs.Analysis.CompactionThread
import Rkvs.Model.StorageEngine
import Rkvs.Interface.ConcurrentReads
import Rkvs.Analysis.ConcurrentReads
import Rkvs.Interface.Responses
import Rkvs.Analysis.ResponseStream
import Rkvs.Interface.Selection
import Rkvs.Analysis.Selection
import Rkvs.Model.SstMerge
import Rkvs.Interface.MergeSort
import Rkvs.Analysis.ReadBuffers
import Rkvs.Analysis.MergeRound
import Rkvs.Analysis.MergeSort
import Rkvs.Analysis.MergeScan
import Rkvs.Analysis.MergeResult
import Rkvs.Analysis.MergeNames
import Rkvs.Interface.Cascade
import Rkvs.Analysis.Cascade
import Rkvs.Interface.LevelSizes
import Rkvs.Analysis.LevelSizes
import Rkvs.Interface.RestartFiles
import Rkvs.Analysis.RestartFiles
import Rkvs.Interface.WorkerRuns
import Rkvs.Analysis.Flush
import Rkvs.Analysis.WorkerRuns
import Rkvs.Interface.LiveFiles
import Rkvs.Analysis.LiveFiles
import Rkvs.Library.PartialMerge
import Rkvs.Analysis.BufferFill
import Rkvs.Analysis.MergeStep
import Rkvs.Analysis.MergeOutput
import Rkvs.Analysis.LosslessMerge
import Rkvs.Analysis.CopiedSegments
import Rkvs.Analysis.CompactionEnds
import Rkvs.Interface.BufferRuns
import Rkvs.Analysis.BufferRuns
import Rkvs.Interface.HalfWritten
import Rkvs.Analysis.HalfWritten
import Rkvs.Library.Highest
import Rkvs.Interface.SegmentContents
import Rkvs.Analysis.SegmentContents
import Rkvs.Interface.SequenceNumbers
import Rkvs.Analysis.SequenceNumbers
import Rkvs.Interface.LogBodies
import Rkvs.Analysis.LogBodies
import Rkvs.Interface.ReadOrder
import Rkvs.Analysis.ReadOrder
import Rkvs.Interface.LogStructure
import Rkvs.Analysis.LogStructure
import Rkvs.Interface.LevelZeroFlushes
import Rkvs.Analysis.LowCheckpoint
import Rkvs.Interface.StaleFiles
import Rkvs.Analysis.StaleFiles
import Rkvs.Model.ShortReads
import Rkvs.Interface.ShortReads
import Rkvs.Analysis.GappedBytes
import Rkvs.Analysis.ShortReads
import Rkvs.Analysis.FailedWrites
import Rkvs.Analysis.PayloadEncoding
import Rkvs.Analysis.ConnectionHandles
import Rkvs.Analysis.Bookkeeping
import Rkvs.Analysis.CutStream
import Rkvs.Analysis.TableSize
import Rkvs.Analysis.FileLength
import Rkvs.Analysis.ReplacedFiles
import Rkvs.Analysis.RestartMerges
import Rkvs.Analysis.RecoveryOrder
import Rkvs.Analysis.NewestMerge
import Rkvs.Interface.OrderlyMerges
import Rkvs.Analysis.OrderlyMerges
import Rkvs.Model.EngineStart
import Rkvs.Interface.Sessions
import Rkvs.Analysis.Sessions
import Rkvs.Interface.Shutdown
import Rkvs.Analysis.Shutdown
import Rkvs.Library.Linearizability
import Rkvs.Library.Tracking
import Rkvs.Interface.RunningEngine
import Rkvs.Analysis.RunningStore
import Rkvs.Analysis.RunningEngine
import Rkvs.Analysis.RunningProgress
import Rkvs.Interface.RequestStream
import Rkvs.Analysis.RequestStream
import Rkvs.Interface.RunningServer
import Rkvs.Analysis.RunningServer
import Rkvs.Analysis.ServerProgress
