import MpmcLogger.Interleaving
import MpmcLogger.CopiedCell
import MpmcLogger.RingIndex
import MpmcLogger.MachineWord
import MpmcLogger.LittleEndian
import MpmcLogger.FileStore
import MpmcLogger.QueueMachine
import MpmcLogger.QueueHistory
import MpmcLogger.QueueInvariant
import MpmcLogger.QueueSetup
import MpmcLogger.QueueExclusion
import MpmcLogger.QueueLapping
import MpmcLogger.QueueDelivery
import MpmcLogger.QueueFailure
import MpmcLogger.SinkMachine
import MpmcLogger.SinkSteps
import MpmcLogger.SinkBounds
import MpmcLogger.SinkAlignment
import MpmcLogger.SinkGenerations
import MpmcLogger.SinkRotation
import MpmcLogger.EntryLayout
import MpmcLogger.Formatter
import MpmcLogger.LogReader
import MpmcLogger.SinkRoundTrip
import MpmcLogger.SinkFailure
import MpmcLogger.SinkLimit
import MpmcLogger.LoggerMachine
import MpmcLogger.LoggerSetup
import MpmcLogger.LoggerDrain
import MpmcLogger.LoggerShutdown
import MpmcLogger.DrainOutput
import MpmcLogger.SinkAcceptance
import MpmcLogger.LoggerAccounting
import MpmcLogger.DrainAcceptance
import MpmcLogger.BroadcastLog
import MpmcLogger.QueueRelation
import MpmcLogger.QueueSequential
import MpmcLogger.LogMacro
import MpmcLogger.RecordResidue
import MpmcLogger.LoggerLifecycle
import MpmcLogger.Decimal
import MpmcLogger.StoreRegion
import MpmcLogger.TextBuffer
import MpmcLogger.DateCache
import MpmcLogger.LineFraming
import MpmcLogger.TextFraming
import MpmcLogger.TextDigits
import MpmcLogger.QueueCalls
import MpmcLogger.QueueMembership
import MpmcLogger.OriginalQueue
import MpmcLogger.SinkShift
import MpmcLogger.QueueProgress
import MpmcLogger.RecordFile
import MpmcLogger.ReaderFilters
import MpmcLogger.Tally
import MpmcLogger.LogStats
import MpmcLogger.DirectoryTree
import MpmcLogger.SinkDirectory
import MpmcLogger.QueueScan
import MpmcLogger.QueueJoining
import MpmcLogger.OriginalDelivery
import MpmcLogger.LogRetrieval
import MpmcLogger.SinkDurability
import MpmcLogger.ReaderCommand
import MpmcLogger.SharedDelivery
