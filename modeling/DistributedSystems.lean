import DistributedSystems.TransitionSystem
import DistributedSystems.EventLog
import DistributedSystems.Decimal
import DistributedSystems.Parties
import DistributedSystems.KvServer
import DistributedSystems.KvSystem
import DistributedSystems.KvInvariants
import DistributedSystems.KvDefinite
import DistributedSystems.KvPuts
import DistributedSystems.KvSingleWriter
import DistributedSystems.Linearizability
import DistributedSystems.KvLinearizable
import DistributedSystems.KvModel
import DistributedSystems.KvReplay
import DistributedSystems.KvRecorder
import DistributedSystems.KvChecker
import DistributedSystems.LockSystem
import DistributedSystems.LockSafety
import DistributedSystems.LockRelease
import DistributedSystems.LockTest
import DistributedSystems.LockTestOwnership
import DistributedSystems.LockTestKey
import DistributedSystems.LockTestSection
import DistributedSystems.AppendEntries
import DistributedSystems.AppendSystem
import DistributedSystems.AppendSafety
import DistributedSystems.Ballot
import DistributedSystems.RaftServer
import DistributedSystems.RaftCluster
import DistributedSystems.RaftVotes
import DistributedSystems.RaftRequests
import DistributedSystems.RaftTally
import DistributedSystems.RaftProgress
import DistributedSystems.RaftElection
import DistributedSystems.RaftTerms
import DistributedSystems.RaftTermBound
import DistributedSystems.RaftAborts
import DistributedSystems.RaftLoops
import DistributedSystems.RaftOrphans
import DistributedSystems.Grouping
import DistributedSystems.ByteString
import DistributedSystems.MapReduceData
import DistributedSystems.Glob
import DistributedSystems.MapReduceFiles
import DistributedSystems.Coordinator
import DistributedSystems.CoordinatorPhases
import DistributedSystems.CoordinatorHandOuts
import DistributedSystems.MapReduceLogger
import DistributedSystems.Worker
import DistributedSystems.MapReduceSystem
import DistributedSystems.MapReduceAssignment
import DistributedSystems.MapReduceDirectory
import DistributedSystems.MapReduceReports
import DistributedSystems.MapReduceOutput
import DistributedSystems.MapReduceFailures
import DistributedSystems.MapReduceLoggerGrowth
import DistributedSystems.MapReduceProgress
import DistributedSystems.LoadBalance
import DistributedSystems.ShardConfig
import DistributedSystems.ShardConfigCalls
import DistributedSystems.RemoteCall
import DistributedSystems.Labrpc
import DistributedSystems.LabrpcCalls
import DistributedSystems.LabrpcEnds
import DistributedSystems.LabrpcProgress
import DistributedSystems.KvNetwork
import DistributedSystems.KvNetworkRefinement
import DistributedSystems.Framing
import DistributedSystems.Demux
import DistributedSystems.DemuxTags
import DistributedSystems.DemuxTraffic
import DistributedSystems.DemuxRefinement
import DistributedSystems.DemuxProgress
