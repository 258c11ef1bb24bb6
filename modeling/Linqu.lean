import Linqu.Chain
import Linqu.Transition
import Linqu.Ownership
import Linqu.Waiting
import Linqu.TensorMap
import Linqu.TensorMapChains
import Linqu.TensorMapNames
import Linqu.TaskRing
import Linqu.HeapRing
import Linqu.ScopeStack
import Linqu.DepPool
import Linqu.OrchestrationApi
import Linqu.Orchestrator
import Linqu.Tables
import Linqu.OrchestratorRule
import Linqu.OrchestratorShape
import Linqu.OrchestratorCalls
import Linqu.RingsInStep
import Linqu.Outcomes
import Linqu.MockDispatcher
import Linqu.DependencyLists
import Linqu.TensorMapWriters
import Linqu.LastWriters
import Linqu.OrchestratorDone
import Linqu.Reports
import Linqu.Retirement
import Linqu.PlainRuns
import Linqu.Quiescence
import Linqu.Retention
import Linqu.DispatchOrder
import Linqu.BackendsAgree
import Linqu.GroupWaiting
import Linqu.GroupDispatch
import Linqu.Completion
import Linqu.MsgTypes
import Linqu.Dispatchers
import Linqu.StrayReports
import Linqu.OrchestratorSteps
import Linqu.GroupCompletion
import Linqu.LastSubTask
import Linqu.ReadyQueue
import Linqu.LevelRuntime
import Linqu.LevelMoves
import Linqu.LevelLayout
import Linqu.LevelReclaim
import Linqu.LevelWiring
import Linqu.LevelSubmission
import Linqu.LevelWorkers
import Linqu.LevelOrder
import Linqu.LevelWakeups
import Linqu.LevelProgress
import Linqu.TensorMapEntries
import Linqu.LevelInputs
import Linqu.Simulation
import Linqu.LevelHierarchy
import Linqu.LevelService
import Linqu.LevelOnce
import Linqu.FailedResults
import Linqu.LevelPool
import Linqu.PoolUse
import Linqu.WaitAll
import Linqu.Bytes
import Linqu.Payloads
import Linqu.Header
import Linqu.RoundTrip
import Linqu.BufferReads
import Linqu.PeerRegistry
import Linqu.NodeDaemon
import Linqu.TruncatedCalls
import Linqu.Heartbeats
import Linqu.CircularStore
import Linqu.HeapBlocks
import Linqu.EmptyHeap
import Linqu.BlockLifetimes
import Linqu.OwnWrites
import Linqu.SelfEdges
import Linqu.Submissions
import Linqu.TimelyReports
import Linqu.DispatcherRuns
import Linqu.WorkDelivery
import Linqu.Noninterference
import Linqu.Runtimes
import Linqu.ScopeArrays
import Linqu.ScopeTokens
import Linqu.Siblings
import Linqu.Wraparound
import Linqu.ReadyFifo
import Linqu.KernelLoading
import Linqu.Dataflow
import Linqu.TreeReduce
import Linqu.Scanning
import Linqu.SocketPaths
import Linqu.ByteStreams
import Linqu.Transport
import Linqu.Mailboxes
import Linqu.RemoteExecution
import Linqu.FileTrees
import Linqu.Discovery
import Linqu.CodeStore
import Linqu.DaemonLoop
import Linqu.DispatchIds
import Linqu.RemoteOrchestration
import Linqu.DeferredGroups
import Linqu.Json
import Linqu.ProfileReports
import Linqu.Profiling
import Linqu.TraceFiles
