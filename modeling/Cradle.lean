import Cradle.Core.UniqueHash
import Cradle.Core.RequestIdentity
import Cradle.Lib.Table
import Cradle.Lib.Transition
import Cradle.Caching.Immutable
import Cradle.Caching.Invariant
import Cradle.Caching.Fidelity
import Cradle.Disk.LLDiskCache
import Cradle.Disk.Integrity
import Cradle.Disk.SizeBound
import Cradle.Disk.Writers
import Cradle.Disk.Completion
import Cradle.Disk.Orphans
import Cradle.Disk.LocalDiskCache
import Cradle.Disk.RoundTrip
import Cradle.Typing.Diff
import Cradle.Typing.DiffApply
import Cradle.Typing.DiffRoundTrip
import Cradle.Lib.Coro
import Cradle.Resolve.Request
import Cradle.Resolve.Resolver
import Cradle.Caching.Memo
import Cradle.Resolve.Meaning
import Cradle.Resolve.Transparency
import Cradle.Disk.Repair
import Cradle.Disk.Recency
import Cradle.Lib.Threads
import Cradle.Remote.AsyncContext
import Cradle.Remote.ResultVisibility
import Cradle.Remote.Interchange
import Cradle.Remote.CompletionProtocol
import Cradle.Resolve.Retry
import Cradle.Resolve.TaskLifetime
import Cradle.Resolve.CreqController
import Cradle.Remote.ProxyContext
import Cradle.Remote.AsyncDb
import Cradle.Remote.RecordLocks
import Cradle.Resolve.Containment
import Cradle.Lib.Positions
import Cradle.Resolve.AsyncResolution
import Cradle.Resolve.ContextPositions
import Cradle.Resolve.StatusTree
import Cradle.Resolve.SharedTasks
import Cradle.Resolve.Progress
import Cradle.Resolve.Outcomes
import Cradle.Lib.Decoder
import Cradle.Typing.RawMemory
import Cradle.Typing.NativeEncoding
import Cradle.Typing.MsgpackEncoding
import Cradle.Thinknode.Ipc
import Cradle.Thinknode.Supervisor
import Cradle.Thinknode.FailedCalculations
import Cradle.Encodings.Base64
import Cradle.Encodings.BlobSerialization
import Cradle.Typing.JsonEncoding
import Cradle.Typing.WellFormed
import Cradle.Typing.Single
import Cradle.Resolve.SeriRegistry
import Cradle.Typing.NativeGrammar
import Cradle.Caching.Eviction
import Cradle.Disk.InsertFind
import Cradle.Core.KeyAgreement
import Cradle.Lib.Assoc
import Cradle.Thinknode.Types
import Cradle.Thinknode.UrlType
import Cradle.Lib.Bounded
import Cradle.Typing.Schema
import Cradle.Typing.Coercion
import Cradle.Typing.CoercionCheck
import Cradle.Typing.Conformance
import Cradle.Thinknode.CalcRequest
import Cradle.Thinknode.LetCalc
import Cradle.Thinknode.Resolution
import Cradle.Thinknode.CalcValue
import Cradle.Thinknode.ContentServer
import Cradle.Thinknode.ResolutionRules
import Cradle.Thinknode.LetEvaluation
import Cradle.Lib.Occurrence
import Cradle.Typing.DiffSafety
import Cradle.Typing.Lossless
import Cradle.Thinknode.Sanitize
import Cradle.Resolve.RequestUuid
import Cradle.Lib.Mirror
import Cradle.Thinknode.IpcBuffer
import Cradle.Lib.Predictive
import Cradle.Thinknode.UrlTypeErrors
import Cradle.Lib.DepthFirst
import Cradle.Thinknode.SearchCalculation
import Cradle.Thinknode.SearchExactness
import Cradle.Service.RequestsStorage
import Cradle.Resolve.Backoff
import Cradle.Resolve.RequestDocuments
import Cradle.Resolve.RequestTransport
import Cradle.Introspection.Tasklets
import Cradle.Rpclib.ContainedProxyPool
import Cradle.Rpclib.LoadedDlls
import Cradle.BlobFile.BlobFileDirectory
import Cradle.Caching.ClearUnused
import Cradle.Lib.KeyedTree
import Cradle.Service.ConfigMaps
import Cradle.Service.ConfigMapToJson
import Cradle.Service.HttpCache
import Cradle.Typing.InsertionBounds
import Cradle.Typing.KeyLaws
import Cradle.Core.IdLaws
import Cradle.Rpclib.EphemeralPorts
import Cradle.Encodings.Base64Language
import Cradle.Lib.MemoSearch
import Cradle.Lib.MemoSearchAlone
import Cradle.Websocket.TypeReferences
import Cradle.Lib.MemoSearchWaits
import Cradle.Websocket.DeepCopy
import Cradle.Lib.LinkedDiff
import Cradle.Websocket.TreeDiff
import Cradle.Thinknode.Provider
import Cradle.Thinknode.SupervisedProvider
