import SociSgx.Lib.Exec
import SociSgx.Lib.BranchBound
import SociSgx.Basic
import SociSgx.Secure.Ops
import SociSgx.Secure.PredicateEngine
import SociSgx.Optimizer.Assignment
import SociSgx.Optimizer.Bounds
import SociSgx.Optimizer.Lagrangian
import SociSgx.Optimizer.EncryptedSolver
import SociSgx.Optimizer.Preprocess
import SociSgx.Optimizer.EncryptedSearch
import SociSgx.Optimizer.EngineSession
import SociSgx.Optimizer.Optimality
import SociSgx.Optimizer.CostBounds
import SociSgx.Protocol.NumericDomain
import SociSgx.Secure.Recorder
import SociSgx.Optimizer.OperandRange
import SociSgx.Optimizer.FixedPoint
import SociSgx.Optimizer.PlainSolver
import SociSgx.Optimizer.PlainOptimality
import SociSgx.Lib.ModularPower
import SociSgx.Lib.Paillier
import SociSgx.Protocol.EnclaveCore
import SociSgx.Lib.IndexLoop
import SociSgx.Protocol.Csp
import SociSgx.Protocol.Client
import SociSgx.Protocol.ThresholdKeys
import SociSgx.Protocol.Masked
import SociSgx.Runtime.Calls
import SociSgx.Lib.BigEndian
import SociSgx.Runtime.Objects
import SociSgx.Runtime.KeyStore
import SociSgx.Runtime.Overlap
import SociSgx.Secure.EngineThreads
import SociSgx.Benchmark.StructuredOptimality
import SociSgx.Benchmark.StructuredTrace
import SociSgx.Benchmark.StructuredLagrangian
import SociSgx.Lib.TwoRuns
import SociSgx.Secure.Leakage
import SociSgx.Optimizer.SolverLeakage
import SociSgx.Pega.Leakage
import SociSgx.Optimizer.GridShape
import SociSgx.Optimizer.FixedPointGrammar
import SociSgx.Scalable.Search
import SociSgx.Secure.FinalBit
import SociSgx.Pega.RunRefines
import SociSgx.Pega.Range
import SociSgx.Lib.OffsetCodec
import SociSgx.Protocol.Wire
import SociSgx.Protocol.EnclaveShare
import SociSgx.Protocol.EnclaveDecrypt
import SociSgx.Protocol.Frames
import SociSgx.Runtime.CiphertextCodec
import SociSgx.Lib.RestoringDivision
import SociSgx.Runtime.SecureCalls
import SociSgx.Optimizer.RuntimeOptimizer
import SociSgx.Optimizer.EncryptedEnumeration
import SociSgx.Optimizer.PlainOverflow
import SociSgx.Scalable.Overflow
import SociSgx.Benchmark.LagrangianBound
import SociSgx.Runtime.BlobReads
import SociSgx.Protocol.EncryptWorkers
import SociSgx.Protocol.FusedReplay
import SociSgx.Protocol.FusedDecision
import SociSgx.Lib.Attempts
import SociSgx.Lib.Computes
import SociSgx.Lib.Preserves
import SociSgx.Optimizer.SolverPreserve
import SociSgx.Optimizer.ThresholdAuthorization
import SociSgx.Protocol.EnclaveCalls
import SociSgx.Protocol.EnclaveHost
import SociSgx.Protocol.Provisioning
import SociSgx.Runtime.Api
import SociSgx.Runtime.CppRuntime
