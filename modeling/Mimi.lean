import Mimi.Proofs.WireReadings
import Mimi.Proofs.BareContainer
import Mimi.Proofs.SessionSafety
import Mimi.Proofs.HandleSafety
import Mimi.Proofs.FlowSafety
import Mimi.Proofs.AbiDiffSound
import Mimi.Proofs.SessionCycles
import Mimi.Proofs.ConstantPool
import Mimi.Proofs.LayoutProbe
import Mimi.Proofs.SymbolIdentity
import Mimi.Proofs.SessionResolution
import Mimi.Proofs.TableSafety
import Mimi.Proofs.RouteManifest
import Mimi.Proofs.NarrowChecks
import Mimi.Proofs.SourceIdentity
import Mimi.Proofs.LoweredCfg
import Mimi.Proofs.ActorAccounting
import Mimi.Proofs.ImportCycles
import Mimi.Proofs.EdgeTransfer
import Mimi.Proofs.FfiContractExact
import Mimi.Proofs.BlackboxOrder
import Mimi.Proofs.MatchExhaustive
import Mimi.Proofs.AbiRoundTrip
import Mimi.Proofs.FaultRecovery
import Mimi.Proofs.WriteBackTargets
import Mimi.Proofs.LineTable
import Mimi.Proofs.CapabilitySafety
import Mimi.Proofs.MapPayloads
import Mimi.Proofs.SchemeInstantiation
import Mimi.Proofs.NamedSubstitution
import Mimi.Proofs.DefaultTyping
import Mimi.Proofs.RegexReplace
import Mimi.Proofs.BraceExpansion
import Mimi.Proofs.EditorPositions
import Mimi.Proofs.Base64Faithful
import Mimi.Proofs.ContractReceipts
import Mimi.Proofs.IntegerLiterals
import Mimi.Proofs.OperatorTrees
import Mimi.Proofs.ReturnCoverageExact
import Mimi.Proofs.DominatorsExact
import Mimi.Proofs.LivenessExact
import Mimi.Proofs.JoinDiagnostics
import Mimi.Proofs.IdentityReceipts
import Mimi.Proofs.FutureWakeups
import Mimi.Proofs.ExecutorRuns
import Mimi.Proofs.OwnedStrings
import Mimi.Proofs.MapRootLinearity
import Mimi.Proofs.SessionEquality
import Mimi.Proofs.CommentRemoval
