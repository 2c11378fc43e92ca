import Offside.Main
import Offside.Proofs.BlockBalance
import Offside.Proofs.ElementwiseCalls
import Offside.Proofs.OperatorStructure
import Offside.Proofs.RoundTrip
import Offside.Proofs.TokenPlaces
import Offside.Proofs.RegistryHistory
import Offside.Proofs.NewlineConvention
import Offside.Proofs.SessionState
import Offside.Proofs.LiteralSubscripts
import Offside.Proofs.ClassAgreement
import Offside.Proofs.TypeNames
import Offside.Proofs.MarkerOrder
import Offside.Proofs.CallTargets
import Offside.Proofs.BatchFiles
import Offside.Proofs.ExpressionTokens
import Offside.Proofs.StringLiterals
import Offside.Proofs.AttributeNames
import Offside.Proofs.MethodOverloads
import Offside.Proofs.RangeSequences
import Offside.Proofs.StatisticsImport
import Offside.Proofs.EncodedStrings
import Offside.Proofs.BraceFreeStrings
import Offside.Proofs.EmbeddedExpressions
import Offside.Proofs.GlobalDeclarations
import Offside.Proofs.AttributeDiscovery
import Offside.Proofs.EmptyBlocks
import Offside.Proofs.Token.Termination
import Offside.Proofs.ReaderProgress
import Offside.Proofs.Real.Nearest
