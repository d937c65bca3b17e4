import Weir.Binary.Arithmetic
import Weir.Binary.Format
import Weir.Binary.Rounding
import Weir.Binary.Text
import Weir.Code.Module
import Weir.Code.Node
import Weir.Code.Operator
import Weir.Code.Outline
import Weir.Code.Slot
import Weir.Code.Text
import Weir.Code.Validation
import Weir.Command.Argument
import Weir.Command.Files
import Weir.Command.Line
import Weir.Command.Outcome
import Weir.Command.Request
import Weir.Decimal.Basic
import Weir.Decimal.Shortest
import Weir.Json.Basic
import Weir.Json.Decoder
import Weir.Json.Number
import Weir.Json.Parser
import Weir.Json.Printer
import Weir.Json.Token
import Weir.Lowering.Conversion
import Weir.Lowering.Error
import Weir.Lowering.Expression
import Weir.Lowering.Labels
import Weir.Lowering.Program
import Weir.Lowering.Scope
import Weir.Lowering.Statement
import Weir.Machine.Arithmetic
import Weir.Machine.Eval
import Weir.Machine.Session
import Weir.Machine.Trap
import Weir.Main
import Weir.Report
import Weir.Source.Encoding
import Weir.Source.Operator
import Weir.Source.Program
import Weir.Source.Type
import Weir.Terminal
import Weir.Proofs.RunInvariant
import Weir.Proofs.ScopedRun
import Weir.Proofs.TypedRun
import Weir.Proofs.ExpressionTyping
import Weir.Proofs.PlainCode
import Weir.Proofs.LowerProgress
import Weir.Proofs.StatementTyping
import Weir.Proofs.StatementLabels
import Weir.Proofs.ProgramTyping
import Weir.Proofs.Execution
import Weir.Proofs.Simulation
import Weir.Proofs.Dispatch
import Weir.Proofs.ControlFlow
import Weir.Proofs.MisplacedJumps
import Weir.Proofs.QuietCode
import Weir.Proofs.Moments
import Weir.Proofs.Unreachable
import Weir.Proofs.Declarations
import Weir.Proofs.MissingValue
import Weir.Proofs.ValueRanges
import Weir.Proofs.ExpressionRanges
import Weir.Proofs.StatementRanges
import Weir.Proofs.ProgramRanges
import Weir.Proofs.CoupledRuns
import Weir.Proofs.Endings
import Weir.Proofs.FuelUse
import Weir.Proofs.FuelLimits
import Weir.Proofs.ResolvedExpressions
import Weir.Proofs.ResolvedPrograms
import Weir.Proofs.Accesses
import Weir.Proofs.LocalOwners
import Weir.Proofs.Allotment
import Weir.Proofs.Ownership
import Weir.Proofs.SourceCalls
import Weir.Proofs.CallResolution
import Weir.Proofs.CompleteCalls
import Weir.Proofs.Decoding
import Weir.Proofs.ProgramEncoding
import Weir.Proofs.JsonNumbers
import Weir.Proofs.DecodedPrograms
import Weir.Proofs.AlikeLowering
import Weir.Proofs.SeparateFunctions
import Weir.Proofs.JsonText
import Weir.Proofs.Integers
import Weir.Proofs.IntegerConversions
import Weir.Proofs.IntegerOperators
import Weir.Proofs.ExpressionShapes
import Weir.Proofs.ExpressionRuns
import Weir.Proofs.Branches
import Weir.Proofs.SwitchDispatch
import Weir.Proofs.WrittenExpressions
import Weir.Proofs.MatchingExpressions
import Weir.Proofs.MatchingPrograms
import Weir.Proofs.Parentheses
import Weir.Proofs.SourceEvaluation
import Weir.Proofs.EvaluationOrder
import Weir.Proofs.LoopHeaders
import Weir.Proofs.ExactRounding
import Weir.Proofs.LiteralPositions
import Weir.Proofs.NumberLine
import Weir.Proofs.PureExpressions
import Weir.Proofs.ComparedNumbers
import Weir.Proofs.RigidExpressions
import Weir.Proofs.ComparisonReports
import Weir.Proofs.MirroredComparisons
import Weir.Proofs.ScopeDiscipline
import Weir.Proofs.PrintingHosts
import Weir.Proofs.Shifts
import Weir.Proofs.ReportCounts
import Weir.Proofs.RepeatedReports
import Weir.Proofs.FloatCasts
import Weir.Proofs.ReportPlaces
import Weir.Proofs.ActiveCalls
import Weir.Proofs.RepeatedInvocations
import Weir.Proofs.DecimalText
import Weir.Proofs.PrintedOutlines
import Weir.Proofs.PrintedCode
import Weir.Proofs.ShortestDecimals
