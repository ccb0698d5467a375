import Stepwise.Main
import Stepwise.Exercise.Suite
import Stepwise.Proofs.Agreement
import Stepwise.Proofs.Sessions
import Stepwise.Proofs.Derivation
import Stepwise.Proofs.ParserBudget
import Stepwise.Proofs.ParserSound
import Stepwise.Proofs.TreeWords
import Stepwise.Proofs.ParserComplete
import Stepwise.Proofs.Precedence
import Stepwise.Proofs.RoundTrip
import Stepwise.Proofs.Formulas
import Stepwise.Proofs.Extension
import Stepwise.Proofs.Restyling
import Stepwise.Proofs.Visibility
import Stepwise.Proofs.Cutting
import Stepwise.Proofs.Rendering
import Stepwise.Proofs.ParserSafety
import Stepwise.Proofs.FaultOrigins
import Stepwise.Proofs.Seams
import Stepwise.Proofs.Placement
import Stepwise.Proofs.ParserLocality
import Stepwise.Proofs.Braces
import Stepwise.Proofs.Composition
import Stepwise.Proofs.Courses
import Stepwise.Proofs.Remainders
import Stepwise.Proofs.Parentheses
import Stepwise.Proofs.Comments
import Stepwise.Proofs.FirstStages
import Stepwise.Proofs.Sequencing
import Stepwise.Proofs.Arguments
import Stepwise.Proofs.NegatedCalls
import Stepwise.Proofs.Separators
import Stepwise.Proofs.BareReturns
import Stepwise.Proofs.FunctionStatements
import Stepwise.Proofs.FunctionArguments
import Stepwise.Proofs.TruthValues
import Stepwise.Proofs.Neighbours
import Stepwise.Proofs.Pieces
import Stepwise.Proofs.Spacing
import Stepwise.Proofs.IdleTexts
import Stepwise.Proofs.OpenComments
import Stepwise.Proofs.Verdicts
import Stepwise.Proofs.ReservedWords
import Stepwise.Proofs.EvaluationRules
import Stepwise.Proofs.CountingLoops
import Stepwise.Proofs.Fibonacci
import Stepwise.Proofs.LineByLine
import Stepwise.Proofs.OutlineReading
import Stepwise.Proofs.OutlineLayout
import Stepwise.Proofs.Expectations
