import Formula.Kind
import Formula.Ty
import Formula.TypeName
import Formula.Operator
import Formula.Error
import Formula.Grid
import Formula.Value
import Formula.Number.Rounding
import Formula.Number.Binary
import Formula.Number.Shortest
import Formula.Number.Decimal
import Formula.Text.CodePoint
import Formula.Text.Printable
import Formula.Text.CaseTable
import Formula.Text.Case
import Formula.Text.Quoted
import Formula.Table
import Formula.Host
import Formula.Context
import Formula.Registry
import Formula.Registry.Standard
import Formula.Source.Cursor
import Formula.Source.Literal
import Formula.Source.TypeArguments
import Formula.Node
import Formula.Node.Render
import Formula.Node.Read
import Formula.Node.Arrange
import Formula.Bound
import Formula.Bound.Eval
import Formula.Bound.Simplify
import Formula.Slots
import Formula.Binding
import Formula.Binder
import Formula.Inspect
import Formula.Proofs.Numbering
import Formula.Proofs.Comparison
import Formula.Proofs.Transparency
import Formula.Proofs.Reading
import Formula.Proofs.Arranging
import Formula.Proofs.Prepared
import Formula.Proofs.Arithmetic
import Formula.Proofs.Trace
import Formula.Proofs.Refinement
import Formula.Proofs.Simplification
import Formula.Proofs.Lookup
import Formula.Proofs.SimplifiedBinding
import Formula.Proofs.Invariant
import Formula.Proofs.WellFormed
import Formula.Proofs.Soundness
import Formula.Proofs.TypeSafety
import Formula.Proofs.Finishing
import Formula.Proofs.ProductRuns
import Formula.Proofs.Passes
import Formula.Proofs.Precedence
import Formula.Proofs.Grammar
import Formula.Proofs.Shape
import Formula.Proofs.Acceptance
import Formula.Proofs.Rebinding
import Formula.Proofs.Wording
import Formula.Proofs.NodeTable
import Formula.Proofs.TablePasses
import Formula.Proofs.Worklist
import Formula.Proofs.TableArranging
import Formula.Proofs.Nesting
import Formula.Proofs.Marks
import Formula.Proofs.Agreement
import Formula.Proofs.Parameters
import Formula.Proofs.DepthLimit
import Formula.Proofs.Limits
import Formula.Proofs.DecimalValue
import Formula.Proofs.HalfEven
import Formula.Proofs.DecimalLaws
import Formula.Proofs.DecimalRange
import Formula.Proofs.DecimalArithmetic
import Formula.Proofs.DecimalConversion
import Formula.Proofs.ValueRange
import Formula.Proofs.RangeInvariant
import Formula.Proofs.ReadingProgress
import Formula.Proofs.ReadingFrame
import Formula.Proofs.BarFrame
import Formula.Proofs.AbsoluteValue
import Formula.Proofs.DecimalLiteral
import Formula.Proofs.IntegerCast
import Formula.Proofs.BarMatching
import Formula.Proofs.FloatConversion
import Formula.Proofs.IntegerMagnitude
import Formula.Proofs.Overloads
import Formula.Proofs.Calls
import Formula.Proofs.Receiver
import Formula.Proofs.RowMajor
import Formula.Proofs.IntegerConversion
import Formula.Proofs.Tokens
import Formula.Proofs.IntegerExpression
import Formula.Proofs.Offsets
import Formula.Proofs.Placement
import Formula.Proofs.Bytes
import Formula.Proofs.ByteWalk
import Formula.Proofs.TextSafety
import Formula.Proofs.NormalForm
import Formula.Proofs.UnreadArguments
import Formula.Proofs.NumeralGrammar
import Formula.Proofs.IntegerText
import Formula.Proofs.TypeText
import Formula.Proofs.Rendering
import Formula.Proofs.ReadBack
import Formula.Proofs.Rearranging
import Formula.Proofs.FaithfulText
import Formula.Proofs.StringLiteral
import Formula.Proofs.Growth
import Formula.Proofs.TypeBrackets
import Formula.Proofs.Descent
import Formula.Proofs.Loosening
import Formula.Proofs.LooseTypes
import Formula.Proofs.TypeRoundTrip
import Formula.Proofs.Layout
import Formula.Proofs.Respacing
