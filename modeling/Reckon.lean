import Reckon.Command
import Reckon.CommandLine
import Reckon.Compile
import Reckon.CompileError
import Reckon.Decimal
import Reckon.Decimal.Digits
import Reckon.Decimal.Layout
import Reckon.Decimal.Shortest
import Reckon.Depth
import Reckon.Diagnostic
import Reckon.Eval
import Reckon.EvalError
import Reckon.Expr
import Reckon.Folder
import Reckon.Grammar
import Reckon.Grammar.Parse
import Reckon.Main
import Reckon.NameMap
import Reckon.Numeral
import Reckon.Operator
import Reckon.Operator.Apply
import Reckon.Options
import Reckon.Order
import Reckon.Path
import Reckon.Ratio
import Reckon.Span
import Reckon.SyntaxError
import Reckon.Text.Line
import Reckon.Text.Mark
import Reckon.Text.Printable
import Reckon.Text.Unassigned
import Reckon.Text.Width
import Reckon.Token
import Reckon.Token.InPlace
import Reckon.Token.Position
import Reckon.Token.Scan
import Reckon.Tree
import Reckon.Tree.Print
import Reckon.Value
import Reckon.Vocabulary
import Reckon.Proofs.Derivation
import Reckon.Proofs.Chain
import Reckon.Proofs.ParserSoundness
import Reckon.Proofs.ParserCompleteness
import Reckon.Proofs.Leaves
import Reckon.Proofs.Recognition
import Reckon.Proofs.Compilation
import Reckon.Proofs.Scanning
import Reckon.Proofs.Numerals
import Reckon.Proofs.Coverage
import Reckon.Proofs.Writing
import Reckon.Proofs.DepthBound
import Reckon.Proofs.DeepPrograms
import Reckon.Proofs.Failures
import Reckon.Proofs.Nesting
import Reckon.Proofs.Runs
import Reckon.Proofs.GuardedEvaluation
import Reckon.Proofs.Constructs
import Reckon.Proofs.EvaluationDepth
import Reckon.Proofs.MoreRoom
import Reckon.Proofs.RaisedLimit
import Reckon.Proofs.Relocation
import Reckon.Proofs.LineScanning
import Reckon.Proofs.Joining
import Reckon.Proofs.Footprint
import Reckon.Proofs.AtomicLines
import Reckon.Proofs.Lookahead
import Reckon.Proofs.FirstFault
import Reckon.Proofs.Doubles
import Reckon.Proofs.Places
import Reckon.Proofs.Truncation
import Reckon.Proofs.ExactOrder
import Reckon.Proofs.LongestMatch
import Reckon.Proofs.MovedParsing
import Reckon.Proofs.Tokenization
import Reckon.Proofs.Layout
import Reckon.Proofs.IntegerArithmetic
import Reckon.Proofs.IntegerPrograms
import Reckon.Proofs.WrittenIntegers
import Reckon.Proofs.LevelCounting
import Reckon.Proofs.Programs
import Reckon.Proofs.Lockstep
import Reckon.Proofs.NodeCount
import Reckon.Proofs.Inheritance
import Reckon.Proofs.Operands
import Reckon.Proofs.NestingLimit
import Reckon.Proofs.TreeHeight
import Reckon.Proofs.SourceText
import Reckon.Proofs.TreeSpans
import Reckon.Proofs.FailureSpans
import Reckon.Proofs.Renaming
import Reckon.Proofs.PassThrough
import Reckon.Proofs.OneExpression
import Reckon.Proofs.Partings
import Reckon.Proofs.Substitution
import Reckon.Proofs.Parentheses
import Reckon.Proofs.Definedness
import Reckon.Proofs.Indexing
import Reckon.Proofs.PrintedTrees
import Reckon.Proofs.ExactRounding
import Reckon.Proofs.DecimalText
import Reckon.Proofs.WrittenDoubles
import Reckon.Proofs.WrittenExpressions
import Reckon.Proofs.SourceDoubles
import Reckon.Proofs.Arguments
import Reckon.Proofs.ByteOrder
import Reckon.Proofs.Histories
import Reckon.Proofs.Metering
import Reckon.Proofs.MeteredParsing
import Reckon.Proofs.MeteredPrograms
import Reckon.Proofs.Descent
import Reckon.Proofs.GuardedParsing
import Reckon.Proofs.Worklists
import Reckon.Proofs.SpanHull
