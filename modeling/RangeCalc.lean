import RangeCalc.Bounds
import RangeCalc.Chart
import RangeCalc.CommandLine
import RangeCalc.CommandLine.Folder
import RangeCalc.CommandLine.Help
import RangeCalc.CommandLine.Option
import RangeCalc.CommandLine.Similar
import RangeCalc.Formula.Basic
import RangeCalc.Formula.Compile
import RangeCalc.Formula.Error
import RangeCalc.Formula.Eval
import RangeCalc.Formula.Fault
import RangeCalc.Formula.Function
import RangeCalc.Formula.Parser
import RangeCalc.Formula.Printer
import RangeCalc.Formula.Token
import RangeCalc.Main
import RangeCalc.Number.Binary64
import RangeCalc.Number.Decimal
import RangeCalc.Number.ExactSum
import RangeCalc.Number.Library
import RangeCalc.Number.Literal
import RangeCalc.Number.Numeral
import RangeCalc.Number.Power
import RangeCalc.Number.Rounding
import RangeCalc.Outcome
import RangeCalc.Proofs.Bounds.Approximate
import RangeCalc.Proofs.Bounds.Invalid
import RangeCalc.Proofs.Bounds.Polynomial
import RangeCalc.Proofs.Bounds.Tally
import RangeCalc.Proofs.Fallible
import RangeCalc.Proofs.Formula.Cut
import RangeCalc.Proofs.Formula.Drawing
import RangeCalc.Proofs.Formula.DrawnPoint
import RangeCalc.Proofs.Formula.Eval
import RangeCalc.Proofs.Formula.Language
import RangeCalc.Proofs.Formula.Lexing
import RangeCalc.Proofs.Formula.Phrase
import RangeCalc.Proofs.Formula.Printed
import RangeCalc.Proofs.Formula.Reading
import RangeCalc.Proofs.Formula.Refusal
import RangeCalc.Proofs.Formula.Reprint
import RangeCalc.Proofs.Formula.SamplingCall
import RangeCalc.Proofs.Formula.Shape
import RangeCalc.Proofs.Formula.Substitute
import RangeCalc.Proofs.Number.Alike
import RangeCalc.Proofs.Number.Arithmetic
import RangeCalc.Proofs.Number.Displayed
import RangeCalc.Proofs.Number.Error
import RangeCalc.Proofs.Number.ExactSum
import RangeCalc.Proofs.Number.Grid
import RangeCalc.Proofs.Number.HalfAway
import RangeCalc.Proofs.Number.Literal
import RangeCalc.Proofs.Number.Nearest
import RangeCalc.Proofs.Number.Order
import RangeCalc.Proofs.Number.Plain
import RangeCalc.Proofs.Number.Rounding
import RangeCalc.Proofs.Number.Shortest
import RangeCalc.Proofs.Number.SquareRoot
import RangeCalc.Proofs.Number.Units
import RangeCalc.Proofs.Number.Unpack
import RangeCalc.Proofs.Number.Unsigned
import RangeCalc.Proofs.Number.Written
import RangeCalc.Proofs.Outcome.Ambient
import RangeCalc.Proofs.Outcome.Complete
import RangeCalc.Proofs.Outcome.Copies
import RangeCalc.Proofs.Outcome.Finite
import RangeCalc.Proofs.Outcome.Total
import RangeCalc.Proofs.Range.Corner
import RangeCalc.Proofs.Range.Extraction
import RangeCalc.Proofs.Range.Literal
import RangeCalc.Proofs.Range.Normal
import RangeCalc.Proofs.Range.Numbering
import RangeCalc.Proofs.Range.PercentOperand
import RangeCalc.Proofs.Range.Place
import RangeCalc.Proofs.Range.PlainBound
import RangeCalc.Proofs.Range.Probabilistic
import RangeCalc.Proofs.Range.SamplingFormula
import RangeCalc.Proofs.Range.Spacing
import RangeCalc.Proofs.Range.Token
import RangeCalc.Proofs.Scalar.Exact
import RangeCalc.Proofs.Settings
import RangeCalc.Proofs.Shorthand.Arguments
import RangeCalc.Proofs.Shorthand.Blank
import RangeCalc.Proofs.Shorthand.Numeral
import RangeCalc.Proofs.Shorthand.Tidy
import RangeCalc.Proofs.Shorthand.Times
import RangeCalc.Proofs.Shorthand.Tokens
import RangeCalc.Proofs.Simulation
import RangeCalc.Proofs.Statistics.Bins
import RangeCalc.Proofs.Statistics.Deviation
import RangeCalc.Proofs.Statistics.Edges
import RangeCalc.Proofs.Statistics.Extremes
import RangeCalc.Proofs.Statistics.Histogram
import RangeCalc.Proofs.Statistics.Lattice
import RangeCalc.Proofs.Statistics.Mean
import RangeCalc.Proofs.Statistics.Multiset
import RangeCalc.Proofs.Statistics.Percentile
import RangeCalc.Proofs.Statistics.Permutation
import RangeCalc.Proofs.Statistics.Quantile
import RangeCalc.Proofs.Statistics.Tiling
import RangeCalc.Proofs.Statistics.Variance
import RangeCalc.Proofs.Text.Character
import RangeCalc.Proofs.Text.Segment
import RangeCalc.Proofs.Text.Squeeze
import RangeCalc.Random
import RangeCalc.Range.Box
import RangeCalc.Range.Extraction
import RangeCalc.Range.Interval
import RangeCalc.Range.Normal
import RangeCalc.Range.Token
import RangeCalc.Record
import RangeCalc.Report
import RangeCalc.Scalar
import RangeCalc.Scalar.Binary64
import RangeCalc.Settings
import RangeCalc.Settings.Cursor
import RangeCalc.Settings.Document
import RangeCalc.Settings.Fault
import RangeCalc.Settings.Lexeme
import RangeCalc.Settings.LineBlock
import RangeCalc.Settings.Moment
import RangeCalc.Settings.Node
import RangeCalc.Settings.QuotedText
import RangeCalc.Settings.Reader
import RangeCalc.Settings.Scalar
import RangeCalc.Settings.Word
import RangeCalc.Shorthand.Expand
import RangeCalc.Shorthand.Numeral
import RangeCalc.Shorthand.Product
import RangeCalc.Simulation
import RangeCalc.Statistics.Histogram
import RangeCalc.Statistics.Percent
import RangeCalc.Statistics.Summary
import RangeCalc.Text.Blank
import RangeCalc.Text.DecimalDigit
import RangeCalc.Text.LetterCase
import RangeCalc.Text.Position
import RangeCalc.Text.Quoted
import RangeCalc.Text.Segment
import RangeCalc.Text.SmallLetter
import RangeCalc.Text.WordChar
