import CustomIsa.Assembly.Line
import CustomIsa.Assembly.Listing
import CustomIsa.Bits
import CustomIsa.Bundled
import CustomIsa.Canon.Basic
import CustomIsa.Canon.Build
import CustomIsa.Canon.Chain
import CustomIsa.Codec
import CustomIsa.Command.Arguments
import CustomIsa.Command.Run
import CustomIsa.Definition.Basic
import CustomIsa.Definition.Check
import CustomIsa.Directory
import CustomIsa.Expr.Basic
import CustomIsa.Expr.Lexer
import CustomIsa.Expr.Parser
import CustomIsa.Expr.Token
import CustomIsa.Expr.Tree
import CustomIsa.Expr.Width
import CustomIsa.Extension.Printer
import CustomIsa.Extension.Reader
import CustomIsa.Failure
import CustomIsa.IntType
import CustomIsa.Intrinsic
import CustomIsa.Json.Basic
import CustomIsa.Json.Reader
import CustomIsa.Layout
import CustomIsa.Main
import CustomIsa.MajorOpcode
import CustomIsa.Match.Align
import CustomIsa.Match.Candidate
import CustomIsa.Match.Rounding
import CustomIsa.Match.Select
import CustomIsa.Operand
import CustomIsa.Operator
import CustomIsa.Ordered
import CustomIsa.Proofs.Assembly.Line
import CustomIsa.Proofs.Assembly.Listing
import CustomIsa.Proofs.Assembly.Name
import CustomIsa.Proofs.Assembly.Stream
import CustomIsa.Proofs.Bits
import CustomIsa.Proofs.Canon.Absorbed
import CustomIsa.Proofs.Canon.Additions
import CustomIsa.Proofs.Canon.Balance
import CustomIsa.Proofs.Canon.Chain
import CustomIsa.Proofs.Canon.Compute
import CustomIsa.Proofs.Canon.Denote
import CustomIsa.Proofs.Canon.Eval
import CustomIsa.Proofs.Canon.Faithful
import CustomIsa.Proofs.Canon.Folding
import CustomIsa.Proofs.Canon.Key
import CustomIsa.Proofs.Canon.KeySound
import CustomIsa.Proofs.Canon.LinearSum
import CustomIsa.Proofs.Canon.Native
import CustomIsa.Proofs.Canon.Similar
import CustomIsa.Proofs.Canon.Source
import CustomIsa.Proofs.Canon.SumWidth
import CustomIsa.Proofs.Canon.Visible
import CustomIsa.Proofs.Codec
import CustomIsa.Proofs.Definition
import CustomIsa.Proofs.Expr.Grammar
import CustomIsa.Proofs.Expr.Language
import CustomIsa.Proofs.Expr.Lexing
import CustomIsa.Proofs.Expr.Numbered
import CustomIsa.Proofs.Expr.Parsing
import CustomIsa.Proofs.Expr.Render
import CustomIsa.Proofs.Expr.Reordered
import CustomIsa.Proofs.Expr.RoundTrip
import CustomIsa.Proofs.Expr.Tree
import CustomIsa.Proofs.Expr.Value
import CustomIsa.Proofs.Expr.Width
import CustomIsa.Proofs.Extension.Document
import CustomIsa.Proofs.Foundations
import CustomIsa.Proofs.Json.Text
import CustomIsa.Proofs.Layout
import CustomIsa.Proofs.Layout.Division
import CustomIsa.Proofs.Match.Absorption
import CustomIsa.Proofs.Match.Alignment
import CustomIsa.Proofs.Match.Call
import CustomIsa.Proofs.Match.Candidate
import CustomIsa.Proofs.Match.Cover
import CustomIsa.Proofs.Match.Emission
import CustomIsa.Proofs.Match.Footprint
import CustomIsa.Proofs.Match.Guards
import CustomIsa.Proofs.Match.LoadOrder
import CustomIsa.Proofs.Match.OperandOrder
import CustomIsa.Proofs.Match.Optimal
import CustomIsa.Proofs.Match.RoundedSum
import CustomIsa.Proofs.Match.Rounding
import CustomIsa.Proofs.Match.Select
import CustomIsa.Proofs.Match.WellFormed
import CustomIsa.Proofs.Match.Worklist
import CustomIsa.Proofs.Match.Written
import CustomIsa.Proofs.Operator
import CustomIsa.Proofs.Range
import CustomIsa.Proofs.Registry.Declared
import CustomIsa.Proofs.Registry.Fill
import CustomIsa.Proofs.Registry.Indexes
import CustomIsa.Proofs.Registry.Load
import CustomIsa.Proofs.Registry.Lookup
import CustomIsa.Proofs.Registry.Order
import CustomIsa.Proofs.Registry.Reencode
import CustomIsa.Proofs.Registry.Refinement
import CustomIsa.Proofs.Registry.RoundTrip
import CustomIsa.Proofs.Registry.RoundingBase
import CustomIsa.Proofs.Registry.Specificity
import CustomIsa.Proofs.Template
import CustomIsa.Proofs.Template.Annotations
import CustomIsa.Proofs.Template.Arity
import CustomIsa.Proofs.Template.Compiled
import CustomIsa.Proofs.Template.Meaning
import CustomIsa.Proofs.Template.Written
import CustomIsa.Proofs.Text.Integer
import CustomIsa.Proofs.Text.Numeral
import CustomIsa.Proofs.Text.Pieces
import CustomIsa.Proofs.Word
import CustomIsa.Registry.Basic
import CustomIsa.Registry.Intake
import CustomIsa.Registry.Load
import CustomIsa.Settings
import CustomIsa.Template.Basic
import CustomIsa.Template.Compile
import CustomIsa.Template.Sexp
import CustomIsa.Text.Line
import CustomIsa.Text.Numeral
import CustomIsa.Word
