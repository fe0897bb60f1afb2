import LineLisp.Text.Blank
import LineLisp.Text.Utf8
import LineLisp.Fixnum
import LineLisp.Numeral
import LineLisp.Token
import LineLisp.Expr.Basic
import LineLisp.Expr.Printer
import LineLisp.ReadError
import LineLisp.Expr.Reader
import LineLisp.Value
import LineLisp.Arity
import LineLisp.EvalError
import LineLisp.Env
import LineLisp.Operand
import LineLisp.Operator
import LineLisp.Eval
import LineLisp.Session
import LineLisp.Stream
import LineLisp.Repl
import LineLisp.Script
import LineLisp.Arguments
import LineLisp.CommandLine
import LineLisp.Directory
import LineLisp.Main
import LineLisp.Proofs.Application
import LineLisp.Proofs.Exact
import LineLisp.Proofs.Overflow
import LineLisp.Proofs.Layout
import LineLisp.Proofs.LongestMatch
import LineLisp.Proofs.Numerals
import LineLisp.Proofs.Grammar
import LineLisp.Proofs.Descent
import LineLisp.Proofs.Names
import LineLisp.Proofs.RoundTrip
import LineLisp.Proofs.Outcomes
import LineLisp.Proofs.Writes
import LineLisp.Proofs.Provenance
import LineLisp.Proofs.Reachable
import LineLisp.Proofs.Decoding
import LineLisp.Proofs.Listing
import LineLisp.Proofs.Strategy
import LineLisp.Proofs.Correspondence
import LineLisp.Proofs.Reads
import LineLisp.Proofs.Contexts
import LineLisp.Proofs.Renaming
import LineLisp.Proofs.Substitution
import LineLisp.Proofs.Scan
import LineLisp.Proofs.Unevaluated
import LineLisp.Proofs.Lines
import LineLisp.Proofs.Transcript
import LineLisp.Proofs.Dialogue
import LineLisp.Proofs.Scripts
import LineLisp.Proofs.Agreement
import LineLisp.Proofs.Concatenation
import LineLisp.Proofs.FailingInput
import LineLisp.Proofs.OneLine
import LineLisp.Proofs.FullOutput
import LineLisp.Proofs.Replacement
import LineLisp.Proofs.Recoding
import LineLisp.Proofs.Depth
import LineLisp.Proofs.Cuts
import LineLisp.Proofs.Extensions
import LineLisp.Proofs.Trimming
import LineLisp.Proofs.FrontEnds
import LineLisp.Proofs.Nesting
import LineLisp.Proofs.Integers
import LineLisp.Proofs.Totals
import LineLisp.Proofs.Quotients
import LineLisp.Proofs.ByteOrder
import LineLisp.Proofs.History
import LineLisp.Proofs.Guards
