import FormulaLang.Binary64
import FormulaLang.CommandLine.Binding
import FormulaLang.CommandLine.Options
import FormulaLang.CommandLine.Report
import FormulaLang.Decimal.Basic
import FormulaLang.Decimal.Read
import FormulaLang.Decimal.Shortest
import FormulaLang.Evaluation.Arithmetic
import FormulaLang.Evaluation.Builtin
import FormulaLang.Evaluation.Count
import FormulaLang.Evaluation.Error
import FormulaLang.Evaluation.Run
import FormulaLang.Evaluation.State
import FormulaLang.Main
import FormulaLang.Operator
import FormulaLang.Program.Basic
import FormulaLang.Program.Cursor
import FormulaLang.Program.Parse
import FormulaLang.Program.ParseError
import FormulaLang.Program.Reader
import FormulaLang.Program.Render
import FormulaLang.Proofs.ArgumentBounds
import FormulaLang.Proofs.Batch
import FormulaLang.Proofs.BigStep
import FormulaLang.Proofs.Bindings
import FormulaLang.Proofs.BuiltinNames
import FormulaLang.Proofs.ByteOrder
import FormulaLang.Proofs.Calls
import FormulaLang.Proofs.Commuting
import FormulaLang.Proofs.Composition
import FormulaLang.Proofs.ConditionalLoop
import FormulaLang.Proofs.Contexts
import FormulaLang.Proofs.CountedLoop
import FormulaLang.Proofs.Counters
import FormulaLang.Proofs.Descent
import FormulaLang.Proofs.Dump
import FormulaLang.Proofs.ErrorPosition
import FormulaLang.Proofs.FailedAssignment
import FormulaLang.Proofs.Failure
import FormulaLang.Proofs.FirstError
import FormulaLang.Proofs.Fit
import FormulaLang.Proofs.FloatBits
import FormulaLang.Proofs.Follow
import FormulaLang.Proofs.Footprint
import FormulaLang.Proofs.Fuel
import FormulaLang.Proofs.Grammar
import FormulaLang.Proofs.Grouping
import FormulaLang.Proofs.HostCalls
import FormulaLang.Proofs.Locality
import FormulaLang.Proofs.LongestMatch
import FormulaLang.Proofs.Lookahead
import FormulaLang.Proofs.LoopCounts
import FormulaLang.Proofs.LoopDepth
import FormulaLang.Proofs.Nearest
import FormulaLang.Proofs.Nodes
import FormulaLang.Proofs.Numeral
import FormulaLang.Proofs.ParseCorrect
import FormulaLang.Proofs.Phase
import FormulaLang.Proofs.Prolong
import FormulaLang.Proofs.PullParser
import FormulaLang.Proofs.Purity
import FormulaLang.Proofs.ReadComplete
import FormulaLang.Proofs.ReadSound
import FormulaLang.Proofs.Rebinding
import FormulaLang.Proofs.Refusal
import FormulaLang.Proofs.RenderCorrect
import FormulaLang.Proofs.Rendered
import FormulaLang.Proofs.Rerun
import FormulaLang.Proofs.Rescan
import FormulaLang.Proofs.Restart
import FormulaLang.Proofs.RoundTrip
import FormulaLang.Proofs.Rounding
import FormulaLang.Proofs.RunCorrect
import FormulaLang.Proofs.RunSound
import FormulaLang.Proofs.Script
import FormulaLang.Proofs.ShortestText
import FormulaLang.Proofs.SignedNumeral
import FormulaLang.Proofs.Sources
import FormulaLang.Proofs.Spans
import FormulaLang.Proofs.Speculation
import FormulaLang.Proofs.Spelling
import FormulaLang.Proofs.TreeTokens
import FormulaLang.Table
import FormulaLang.Text.Blank
import FormulaLang.Text.Terminal
import FormulaLang.Token.Basic
import FormulaLang.Token.Scan
