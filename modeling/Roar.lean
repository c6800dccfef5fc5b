import Roar.Bytes
import Roar.Location
import Roar.Source.Path
import Roar.Source.Registry
import Roar.Diagnostic
import Roar.Number.Basic
import Roar.Number.Arithmetic
import Roar.Number.Decimal
import Roar.Token.Basic
import Roar.Token.Scanner
import Roar.Operator
import Roar.Grammar.Tree
import Roar.Grammar.Parser
import Roar.Program.Basic
import Roar.Program.Equality
import Roar.Program.Typing
import Roar.Program.Outline
import Roar.Analysis.Scope
import Roar.Analysis.Resolve
import Roar.Optimize.Fold
import Roar.Optimize.Pass
import Roar.Target.Names
import Roar.Target.Quoted
import Roar.Target.Script
import Roar.Compile
import Roar.CommandLine.Config
import Roar.CommandLine.Run
import Roar.Main
import Roar.Proofs.Scoping.Scopes
import Roar.Proofs.Scoping.Chains
import Roar.Proofs.Scoping.References
import Roar.Proofs.Scoping.Analysis
import Roar.Proofs.Optimize.Rules
import Roar.Proofs.Program.Nodes
import Roar.Proofs.Semantics.Value
import Roar.Proofs.Semantics.Eval
import Roar.Proofs.Semantics.Run
import Roar.Proofs.Number.Exact
import Roar.Proofs.Number.Shift
import Roar.Proofs.Optimize.References
import Roar.Proofs.Optimize.Arithmetic
import Roar.Proofs.Optimize.Outcome
import Roar.Proofs.Optimize.Calls
import Roar.Proofs.Optimize.Binding
import Roar.Proofs.Optimize.Behaviour
import Roar.Proofs.Optimize.Convergence
import Roar.Proofs.Scoping.Checker
import Roar.Proofs.Scoping.Soundness
import Roar.Proofs.Typing.Marks
import Roar.Proofs.Typing.Follows
import Roar.Proofs.Typing.Returns
import Roar.Proofs.Target.Annotated
import Roar.Proofs.Target.Names
import Roar.Proofs.Target.History
import Roar.Proofs.Target.Lockstep
import Roar.Proofs.Target.Mentions
import Roar.Proofs.Target.Hygiene
import Roar.Proofs.Number.Text
import Roar.Proofs.Target.Literals
import Roar.Proofs.Grammar.Derivation
import Roar.Proofs.Grammar.Reading
import Roar.Proofs.Grammar.Expressions
import Roar.Proofs.Token.Progress
import Roar.Proofs.Grammar.Soundness
import Roar.Proofs.Semantics.Trace
import Roar.Proofs.Typing.Judgement
import Roar.Proofs.Typing.Soundness
import Roar.Proofs.Optimize.NumberFree
import Roar.Proofs.Token.Lines
import Roar.Proofs.Token.LookAhead
import Roar.Proofs.Target.Reading
import Roar.Proofs.Target.Unambiguous
import Roar.Proofs.Grammar.Rendering
import Roar.Proofs.Grammar.Accepting
import Roar.Proofs.Grammar.Completeness
import Roar.Proofs.Grammar.RoundTrip
import Roar.Proofs.Token.Steps
import Roar.Proofs.Token.Tiling
import Roar.Proofs.Grammar.Moves
import Roar.Proofs.Grammar.Agreement
import Roar.Proofs.Grammar.Calls
import Roar.Proofs.Grammar.Halting
import Roar.Proofs.Compile.Diagnostics
import Roar.Proofs.CommandLine.Runs
import Roar.Proofs.Optimize.Nodes
import Roar.Proofs.Optimize.Types
import Roar.Proofs.Optimize.NormalForm
import Roar.Proofs.Target.Strings
import Roar.Proofs.Bytes
import Roar.Proofs.Target.Comments
import Roar.Proofs.Typing.Erasure
import Roar.Proofs.Token.Frames
import Roar.Proofs.Token.ClosingDash
import Roar.Proofs.Optimize.Dangling
import Roar.Proofs.Source.Path
import Roar.Proofs.Source.Registry
import Roar.Proofs.Number.Rounding
import Roar.Proofs.Number.Numeral
import Roar.Proofs.Number.Layout
import Roar.Proofs.Number.ReadsBack
import Roar.Proofs.Number.Shortest
import Roar.Proofs.Token.Rereading
import Roar.Proofs.Token.Inert
import Roar.Proofs.Target.Sameness
import Roar.Proofs.Token.Peeking
import Roar.Proofs.Typing.Operators
import Roar.Proofs.Optimize.Shifts
import Roar.Proofs.CommandLine.Arguments
