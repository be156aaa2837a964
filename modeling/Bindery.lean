import Bindery.Tree.Listing
import Bindery.Scope
import Bindery.Text.Quoted
import Bindery.Text.Blank
import Bindery.Number.Decimal
import Bindery.Eval.CallStack
import Bindery.Eval.Value
import Bindery.Eval.Limits
import Bindery.Eval.Run
import Bindery.Proofs.Grammar.Derivation
import Bindery.Proofs.Grammar.Readers
import Bindery.Proofs.Grammar.Rows
import Bindery.Proofs.Grammar.Soundness
import Bindery.Proofs.Grammar.Completeness
import Bindery.Proofs.Grammar.Program
import Bindery.Proofs.Grammar.Follow
import Bindery.Proofs.Scope.Rules
import Bindery.Proofs.Eval.Calls
import Bindery.Proofs.Eval.Frames
import Bindery.Proofs.Eval.Simulation
import Bindery.Proofs.Eval.Activation
import Bindery.Proofs.Eval.Alike
import Bindery.Proofs.Eval.Abreast
import Bindery.Proofs.Eval.Twin
import Bindery.Proofs.Eval.Lockstep
import Bindery.Proofs.Eval.Opaque
import Bindery.Proofs.Eval.Direct
import Bindery.Proofs.Grammar.Likeness
import Bindery.Proofs.Grammar.Lines
import Bindery.Proofs.Grammar.Slices
import Bindery.Proofs.Grammar.Refusal
import Bindery.Proofs.Grammar.Completion
import Bindery.Proofs.Grammar.Errors
import Bindery.Proofs.Token.Lines
import Bindery.Proofs.Token.Names
import Bindery.Proofs.Token.Slices
import Bindery.Proofs.Tree.Lines
import Bindery.Proofs.Tree.Slices
import Bindery.Proofs.Tree.Spans
import Bindery.Proofs.Scope.Nearest
import Bindery.Proofs.Eval.Discipline
import Bindery.Proofs.Eval.History
import Bindery.Proofs.Eval.Shape
import Bindery.Proofs.Eval.Instances
import Bindery.Proofs.Eval.Renaming
import Bindery.Proofs.Eval.Threshold
import Bindery.Proofs.Eval.Equality
import Bindery.Proofs.Eval.Storage
import Bindery.Proofs.Eval.Sober
import Bindery.Proofs.Eval.Numberless
import Bindery.Proofs.Eval.Earned
import Bindery.Proofs.Eval.Steady
import Bindery.Proofs.Eval.Tandem
import Bindery.Proofs.Eval.Parallel
import Bindery.Proofs.Eval.Accord
import Bindery.Proofs.Eval.Reuse
import Bindery.Proofs.Tree.Windows
import Bindery.Proofs.Tree.Layout
import Bindery.Proofs.Tree.Likeness
import Bindery.Proofs.Token.Munch
import Bindery.Proofs.Grammar.FirstError
import Bindery.Proofs.Eval.Likeness
import Bindery.Proofs.Eval.Relayout
import Bindery.Proofs.Eval.Balance
import Bindery.Proofs.Eval.Descent
import Bindery.Proofs.Eval.Failure
import Bindery.Proofs.Eval.Overflow
import Bindery.Proofs.Eval.Companion
import Bindery.Proofs.Eval.Depth
import Bindery.Proofs.Eval.Backtrace
import Bindery.Proofs.Token.LineBreak
import Bindery.Proofs.Tree.Index
import Bindery.Proofs.Eval.SharedNames
import Bindery.Proofs.Tree.Pieces
import Bindery.Proofs.Tree.Grouping
import Bindery.Proofs.Scope.Grouping
import Bindery.Proofs.Eval.Renumbering
import Bindery.Proofs.Eval.Grouping
import Bindery.Name.Table
import Bindery.Eval.Builder
import Bindery.Proofs.Name.Handles
import Bindery.Proofs.Eval.Properties
import Bindery.Phrase.Cursor
import Bindery.Proofs.Grammar.Cursor
import Bindery.Proofs.Grammar.Calls
import Bindery.Proofs.Grammar.Progress
