import Scriptlet.Interpreter
import Scriptlet.Value.Order
import Scriptlet.Proofs.Parsing.Outcome
import Scriptlet.Proofs.Parsing.Repetition
import Scriptlet.Proofs.Parsing.Recursion
import Scriptlet.Proofs.Language.Lexeme
import Scriptlet.Proofs.Language.Grammar
import Scriptlet.Proofs.Language.Rules
import Scriptlet.Proofs.Language.Soundness
import Scriptlet.Proofs.Language.Completeness
import Scriptlet.Proofs.Language.Rendering
import Scriptlet.Proofs.Evaluation.Restoration
import Scriptlet.Proofs.Semantics.Reference
import Scriptlet.Proofs.Semantics.Layout
import Scriptlet.Proofs.Semantics.Simulation
import Scriptlet.Proofs.Semantics.Adequacy
import Scriptlet.Proofs.Semantics.Refinement
import Scriptlet.Proofs.Evaluation.Lockstep
import Scriptlet.Proofs.Evaluation.Nesting
import Scriptlet.Proofs.Evaluation.CallLimit
import Scriptlet.Proofs.Evaluation.Backtrace
import Scriptlet.Proofs.Semantics.Isolation
import Scriptlet.Proofs.Language.Grafting
import Scriptlet.Proofs.Parsing.Failing
import Scriptlet.Proofs.Language.Faithful
import Scriptlet.Proofs.Language.Expectations
import Scriptlet.Proofs.Parsing.Progress
import Scriptlet.Proofs.Language.Honesty
import Scriptlet.Proofs.Language.Forms
import Scriptlet.Proofs.Language.Running
import Scriptlet.Proofs.Language.Termination
import Scriptlet.Proofs.Evaluation.BoundNames
import Scriptlet.Proofs.Evaluation.OutOfSight
import Scriptlet.Proofs.Semantics.Initializers
import Scriptlet.Proofs.Evaluation.Slots
import Scriptlet.Proofs.Evaluation.Safety
import Scriptlet.Proofs.Evaluation.Fuel
import Scriptlet.Proofs.Evaluation.Sessions
import Scriptlet.Proofs.Evaluation.FunctionTables
import Scriptlet.Proofs.Evaluation.SourceOrder
import Scriptlet.Proofs.Language.ValueText
import Scriptlet.Proofs.Evaluation.Chains
import Scriptlet.Proofs.Evaluation.Histories
import Scriptlet.Proofs.Evaluation.Scopings
import Scriptlet.Proofs.Tree.Parts
import Scriptlet.Proofs.Parsing.Alignment
import Scriptlet.Proofs.Language.Parallel
import Scriptlet.Proofs.Language.Layouts
import Scriptlet.Proofs.Language.Offsets
import Scriptlet.Proofs.Language.Execution
import Scriptlet.Proofs.Language.SyntaxErrors
import Scriptlet.Proofs.Evaluation.Exhaustion
import Scriptlet.Proofs.Evaluation.Labels
import Scriptlet.Proofs.Language.Precedence
import Scriptlet.Proofs.Evaluation.Calculations
import Scriptlet.Proofs.Evaluation.Assignments
import Scriptlet.Proofs.Evaluation.Effects
import Scriptlet.Proofs.Value.TotalOrder
import Scriptlet.Proofs.Value.UniqueText
import Scriptlet.Proofs.Parsing.Choice
import Scriptlet.Proofs.Language.Words
import Scriptlet.Proofs.Parsing.LeftFold
import Scriptlet.Proofs.Language.Literals
import Scriptlet.Proofs.Language.Locality
import Scriptlet.Proofs.Language.Locations
import Scriptlet.Proofs.Language.Skipping
