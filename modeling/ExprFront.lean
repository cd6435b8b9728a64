import ExprFront.Expr.Value
import ExprFront.Folder
import ExprFront.Main
import ExprFront.Proofs.Continuation
import ExprFront.Proofs.Reading
import ExprFront.Proofs.Grammar
import ExprFront.Proofs.Grammar.Sound
import ExprFront.Proofs.Grammar.Complete
import ExprFront.Proofs.Machine
import ExprFront.Proofs.Machine.Simulation
import ExprFront.Proofs.Grammar.Spelling
import ExprFront.Proofs.Machine.Errors
import ExprFront.Proofs.Machine.Spelled
import ExprFront.Proofs.RoundTrip
import ExprFront.Proofs.Counter.Limit
import ExprFront.Proofs.Counter.Balance
import ExprFront.Proofs.Walk.Progress
import ExprFront.Proofs.Machine.Greedy
import ExprFront.Proofs.Layout
import ExprFront.Proofs.Stability
import ExprFront.Proofs.Causes
import ExprFront.Proofs.Grammar.WellFormed
import ExprFront.Proofs.Indifference
import ExprFront.Proofs.Readability
import ExprFront.Proofs.Precedence
import ExprFront.Proofs.Outcomes
import ExprFront.Proofs.RuleOrder
import ExprFront.Proofs.Depth
import ExprFront.Proofs.Parameters
import ExprFront.Proofs.Slices.Scanning
import ExprFront.Proofs.Listing
import ExprFront.Proofs.Outlines
import ExprFront.Proofs.Values
import ExprFront.Proofs.Position.Words
