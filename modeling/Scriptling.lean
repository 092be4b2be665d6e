import Scriptling.LineIndex
import Scriptling.Grammar.Reader
import Scriptling.Value.Order
import Scriptling.Eval.Fuel
import Scriptling.Main
import Scriptling.Proofs.Lexeme.Segmentation
import Scriptling.Proofs.Grammar.Exact
import Scriptling.Proofs.Session.Discipline
import Scriptling.Proofs.Eval.Containment
import Scriptling.Proofs.Ideal.Refinement
import Scriptling.Proofs.Lexeme.Layout
import Scriptling.Proofs.Grammar.Image
import Scriptling.Proofs.Grammar.Viable
import Scriptling.Proofs.Grammar.Settled
import Scriptling.Proofs.Grammar.Furthest
import Scriptling.Proofs.Frames.Chain
import Scriptling.Proofs.Eval.Independence
import Scriptling.Proofs.Eval.Termination
import Scriptling.Proofs.Session.Termination
import Scriptling.Proofs.Grammar.Steady
import Scriptling.Proofs.Lexeme.Sheet
import Scriptling.Proofs.Session.Relaid
import Scriptling.Proofs.Run.Congruence
import Scriptling.Proofs.Eval.Node
import Scriptling.Proofs.Run.Leads
import Scriptling.Proofs.Eval.Printing
import Scriptling.Proofs.Eval.Limit
import Scriptling.Proofs.Session.Limit
import Scriptling.Proofs.Lexeme.Joined
import Scriptling.Proofs.Session.Joined
import Scriptling.Proofs.Eval.Guarded
import Scriptling.Proofs.Session.Table
import Scriptling.Proofs.Eval.Resolution
import Scriptling.Proofs.Session.Linking
import Scriptling.Proofs.Eval.Labels
import Scriptling.Proofs.Value.RoundTrip
import Scriptling.Proofs.Session.Ordinary
import Scriptling.Proofs.Value.Expression
import Scriptling.Proofs.Eval.Ordinary
import Scriptling.Proofs.Value.Order
import Scriptling.Proofs.Frames.Tree
import Scriptling.Proofs.Eval.Rounds
import Scriptling.Proofs.Eval.Counting
import Scriptling.Proofs.Grammar.WrittenOut
import Scriptling.Proofs.Value.Legible
import Scriptling.Proofs.Position.Exact
import Scriptling.Proofs.Eval.Remainder
import Scriptling.Proofs.Grammar.Progress
import Scriptling.Proofs.Grammar.Termination
import Scriptling.Proofs.Grammar.Selection
