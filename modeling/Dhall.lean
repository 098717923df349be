import Dhall.AlphaNormal
import Dhall.Double.Shortest
import Dhall.Expr
import Dhall.Expr.Build
import Dhall.Import.Reading
import Dhall.Import.Written
import Dhall.Label.Quoted
import Dhall.LabelMap.Lemmas
import Dhall.Node.Traversal
import Dhall.Normalize
import Dhall.Text.Escape
import Dhall.Proofs.Traversal
import Dhall.Proofs.Subterm
import Dhall.Proofs.Variable
import Dhall.Proofs.Resolution
import Dhall.Proofs.Substitution
import Dhall.Proofs.Substitution.Commutation
import Dhall.Proofs.Renaming
import Dhall.Proofs.AlphaEquivalence
import Dhall.Proofs.NormalForm
import Dhall.Proofs.Idempotence
import Dhall.LabelMap.Related
import Dhall.Proofs.Agreement
import Dhall.Proofs.Correspondence
import Dhall.Proofs.Correspondence.Operator
import Dhall.Proofs.Correspondence.Builtin
import Dhall.Proofs.Correspondence.Normalize
import Dhall.Proofs.Invariance
import Dhall.Proofs.Arithmetic
import Dhall.Proofs.Arithmetic.Evaluation
import Dhall.Proofs.LetElimination
import Dhall.Proofs.Stripped.Normalize
import Dhall.Proofs.Fusion
import Dhall.Proofs.Outcome
import Dhall.Proofs.Admitted
import Dhall.Proofs.Admitted.Operator
import Dhall.Proofs.Abort
import Dhall.Proofs.Merge
import Dhall.Proofs.Mismatch
import Dhall.Proofs.Merge.DeepUnion
import Dhall.Proofs.Query
import Dhall.Proofs.Query.Selection
import Dhall.Proofs.Printing.Unambiguous
import Dhall.Proofs.Shift
import Dhall.Proofs.Occurrence
import Dhall.Proofs.Concatenation
import Dhall.Proofs.Merge.RecordTypes
import Dhall.Proofs.Shift.Range
import Dhall.Proofs.Printing.Variable
import Dhall.Proofs.Fold
import Dhall.Proofs.Escape
import Dhall.Proofs.Escape.Shown
import Dhall.Proofs.Pieces
import Dhall.Proofs.Shift.Commutation
import Dhall.Proofs.Visit
import Dhall.Proofs.Import
