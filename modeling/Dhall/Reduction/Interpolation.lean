/-
# Normal text

A normal text literal interpolates no other literal, and a literal that consists of
one interpolation alone is that expression.
-/

import Dhall.Expr

namespace Dhall.Expr

/-- A piece of a literal, or the pieces of the literal that it interpolates. -/
def splicePiece : Text.Piece Expr → List (Text.Piece Expr)
  | .interpolation (text t) => t.pieces
  | piece => [piece]

/-- A literal, or the expression that is all it interpolates. -/
def ofText : Text Expr → Expr
  | ⟨head, [(e, last)]⟩ => if head = "" ∧ last = "" then e else text ⟨head, [(e, last)]⟩
  | t => text t

/-- The normal form of a literal whose interpolated expressions are normal. -/
def ofPieces (pieces : List (Text.Piece Expr)) : Expr :=
  ofText (Text.ofPieces (pieces.flatMap splicePiece))

end Dhall.Expr
