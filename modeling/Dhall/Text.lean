/-
# Interpolated text

A text literal is a string followed by interpolated values, each with the string
after it: `"a${x}b${y}c"` is the head `a` and the tail `(x, b), (y, c)`. The same
literal can be seen as a list of pieces. `pieces` and `ofPieces` pass between the
two views: the first leaves out empty strings and the second joins neighbouring
strings.
-/

namespace Dhall

/-- A text literal that interpolates values of type `α`. -/
structure Text (α : Type) where
  /-- The text before the first interpolation. -/
  head : String
  /-- The interpolated values, each with the text after it. -/
  tail : List (α × String)
  deriving DecidableEq, Repr

/-- A part of a text literal. -/
inductive Text.Piece (α : Type)
  /-- Plain text. -/
  | literal (s : String)
  /-- An interpolated value. -/
  | interpolation (a : α)
  deriving DecidableEq, Repr

namespace Text

variable {α β : Type}

/-- A literal without interpolations. -/
def plain (s : String) : Text α := ⟨s, []⟩

/-- The contents of a literal without interpolations. -/
def plain? (t : Text α) : Option String :=
  if t.tail.isEmpty then some t.head else none

/-- A string as a list of at most one piece. -/
def literalPieces (s : String) : List (Piece α) :=
  if s = "" then [] else [.literal s]

/-- The parts of a literal in order, without empty strings. -/
def pieces (t : Text α) : List (Piece α) :=
  literalPieces t.head ++ t.tail.flatMap fun (a, s) => .interpolation a :: literalPieces s

/-- The literal with the given parts; neighbouring strings are joined. -/
def ofPieces : List (Piece α) → Text α
  | [] => plain ""
  | .literal s :: rest =>
    let t := ofPieces rest
    ⟨s ++ t.head, t.tail⟩
  | .interpolation a :: rest =>
    let t := ofPieces rest
    ⟨"", (a, t.head) :: t.tail⟩

/-- The literal that consists of chunks, each a string and a value after it, and of
a last string. -/
def ofChunks : List (String × α) → String → Text α
  | [], suffix => plain suffix
  | (s, a) :: rest, suffix =>
    let t := ofChunks rest suffix
    ⟨s, (a, t.head) :: t.tail⟩

/-- The interpolated values in order. -/
def values (t : Text α) : List α :=
  t.tail.map Prod.fst

/-- The same literal with a function applied to each interpolated value. -/
def map (f : α → β) (t : Text α) : Text β :=
  ⟨t.head, t.tail.map fun (a, s) => (f a, s)⟩

/-- Run an effect at each interpolated value, in order, and keep the results. -/
def traverse {m : Type → Type} [Monad m] (f : α → m β) (t : Text α) : m (Text β) := do
  let tail ← t.tail.mapM fun (a, s) => do pure (← f a, s)
  pure ⟨t.head, tail⟩

/-- Run an effect at an interpolated value. -/
def Piece.traverse {m : Type → Type} [Monad m] (f : α → m β) : Piece α → m (Piece β)
  | .literal s => pure (.literal s)
  | .interpolation a => do pure (.interpolation (← f a))

end Text

end Dhall
