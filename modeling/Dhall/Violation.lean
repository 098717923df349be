/-
# Violated invariants

Expressions are expected to be free of imports and well typed. Where a violated
expectation leaves nothing sensible to do, evaluation stops with one of the causes
below.
-/

import Dhall.Expr.Equality
import Dhall.Expr.Render

namespace Dhall

/-- Why evaluation stopped. -/
inductive Violation
  /-- Moving the index of a variable leaves the range of indices. -/
  | negativeShift (var : Variable) (delta : Int64)
  /-- An import is evaluated. -/
  | unresolvedImport (i : Import)
  /-- `∧` meets a field that is not a record on both sides. -/
  | recordMismatch (field : Label) (left right : Expr)
  /-- `⩓` meets a field whose types neither merge nor agree. -/
  | recordTypeMismatch (field : Label) (left right : Expr)
  /-- A `let` has no definitions. -/
  | emptyLet
  /-- A list literal without a type has no items. -/
  | emptyList
  deriving DecidableEq

namespace Violation

/-- The description of a violation. -/
def message : Violation → String
  | negativeShift var delta =>
    "shift: shifting " ++ var.render ++ " by " ++ toString delta ++ " gives a negative index"
  | unresolvedImport i => "normalize: unresolved import " ++ i.render
  | recordMismatch field left right =>
    "∧: cannot merge field `" ++ field.render ++ "`: " ++ left.render ++ " and " ++
      right.render ++ " are not both records"
  | recordTypeMismatch field left right =>
    "⩓: cannot merge field `" ++ field.render ++ "`: types " ++ left.render ++ " and " ++
      right.render ++ " are incompatible"
  | emptyLet => "let: empty let has no bindings"
  | emptyList => "list: an empty list literal needs an annotation"

/-- The text with which a program that meets the violation stops. -/
def report (v : Violation) : String :=
  "internal error: " ++ v.message

end Violation

end Dhall
