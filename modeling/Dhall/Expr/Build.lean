/-
# Building expressions

Functions that assemble expressions from parts, as a parser does. Definitions and
list literals need at least one part.
-/

import Dhall.Violation

namespace Dhall.Expr

/-- A function applied to several arguments, one after the other. -/
def apply (f : Expr) (args : List Expr) : Expr :=
  args.foldl app f

/-- `A → B → result`, nested to the right. -/
def arrows (inputs : List Expr) (result : Expr) : Expr :=
  inputs.foldr (pi .placeholder) result

/-- A literal without interpolations. -/
def plainText (s : String) : Expr := text (.plain s)

/-- `List type` -/
def listOf (type : Expr) : Expr := app (builtin .list) type

/-- `Optional type` -/
def optionalOf (type : Expr) : Expr := app (builtin .optional) type

/-- `None type` -/
def noneOf (type : Expr) : Expr := app (builtin .optionalNone) type

/-- `let x = a let y = b in body` with at least one definition. -/
def makeLet (bindings : List (Binding Expr)) (body : Expr) : Except Violation Expr :=
  if bindings.isEmpty then .error .emptyLet else .ok (letIn bindings body)

/-- `[a, b]` with at least one item. -/
def makeList (items : List Expr) : Except Violation Expr :=
  if items.isEmpty then .error .emptyList else .ok (list items)

end Dhall.Expr
