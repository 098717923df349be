/-
# Expressions

An expression is a node whose children are expressions. `Expr.fold` is recursion
over this type: it combines, at each node, what it has made of the children.
Functions that carry something down, such as a cutoff or a precedence, fold into
functions.

## Main definitions

* `Expr` — expressions, with a constructor-like abbreviation for each construct
* `Expr.fold` — structural recursion
* `Expr.size` — the number of nodes
-/

import Dhall.Node

namespace Dhall

/-- An expression. -/
inductive Expr
  /-- One construct around expressions. -/
  | mk (node : Node Expr)

namespace Expr

/-- The outermost construct. -/
def node : Expr → Node Expr
  | mk n => n

/-- `Type`, `Kind` or `Sort`. -/
@[match_pattern] abbrev const (c : Const) : Expr := mk (.const c)

/-- `x@n` -/
@[match_pattern] abbrev var (v : Variable) : Expr := mk (.var v)

/-- `λ(x : domain) → body` -/
@[match_pattern] abbrev lam (x : Label) (domain body : Expr) : Expr := mk (.lam x domain body)

/-- `∀(x : domain) → codomain` -/
@[match_pattern] abbrev pi (x : Label) (domain codomain : Expr) : Expr :=
  mk (.pi x domain codomain)

/-- `function argument` -/
@[match_pattern] abbrev app (function argument : Expr) : Expr := mk (.app function argument)

/-- `let x = a in body` -/
@[match_pattern] abbrev letIn (bindings : List (Binding Expr)) (body : Expr) : Expr :=
  mk (.letIn bindings body)

/-- `e : type` -/
@[match_pattern] abbrev annot (e type : Expr) : Expr := mk (.annot e type)

/-- `assert : type` -/
@[match_pattern] abbrev assertion (type : Expr) : Expr := mk (.assertion type)

/-- A built-in type or function. -/
@[match_pattern] abbrev builtin (b : Builtin) : Expr := mk (.builtin b)

/-- `left o right` -/
@[match_pattern] abbrev op (o : Operator) (left right : Expr) : Expr := mk (.op o left right)

/-- `True` or `False`. -/
@[match_pattern] abbrev bool (b : Bool) : Expr := mk (.bool b)

/-- `if condition then yes else no` -/
@[match_pattern] abbrev ifThenElse (condition yes no : Expr) : Expr :=
  mk (.ifThenElse condition yes no)

/-- A natural number. -/
@[match_pattern] abbrev natural (n : UInt64) : Expr := mk (.natural n)

/-- An integer. -/
@[match_pattern] abbrev integer (i : Int64) : Expr := mk (.integer i)

/-- A floating-point number. -/
@[match_pattern] abbrev double (d : Double) : Expr := mk (.double d)

/-- `"a${x}b"` -/
@[match_pattern] abbrev text (t : Text Expr) : Expr := mk (.text t)

/-- `[] : type` -/
@[match_pattern] abbrev emptyList (type : Expr) : Expr := mk (.emptyList type)

/-- `[a, b]` -/
@[match_pattern] abbrev list (items : List Expr) : Expr := mk (.list items)

/-- `Some e` -/
@[match_pattern] abbrev present (e : Expr) : Expr := mk (.present e)

/-- `{ k : T }` -/
@[match_pattern] abbrev recordType (fields : LabelMap Expr) : Expr := mk (.recordType fields)

/-- `{ k = e }` -/
@[match_pattern] abbrev record (fields : LabelMap Expr) : Expr := mk (.record fields)

/-- `< k : T | l >` -/
@[match_pattern] abbrev union (alternatives : LabelMap (Option Expr)) : Expr :=
  mk (.union alternatives)

/-- `merge handlers variant : type` -/
@[match_pattern] abbrev merge (handlers variant : Expr) (type : Option Expr) : Expr :=
  mk (.merge handlers variant type)

/-- `toMap e : type` -/
@[match_pattern] abbrev toMap (e : Expr) (type : Option Expr) : Expr := mk (.toMap e type)

/-- `e.l` -/
@[match_pattern] abbrev field (e : Expr) (l : Label) : Expr := mk (.field e l)

/-- `e.{ k, l }` -/
@[match_pattern] abbrev project (e : Expr) (labels : LabelSet) : Expr := mk (.project e labels)

/-- `e.(type)` -/
@[match_pattern] abbrev projectType (e type : Expr) : Expr := mk (.projectType e type)

/-- An import. -/
@[match_pattern] abbrev embed (i : Import) : Expr := mk (.embed i)

mutual

/-- Combine, at each node from the leaves up, the results at its children. -/
def fold {β : Type} (combine : Node β → β) : Expr → β
  | mk n => combine (foldNode combine n)

/-- The node of the results at the children. -/
def foldNode {β : Type} (combine : Node β → β) : Node Expr → Node β
  | .const c => .const c
  | .var v => .var v
  | .lam x domain body => .lam x (fold combine domain) (fold combine body)
  | .pi x domain codomain => .pi x (fold combine domain) (fold combine codomain)
  | .app function argument => .app (fold combine function) (fold combine argument)
  | .letIn bindings body => .letIn (foldBindings combine bindings) (fold combine body)
  | .annot e type => .annot (fold combine e) (fold combine type)
  | .assertion type => .assertion (fold combine type)
  | .builtin b => .builtin b
  | .op o left right => .op o (fold combine left) (fold combine right)
  | .bool b => .bool b
  | .ifThenElse condition yes no =>
    .ifThenElse (fold combine condition) (fold combine yes) (fold combine no)
  | .natural n => .natural n
  | .integer i => .integer i
  | .double d => .double d
  | .text ⟨head, tail⟩ => .text ⟨head, foldTail combine tail⟩
  | .emptyList type => .emptyList (fold combine type)
  | .list items => .list (foldList combine items)
  | .present e => .present (fold combine e)
  | .recordType fields => .recordType (foldFields combine fields)
  | .record fields => .record (foldFields combine fields)
  | .union alternatives => .union (foldAlternatives combine alternatives)
  | .merge handlers variant type =>
    .merge (fold combine handlers) (fold combine variant) (foldOption combine type)
  | .toMap e type => .toMap (fold combine e) (foldOption combine type)
  | .field e l => .field (fold combine e) l
  | .project e labels => .project (fold combine e) labels
  | .projectType e type => .projectType (fold combine e) (fold combine type)
  | .embed i => .embed i

/-- The results at definitions. -/
def foldBindings {β : Type} (combine : Node β → β) : List (Binding Expr) → List (Binding β)
  | [] => []
  | ⟨x, annotation, value⟩ :: rest =>
    ⟨x, foldOption combine annotation, fold combine value⟩ :: foldBindings combine rest

/-- The results at interpolated expressions. -/
def foldTail {β : Type} (combine : Node β → β) : List (Expr × String) → List (β × String)
  | [] => []
  | (e, s) :: rest => (fold combine e, s) :: foldTail combine rest

/-- The results at the items of a list. -/
def foldList {β : Type} (combine : Node β → β) : List Expr → List β
  | [] => []
  | e :: rest => fold combine e :: foldList combine rest

/-- The result at an expression that may be missing. -/
def foldOption {β : Type} (combine : Node β → β) : Option Expr → Option β
  | none => none
  | some e => some (fold combine e)

/-- The results at the fields of a record. -/
def foldFields {β : Type} (combine : Node β → β) {bound : Option Label} :
    Entries Expr bound → Entries β bound
  | .nil => .nil
  | .cons l above e rest => .cons l above (fold combine e) (foldFields combine rest)

/-- The results at the alternatives of a union. -/
def foldAlternatives {β : Type} (combine : Node β → β) {bound : Option Label} :
    Entries (Option Expr) bound → Entries (Option β) bound
  | .nil => .nil
  | .cons l above e rest => .cons l above (foldOption combine e) (foldAlternatives combine rest)

end

/-- The number of nodes. -/
def size : Expr → Nat :=
  fold fun n => n.children.foldr (· + ·) 1

end Expr

end Dhall
