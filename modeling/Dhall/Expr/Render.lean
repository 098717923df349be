/-
# Written expressions

A node around strings is written by putting the strings into the form of its
construct. Where an expression stands decides whether it needs parentheses: each
place admits the constructs that bind at least as tightly as the place demands.

## Main definitions

* `Precedence` — the kinds of places, from the loosest to the tightest
* `Node.render` — the written form of a construct around written children
* `Node.placed` — the place of each child
* `Expr.render` — the written form of an expression
-/

import Dhall.Double.Shortest
import Dhall.Expr
import Dhall.Import.Written
import Dhall.Label.Quoted
import Dhall.Text.Escape

namespace Dhall

/-- A kind of place in a written expression. -/
inductive Precedence
  /-- Anything may stand here. -/
  | base
  /-- The operand of an annotation or of an arrow. -/
  | operand
  /-- The operand of a binary operator. -/
  | operandOf (o : Operator)
  /-- The function of an application. -/
  | function
  /-- The argument of an application. -/
  | argument
  /-- The expression before a dot. -/
  | primitive
  deriving DecidableEq, Repr

namespace Precedence

/-- How tightly an expression must bind to stand in the place. -/
def rank : Precedence → Nat
  | base => 0
  | operand => 1
  | operandOf o => 2 + o.rank
  | function => 15
  | argument => 16
  | primitive => 17

end Precedence

/-- The items between an opening and a closing text, with a separator. -/
def renderList (opening separator closing : String) (items : List String) : String :=
  opening ++ String.intercalate separator items ++ closing

/-- The written form of a definition, with a blank after it. -/
def Binding.render (b : Binding String) : String :=
  "let " ++ b.label.render ++ (b.annotation.map (" : " ++ ·)).getD "" ++ " = " ++ b.value ++ " "

/-- The written form of an integer always has a sign. -/
def renderInteger (i : Int64) : String :=
  if 0 ≤ i then "+" ++ toString i else toString i

namespace Node

variable {α β : Type}

/-- The written form of an optional type after an expression. -/
def renderType (type : Option String) : String :=
  (type.map (" : " ++ ·)).getD ""

/-- The written form of a construct whose children are written already. -/
def render : Node String → String
  | const c => c.render
  | var v => v.render
  | lam x domain body => "λ(" ++ x.render ++ " : " ++ domain ++ ") → " ++ body
  | pi x domain codomain =>
    if x = Label.placeholder then domain ++ " → " ++ codomain
    else "∀(" ++ x.render ++ " : " ++ domain ++ ") → " ++ codomain
  | app function argument => function ++ " " ++ argument
  | letIn bindings body => String.join (bindings.map Binding.render) ++ "in " ++ body
  | annot e type => e ++ " : " ++ type
  | assertion type => "assert : " ++ type
  | builtin b => b.render
  | op o left right => left ++ " " ++ o.render ++ " " ++ right
  | bool b => if b then "True" else "False"
  | ifThenElse condition yes no => "if " ++ condition ++ " then " ++ yes ++ " else " ++ no
  | natural n => toString n
  | integer i => renderInteger i
  | double d => d.render
  | text t => t.render
  | emptyList type => "[] : " ++ type
  | list items => renderList "[" ", " "]" items
  | present e => "Some " ++ e
  | recordType fields =>
    if fields.isEmpty then "\x7b\x7d"
    else renderList "\x7b " ", " " \x7d" (fields.toList.map fun (l, t) => l.render ++ " : " ++ t)
  | record fields =>
    if fields.isEmpty then "\x7b=\x7d"
    else renderList "\x7b " ", " " \x7d" (fields.toList.map fun (l, e) => l.render ++ " = " ++ e)
  | union alternatives =>
    renderList "< " " | " " >" (alternatives.toList.map fun (l, t) => l.render ++ renderType t)
  | merge handlers variant type => "merge " ++ handlers ++ " " ++ variant ++ renderType type
  | toMap e type => "toMap " ++ e ++ renderType type
  | field e l => e ++ "." ++ l.render
  | project e labels =>
    e ++ "." ++ renderList "\x7b " ", " " \x7d" (labels.labels.map Label.render)
  | projectType e type => e ++ ".(" ++ type ++ ")"
  | embed i => i.render

/-- The tightest place in which the construct stands without parentheses. -/
def precedence : Node α → Precedence
  | lam .. | pi .. | letIn .. | annot .. | assertion _ | ifThenElse .. | emptyList _ | present _
  | merge .. | toMap .. => .base
  | op o _ _ => .operandOf o
  | app .. => .function
  | embed _ => .argument
  | const _ | var _ | builtin _ | bool _ | natural _ | integer _ | double _ | text _ | list _
  | recordType _ | record _ | union _ | field .. | project .. | projectType .. => .primitive

/-- The children, each with the place in which it stands. -/
def placed : Node α → Node (Precedence × α)
  | pi x domain codomain =>
    pi x (if x = Label.placeholder then .operand else .base, domain) (.base, codomain)
  | app function argument => app (.function, function) (.argument, argument)
  | annot e type => annot (.operand, e) (.base, type)
  | op o left right => op o (.operandOf o, left) (.operandOf o, right)
  | present e => present (.argument, e)
  | merge handlers variant type =>
    merge (.argument, handlers) (.argument, variant) (type.map (.function, ·))
  | toMap e type => toMap (.argument, e) (type.map (.function, ·))
  | field e l => field (.primitive, e) l
  | project e labels => project (.primitive, e) labels
  | projectType e type => projectType (.primitive, e) (.base, type)
  | n => n.map (.base, ·)

end Node

namespace Expr

/-- The written form of an expression in a place. -/
def renderAt : Expr → Precedence → String :=
  fold fun n place =>
    let written := (n.placed.map fun (p, renderChild) => renderChild p).render
    if n.precedence.rank < place.rank then "(" ++ written ++ ")" else written

/-- The written form of an expression. -/
def render (e : Expr) : String :=
  e.renderAt .base

/-- The written form of the outermost construct around children that are each written
on their own, without the parentheses that their places demand. -/
def renderLoose (e : Expr) : String :=
  (e.node.map render).render

end Expr

end Dhall
