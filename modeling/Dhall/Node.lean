/-
# One layer of syntax

A node is one construct of the language around children of some type. Expressions
are nodes around expressions; written nodes are nodes around strings. What a
construct binds, in which order its children stand and what else it holds is said
here once, by `scopedChildren` and `traverse`.

## Main definitions

* `Node` — one construct, with children of type `α`
* `Node.scopedChildren` — the children in order, each with the labels that the
  construct binds around it
* `Node.map`, `Node.traverse` — replace the children, purely or with effects
-/

import Dhall.Builtin
import Dhall.Const
import Dhall.Double
import Dhall.Import
import Dhall.LabelMap
import Dhall.Operator
import Dhall.Text
import Dhall.Variable

namespace Dhall

/-- One definition of a `let`. -/
structure Binding (α : Type) where
  /-- The name that is defined. -/
  label : Label
  /-- The type, if one is stated. -/
  annotation : Option α
  /-- The definition. -/
  value : α
  deriving DecidableEq

/-- One construct of the language. Natural numbers and integers are 64-bit words. -/
inductive Node (α : Type)
  /-- `Type`, `Kind` or `Sort`. -/
  | const (c : Const)
  /-- `x@n` -/
  | var (v : Variable)
  /-- `λ(x : domain) → body` -/
  | lam (x : Label) (domain body : α)
  /-- `∀(x : domain) → codomain` -/
  | pi (x : Label) (domain codomain : α)
  /-- `function argument` -/
  | app (function argument : α)
  /-- `let x = a let y : B = b in body`. Each definition sees the ones before it. -/
  | letIn (bindings : List (Binding α)) (body : α)
  /-- `e : type` -/
  | annot (e type : α)
  /-- `assert : type` -/
  | assertion (type : α)
  /-- A built-in type or function. -/
  | builtin (b : Builtin)
  /-- `left o right` -/
  | op (o : Operator) (left right : α)
  /-- `True` or `False`. -/
  | bool (b : Bool)
  /-- `if condition then yes else no` -/
  | ifThenElse (condition yes no : α)
  /-- A natural number. -/
  | natural (n : UInt64)
  /-- An integer, written with a sign. -/
  | integer (i : Int64)
  /-- A floating-point number. -/
  | double (d : Double)
  /-- `"a${x}b"` -/
  | text (t : Text α)
  /-- `[] : type`, where `type` is the type of the whole list. -/
  | emptyList (type : α)
  /-- `[a, b]` -/
  | list (items : List α)
  /-- `Some e` -/
  | present (e : α)
  /-- `{ k : T }` -/
  | recordType (fields : Entries α none)
  /-- `{ k = e }` -/
  | record (fields : Entries α none)
  /-- `< k : T | l >` -/
  | union (alternatives : Entries (Option α) none)
  /-- `merge handlers variant : type` -/
  | merge (handlers variant : α) (type : Option α)
  /-- `toMap e : type` -/
  | toMap (e : α) (type : Option α)
  /-- `e.l` -/
  | field (e : α) (l : Label)
  /-- `e.{ k, l }` -/
  | project (e : α) (labels : LabelSet)
  /-- `e.(type)` -/
  | projectType (e type : α)
  /-- An import that nothing has resolved yet. -/
  | embed (i : Import)
  deriving DecidableEq

namespace Binding

variable {α β : Type}

/-- The same definition with a function applied to its children. -/
def map (f : α → β) (b : Binding α) : Binding β :=
  ⟨b.label, b.annotation.map f, f b.value⟩

/-- The annotation and the value. -/
def children (b : Binding α) : List α :=
  b.annotation.toList ++ [b.value]

/-- Run an effect at the annotation and at the value, and keep the results. -/
def traverse {m : Type → Type} [Monad m] (f : α → m β) (b : Binding α) : m (Binding β) := do
  let annotation ← b.annotation.mapM f
  let value ← f b.value
  pure ⟨b.label, annotation, value⟩

/-- The children of definitions that follow each other inside `scope`. -/
def scopedChildren (scope : List Label) : List (Binding α) → List (List Label × α)
  | [] => []
  | b :: rest => b.children.map (scope, ·) ++ scopedChildren (scope ++ [b.label]) rest

/-- Run an effect at the children of definitions that follow each other inside
`scope`, and keep the results. -/
def traverseAll {m : Type → Type} [Monad m] (f : List Label → α → m β) (scope : List Label) :
    List (Binding α) → m (List (Binding β))
  | [] => pure []
  | b :: rest => do
    let b' ← b.traverse (f scope)
    let rest ← traverseAll f (scope ++ [b.label]) rest
    pure (b' :: rest)

end Binding

namespace Node

variable {α β : Type}

/-- The same construct with a function applied to its children. -/
def map (f : α → β) : Node α → Node β
  | const c => const c
  | var v => var v
  | lam x domain body => lam x (f domain) (f body)
  | pi x domain codomain => pi x (f domain) (f codomain)
  | app function argument => app (f function) (f argument)
  | letIn bindings body => letIn (bindings.map (Binding.map f)) (f body)
  | annot e type => annot (f e) (f type)
  | assertion type => assertion (f type)
  | builtin b => builtin b
  | op o left right => op o (f left) (f right)
  | bool b => bool b
  | ifThenElse condition yes no => ifThenElse (f condition) (f yes) (f no)
  | natural n => natural n
  | integer i => integer i
  | double d => double d
  | text t => text (t.map f)
  | emptyList type => emptyList (f type)
  | list items => list (items.map f)
  | present e => present (f e)
  | recordType fields => recordType (fields.map f)
  | record fields => record (fields.map f)
  | union alternatives => union (alternatives.map (Option.map f))
  | merge handlers variant type => merge (f handlers) (f variant) (type.map f)
  | toMap e type => toMap (f e) (type.map f)
  | field e l => field (f e) l
  | project e labels => project (f e) labels
  | projectType e type => projectType (f e) (f type)
  | embed i => embed i

/-- The children in order, each with the labels that the construct binds around
it, the innermost last. Annotations come before what they annotate in a `let` and
after it elsewhere, and fields and alternatives come by ascending label. -/
def scopedChildren : Node α → List (List Label × α)
  | lam x domain body => [([], domain), ([x], body)]
  | pi x domain codomain => [([], domain), ([x], codomain)]
  | app function argument => [([], function), ([], argument)]
  | letIn bindings body =>
    Binding.scopedChildren [] bindings ++ [(bindings.map Binding.label, body)]
  | annot e type => [([], e), ([], type)]
  | assertion type => [([], type)]
  | op _ left right => [([], left), ([], right)]
  | ifThenElse condition yes no => [([], condition), ([], yes), ([], no)]
  | text t => t.values.map ([], ·)
  | emptyList type => [([], type)]
  | list items => items.map ([], ·)
  | present e => [([], e)]
  | recordType fields => fields.values.map ([], ·)
  | record fields => fields.values.map ([], ·)
  | union alternatives => (alternatives.values.flatMap Option.toList).map ([], ·)
  | merge handlers variant type => ([], handlers) :: ([], variant) :: type.toList.map ([], ·)
  | toMap e type => ([], e) :: type.toList.map ([], ·)
  | field e _ => [([], e)]
  | project e _ => [([], e)]
  | projectType e type => [([], e), ([], type)]
  | const _ | var _ | builtin _ | bool _ | natural _ | integer _ | double _ | embed _ => []

/-- The children in order. -/
def children (n : Node α) : List α :=
  n.scopedChildren.map Prod.snd

/-- The construct without its children. -/
def shape (n : Node α) : Node Unit :=
  n.map fun _ => ()

/-- Run an effect at each child, in order, with the labels that the construct binds
around the child, and keep the results in the place of the children. -/
def traverse {m : Type → Type} [Monad m] (f : List Label → α → m β) : Node α → m (Node β)
  | const c => pure (const c)
  | var v => pure (var v)
  | lam x domain body => do
    let domain ← f [] domain
    let body ← f [x] body
    pure (lam x domain body)
  | pi x domain codomain => do
    let domain ← f [] domain
    let codomain ← f [x] codomain
    pure (pi x domain codomain)
  | app function argument => do
    let function ← f [] function
    let argument ← f [] argument
    pure (app function argument)
  | letIn bindings body => do
    let bindings' ← Binding.traverseAll f [] bindings
    let body ← f (bindings.map Binding.label) body
    pure (letIn bindings' body)
  | annot e type => do
    let e ← f [] e
    let type ← f [] type
    pure (annot e type)
  | assertion type => do pure (assertion (← f [] type))
  | builtin b => pure (builtin b)
  | op o left right => do
    let left ← f [] left
    let right ← f [] right
    pure (op o left right)
  | bool b => pure (bool b)
  | ifThenElse condition yes no => do
    let condition ← f [] condition
    let yes ← f [] yes
    let no ← f [] no
    pure (ifThenElse condition yes no)
  | natural n => pure (natural n)
  | integer i => pure (integer i)
  | double d => pure (double d)
  | text t => do pure (text (← t.traverse (f [])))
  | emptyList type => do pure (emptyList (← f [] type))
  | list items => do pure (list (← items.mapM (f [])))
  | present e => do pure (present (← f [] e))
  | recordType fields => do pure (recordType (← fields.traverse fun _ => f []))
  | record fields => do pure (record (← fields.traverse fun _ => f []))
  | union alternatives => do
    pure (union (← alternatives.traverse fun _ alternative => alternative.mapM (f [])))
  | merge handlers variant type => do
    let handlers ← f [] handlers
    let variant ← f [] variant
    let type ← type.mapM (f [])
    pure (merge handlers variant type)
  | toMap e type => do
    let e ← f [] e
    let type ← type.mapM (f [])
    pure (toMap e type)
  | field e l => do pure (field (← f [] e) l)
  | project e labels => do pure (project (← f [] e) labels)
  | projectType e type => do
    let e ← f [] e
    let type ← f [] type
    pure (projectType e type)
  | embed i => pure (embed i)

end Node

end Dhall
