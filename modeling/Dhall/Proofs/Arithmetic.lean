/-
# First-order arithmetic

The terms of this fragment compute a natural number or a truth value. They mention the
number `n` and the truth value `b`, and bind further names for numbers with `let`, with
functions that are applied at once and with the step of a loop. What such a term computes
is known without evaluating it: natural numbers are unbounded, and a name stands for the
value that its binder gave to it.

## Main definitions

* `Arithmetic` — terms, by the type of what they compute
* `Arithmetic.toExpr` — a term as an expression
* `Arithmetic.Scoped` — every variable has a binder
* `Arithmetic.value` — what a term computes
* `Arithmetic.Bounded` — everything that is computed on the way is a 64-bit word
* `Arithmetic.program` — a term applied to values of `n` and `b`
-/

import Dhall.Normalize
import Mathlib.Logic.Function.Iterate

namespace Dhall

/-- The types of the values that first-order arithmetic computes. -/
inductive Scalar
  /-- Natural numbers. -/
  | natural
  /-- Truth values. -/
  | boolean

namespace Scalar

/-- The values of a type. -/
abbrev Value : Scalar → Type
  | natural => Nat
  | boolean => Bool

/-- Whether an expression is the literal of a value. -/
def Denotes : (s : Scalar) → Expr → s.Value → Prop
  | natural, e, v => ∃ n : UInt64, e = .natural n ∧ n.toNat = v
  | boolean, e, v => e = .bool v

end Scalar

/-- Whether an expression is a literal of any type. -/
def Expr.isLiteral : Expr → Bool
  | .natural _ | .bool _ | .integer _ | .double _ | .text _ => true
  | _ => false

namespace Arithmetic

/-- The label of the truth value that terms mention. -/
abbrev flagLabel : Label := "b"

/-- An operation on two numbers. -/
inductive Calculation
  /-- `l + r` -/
  | plus
  /-- `l * r` -/
  | times
  /-- `Natural/subtract l r` -/
  | subtract
  deriving DecidableEq

/-- An operation on two truth values. -/
inductive Connective
  /-- `l && r` -/
  | and
  /-- `l || r` -/
  | or
  /-- `l == r` -/
  | equal
  /-- `l != r` -/
  | notEqual
  deriving DecidableEq

/-- A property of a number. -/
inductive Test
  /-- `Natural/isZero e` -/
  | isZero
  /-- `Natural/even e` -/
  | even
  /-- `Natural/odd e` -/
  | odd
  deriving DecidableEq

namespace Calculation

/-- The operation on expressions. -/
def toExpr : Calculation → Expr → Expr → Expr
  | plus, l, r => .op .plus l r
  | times, l, r => .op .times l r
  | subtract, l, r => .app (.app (.builtin .naturalSubtract) l) r

/-- The operation on numbers. Subtraction takes the first number from the second, and no
more than that. -/
def value : Calculation → Nat → Nat → Nat
  | plus, l, r => l + r
  | times, l, r => l * r
  | subtract, l, r => r - l

end Calculation

namespace Connective

/-- The operator. -/
def toOperator : Connective → Operator
  | and => .and
  | or => .or
  | equal => .equal
  | notEqual => .notEqual

/-- The operation on truth values. -/
def value : Connective → Bool → Bool → Bool
  | and, l, r => l && r
  | or, l, r => l || r
  | equal, l, r => l == r
  | notEqual, l, r => l != r

/-- Whether the left truth value determines the result. -/
def decided : Connective → Bool → Bool
  | and, l => !l
  | or, l => l
  | equal, _ | notEqual, _ => false

end Connective

namespace Test

/-- The built-in function. -/
def toBuiltin : Test → Builtin
  | isZero => .naturalIsZero
  | even => .naturalEven
  | odd => .naturalOdd

/-- The property. -/
def value : Test → Nat → Bool
  | isZero, n => n = 0
  | even, n => n % 2 = 0
  | odd, n => n % 2 ≠ 0

end Test

end Arithmetic

open Arithmetic in
/-- A term of first-order arithmetic. -/
inductive Arithmetic : Scalar → Type
  /-- A number. -/
  | number (n : UInt64) : Arithmetic .natural
  /-- `x@i` -/
  | var (x : Label) (i : Nat) : Arithmetic .natural
  /-- An operation on two numbers. -/
  | calculate (o : Calculation) (l r : Arithmetic .natural) : Arithmetic .natural
  /-- `if condition then yes else no` -/
  | choose (condition : Arithmetic .boolean) (yes no : Arithmetic .natural) : Arithmetic .natural
  /-- `let x = e in body` -/
  | define (x : Label) (e body : Arithmetic .natural) : Arithmetic .natural
  /-- `(λ(x : Natural) → body) e` -/
  | apply (x : Label) (body e : Arithmetic .natural) : Arithmetic .natural
  /-- `Natural/fold times Natural (λ(x : Natural) → x + step) e` -/
  | iterate (times : UInt64) (x : Label) (step : UInt64) (e : Arithmetic .natural) :
    Arithmetic .natural
  /-- `{ a = l, b = r }.a` or `{ a = l, b = r }.b` -/
  | select (first : Bool) (l r : Arithmetic .natural) : Arithmetic .natural
  /-- A truth value. -/
  | truth (c : Bool) : Arithmetic .boolean
  /-- `b` -/
  | flag : Arithmetic .boolean
  /-- An operation on two truth values. -/
  | connect (o : Connective) (l r : Arithmetic .boolean) : Arithmetic .boolean
  /-- A property of a number. -/
  | test (t : Test) (e : Arithmetic .natural) : Arithmetic .boolean
  deriving DecidableEq

namespace Arithmetic

variable {s : Scalar}

/-- The numbers that names stand for, the innermost binder first. -/
abbrev Scope := List (Label × Nat)

/-- The labels of the binders. -/
def Scope.labels (scope : Scope) : List Label :=
  scope.map Prod.fst

/-- The number that `x@i` stands for. -/
def Scope.lookup (scope : Scope) (x : Label) (i : Nat) : Nat :=
  ((scope.filter fun entry => entry.1 = x).map Prod.snd).getD i 0

/-- The record `{ a = l, b = r }`. -/
def pair (l r : Expr) : Expr :=
  .record (.ofList [("a", l), ("b", r)])

/-- The fields of the record in order. -/
theorem pair_eq (l r : Expr) :
    pair l r = .record (.cons "a" trivial l (.cons "b" (by decide) r .nil)) := by
  have order : (⟨"a"⟩ : Label) < ⟨"b"⟩ := by decide
  have notBefore : ¬(⟨"b"⟩ : Label) < ⟨"a"⟩ := by decide
  simp [pair, LabelMap.ofList, LabelMap.empty, Entries.insert, order, notBefore]

/-- The function `λ(x : Natural) → body`. -/
def function (x : Label) (body : Expr) : Expr :=
  .lam x (.builtin .natural) body

/-- The term as an expression. -/
def toExpr : {s : Scalar} → Arithmetic s → Expr
  | _, number n => .natural n
  | _, var x i => .var ⟨x, UInt64.ofNat i⟩
  | _, calculate o l r => o.toExpr l.toExpr r.toExpr
  | _, choose condition yes no => .ifThenElse condition.toExpr yes.toExpr no.toExpr
  | _, define x e body => .letIn [⟨x, none, e.toExpr⟩] body.toExpr
  | _, apply x body e => .app (function x body.toExpr) e.toExpr
  | _, iterate times x step e =>
    (Expr.builtin .naturalFold).apply
      [.natural times, .builtin .natural,
        function x (.op .plus (.var (.nearest x)) (.natural step)), e.toExpr]
  | _, select first l r => .field (pair l.toExpr r.toExpr) (if first then "a" else "b")
  | _, truth c => .bool c
  | _, flag => .var (.nearest flagLabel)
  | _, connect o l r => .op o.toOperator l.toExpr r.toExpr
  | _, test t e => .app (.builtin t.toBuiltin) e.toExpr

/-- The labels of the binders in the term. -/
def binders : {s : Scalar} → Arithmetic s → List Label
  | _, number _ | _, var _ _ | _, truth _ | _, flag => []
  | _, calculate _ l r | _, select _ l r => l.binders ++ r.binders
  | _, choose condition yes no => condition.binders ++ (yes.binders ++ no.binders)
  | _, define x e body => x :: (e.binders ++ body.binders)
  | _, apply x body e => x :: (body.binders ++ e.binders)
  | _, iterate _ x _ e => x :: e.binders
  | _, connect _ l r => l.binders ++ r.binders
  | _, test _ e => e.binders

/-- Whether each variable has a binder, in the term or among the given ones. -/
def Scoped : {s : Scalar} → Arithmetic s → List Label → Prop
  | _, number _, _ | _, truth _, _ | _, flag, _ => True
  | _, var x i, labels => i < labels.count x
  | _, calculate _ l r, labels | _, select _ l r, labels => l.Scoped labels ∧ r.Scoped labels
  | _, choose condition yes no, labels =>
    condition.Scoped labels ∧ yes.Scoped labels ∧ no.Scoped labels
  | _, define x e body, labels | _, apply x body e, labels =>
    e.Scoped labels ∧ body.Scoped (x :: labels)
  | _, iterate _ _ _ e, labels => e.Scoped labels
  | _, connect _ l r, labels => l.Scoped labels ∧ r.Scoped labels
  | _, test _ e, labels => e.Scoped labels

/-- Scopes can be checked. -/
instance decidableScoped : {s : Scalar} → (e : Arithmetic s) → (labels : List Label) →
    Decidable (e.Scoped labels)
  | _, number _, _ | _, truth _, _ | _, flag, _ => .isTrue trivial
  | _, var x i, labels => inferInstanceAs (Decidable (i < labels.count x))
  | _, calculate _ l r, labels | _, select _ l r, labels | _, connect _ l r, labels =>
    @instDecidableAnd _ _ (decidableScoped l labels) (decidableScoped r labels)
  | _, choose condition yes no, labels =>
    @instDecidableAnd _ _ (decidableScoped condition labels)
      (@instDecidableAnd _ _ (decidableScoped yes labels) (decidableScoped no labels))
  | _, define x e body, labels | _, apply x body e, labels =>
    @instDecidableAnd _ _ (decidableScoped e labels) (decidableScoped body (x :: labels))
  | _, iterate _ _ _ e, labels | _, test _ e, labels => decidableScoped e labels

/-- What the term computes, given the truth value `b` and the numbers that names stand for. -/
def value (b : Bool) : {s : Scalar} → Arithmetic s → Scope → s.Value
  | _, number n, _ => n.toNat
  | _, var x i, scope => scope.lookup x i
  | _, calculate o l r, scope => o.value (l.value b scope) (r.value b scope)
  | _, choose condition yes no, scope =>
    if condition.value b scope then yes.value b scope else no.value b scope
  | _, define x e body, scope | _, apply x body e, scope =>
    body.value b ((x, e.value b scope) :: scope)
  | _, iterate times _ step e, scope => (· + step.toNat)^[times.toNat] (e.value b scope)
  | _, select first l r, scope => if first then l.value b scope else r.value b scope
  | _, truth c, _ => c
  | _, flag, _ => b
  | _, connect o l r, scope => o.value (l.value b scope) (r.value b scope)
  | _, test t e, scope => t.value (e.value b scope)

/-- Whether each number that is computed on the way to the value is a 64-bit word. What is
not computed is not asked for: the other branch, the other field, and a right operand when
the left one decides. -/
def Bounded (b : Bool) : {s : Scalar} → Arithmetic s → Scope → Prop
  | _, number _, _ | _, var _ _, _ | _, truth _, _ | _, flag, _ => True
  | _, calculate o l r, scope =>
    l.Bounded b scope ∧ r.Bounded b scope ∧
      o.value (l.value b scope) (r.value b scope) < UInt64.size
  | _, choose condition yes no, scope =>
    condition.Bounded b scope ∧
      if condition.value b scope then yes.Bounded b scope else no.Bounded b scope
  | _, define x e body, scope | _, apply x body e, scope =>
    e.Bounded b scope ∧ body.Bounded b ((x, e.value b scope) :: scope)
  | _, iterate times _ step e, scope =>
    e.Bounded b scope ∧
      ∀ k ≤ times.toNat, (· + step.toNat)^[k] (e.value b scope) < UInt64.size
  | _, select first l r, scope => if first then l.Bounded b scope else r.Bounded b scope
  | _, connect o l r, scope =>
    l.Bounded b scope ∧ (o.decided (l.value b scope) = false → r.Bounded b scope)
  | _, test _ e, scope => e.Bounded b scope

/-- Bounds can be checked. -/
instance decidableBounded (b : Bool) : {s : Scalar} → (e : Arithmetic s) → (scope : Scope) →
    Decidable (e.Bounded b scope)
  | _, number _, _ | _, var _ _, _ | _, truth _, _ | _, flag, _ => .isTrue trivial
  | _, calculate o l r, scope =>
    have := decidableBounded b l scope
    have := decidableBounded b r scope
    inferInstanceAs (Decidable (l.Bounded b scope ∧ r.Bounded b scope ∧
      o.value (l.value b scope) (r.value b scope) < UInt64.size))
  | _, choose condition yes no, scope =>
    have := decidableBounded b condition scope
    have := decidableBounded b yes scope
    have := decidableBounded b no scope
    inferInstanceAs (Decidable (condition.Bounded b scope ∧
      if condition.value b scope then yes.Bounded b scope else no.Bounded b scope))
  | _, define x e body, scope | _, apply x body e, scope =>
    @instDecidableAnd _ _ (decidableBounded b e scope)
      (decidableBounded b body ((x, e.value b scope) :: scope))
  | _, iterate times _ step e, scope =>
    have := decidableBounded b e scope
    inferInstanceAs (Decidable (e.Bounded b scope ∧
      ∀ k ≤ times.toNat, (· + step.toNat)^[k] (e.value b scope) < UInt64.size))
  | _, select first l r, scope =>
    have := decidableBounded b l scope
    have := decidableBounded b r scope
    inferInstanceAs (Decidable (if first then l.Bounded b scope else r.Bounded b scope))
  | _, connect o l r, scope =>
    have := decidableBounded b l scope
    have := decidableBounded b r scope
    inferInstanceAs (Decidable (l.Bounded b scope ∧
      (o.decided (l.value b scope) = false → r.Bounded b scope)))
  | _, test _ e, scope => decidableBounded b e scope

/-- The function `λ(n : Natural) → λ(b : Bool) → e`, applied to a number and a truth value. -/
def program (e : Arithmetic s) (n : UInt64) (b : Bool) : Expr :=
  (function "n" (.lam flagLabel (.builtin .bool) e.toExpr)).apply [.natural n, .bool b]

end Arithmetic

end Dhall
