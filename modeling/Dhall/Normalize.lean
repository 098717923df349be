/-
# Normal forms

Evaluation reduces an expression everywhere, under binders too: functions are applied,
definitions are put in the place of their names, annotations are dropped, and operators,
built-in functions, selections and matches on unions are computed as far as their
operands are known.

One step of evaluation is a function of the evaluation of other expressions. Evaluation
with fuel runs such steps inside each other, at most as deep as there is fuel.

## Main definitions

* `Expr.step` — one step of evaluation, given the evaluation of other expressions
* `Expr.normalize` — evaluation with fuel
* `Expr.Normalizes`, `Expr.Aborts` — evaluation with enough fuel, as relations
* `Expr.judgmentallyEqual` — equality of normal forms up to names of bound variables
-/

import Dhall.Reduction.Builtin
import Dhall.Reduction.Record

namespace Dhall.Expr

variable (eval : Expr → Eval Expr)

/-- The application of a normal expression to a normal argument. -/
def applyTo (f a : Expr) : Eval Expr :=
  match f with
  -- The argument can complete new redexes in the body, so the result is evaluated again.
  | lam x _ body => do eval (← body.instantiate (.nearest x) a)
  | f =>
    match f.spine with
    | (builtin b, args) => do
      match ← b.reduce eval (args ++ [a]) with
      | some e => pure e
      | none => pure (app f a)
    | _ => pure (app f a)

variable {eval} {f a : Expr}

/-- A built-in function with one more argument is reduced, or the application is kept. -/
theorem applyTo_builtin {b : Builtin} {args : List Expr} (spine : f.spine = (builtin b, args)) :
    f.applyTo eval a = (do pure ((← b.reduce eval (args ++ [a])).getD (app f a))) := by
  unfold applyTo
  split
  · cases spine
  · rw [spine]
    refine bind_congr fun reduced => ?_
    cases reduced <;> rfl

/-- An application is kept unless it is one of a function or of a built-in function. -/
theorem applyTo_inert (notLam : ∀ x d body, f ≠ lam x d body)
    (notBuiltin : ∀ b, f.spine.1 ≠ builtin b) : f.applyTo eval a = pure (app f a) := by
  unfold applyTo
  split
  · exact absurd rfl (notLam _ _ _)
  · split
    · next b args spine => exact absurd (congrArg Prod.fst spine) (notBuiltin b)
    · rfl

variable (eval)

/-- `merge handlers variant : type` for normal expressions. A handler of an alternative
without payload is the result; any other handler is applied to the payload. -/
def mergeVariant (handlers variant : Expr) (type : Option Expr) : Eval Expr :=
  match handlers.record?, variant with
  | some hs, field (union _) l =>
    match hs.get? l with
    | some h => pure h
    | none => pure (merge handlers variant type)
  | some hs, app (field (union _) l) payload =>
    match hs.get? l with
    | some h => h.applyTo eval payload
    | none => pure (merge handlers variant type)
  | some hs, app (builtin .optionalNone) _ =>
    match hs.get? "None" with
    | some h => pure h
    | none => pure (merge handlers variant type)
  | some hs, present payload =>
    match hs.get? "Some" with
    | some h => h.applyTo eval payload
    | none => pure (merge handlers variant type)
  | _, _ => pure (merge handlers variant type)

/-- `if condition then yes else no` for normal expressions. -/
def choose (condition yes no : Expr) : Except Violation Expr :=
  match condition.bool? with
  | some true => .ok yes
  | some false => .ok no
  | none =>
    if yes.bool? = some true ∧ no.bool? = some false then .ok condition
    else do pure (if ← yes.alphaEquivalent no then yes else ifThenElse condition yes no)

/-- One step of evaluation, given the evaluation of other expressions. -/
def step : Expr → Eval Expr
  | app f a => do
    let f ← eval f
    let a ← eval a
    f.applyTo eval a
  | letIn [] _ => throw .emptyLet
  | letIn (first :: rest) body => do
    let value ← eval first.value
    -- The other definitions are evaluated with the first one already replaced.
    eval (← (afterFirst rest body).instantiate (.nearest first.label) value)
  | annot e _ => eval e
  | text t => do
    let pieces ← t.pieces.mapM (Text.Piece.traverse eval)
    pure (ofPieces pieces)
  | ifThenElse condition yes no => do
    let condition ← eval condition
    let yes ← eval yes
    let no ← eval no
    choose condition yes no
  | op o x y => do
    let x ← eval x
    let y ← eval y
    o.reduce x y
  | field e l => do
    let e ← eval e
    pure (e.select l)
  | project e labels => do
    let e ← eval e
    e.selectAll labels
  | projectType e type => do
    let e ← eval e
    let type ← eval type
    e.selectByType type
  | toMap e type => do
    let e ← eval e
    let type ← type.mapM eval
    pure (e.toEntries type)
  | merge handlers variant type => do
    let handlers ← eval handlers
    let variant ← eval variant
    let type ← type.mapM eval
    mergeVariant eval handlers variant type
  | embed i => throw (.unresolvedImport i)
  | mk n => do pure (mk (← n.traverse fun _ e => eval e))

/-- Evaluate an expression with a given amount of fuel. -/
def normalize : Nat → Expr → Eval Expr
  | 0, _ => Eval.outOfFuel
  | fuel + 1, e => e.step (normalize fuel)

/-- With enough fuel, the expression evaluates to a normal form. -/
def Normalizes (e normal : Expr) : Prop :=
  ∃ fuel, (e.normalize fuel).outcome? = some (.ok normal)

/-- With enough fuel, evaluating the expression stops at a violation. -/
def Aborts (e : Expr) (violation : Violation) : Prop :=
  ∃ fuel, (e.normalize fuel).outcome? = some (.error violation)

/-- Whether two expressions have the same normal form up to the names of bound variables. -/
def judgmentallyEqual (fuel : Nat) (e f : Expr) : Eval Bool := do
  let e ← e.normalize fuel
  let f ← f.normalize fuel
  e.alphaEquivalent f

end Dhall.Expr
