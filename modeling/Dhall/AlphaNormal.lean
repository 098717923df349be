/-
# Names of bound variables

Renaming every bound variable to the placeholder `_` turns expressions that differ
only in these names into the same expression. One binder is renamed in three steps
that make room for the new name, replace the old variable, and close the gap that
the old name leaves.

## Main definitions

* `Expr.renameBound` — rename the variable of one binder
* `Expr.alphaNormal` — rename all bound variables
* `Expr.alphaEquivalent` — equality up to names of bound variables
-/

import Dhall.Substitution

namespace Dhall.Expr

/-- The body of a binder labelled `x` as the body of a binder labelled `_`. -/
def renameBound (body : Expr) (x : Label) : Except Violation Expr :=
  if x = .placeholder then .ok body
  else do
    -- Whatever is called `_` already gives way to the new name.
    let body ← body.shift 1 (.nearest .placeholder)
    let body ← body.subst (.nearest x) (var (.nearest .placeholder))
    body.out x

/-- What the first definition of a `let` is in scope of. -/
def afterFirst (rest : List (Binding Expr)) (body : Expr) : Expr :=
  if rest.isEmpty then body else letIn rest body

/-- A definition in front of what it is in scope of. When more definitions follow, that
is a `let`, and the definition joins it. -/
def withFirst (first : Binding Expr) (rest : List (Binding Expr)) (after : Expr) : Expr :=
  match rest, after with
  | _ :: _, letIn more body => letIn (first :: more) body
  | _, after => letIn [first] after

/-- Rename the bound variables of an expression that is at most `depth` deep. -/
def alphaNormalWithin : Nat → Expr → Except Violation Expr
  | 0, e => .ok e
  | depth + 1, mk n =>
    match n with
    | .lam x domain body => do
      let domain ← alphaNormalWithin depth domain
      let body ← alphaNormalWithin depth (← body.renameBound x)
      pure (lam .placeholder domain body)
    | .pi x domain codomain => do
      let domain ← alphaNormalWithin depth domain
      let codomain ← alphaNormalWithin depth (← codomain.renameBound x)
      pure (pi .placeholder domain codomain)
    | .letIn [] _ => .error .emptyLet
    | .letIn (first :: rest) body => do
      -- The first definition binds its name in everything after it.
      let after ← (afterFirst rest body).renameBound first.label
      let after ← alphaNormalWithin depth after
      let annotation ← first.annotation.mapM (alphaNormalWithin depth)
      let value ← alphaNormalWithin depth first.value
      pure (withFirst ⟨.placeholder, annotation, value⟩ rest after)
    | .embed i => .error (.unresolvedImport i)
    | n => do pure (mk (← n.traverse fun _ c => alphaNormalWithin depth c))

/-- Rename every bound variable to `_`. An expression is no deeper than it has nodes,
and renaming a variable does not change how deep it is. -/
def alphaNormal (e : Expr) : Except Violation Expr :=
  alphaNormalWithin e.size e

/-- Whether two expressions are equal up to the names of bound variables. Equal
expressions are not renamed. -/
def alphaEquivalent (e f : Expr) : Except Violation Bool :=
  if e = f then .ok true
  else do pure (decide ((← e.alphaNormal) = (← f.alphaNormal)))

end Dhall.Expr
