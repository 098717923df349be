/-
# Substitution

Substituting a value for a variable replaces the occurrences of the variable and
nothing else. Under a binder both the variable and the value are first seen from
under the binder, so no variable of the value is captured.

## Main definitions

* `Expr.subst` — replace a variable
* `Expr.instantiate` — replace the variable of a binder that is being removed
* `Expr.mentions` — whether a variable occurs free
-/

import Dhall.Shift

namespace Dhall.Expr

/-- A variable and a value for it, seen from under several binders. At each binder
the variable moves before the value. -/
def underAll (x : Variable) (value : Expr) (binders : List Label) :
    Except Violation (Variable × Expr) :=
  binders.foldlM (fun (x, value) b => do pure (← x.under b, ← value.under b)) (x, value)

/-- Replace the free occurrences of a variable by a value. -/
def subst (e : Expr) : Variable → Expr → Except Violation Expr :=
  e.fold fun n x value =>
    match n with
    | .var v => pure (if v = x then value else var v)
    | n => do
      let n ← n.traverse fun binders substChild => do
        let (x, value) ← underAll x value binders
        substChild x value
      pure (mk n)

/-- Put a value in the place of the variable of a binder and remove the binder: the
value moves under the binder, and the result moves out of it. -/
def instantiate (e : Expr) (x : Variable) (value : Expr) : Except Violation Expr := do
  -- Seen from under the binder, the value does not mention the variable of the binder.
  let value ← value.shift 1 x
  (← e.subst x value).shift (-1) x

/-- Whether a variable occurs free, that is, whether replacing it changes the
expression. -/
def mentions (e : Expr) (x : Variable) : Except Violation Bool := do
  pure (decide ((← e.subst x (builtin .bool)) ≠ e))

theorem subst_var (v x : Variable) (value : Expr) :
    (var v).subst x value = .ok (if v = x then value else var v) := rfl

/-- A substitution passes to the children, with the variable and the value seen from
under their binders. -/
theorem subst_mk {n : Node Expr} (h : ∀ v, n ≠ .var v) (x : Variable) (value : Expr) :
    (mk n).subst x value =
      mk <$> n.traverse (fun binders c => do
        let (x, value) ← underAll x value binders
        c.subst x value) := by
  rw [subst, fold_mk]
  split
  · next v image => cases n <;> simp_all [Node.map]
  · simp [Node.traverse_map, subst]

end Dhall.Expr
