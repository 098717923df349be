/-
# Shifts

Moving an expression under a binder changes the index of each variable that has
the label of the binder and refers to something outside of it; moving it out again
changes the index back. A shift by `delta` at a cutoff does this to all variables
that are not below the cutoff, and the cutoff itself rises under binders of its
label.

## Main definitions

* `Variable.shift`, `Expr.shift` — move indices by `delta` at a cutoff
* `Variable.under`, `Expr.under` — move under a binder
* `Expr.out` — move out of a binder
-/

import Dhall.Node.Traversal
import Dhall.Violation

namespace Dhall

namespace Variable

/-- Move the index by `delta`, unless the variable is below the cutoff. -/
def shift (v : Variable) (delta : Int64) (cutoff : Variable) : Except Violation Variable :=
  if v.movedAt cutoff then
    match moveIndex? v.index delta with
    | some index => .ok ⟨v.label, index⟩
    | none => .error (.negativeShift v delta)
  else .ok v

/-- The same variable seen from under a binder. -/
def under (v : Variable) (x : Label) : Except Violation Variable :=
  v.shift 1 (nearest x)

/-- The same variable seen from under several binders, the innermost last. -/
def underAll (v : Variable) (binders : List Label) : Except Violation Variable :=
  binders.foldlM under v

@[simp] theorem underAll_nil (v : Variable) : v.underAll [] = .ok v := rfl

@[simp] theorem underAll_singleton (v : Variable) (x : Label) : v.underAll [x] = v.under x := by
  simp [underAll]

end Variable

namespace Expr

/-- Move the indices of variables by `delta`, except those below the cutoff. -/
def shift (e : Expr) (delta : Int64) : Variable → Except Violation Expr :=
  e.fold fun n cutoff =>
    match n with
    | .var v => do pure (var (← v.shift delta cutoff))
    | n => do
      let n ← n.traverse fun binders shiftChild => do shiftChild (← cutoff.underAll binders)
      pure (mk n)

/-- The same expression seen from under a binder. -/
def under (e : Expr) (x : Label) : Except Violation Expr :=
  e.shift 1 (.nearest x)

/-- The same expression seen from outside a binder that it does not refer to. -/
def out (e : Expr) (x : Label) : Except Violation Expr :=
  e.shift (-1) (.nearest x)

theorem shift_var (v : Variable) (delta : Int64) (cutoff : Variable) :
    (var v).shift delta cutoff = var <$> v.shift delta cutoff :=
  (map_eq_pure_bind var (v.shift delta cutoff)).symm

/-- A shift passes to the children, with the cutoff seen from under their binders. -/
theorem shift_mk {n : Node Expr} (h : ∀ v, n ≠ .var v) (delta : Int64) (cutoff : Variable) :
    (mk n).shift delta cutoff =
      mk <$> n.traverse (fun binders c => do c.shift delta (← cutoff.underAll binders)) := by
  rw [shift, fold_mk]
  split
  · next v image => cases n <;> simp_all [Node.map]
  · simp [Node.traverse_map, shift]

end Expr

end Dhall
