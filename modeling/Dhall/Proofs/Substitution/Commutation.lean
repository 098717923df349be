/-
# Substitutions that cross

Removing a binder and then replacing a variable in the result is the same as replacing the
variable first, in the body and in the value, and then removing the binder. In the body the
variable and what replaces it are seen from under the binder. The names may be any: the variable
can have the label of the binder, and both values can mention it.

The equations are those of positions. Both sides resolve to one term, whatever becomes of the
cutoffs and of the values on their way under binders, and a term comes from one expression only.

## Main results

* `Expr.instantiate_instantiate` — one binder is removed before or after another one
-/

import Dhall.Proofs.Substitution

namespace Dhall.Expr

variable {e a b a' b' e₁ e₂ r s : Expr} {x : Label} {v v' : Variable}

/-- The variable of an inner binder `x` and a variable from outside of it are replaced in either
order, if the value of the first is replaced along, and the second one with its value is seen
from under the binder where it comes first. -/
theorem instantiate_instantiate (inner : e.instantiate (.nearest x) a = .ok e₁)
    (outer : e₁.instantiate v b = .ok r)
    (moved : v.under x = .ok v') (value : b.under x = .ok b')
    (below : e.instantiate v' b' = .ok e₂) (along : a.instantiate v b = .ok a')
    (last : e₂.instantiate (.nearest x) a' = .ok s) : r = s := by
  -- The context has as many binders of the label of `v` as `v` skips, and then its own binder.
  let Δ := List.replicate v.index.toNat v.label
  have index : v.index.toNat = Δ.count v.label := List.count_replicate_self.symm
  obtain ⟨label, skips⟩ := Variable.under_eq_ok moved
  have index' : v'.index.toNat = (x :: Δ).count v'.label := by
    rw [label, skips, index, Nat.add_comm]
    exact List.count_append.symm
  have body : e₁.resolved (Δ ++ [v.label]) = (e.resolved (x :: Δ ++ [v.label])).instantiate
      (a.resolved (Δ ++ [v.label])) :=
    resolved_instantiate (Δ := []) inner rfl
  have body' : e₂.resolved (x :: Δ) = (e.resolved (x :: Δ ++ [v.label])).subst
      (Term.liftSubst 1 (Term.instantiation Δ.length (b.resolved Δ))) := by
    have image := resolved_instantiate (Γ := []) below index'
    rwa [List.append_nil, label, resolved_under value, List.length_cons,
      ← Term.liftSubst_instantiation] at image
  have argument : a'.resolved Δ =
      (a.resolved (Δ ++ [v.label])).subst (Term.instantiation Δ.length (b.resolved Δ)) := by
    have image := resolved_instantiate (Γ := []) along index
    rwa [List.append_nil] at image
  refine resolved_injective Δ ?_
  calc r.resolved Δ
      = (e₁.resolved (Δ ++ [v.label])).subst (Term.instantiation Δ.length (b.resolved Δ)) := by
        have image := resolved_instantiate (Γ := []) outer index
        rwa [List.append_nil] at image
    _ = (e₂.resolved (x :: Δ)).instantiate (a'.resolved Δ) := by
        rw [body, Term.subst_instantiate, body', argument]
    _ = s.resolved Δ := (resolved_instantiate (Δ := []) last rfl).symm

/-- Both variables are labelled `x`, both values mention one, and the body binds the label of the
second value. -/
theorem instantiate_instantiate_shadowed :
    let x (n : UInt64) := var ⟨"x", n⟩
    let y (n : UInt64) := var ⟨"y", n⟩
    let e := lam "y" (x 1) (app (app (x 0) (x 1)) (app (x 2) (y 0)))
    let a := app (x 0) (y 0)
    let b := app (y 0) (x 0)
    let r := lam "y" (app (y 0) (x 0))
      (app (app (app (app (y 1) (x 0)) (y 1)) (app (y 1) (x 0))) (app (x 0) (y 0)))
    (∃ e₁, e.instantiate (.nearest "x") a = .ok e₁ ∧ e₁.instantiate (.nearest "x") b = .ok r) ∧
      ∃ b' e₂ a' s, b.under "x" = .ok b' ∧ e.instantiate ⟨"x", 1⟩ b' = .ok e₂ ∧
        a.instantiate (.nearest "x") b = .ok a' ∧ e₂.instantiate (.nearest "x") a' = .ok s ∧
          r = s := by
  intro x y e a b r
  refine ⟨⟨_, rfl, rfl⟩, _, _, _, _, rfl, rfl, rfl, rfl, ?_⟩
  exact instantiate_instantiate (e := e) (a := a) (b := b) (x := "x") (v := .nearest "x")
    rfl rfl rfl rfl rfl rfl rfl

end Dhall.Expr
