/-
# Applications of built-in functions

A built-in function is applied to one argument after the other, and each application evaluates its
argument. As long as the function waits for more arguments, its normal form is the function applied
to the normal forms of those that are there. So what a function does with all of its arguments can
be said at once, in terms of their normal forms.

## Main results

* `Expr.normalizes_app_iff` — an application evaluates its parts
* `Expr.normalizes_waiting_iff` — arguments of a function that waits for more
* `Expr.normalizes_concat_iff` — the argument that a function has waited for
-/

import Dhall.Proofs.Evaluation
import Mathlib.Data.List.Induction

namespace Dhall.Expr

open Eval

variable {a f n : Expr} {args : List Expr} {b : Builtin}

/-- An application evaluates its parts before it is reduced. -/
theorem normalizes_app_iff : (app f a).Normalizes n ↔ ∃ f' a', f.Normalizes f' ∧ a.Normalizes a' ∧
    ∃ fuel, f'.applyTo (normalize fuel) a' = pure n := by
  constructor
  · intro h
    obtain ⟨fuel, returned⟩ := normalizes_iff_step.mp h
    obtain ⟨f', function, returned⟩ := bind_eq_pure_iff.mp returned
    obtain ⟨a', argument, returned⟩ := bind_eq_pure_iff.mp returned
    exact ⟨f', a', ⟨fuel, function⟩, ⟨fuel, argument⟩, fuel, returned⟩
  · rintro ⟨f', a', function, argument, fuel, returned⟩
    refine .of_step (function.returns.bind (argument.returns.bind ⟨fuel, fun more enough => ?_⟩))
    exact (approximates_applyTo (approximates_normalize enough) f' a').outcome returned

/-- What the application of a built-in function to one more argument returns. -/
theorem applyTo_eq_pure_iff {eval : Expr → Eval Expr} :
    ((builtin b).apply args).applyTo eval a = pure n ↔ ∃ reduced,
      b.reduce eval (args ++ [a]) = pure reduced ∧
        n = reduced.getD (app ((builtin b).apply args) a) := by
  rw [applyTo_builtin (spine_apply (builtin b) args), bind_eq_pure_iff]
  exact exists_congr fun reduced => and_congr_right fun _ =>
    LawfulReturn.pure_injective.eq_iff.trans eq_comm

theorem apply_concat (f : Expr) (args : List Expr) (a : Expr) :
    f.apply (args ++ [a]) = app (f.apply args) a :=
  List.foldl_append

theorem forall₂_concat_left_iff {α β : Type} {R : α → β → Prop} {l : List α} {a : α}
    {l' : List β} : List.Forall₂ R (l ++ [a]) l' ↔
      ∃ init last, List.Forall₂ R l init ∧ R a last ∧ l' = init ++ [last] := by
  constructor
  · intro h
    induction l generalizing l' with
    | nil =>
      obtain ⟨last, _, here, none, rfl⟩ := List.forall₂_cons_left_iff.mp h
      cases none
      exact ⟨[], last, .nil, here, rfl⟩
    | cons x l ih =>
      obtain ⟨y, _, here, below, rfl⟩ := List.forall₂_cons_left_iff.mp h
      obtain ⟨init, last, others, final, rfl⟩ := ih below
      exact ⟨y :: init, last, .cons here others, final, rfl⟩
  · rintro ⟨init, last, h, here, rfl⟩
    exact List.rel_append h (.cons here .nil)

/-- The last of several arguments of a built-in function is evaluated last, and then the function
is reduced, if it is, or the application is kept. -/
theorem normalizes_concat_iff
    (function : ∀ f, ((builtin b).apply args).Normalizes f ↔
      ∃ args', List.Forall₂ Normalizes args args' ∧ f = (builtin b).apply args') :
    ((builtin b).apply (args ++ [a])).Normalizes n ↔ ∃ args' a' fuel reduced,
      List.Forall₂ Normalizes args args' ∧ a.Normalizes a' ∧
        b.reduce (normalize fuel) (args' ++ [a']) = pure reduced ∧
          n = reduced.getD ((builtin b).apply (args' ++ [a'])) := by
  simp only [apply_concat, normalizes_app_iff, function]
  constructor
  · rintro ⟨_, a', ⟨args', evaluated, rfl⟩, ha, fuel, returned⟩
    obtain ⟨reduced, returned, same⟩ := applyTo_eq_pure_iff.mp returned
    exact ⟨args', a', fuel, reduced, evaluated, ha, returned, same⟩
  · rintro ⟨args', a', fuel, reduced, evaluated, ha, returned, same⟩
    exact ⟨_, a', ⟨args', evaluated, rfl⟩, ha, fuel,
      applyTo_eq_pure_iff.mpr ⟨reduced, returned, same⟩⟩

/-- A built-in function that waits for more arguments has its arguments evaluated. -/
theorem normalizes_waiting_iff
    (waits : ∀ eval (l : List Expr), l.length ≤ args.length → b.reduce eval l = pure none) :
    ((builtin b).apply args).Normalizes f ↔
      ∃ args', List.Forall₂ Normalizes args args' ∧ f = (builtin b).apply args' := by
  -- The last argument is evaluated after the function, which has the other arguments.
  induction args using List.reverseRecOn generalizing f with
  | nil =>
    constructor
    · exact fun h => ⟨[], .nil, h.unique (normalizes_builtin b)⟩
    · rintro ⟨args', evaluated, rfl⟩
      cases evaluated
      exact normalizes_builtin b
  | append_singleton args a ih =>
    have function (f : Expr) := ih (f := f) fun eval l few => waits eval l (by simp; omega)
    rw [normalizes_concat_iff function]
    simp only [forall₂_concat_left_iff]
    constructor
    · rintro ⟨args', a', fuel, reduced, evaluated, ha, returned, rfl⟩
      have none := waits (normalize fuel) (args' ++ [a']) (by simp [evaluated.length_eq])
      obtain rfl := LawfulReturn.pure_injective (none.symm.trans returned)
      exact ⟨args' ++ [a'], ⟨args', a', evaluated, ha, rfl⟩, rfl⟩
    · rintro ⟨_, ⟨args', a', evaluated, ha, rfl⟩, rfl⟩
      have none := waits (normalize 0) (args' ++ [a']) (by simp [evaluated.length_eq])
      exact ⟨args', a', 0, _, evaluated, ha, none, rfl⟩

end Dhall.Expr
