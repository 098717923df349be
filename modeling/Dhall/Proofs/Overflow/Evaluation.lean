/-
# Evaluation up to overflows

Moving an expression under a binder can overflow an index, and then evaluation stops. Where this
is all that can go wrong, an expression evaluates to its value unless there is an overflow. The
rules are those of evaluation with enough fuel, and removing a binder asks for less: it need not
return, but what it can return has to be known.

## Main definitions

* `Eval.ReturnsOrOverflows` — the same value or an overflow, from some amount of fuel on
* `Expr.NormalizesOrOverflows` — evaluation returns the value or stops at an overflow

## Main results

* `Eval.ReturnsOrOverflows.bind` — sequences return or overflow if their parts do
* `Expr.NormalizesOrOverflows.apply`, `Expr.NormalizesOrOverflows.builtin` — applications
-/

import Dhall.Proofs.Evaluation
import Dhall.Proofs.Overflow

namespace Dhall

namespace Eval

variable {α β : Type} {x : Nat → Eval α} {a : α} {b : β}

/-- From some amount of fuel on, an evaluation returns the value, or it stops at an overflow. -/
def ReturnsOrOverflows (x : Nat → Eval α) (a : α) : Prop :=
  Returns x a ∨
    ∃ v : Violation, v.IsOverflow ∧ ∃ enough, ∀ fuel, enough ≤ fuel → x fuel = throw v

/-- A sequence returns or overflows if its parts do. -/
theorem ReturnsOrOverflows.bind {f : Nat → α → Eval β} (h : ReturnsOrOverflows x a)
    (rest : ReturnsOrOverflows (f · a) b) :
    ReturnsOrOverflows (fun fuel => x fuel >>= f fuel) b := by
  rcases h with returned | ⟨v, overflow, enough, stops⟩
  · rcases rest with returned' | ⟨v, overflow, enough', stops⟩
    · exact Or.inl (returned.bind returned')
    · obtain ⟨enough, returned⟩ := returned
      refine Or.inr ⟨v, overflow, max enough enough', fun fuel large => ?_⟩
      dsimp only
      rw [returned fuel (by omega), pure_bind]
      exact stops fuel (by omega)
  · refine Or.inr ⟨v, overflow, enough, fun fuel large => ?_⟩
    dsimp only
    rw [stops fuel large]
    rfl

theorem ReturnsOrOverflows.map (f : α → β) (h : ReturnsOrOverflows x a) :
    ReturnsOrOverflows (fun fuel => f <$> x fuel) (f a) := by
  simp only [map_eq_pure_bind]
  exact h.bind (f := fun _ a => pure (f a)) (Or.inl (.pure _))

/-- What has no fuel to run out of, stops at overflows only and can return one value only. -/
theorem returnsOrOverflows_lift {x : Except Violation α}
    (h : Ensures Violation.IsOverflow (· = a) x) :
    ReturnsOrOverflows (fun _ => (liftM x : Eval α)) a := by
  cases x with
  | ok b => exact Or.inl (returns_lift (congrArg Except.ok (h.returned rfl)))
  | error v => exact Or.inr ⟨v, h.stopped rfl, 0, fun _ _ => rfl⟩

end Eval

namespace Expr

open Eval

variable {e f a a' b d r s : Expr} {x : Label}

/-- The expression evaluates to the value, or its evaluation stops at an overflow. -/
def NormalizesOrOverflows (e r : Expr) : Prop :=
  e.Normalizes r ∨ ∃ v : Violation, v.IsOverflow ∧ e.Aborts v

theorem NormalizesOrOverflows.returns (h : e.NormalizesOrOverflows r) :
    ReturnsOrOverflows (fun fuel => e.normalize fuel) r := by
  rcases h with normal | ⟨v, overflow, fuel, stopped⟩
  · exact Or.inl normal.returns
  · exact Or.inr ⟨v, overflow, fuel, fun more enough =>
      (approximates_normalize enough e).outcome stopped⟩

/-- A step that returns or overflows is enough. -/
theorem NormalizesOrOverflows.of_step
    (h : ReturnsOrOverflows (fun fuel => e.step (normalize fuel)) r) :
    e.NormalizesOrOverflows r := by
  rcases h with returned | ⟨v, overflow, enough, stops⟩
  · exact Or.inl (.of_step returned)
  · exact Or.inr ⟨v, overflow, enough + 1, congrArg outcome? (stops enough (Nat.le_refl enough))⟩

/-- An applied function, if its instantiated body can be one expression only. -/
theorem NormalizesOrOverflows.apply (hf : f.NormalizesOrOverflows (lam x d b))
    (ha : a.NormalizesOrOverflows a')
    (instantiated : ∀ c, b.instantiate (.nearest x) a' = .ok c → c = r)
    (h : r.NormalizesOrOverflows s) : (app f a).NormalizesOrOverflows s := by
  have body : Ensures Violation.IsOverflow (· = r) (b.instantiate (.nearest x) a') :=
    (ensures_instantiate b (.nearest x) a').imp (fun _ => id) fun c _ => instantiated c
  exact .of_step (hf.returns.bind (ha.returns.bind ((returnsOrOverflows_lift body).bind h.returns)))

/-- A built-in function that is applied is reduced. -/
theorem NormalizesOrOverflows.builtin {c : Builtin} {args : List Expr}
    (hf : f.Normalizes e) (ha : a.Normalizes a') (spine : e.spine = (.builtin c, args))
    (h : ReturnsOrOverflows (fun fuel => c.reduce (normalize fuel) (args ++ [a'])) (some r)) :
    (app f a).NormalizesOrOverflows r := by
  refine .of_step (ReturnsOrOverflows.bind (Or.inl hf.returns)
    (ReturnsOrOverflows.bind (Or.inl ha.returns) ?_))
  simp only [applyTo_builtin spine]
  exact h.bind (Or.inl (.pure _))

end Expr

end Dhall
