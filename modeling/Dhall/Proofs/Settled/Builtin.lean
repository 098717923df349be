/-
# Built-in functions on settled arguments

Whether a built-in function is stuck depends on its arguments alone: a rule that evaluates
something always applies. What a rule returns is a part of an argument, a literal, or the
result of an evaluation, and is settled if evaluation settles what it returns.

## Main definitions

* `Expr.Settles` — evaluations that return settled expressions only

## Main results

* `Builtin.reduce_eq_none` — being stuck does not depend on the evaluation
* `Builtin.settled_inherited` — literals of settled expressions are settled
* `Builtin.settled_reduce` — a built-in function returns a settled expression
-/

import Dhall.Proofs.Inherited
import Dhall.Proofs.Settled
import Dhall.Proofs.Traversal

namespace Dhall

open Dhall.Expr

/-- Whatever the evaluation returns is settled. -/
def Expr.Settles (eval : Expr → Eval Expr) : Prop :=
  ∀ e n, eval e = pure n → Settled n

namespace Builtin

variable {eval eval' : Expr → Eval Expr} {b : Builtin} {args : List Expr} {r : Expr}

/-! ### Stuck applications -/

theorem some_map_ne_none (x : Eval Expr) : some <$> x ≠ pure none := by
  intro h
  obtain ⟨_, _, same⟩ := map_eq_pure_iff.mp h
  cases same

theorem reduceBuild_eq_none (h : b.reduceBuild eval args = pure none) :
    b.reduceBuild eval' args = pure none := by
  -- A `build` always reduces; what it evaluates only says to what.
  unfold reduceBuild at h ⊢
  split at h
  · split at h
    · exact h
    · exact absurd h (some_map_ne_none _)
  · split at h
    · exact h
    · obtain ⟨_, _, h⟩ := bind_eq_pure_iff.mp h
      exact absurd h (some_map_ne_none _)
  · split at h
    · exact h
    · exact absurd h (some_map_ne_none _)
  · rfl

theorem reduceFold_eq_none (h : b.reduceFold eval args = pure none) :
    b.reduceFold eval' args = pure none := by
  unfold reduceFold at h ⊢
  split at h
  · exact absurd h (some_map_ne_none _)
  · exact h
  · exact absurd h (some_map_ne_none _)
  · exact absurd h (some_map_ne_none _)
  · exact h
  · rfl

/-- Whether an application is stuck does not depend on the evaluation. -/
theorem reduce_eq_none (h : b.reduce eval args = pure none) : b.reduce eval' args = pure none := by
  unfold reduce at h ⊢
  split at h
  · exact h
  · exact reduceBuild_eq_none h
  · exact reduceBuild_eq_none h
  · exact reduceBuild_eq_none h
  · exact reduceFold_eq_none h
  · exact reduceFold_eq_none h
  · exact reduceFold_eq_none h
  · exact h

/-- The names of types and of constructors are no functions that reduce. -/
theorem reduce_constructor (h : b ∈ [list, optional, optionalNone]) (eval : Expr → Eval Expr)
    (args : List Expr) : b.reduce eval args = pure none := by
  have literal : b.reduceLiteral args = none := by
    simp only [List.mem_cons, List.not_mem_nil, or_false] at h
    unfold reduceLiteral
    split
    · rcases h with rfl | rfl | rfl <;> rfl
    · rcases h with rfl | rfl | rfl <;> rfl
    · rcases h with rfl | rfl | rfl <;> rfl
    · rcases h with rfl | rfl | rfl <;> rfl
    · unfold reduceList
      split <;> rcases h with rfl | rfl | rfl <;> rfl
    · rfl
  rw [← literal]
  simp only [List.mem_cons, List.not_mem_nil, or_false] at h
  rcases h with rfl | rfl | rfl <;> rfl

theorem settled_constructor (h : b ∈ [list, optional, optionalNone]) {type : Expr}
    (ht : Settled type) : Settled (app (builtin b) type) := by
  refine settled_app.mpr ⟨⟨nofun, ?_⟩, settled_builtin b, ht⟩
  rintro c args spine eval
  cases spine
  exact reduce_constructor h eval _

/-! ### Results -/

/-- A literal is settled if its parts are. -/
theorem settled_inherited : Inherited Settled where
  of_app h := (settled_app.mp h).2
  of_list := settled_list.mp
  to_bool := settled_bool
  to_natural := settled_natural
  to_integer := settled_integer
  to_double := settled_double
  to_plainText := settled_plainText
  to_builtin := settled_builtin
  to_named constructs h := settled_constructor constructs h
  to_emptyList := settled_emptyList.mpr
  to_list := settled_list.mpr
  to_present := settled_present.mpr
  to_record := settled_record.mpr
  to_recordType := settled_recordType.mpr

theorem settled_reduceSubtract {x y : Expr} (hy : Settled y)
    (h : reduceSubtract x y = .ok (some r)) : Settled r := by
  unfold reduceSubtract at h
  split at h
  · cases h
    exact settled_natural _
  · split at h
    · cases h
      exact hy
    · split at h
      · cases h
        exact settled_natural 0
      · obtain ⟨same, _, h⟩ := bind_eq_pure_iff.mp h
        cases same <;> cases h
        exact settled_natural 0

/-- Evaluating a function on its own results settles what is not settled to begin with. -/
theorem settled_iterate {f : Expr → Eval Expr} (hf : Settles f) {k : Nat} {e : Expr}
    (he : Settled e) (h : Eval.iterate f k e = pure r) : Settled r := by
  induction k generalizing e with
  | zero =>
    cases h
    exact he
  | succ k ih =>
    obtain ⟨e', evaluated, h⟩ := bind_eq_pure_iff.mp h
    exact ih (hf e e' evaluated) h

theorem settled_foldrM {f : Expr → Expr → Eval Expr} (hf : ∀ item, Settles (f item))
    {items : List Expr} {e : Expr} (he : Settled e) (h : items.foldrM f e = pure r) :
    Settled r := by
  induction items generalizing r with
  | nil =>
    cases h
    exact he
  | cons item items ih =>
    rw [List.foldrM_cons] at h
    obtain ⟨e', _, h⟩ := bind_eq_pure_iff.mp h
    exact hf item e' r h

variable (settles : Settles eval)

include settles

theorem settled_map {e : Expr} (h : some <$> eval e = pure (some r)) : Settled r := by
  obtain ⟨n, evaluated, same⟩ := map_eq_pure_iff.mp h
  cases same
  exact settles e r evaluated

theorem settled_reduceBuild (h : ∀ a ∈ args, Settled a)
    (reduced : b.reduceBuild eval args = pure (some r)) : Settled r := by
  unfold reduceBuild at reduced
  split at reduced
  · next g =>
    split at reduced
    · next n known =>
      cases reduced
      exact settled_inherited.argumentsOf (h g (.head _)) known _ (.head _)
    · exact settled_map settles reduced
  · next type g =>
    split at reduced
    · next first l known =>
      cases reduced
      exact settled_inherited.argumentsOf (h g (.tail _ (.head _))) known _ (.tail _ (.head _))
    · obtain ⟨_, _, reduced⟩ := bind_eq_pure_iff.mp reduced
      exact settled_map settles reduced
  · next type g =>
    split at reduced
    · next first o known =>
      cases reduced
      exact settled_inherited.argumentsOf (h g (.tail _ (.head _))) known _ (.tail _ (.head _))
    · exact settled_map settles reduced
  · cases reduced

theorem settled_reduceFold (h : ∀ a ∈ args, Settled a)
    (reduced : b.reduceFold eval args = pure (some r)) : Settled r := by
  unfold reduceFold at reduced
  split at reduced
  · next m first succ zero =>
    obtain ⟨n, evaluated, same⟩ := map_eq_pure_iff.mp reduced
    cases same
    exact settled_iterate (fun _ n => settles _ n) (h zero (by simp)) evaluated
  · cases reduced
    exact h _ (by simp)
  · next first items second cons nil =>
    obtain ⟨n, evaluated, same⟩ := map_eq_pure_iff.mp reduced
    cases same
    exact settled_foldrM (fun _ _ n => settles _ n) (h nil (by simp)) evaluated
  · exact settled_map settles reduced
  · split at reduced
    · cases reduced
      exact h _ (by simp)
    · cases reduced
  · cases reduced

/-- On settled arguments a built-in function that reduces returns a settled expression. -/
theorem settled_reduce (h : ∀ a ∈ args, Settled a)
    (reduced : b.reduce eval args = pure (some r)) : Settled r := by
  unfold reduce at reduced
  split at reduced
  · next x y =>
    exact settled_reduceSubtract (h y (.tail _ (.head _))) (Eval.lift_eq_pure_iff.mp reduced)
  · exact settled_reduceBuild settles h reduced
  · exact settled_reduceBuild settles h reduced
  · exact settled_reduceBuild settles h reduced
  · exact settled_reduceFold settles h reduced
  · exact settled_reduceFold settles h reduced
  · exact settled_reduceFold settles h reduced
  · exact settled_inherited.of_reduceLiteral h (LawfulReturn.pure_injective reduced)

end Builtin

end Dhall
