/-
# More fuel

An evaluation with more fuel has the outcome of one with less fuel, if that has an
outcome. The steps of evaluation do not look at the fuel, so this is preserved by
everything that evaluation is made of, and follows by induction on the fuel.

## Main definitions

* `Eval.Approximates` — an outcome is kept, where there is one

## Main results

* `Expr.approximates_step` — one step keeps outcomes
* `Expr.approximates_normalize` — more fuel keeps outcomes
* `Expr.Normalizes.unique` — an expression has at most one normal form
-/

import Dhall.Normalize
import Dhall.Proofs.Traversal

namespace Dhall

namespace Eval

variable {α β : Type} {x y : Eval α}

/-- The second evaluation has the outcome of the first one, unless that ran out of fuel. -/
def Approximates (x y : Eval α) : Prop :=
  x = outOfFuel ∨ x = y

theorem Approximates.refl (x : Eval α) : Approximates x x :=
  Or.inr rfl

theorem approximates_outOfFuel (x : Eval α) : Approximates outOfFuel x :=
  Or.inl rfl

theorem Approximates.outcome {o : Except Violation α} (h : Approximates x y)
    (outcome : x.outcome? = some o) : y.outcome? = some o := by
  rcases h with none | same
  · rw [none] at outcome
    cases outcome
  · rw [← same]
    exact outcome

/-- A sequence keeps its outcome if its parts do. -/
theorem Approximates.bind {f g : α → Eval β} (h : Approximates x y)
    (rest : ∀ a, Approximates (f a) (g a)) : Approximates (x >>= f) (y >>= g) := by
  rcases h with rfl | rfl
  · exact approximates_outOfFuel _
  · match x with
    | none => exact .refl _
    | some (.error v) => exact .refl _
    | some (.ok a) => exact rest a

theorem Approximates.map (f : α → β) (h : Approximates x y) :
    Approximates (f <$> x) (f <$> y) := by
  rw [map_eq_pure_bind, map_eq_pure_bind]
  exact h.bind fun a => .refl _

theorem approximates_mapM {f g : α → Eval β} (h : ∀ a, Approximates (f a) (g a)) (l : List α) :
    Approximates (l.mapM f) (l.mapM g) := by
  induction l with
  | nil => exact .refl _
  | cons a l ih =>
    rw [List.mapM_cons, List.mapM_cons]
    exact (h a).bind fun b => ih.bind fun bs => .refl _

theorem approximates_mapM_option {f g : α → Eval β} (h : ∀ a, Approximates (f a) (g a))
    (o : Option α) : Approximates (o.mapM f) (o.mapM g) := by
  cases o with
  | none => exact .refl _
  | some a =>
    rw [Option.mapM_some, Option.mapM_some]
    exact (h a).map some

theorem approximates_foldrM {f g : α → β → Eval β} (h : ∀ a b, Approximates (f a b) (g a b))
    (l : List α) (b : β) : Approximates (l.foldrM f b) (l.foldrM g b) := by
  induction l with
  | nil => exact .refl _
  | cons a l ih =>
    rw [List.foldrM_cons, List.foldrM_cons]
    exact ih.bind (h a)

theorem approximates_iterate {f g : α → Eval α} (h : ∀ a, Approximates (f a) (g a)) (k : Nat)
    (a : α) : Approximates (iterate f k a) (iterate g k a) := by
  induction k generalizing a with
  | zero => exact .refl _
  | succ k ih => exact (h a).bind ih

theorem approximates_traverse {f g : List Label → α → Eval β}
    (h : ∀ inner a, Approximates (f inner a) (g inner a)) (n : Node α) :
    Approximates (n.traverse f) (n.traverse g) := by
  obtain ⟨rebuild, sequence⟩ := Node.traverse_eq_map (m := Eval) (β := β) n
  rw [sequence, sequence]
  exact (approximates_mapM (fun p : List Label × α => h p.1 p.2) _).map rebuild

end Eval

open Eval

variable {eval eval' : Expr → Eval Expr}

section Step

variable (h : ∀ e, Approximates (eval e) (eval' e))

include h

/-- A built-in function keeps the outcomes of what it evaluates. -/
theorem Builtin.approximates_reduce (b : Builtin) (args : List Expr) :
    Approximates (b.reduce eval args) (b.reduce eval' args) := by
  have build : Approximates (b.reduceBuild eval args) (b.reduceBuild eval' args) := by
    -- Only builds and folds evaluate anything.
    unfold reduceBuild
    split
    · split
      · exact .refl _
      · exact (h _).map some
    · split
      · exact .refl _
      · exact Approximates.bind (.refl _) fun cons => (h _).map some
    · split
      · exact .refl _
      · exact (h _).map some
    · exact .refl _
  have fold : Approximates (b.reduceFold eval args) (b.reduceFold eval' args) := by
    unfold reduceFold
    split
    · exact (approximates_iterate (fun e => h _) _ _).map some
    · exact .refl _
    · exact (approximates_foldrM (fun item e => h _) _ _).map some
    · exact (h _).map some
    · exact .refl _
    · exact .refl _
  unfold reduce
  split
  · exact .refl _
  · exact build
  · exact build
  · exact build
  · exact fold
  · exact fold
  · exact fold
  · exact .refl _

namespace Expr

theorem approximates_applyTo (f a : Expr) :
    Approximates (f.applyTo eval a) (f.applyTo eval' a) := by
  unfold applyTo
  split
  · exact Approximates.bind (.refl _) fun body => h body
  · split
    · exact (Builtin.approximates_reduce h _ _).bind fun reduced => .refl _
    · exact .refl _

theorem approximates_mergeVariant (handlers variant : Expr) (type : Option Expr) :
    Approximates (mergeVariant eval handlers variant type)
      (mergeVariant eval' handlers variant type) := by
  unfold mergeVariant
  split
  · exact .refl _
  · split
    · exact approximates_applyTo h _ _
    · exact .refl _
  · exact .refl _
  · split
    · exact approximates_applyTo h _ _
    · exact .refl _
  · exact .refl _

/-- One step keeps the outcomes of what it evaluates. -/
theorem approximates_step (e : Expr) : Approximates (step eval e) (step eval' e) := by
  -- A step is a sequence of evaluations and of rules, and the rules are the same on both sides.
  unfold step
  split
  · exact (h _).bind fun f => (h _).bind fun a => approximates_applyTo h f a
  · exact .refl _
  · exact (h _).bind fun value => Approximates.bind (.refl _) fun after => h after
  · exact h _
  · refine (approximates_mapM (fun piece => ?_) _).bind fun pieces => .refl _
    cases piece with
    | literal s => exact .refl _
    | interpolation e => exact (h e).bind fun e => .refl _
  · exact (h _).bind fun condition => (h _).bind fun yes => (h _).bind fun no => .refl _
  · exact (h _).bind fun x => (h _).bind fun y => .refl _
  · exact (h _).bind fun e => .refl _
  · exact (h _).bind fun e => .refl _
  · exact (h _).bind fun e => (h _).bind fun type => .refl _
  · exact (h _).bind fun e => (approximates_mapM_option h _).bind fun type => .refl _
  · exact (h _).bind fun handlers => (h _).bind fun variant =>
      (approximates_mapM_option h _).bind fun type => approximates_mergeVariant h _ _ _
  · exact .refl _
  · exact (approximates_traverse (fun _ => h) _).bind fun n => .refl _

end Expr

end Step

namespace Expr

variable {e normal normal' : Expr}

/-- More fuel keeps the outcome, if there is one. -/
theorem approximates_normalize {fuel fuel' : Nat} (enough : fuel ≤ fuel') (e : Expr) :
    Approximates (e.normalize fuel) (e.normalize fuel') := by
  induction fuel generalizing fuel' e with
  -- Without fuel there is no outcome to keep.
  | zero => exact approximates_outOfFuel _
  | succ fuel ih =>
    obtain ⟨fuel', rfl⟩ : ∃ k, fuel' = k + 1 := ⟨fuel' - 1, by omega⟩
    exact approximates_step (fun e => ih (by omega) e) e

/-- All amounts of fuel that are enough have one outcome. -/
theorem outcome_unique {fuel fuel' : Nat} {o o' : Except Violation Expr}
    (h : (e.normalize fuel).outcome? = some o) (h' : (e.normalize fuel').outcome? = some o') :
    o = o' := by
  have first := (approximates_normalize (Nat.le_max_left fuel fuel') e).outcome h
  have second := (approximates_normalize (Nat.le_max_right fuel fuel') e).outcome h'
  exact Option.some.inj (first.symm.trans second)

/-- An expression has at most one normal form. -/
theorem Normalizes.unique (h : e.Normalizes normal) (h' : e.Normalizes normal') :
    normal = normal' := by
  obtain ⟨_, first⟩ := h
  obtain ⟨_, second⟩ := h'
  exact Except.ok.inj (outcome_unique first second)

/-- An expression that has a normal form does not abort. -/
theorem Normalizes.not_aborts {violation : Violation} (h : e.Normalizes normal) :
    ¬e.Aborts violation := by
  intro aborts
  obtain ⟨_, first⟩ := h
  obtain ⟨_, second⟩ := aborts
  cases outcome_unique first second

/-- An operation normalizes to what its operator makes of the normal forms of its operands. -/
theorem Normalizes.op {o : Operator} {x y x' y' r : Expr} (hx : x.Normalizes x')
    (hy : y.Normalizes y') (h : o.reduce x' y' = .ok r) : (op o x y).Normalizes r := by
  obtain ⟨fuel, left⟩ := hx
  obtain ⟨fuel', right⟩ := hy
  have left := (approximates_normalize (Nat.le_max_left fuel fuel') x).outcome left
  have right := (approximates_normalize (Nat.le_max_right fuel fuel') y).outcome right
  refine ⟨max fuel fuel' + 1, ?_⟩
  exact bind_eq_pure_iff.mpr ⟨x', left, bind_eq_pure_iff.mpr ⟨y', right,
    Eval.lift_eq_pure_iff.mpr h⟩⟩

end Expr

end Dhall
