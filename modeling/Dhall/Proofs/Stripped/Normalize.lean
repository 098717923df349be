/-
# Evaluation does not see annotations

Most constructs evaluate all of their children, and then a rule looks at what has become of
them. A construct and its stripped form evaluate stripped children, and if these give the same
results, the rule is the same. An annotation is dropped when it is met. A definition is put in
the place of its name before what follows it is evaluated, so there the stripped value is put
into the stripped rest, and the value, being evaluated, is the same with and without stripping.

## Main definitions

* `Node.isStrict` — constructs that evaluate all of their children
* `Expr.rebuild` — what such a construct makes of its evaluated children

## Main results

* `Expr.step_strict` — a step of a strict construct evaluates the children and rebuilds
* `Expr.normalize_stripped` — evaluation returns for the stripped expression what it returns
* `Expr.normalizes_stripped_iff` — an expression and its stripped form have one normal form
-/

import Dhall.Proofs.Fuel
import Dhall.Proofs.NormalForm
import Dhall.Proofs.Stripped

namespace Dhall

namespace Node

variable {α β : Type}

/-- Whether evaluation evaluates all children before it applies a rule. -/
def isStrict : Node α → Bool
  | annot .. | letIn .. | embed _ => false
  | _ => true

theorem isStrict_shape (n : Node α) : n.shape.isStrict = n.isStrict := by
  cases n <;> rfl

theorem isKept_of_isStrict {n : Node α} (strict : n.isStrict) : n.isKept := by
  cases n <;> first | rfl | cases strict

end Node

namespace Expr

variable {eval : Expr → Eval Expr} {e r s : Expr} {n : Node Expr} {fuel : Nat}

variable (eval) in
/-- What a construct is evaluated to, given its evaluated children. -/
def rebuild : Node Expr → Eval Expr
  | .app f a => f.applyTo eval a
  | .text t => pure (ofPieces t.pieces)
  | .ifThenElse condition yes no => choose condition yes no
  | .op o x y => o.reduce x y
  | .field e l => pure (e.select l)
  | .project e labels => e.selectAll labels
  | .projectType e type => e.selectByType type
  | .toMap e type => pure (e.toEntries type)
  | .merge handlers variant type => mergeVariant eval handlers variant type
  | n => pure (mk n)

/-- A strict construct evaluates its children in order, and then rebuilds. -/
theorem step_strict (strict : n.isStrict) :
    step eval (mk n) = n.traverse (fun _ => eval) >>= rebuild eval := by
  cases n with
  | annot | letIn | embed => cases strict
  | text t => simp [step, Node.traverse, Text.mapM_pieces, rebuild]
  | app | ifThenElse | op | field | project | projectType | toMap | merge =>
    simp [step, Node.traverse, rebuild]
  | _ => simp [step, Node.traverse, rebuild]

/-- Settled expressions have neither annotations nor definitions. -/
theorem Settled.stripped_eq (h : Settled e) : e.stripped = e := by
  induction e using stripped_induction with
  | annot e type => exact h.stuck.elim
  | letIn first rest body => exact h.stuck.elim
  | node n kept ih =>
    have children : n.Similar (fun _ c c' => c' = c) (n.map stripped) := by
      refine (Node.similar_self (R := fun _ c c' => c' = c) fun _ _ => rfl).map stripped ?_
      rintro p member _ rfl
      exact ih p member (h.child (List.mem_map_of_mem member))
    rw [stripped_mk kept, children.eq]

/-- With the same amount of fuel, evaluation returns the same result for a stripped expression. -/
theorem normalize_stripped (h : e.normalize fuel = pure r) :
    e.stripped.normalize fuel = pure r := by
  induction fuel generalizing e r with
  | zero => cases h
  | succ fuel ih =>
    obtain ⟨n⟩ := e
    by_cases strict : n.isStrict
    · have strict' : (n.map stripped).isStrict := by
        rw [← Node.isStrict_shape, Node.shape_map, Node.isStrict_shape, strict]
      rw [normalize, step_strict strict] at h
      obtain ⟨n', traversed, rebuilt⟩ := bind_eq_pure_iff.mp h
      rw [stripped_mk (Node.isKept_of_isStrict strict), normalize, step_strict strict',
        Node.traverse_map]
      refine bind_eq_pure_iff.mpr ⟨n', Node.traverse_eq_pure_iff.mpr ?_, rebuilt⟩
      exact (Node.traverse_eq_pure_iff.mp traversed).imp fun _ _ _ => ih
    · cases n with
      | annot e type =>
        -- The annotation takes a step of its own, which the stripped expression does not need.
        rcases approximates_normalize (Nat.le_succ fuel) e.stripped with none | same
        · cases none.symm.trans (ih h)
        · exact same.symm.trans (ih h)
      | letIn bindings body =>
        cases bindings with
        | nil => cases h
        | cons first rest =>
          obtain ⟨value, evaluated, h⟩ := bind_eq_pure_iff.mp h
          obtain ⟨after, instantiated, h⟩ := bind_eq_pure_iff.mp h
          have fixed := (settled_normalize fuel _ _ evaluated).stripped_eq
          have replaced := stripped_instantiate fixed (Eval.lift_eq_pure_iff.mp instantiated)
          refine Eq.trans (congrArg (normalize (fuel + 1)) stripped_letIn_cons) ?_
          exact bind_eq_pure_iff.mpr ⟨value, ih evaluated, bind_eq_pure_iff.mpr
            ⟨after.stripped, Eval.lift_eq_pure_iff.mpr replaced, ih h⟩⟩
      | embed i => cases h
      | _ => exact absurd rfl strict

/-- Neither annotations nor types of definitions nor the grouping of definitions matter for the
normal form. -/
theorem normalizes_stripped_iff (h : e.Normalizes r) : e.stripped.Normalizes s ↔ s = r := by
  obtain ⟨fuel, returned⟩ := h
  have stripped : e.stripped.Normalizes r := ⟨fuel, normalize_stripped returned⟩
  exact ⟨fun other => other.unique stripped, fun same => same ▸ stripped⟩

/-- Both definitions of one `let` have the label of the binder around them, and the second one and
the body mention what the first one and the binder define. -/
theorem normalizes_stripped_repeated :
    let x (n : UInt64) := var ⟨"x", n⟩
    let natural := builtin .natural
    let e := lam "x" natural <|
      letIn [⟨"x", some natural, annot (op .plus (x 0) (x 0)) natural⟩,
        ⟨"x", none, op .times (x 0) (x 1)⟩] (annot (list [x 0, x 1, x 2]) (x 3))
    let e' := lam "x" natural <| letIn [⟨"x", none, op .plus (x 0) (x 0)⟩] <|
      letIn [⟨"x", none, op .times (x 0) (x 1)⟩] (list [x 0, x 1, x 2])
    let r := lam "x" natural <|
      list [op .times (op .plus (x 0) (x 0)) (x 0), op .plus (x 0) (x 0), x 0]
    e.stripped = e' ∧ e.Normalizes r ∧ e'.Normalizes r := by
  intro x natural e e' r
  have evaluated : e.Normalizes r := ⟨12, rfl⟩
  exact ⟨rfl, evaluated, (normalizes_stripped_iff evaluated).mpr rfl⟩

end Expr

end Dhall
