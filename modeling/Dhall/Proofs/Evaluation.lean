/-
# Evaluation with enough fuel

To show that an expression has a normal form, one has to find enough fuel. Parts of an
expression may need different amounts, so a part is said to return when it returns the same
value from some amount of fuel on. Sequences of parts that return, return, and this turns each
rule of evaluation into a rule about normal forms that does not speak of fuel.

## Main definitions

* `Eval.Returns` — the same value, from some amount of fuel on

## Main results

* `Eval.Returns.bind` — sequences return if their parts do
* `Expr.Normalizes.of_step` — a step that returns, returns a normal form
* `Expr.Normalizes.lam`, `Expr.Normalizes.apply`, `Expr.Normalizes.builtin`,
  `Expr.Normalizes.letIn`, `Expr.Normalizes.ifThenElse` — the rules of constructs
* `Expr.normalizes_record_iff`, `Expr.normalizes_op_iff`, `Expr.normalizes_field_iff`,
  `Expr.normalizes_project_iff` — the normal forms of constructs, from those of their parts
-/

import Dhall.Proofs.Fields
import Dhall.Proofs.Fuel

namespace Dhall

namespace Eval

variable {α β : Type} {x : Nat → Eval α} {a : α} {b : β}

/-- From some amount of fuel on, an evaluation returns the value. -/
def Returns (x : Nat → Eval α) (a : α) : Prop :=
  ∃ enough, ∀ fuel, enough ≤ fuel → x fuel = pure a

theorem Returns.pure (a : α) : Returns (fun _ => Pure.pure a) a :=
  ⟨0, fun _ _ => rfl⟩

/-- A sequence returns if its parts do. -/
theorem Returns.bind {f : Nat → α → Eval β} (h : Returns x a) (rest : Returns (f · a) b) :
    Returns (fun fuel => x fuel >>= f fuel) b := by
  obtain ⟨first, returned⟩ := h
  obtain ⟨second, returned'⟩ := rest
  refine ⟨max first second, fun fuel enough => bind_eq_pure_iff.mpr ⟨a, ?_, ?_⟩⟩
  · exact returned fuel (by omega)
  · exact returned' fuel (by omega)

theorem Returns.map (f : α → β) (h : Returns x a) : Returns (fun fuel => f <$> x fuel) (f a) := by
  obtain ⟨enough, returned⟩ := h
  exact ⟨enough, fun fuel large => map_eq_pure_iff.mpr ⟨a, returned fuel large, rfl⟩⟩

/-- A sequence of evaluations returns if each of them does. -/
theorem returns_mapM {f : Nat → α → Eval β} {l : List α} {l' : List β}
    (h : List.Forall₂ (fun a b => Returns (f · a) b) l l') :
    Returns (fun fuel => l.mapM (f fuel)) l' := by
  induction h with
  | nil => exact .pure []
  | cons first _ ih =>
    simp only [List.mapM_cons]
    exact first.bind (ih.bind (.pure _))

/-- What has no fuel to run out of returns with any. -/
theorem returns_lift {x : Except Violation α} (h : x = .ok a) :
    Returns (fun _ => (liftM x : Eval α)) a :=
  ⟨0, fun _ _ => lift_eq_pure_iff.mpr h⟩

end Eval

namespace Expr

open Eval

variable {e f f' a a' d d' b b' r s : Expr} {x : Label}

/-- An expression has a normal form if its evaluation returns. -/
theorem normalizes_iff_returns : e.Normalizes r ↔ Returns (fun fuel => e.normalize fuel) r := by
  constructor
  · rintro ⟨fuel, outcome⟩
    exact ⟨fuel, fun more enough => (approximates_normalize enough e).outcome outcome⟩
  · rintro ⟨fuel, returned⟩
    exact ⟨fuel, returned fuel (Nat.le_refl fuel)⟩

/-- A step that returns, returns the normal form. -/
theorem Normalizes.of_step (h : Returns (fun fuel => e.step (normalize fuel)) r) :
    e.Normalizes r := by
  obtain ⟨fuel, returned⟩ := h
  exact ⟨fuel + 1, returned fuel (Nat.le_refl fuel)⟩

theorem Normalizes.returns (h : e.Normalizes r) : Returns (fun fuel => e.normalize fuel) r :=
  normalizes_iff_returns.mp h

/-- An expression has a normal form if one step of its evaluation returns it. -/
theorem normalizes_iff_step : e.Normalizes r ↔ ∃ fuel, e.step (normalize fuel) = pure r := by
  constructor
  · rintro ⟨fuel, returned⟩
    cases fuel with
    | zero => cases returned
    | succ fuel => exact ⟨fuel, returned⟩
  · rintro ⟨fuel, returned⟩
    exact ⟨fuel + 1, returned⟩

/-! ### Constructs that are kept -/

theorem normalizes_var (v : Variable) : (var v).Normalizes (var v) :=
  .of_step (.pure _)

theorem normalizes_bool (c : Bool) : (bool c).Normalizes (bool c) :=
  .of_step (.pure _)

theorem normalizes_natural (n : UInt64) : (natural n).Normalizes (natural n) :=
  .of_step (.pure _)

theorem normalizes_builtin (b : Builtin) : (Expr.builtin b).Normalizes (Expr.builtin b) :=
  .of_step (.pure _)

/-- Evaluation goes under binders. -/
theorem Normalizes.lam (hd : d.Normalizes d') (hb : b.Normalizes b') :
    (lam x d b).Normalizes (lam x d' b') := by
  have parts : Returns (fun fuel => (Node.lam x d b).traverse fun _ e => e.normalize fuel)
      (.lam x d' b') :=
    hd.returns.bind (hb.returns.bind (.pure _))
  exact .of_step (parts.bind (.pure _))

theorem returns_traverse {bound : Option Label} {fields fields' : Entries Expr bound}
    (h : fields.Related Normalizes fields') :
    Returns (fun fuel => fields.traverse fun _ e => e.normalize fuel) fields' := by
  induction h with
  | nil => exact .pure _
  | cons here _ ih => exact here.returns.bind (ih.bind (.pure _))

theorem related_of_traverse {bound : Option Label} {fields fields' : Entries Expr bound}
    {fuel : Nat} (h : (fields.traverse fun _ e => e.normalize fuel) = pure fields') :
    fields.Related Normalizes fields' := by
  refine Entries.related_iff_get?.mpr fun l => ?_
  exact rel_imp (Entries.traverse_eq_pure_iff.mp h l) fun _ _ returned => ⟨fuel, returned⟩

/-- What evaluation does to a construct that keeps its fields, it does to the fields. -/
theorem normalizes_iff_related {make : LabelMap Expr → Expr} {fields : LabelMap Expr}
    (steps : ∀ eval, step eval (make fields) = make <$> fields.traverse fun _ => eval) :
    (make fields).Normalizes r ↔
      ∃ fields', r = make fields' ∧ fields.Related Normalizes fields' := by
  constructor
  · intro h
    obtain ⟨fuel, returned⟩ := normalizes_iff_step.mp h
    rw [steps] at returned
    obtain ⟨fields', evaluated, rfl⟩ := map_eq_pure_iff.mp returned
    exact ⟨fields', rfl, related_of_traverse evaluated⟩
  · rintro ⟨fields', rfl, related⟩
    refine .of_step ?_
    simp only [steps]
    exact (returns_traverse related).map make

/-- The normal form of a record is the record of the normal forms. -/
theorem normalizes_record_iff {fields : LabelMap Expr} :
    (record fields).Normalizes r ↔
      ∃ fields', r = record fields' ∧ fields.Related Normalizes fields' :=
  normalizes_iff_related fun eval => by simp [step, Node.traverse]

/-! ### Constructs that are reduced -/

/-- A function that is applied evaluates to the normal form of its instantiated body. -/
theorem Normalizes.apply (hf : f.Normalizes (.lam x d b)) (ha : a.Normalizes a')
    (instantiated : b.instantiate (.nearest x) a' = .ok r) (h : r.Normalizes s) :
    (app f a).Normalizes s :=
  .of_step (hf.returns.bind (ha.returns.bind ((returns_lift instantiated).bind h.returns)))

/-- A built-in function that is applied is reduced, or the application is kept. -/
theorem Normalizes.builtin {c : Builtin} {args : List Expr} {reduced : Option Expr}
    (hf : f.Normalizes f') (ha : a.Normalizes a') (spine : f'.spine = (.builtin c, args))
    (h : Returns (fun fuel => c.reduce (normalize fuel) (args ++ [a'])) reduced) :
    (app f a).Normalizes (reduced.getD (app f' a')) := by
  refine .of_step (hf.returns.bind (ha.returns.bind ?_))
  simp only [applyTo_builtin spine]
  exact h.bind (.pure _)

/-- A definition is put in the place of its name before what follows is evaluated. -/
theorem Normalizes.letIn {first : Binding Expr} {rest : List (Binding Expr)}
    (hv : first.value.Normalizes a)
    (instantiated : (afterFirst rest b).instantiate (.nearest first.label) a = .ok r)
    (h : r.Normalizes s) : (letIn (first :: rest) b).Normalizes s :=
  .of_step (hv.returns.bind ((returns_lift instantiated).bind h.returns))

theorem Normalizes.ifThenElse (hc : e.Normalizes r) (ha : a.Normalizes a') (hb : b.Normalizes b')
    (chosen : choose r a' b' = .ok s) : (ifThenElse e a b).Normalizes s :=
  .of_step (hc.returns.bind (ha.returns.bind (hb.returns.bind (returns_lift chosen))))

theorem Normalizes.field (h : e.Normalizes r) (l : Label) : (field e l).Normalizes (r.select l) :=
  .of_step (h.returns.bind (.pure _))

/-- An operation has the normal form that its operator makes of those of the operands. -/
theorem normalizes_op_iff {o : Operator} : (op o a b).Normalizes r ↔
    ∃ a' b', a.Normalizes a' ∧ b.Normalizes b' ∧ o.reduce a' b' = .ok r := by
  constructor
  · intro h
    obtain ⟨fuel, returned⟩ := normalizes_iff_step.mp h
    obtain ⟨a', left, returned⟩ := bind_eq_pure_iff.mp returned
    obtain ⟨b', right, reduced⟩ := bind_eq_pure_iff.mp returned
    exact ⟨a', b', ⟨fuel, left⟩, ⟨fuel, right⟩, lift_eq_pure_iff.mp reduced⟩
  · rintro ⟨a', b', left, right, reduced⟩
    exact left.op right reduced

/-- An operation on operands that have normal forms stops where its operator stops. -/
theorem aborts_op_iff {o : Operator} {v : Violation} (left : a.Normalizes a')
    (right : b.Normalizes b') : (op o a b).Aborts v ↔ o.reduce a' b' = .error v := by
  -- With enough fuel for both operands, a step has the outcome of the operator.
  have reduced : ∃ fuel, ((op o a b).normalize fuel).outcome? = some (o.reduce a' b') := by
    obtain ⟨first, returned⟩ := left.returns
    obtain ⟨second, returned'⟩ := right.returns
    have left : a.normalize (max first second) = pure a' := returned _ (by omega)
    have right : b.normalize (max first second) = pure b' := returned' _ (by omega)
    refine ⟨max first second + 1, ?_⟩
    rw [normalize, step, left, pure_bind, right, pure_bind]
    rfl
  obtain ⟨fuel, reduced⟩ := reduced
  constructor
  · rintro ⟨fuel', stopped⟩
    exact outcome_unique reduced stopped
  · intro stops
    exact ⟨fuel, reduced.trans (congrArg some stops)⟩

/-- An operation stops where its first operand stops. -/
theorem Aborts.op_left {o : Operator} {v : Violation} (h : a.Aborts v) (b : Expr) :
    (op o a b).Aborts v := by
  obtain ⟨fuel, stopped⟩ := h
  have stopped : a.normalize fuel = throw v := stopped
  refine ⟨fuel + 1, ?_⟩
  rw [normalize, step, stopped]
  rfl

/-- An operation stops where its second operand stops, if the first one has a normal form. -/
theorem Aborts.op_right {o : Operator} {v : Violation} (left : a.Normalizes a')
    (h : b.Aborts v) : (op o a b).Aborts v := by
  obtain ⟨first, returned⟩ := left.returns
  obtain ⟨second, stopped⟩ := h
  have returned : a.normalize (max first second) = pure a' := returned _ (by omega)
  have stopped : b.normalize (max first second) = throw v :=
    (approximates_normalize (Nat.le_max_right first second) b).outcome stopped
  refine ⟨max first second + 1, ?_⟩
  rw [normalize, step, returned, pure_bind, stopped]
  rfl

/-- A field has the normal form that is selected from that of the operand. -/
theorem normalizes_field_iff {l : Label} :
    (Expr.field e l).Normalizes r ↔ ∃ e', e.Normalizes e' ∧ r = e'.select l := by
  constructor
  · intro h
    obtain ⟨fuel, returned⟩ := normalizes_iff_step.mp h
    obtain ⟨e', evaluated, selected⟩ := bind_eq_pure_iff.mp returned
    exact ⟨e', ⟨fuel, evaluated⟩, (LawfulReturn.pure_injective selected).symm⟩
  · rintro ⟨e', evaluated, rfl⟩
    exact evaluated.field l

/-- A projection has the normal form that is projected from that of the operand. -/
theorem normalizes_project_iff {labels : LabelSet} : (project e labels).Normalizes r ↔
    ∃ e', e.Normalizes e' ∧ e'.selectAll labels = .ok r := by
  constructor
  · intro h
    obtain ⟨fuel, returned⟩ := normalizes_iff_step.mp h
    obtain ⟨e', evaluated, selected⟩ := bind_eq_pure_iff.mp returned
    exact ⟨e', ⟨fuel, evaluated⟩, lift_eq_pure_iff.mp selected⟩
  · rintro ⟨e', evaluated, selected⟩
    exact .of_step (evaluated.returns.bind (returns_lift selected))

end Expr

end Dhall
