/-
# Expressions up to the association of operators

An operator may stand without parentheses beside itself, so the written form does not say how
its operands are grouped. Two expressions are associated if one becomes the other by regrouping
the operands of one operator at a time, anywhere inside. Associated expressions are written in
the same way in every place, and each expression is associated with one in which no operator is
the right operand of itself.

## Main definitions

* `Expr.Associated` — the least congruence in which every operator associates
* `Expr.LeftNested` — no operator is the right operand of itself
* `Expr.leftNested` — the associated expression of which this holds

## Main results

* `Expr.Associated.renderAt_eq` — associated expressions have the same written forms
* `Expr.associated_leftNested`, `Expr.leftNested_leftNested` — what regrouping does
-/

import Dhall.Expr.Induction
import Dhall.Expr.Render
import Dhall.Proofs.Subterm

namespace Dhall

theorem Entries.map_id {α : Type} {bound : Option Label} (m : Entries α bound) :
    m.map (fun a => a) = m :=
  eq_of_labels_values (labels_map _ m) (by rw [values_map, List.map_id'])

namespace Node

variable {α β : Type}

theorem map_congr {f g : α → β} {n : Node α} (h : ∀ c ∈ n.children, f c = g c) :
    n.map f = n.map g := by
  refine eq_of_shape ?_ ?_
  · rw [shape_map, shape_map]
  · rw [children_map, children_map]
    exact List.map_congr_left h

/-- The places of the children do not depend on the children. -/
theorem placed_map (f : α → β) (n : Node α) :
    (n.map f).placed = n.placed.map fun p => (p.1, f p.2) := by
  cases n <;>
    simp [map, placed, Text.map, Binding.map, Entries.map_map, Function.comp_def]

/-- A node with places is the node around the children alone. -/
theorem placed_snd (n : Node α) : n.placed.map Prod.snd = n := by
  have optional (o : Option α) (p : Precedence) :
      (o.map fun a => (p, a)).map Prod.snd = o := by cases o <;> rfl
  cases n <;>
    simp [placed, map, Text.map, Binding.map, Entries.map_map, Entries.map_id, Function.comp_def,
      optional]

theorem precedence_map (f : α → β) (n : Node α) : (n.map f).precedence = n.precedence := by
  cases n <;> rfl

theorem map_id (n : Node α) : n.map (fun a => a) = n :=
  eq_of_shape (shape_map _ n) (by rw [children_map, List.map_id'])

end Node

namespace Expr

/-- One expression becomes the other when operands of single operators are regrouped. -/
inductive Associated : Expr → Expr → Prop
  | refl (e : Expr) : Associated e e
  | symm {a b : Expr} (h : Associated a b) : Associated b a
  | trans {a b c : Expr} (first : Associated a b) (second : Associated b c) : Associated a c
  /-- Every operator associates. -/
  | assoc (o : Operator) (x y z : Expr) : Associated (op o (op o x y) z) (op o x (op o y z))
  /-- A construct around associated expressions. -/
  | congr (n : Node (Expr × Expr)) (h : ∀ p ∈ n.children, Associated p.1 p.2) :
    Associated (mk (n.map Prod.fst)) (mk (n.map Prod.snd))

variable {a b e x y : Expr} {o : Operator} {n : Node Expr}

/-! ### Written forms -/

/-- A construct is written around its written children. -/
theorem renderAt_mk (n : Node Expr) (place : Precedence) :
    (mk n).renderAt place =
      let written := (n.placed.map fun p => p.2.renderAt p.1).render
      if n.precedence.rank < place.rank then "(" ++ written ++ ")" else written := by
  rw [renderAt, fold_mk]
  simp only [Node.placed_map, Node.map_map, Node.precedence_map]

/-- Associated expressions are written in the same way. -/
theorem Associated.renderAt_eq (h : Associated a b) (place : Precedence) :
    a.renderAt place = b.renderAt place := by
  induction h generalizing place with
  | refl e => rfl
  | symm _ ih => exact (ih place).symm
  | trans _ _ ih ih' => exact (ih place).trans (ih' place)
  | assoc o x y z =>
    have same : ¬(Precedence.operandOf o).rank < (Precedence.operandOf o).rank := Nat.lt_irrefl _
    have operation (x y : Expr) : (op o x y).renderAt (.operandOf o) =
        x.renderAt (.operandOf o) ++ " " ++ o.render ++ " " ++ y.renderAt (.operandOf o) := by
      rw [renderAt_mk]
      exact if_neg same
    rw [renderAt_mk, renderAt_mk]
    simp only [Node.placed, Node.map, Node.render, operation, Node.precedence, String.append_assoc]
  | congr n _ ih =>
    rw [renderAt_mk, renderAt_mk, Node.placed_map, Node.placed_map, Node.map_map, Node.map_map,
      Node.precedence_map, Node.precedence_map]
    have children : (n.placed.map fun p => p.2.1.renderAt p.1) =
        n.placed.map fun p => p.2.2.renderAt p.1 := by
      refine Node.map_congr fun p member => ih p.2 ?_ p.1
      rw [← Node.placed_snd n, Node.children_map]
      exact List.mem_map_of_mem member
    rw [children]

/-! ### Regrouping -/

theorem Associated.op {x' y' : Expr} (left : Associated x x') (right : Associated y y') :
    Associated (Expr.op o x y) (Expr.op o x' y') := by
  have parts : ∀ p ∈ [(x, x'), (y, y')], Associated p.1 p.2 :=
    List.forall_mem_cons.mpr ⟨left, List.forall_mem_singleton.mpr right⟩
  exact .congr (.op o (x, x') (y, y')) parts

/-- No operator is the right operand of itself. -/
def LeftNested (e : Expr) : Prop :=
  Everywhere (fun s => ∀ o x y, s = op o x y → ∀ z w, y ≠ op o z w) e

/-- An operation whose left operand takes the operands of the right one, if that is an operation
of the same operator. -/
def regroup (o : Operator) (x : Expr) : Expr → Expr
  | op p y z => if p = o then op o (regroup o x y) z else op o x (op p y z)
  | y => op o x y

/-- The expression with all operands regrouped to the left. -/
def leftNested : Expr → Expr :=
  fold fun
    | .op o x y => regroup o x y
    | n => mk n

theorem regroup_of_ne (h : ∀ z w, y ≠ op o z w) : regroup o x y = op o x y := by
  unfold regroup
  split
  · next p z w =>
    rw [if_neg]
    rintro rfl
    exact h z w rfl
  · rfl

/-- Regrouping one operation is one use of the law. -/
theorem associated_regroup (o : Operator) (x y : Expr) :
    Associated (op o x y) (regroup o x y) := by
  induction y using regroup.induct o with
  | case1 y z ih =>
    rw [regroup, if_pos rfl]
    exact .trans (.symm (.assoc o x y z)) (ih.op (.refl z))
  | case2 p y z other =>
    rw [regroup, if_neg other]
    exact .refl _
  | case3 y other =>
    rw [regroup_of_ne (other o)]
    exact .refl _

theorem leftNested_mk (n : Node Expr) :
    leftNested (mk n) = match n.map leftNested with
      | .op o x y => regroup o x y
      | n => mk n := by
  rw [leftNested, fold_mk]

/-- Regrouping everywhere makes an associated expression. -/
theorem associated_leftNested (e : Expr) : Associated e e.leftNested := by
  induction e using induction with
  | step n ih =>
    have around : Associated (mk n) (mk (n.map leftNested)) := by
      have pairs := Associated.congr (n.map fun c => (c, c.leftNested)) fun p member => by
        rw [Node.children_map] at member
        obtain ⟨c, inside, rfl⟩ := List.mem_map.mp member
        exact ih c inside
      rwa [Node.map_map, Node.map_map, Node.map_id] at pairs
    rw [leftNested_mk]
    split
    · next o x y same =>
      rw [same] at around
      exact around.trans (associated_regroup o x y)
    · exact around

theorem leftNested_op_iff : LeftNested (op o x y) ↔
    (∀ z w, y ≠ op o z w) ∧ LeftNested x ∧ LeftNested y := by
  rw [LeftNested, everywhere_mk]
  constructor
  · rintro ⟨here, parts⟩
    exact ⟨here o x y rfl, parts x (.head _), parts y (.tail _ (.head _))⟩
  · rintro ⟨here, left, right⟩
    refine ⟨fun p x' y' same => ?_, ?_⟩
    · cases same
      exact here
    · exact List.forall_mem_cons.mpr ⟨left, List.forall_mem_singleton.mpr right⟩

theorem leftNested_regroup (left : LeftNested x) (right : LeftNested y) :
    LeftNested (regroup o x y) := by
  induction y using regroup.induct o with
  | case1 y z ih =>
    obtain ⟨apart, first, second⟩ := leftNested_op_iff.mp right
    rw [regroup, if_pos rfl]
    exact leftNested_op_iff.mpr ⟨apart, ih first, second⟩
  | case2 p y z other =>
    rw [regroup, if_neg other]
    refine leftNested_op_iff.mpr ⟨fun z' w' same => ?_, left, right⟩
    cases same
    exact other rfl
  | case3 y other =>
    rw [regroup_of_ne (other o)]
    exact leftNested_op_iff.mpr ⟨other o, left, right⟩

/-- After regrouping no operator is the right operand of itself. -/
theorem leftNested_leftNested (e : Expr) : LeftNested e.leftNested := by
  induction e using induction with
  | step n ih =>
    have parts (c : Expr) (member : c ∈ (n.map leftNested).children) : LeftNested c := by
      rw [Node.children_map] at member
      obtain ⟨c, inside, rfl⟩ := List.mem_map.mp member
      exact ih c inside
    rw [leftNested_mk]
    split
    · next o x y same =>
      rw [same] at parts
      exact leftNested_regroup (parts x (.head _)) (parts y (.tail _ (.head _)))
    · next other =>
      refine everywhere_mk.mpr ⟨fun o x y operation => ?_, parts⟩
      exact (other o x y (mk.inj operation)).elim

end Expr

end Dhall
