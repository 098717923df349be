/-
# Recursion and induction on expressions

`Expr.fold` combines the results at the children, so it obeys one equation
whatever the construct is. An induction over expressions need not distinguish
constructs either: it assumes the statement for all children of a node.

## Main results

* `Expr.fold_mk` — the equation of a fold
* `Expr.size_lt_of_mem` — children are smaller than their node
* `Expr.induction` — induction that assumes the statement for all children
-/

import Dhall.Expr
import Dhall.Node.Lemmas

namespace Dhall.Expr

variable {β : Type} (combine : Node β → β)

@[simp] theorem foldOption_eq (o : Option Expr) : foldOption combine o = o.map (fold combine) := by
  cases o <;> rfl

@[simp] theorem foldList_eq (es : List Expr) : foldList combine es = es.map (fold combine) := by
  induction es with
  | nil => rfl
  | cons e es ih => simp [foldList, ih]

@[simp] theorem foldTail_eq (tail : List (Expr × String)) :
    foldTail combine tail = tail.map fun (e, s) => (fold combine e, s) := by
  induction tail with
  | nil => rfl
  | cons entry tail ih => simp [foldTail, ih]

@[simp] theorem foldBindings_eq (bs : List (Binding Expr)) :
    foldBindings combine bs = bs.map (Binding.map (fold combine)) := by
  induction bs with
  | nil => rfl
  | cons b bs ih => simp [foldBindings, ih, Binding.map]

@[simp] theorem foldFields_eq {bound : Option Label} (fields : Entries Expr bound) :
    foldFields combine fields = fields.map (fold combine) := by
  induction fields with
  | nil => rfl
  | cons l above e rest ih => simp [foldFields, ih, Entries.map]

@[simp] theorem foldAlternatives_eq {bound : Option Label}
    (alternatives : Entries (Option Expr) bound) :
    foldAlternatives combine alternatives = alternatives.map (Option.map (fold combine)) := by
  induction alternatives with
  | nil => rfl
  | cons l above e rest ih => simp [foldAlternatives, ih, Entries.map]

theorem foldNode_eq (n : Node Expr) : foldNode combine n = n.map (fold combine) := by
  cases n <;> simp [foldNode, Node.map, Text.map]

/-- A fold combines what it makes of the children. -/
theorem fold_mk (n : Node Expr) : fold combine (mk n) = combine (n.map (fold combine)) := by
  rw [fold, foldNode_eq]

theorem size_mk (n : Node Expr) : size (mk n) = (n.children.map size).foldr (· + ·) 1 := by
  rw [size, fold_mk, Node.children_map]

private theorem total_pos (es : List Expr) : 0 < (es.map size).foldr (· + ·) 1 := by
  induction es with
  | nil => exact Nat.one_pos
  | cons e es ih => exact Nat.add_pos_right _ ih

theorem size_pos (e : Expr) : 0 < e.size := by
  obtain ⟨n⟩ := e
  rw [size_mk]
  exact total_pos n.children

/-- A child has fewer nodes. -/
theorem size_lt_of_mem {n : Node Expr} {c : Expr} (h : c ∈ n.children) : c.size < (mk n).size := by
  have lt_total (es : List Expr) (h : c ∈ es) : c.size < (es.map size).foldr (· + ·) 1 := by
    induction es with
    | nil => cases h
    | cons e es ih =>
      rcases List.mem_cons.mp h with rfl | h
      · exact Nat.lt_add_of_pos_right (total_pos es)
      · exact Nat.lt_add_left _ (ih h)
  rw [size_mk]
  exact lt_total n.children h

/-- What passes from the children of a node to the node holds of every expression. -/
theorem induction {motive : Expr → Prop}
    (step : ∀ n : Node Expr, (∀ c ∈ n.children, motive c) → motive (mk n)) (e : Expr) :
    motive e :=
  match e with
  | mk n => step n fun c _ => induction step c
termination_by e.size
decreasing_by exact size_lt_of_mem ‹_›

end Dhall.Expr
