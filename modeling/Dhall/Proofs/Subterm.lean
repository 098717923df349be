/-
# Expressions inside an expression

An expression is within another one if it stands at some node of it, at any depth and
also under binders. A property that holds at every node is the hereditary form of the
property, and is proved from the leaves up.

## Main definitions

* `Expr.Within` — being a subexpression
* `Expr.Everywhere` — a property of all subexpressions

## Main results

* `Expr.everywhere_mk` — a property holds everywhere in a node if it holds at the node
  and everywhere in the children
-/

import Dhall.Expr.Induction

namespace Dhall.Expr

/-- `s` is a subexpression of an expression. -/
inductive Within (s : Expr) : Expr → Prop
  /-- An expression is within itself. -/
  | refl : Within s s
  /-- What is within a child is within the node. -/
  | child {n : Node Expr} {c : Expr} (member : c ∈ n.children) (inside : Within s c) :
    Within s (mk n)

variable {s t e : Expr} {n : Node Expr} {P Q : Expr → Prop}

theorem within_mk : s.Within (mk n) ↔ s = mk n ∨ ∃ c ∈ n.children, s.Within c := by
  constructor
  · intro inside
    cases inside with
    | refl => exact Or.inl rfl
    | child member inside => exact Or.inr ⟨_, member, inside⟩
  · rintro (rfl | ⟨c, member, inside⟩)
    · exact .refl
    · exact .child member inside

theorem Within.of_child {c : Expr} (member : c ∈ n.children) : c.Within (mk n) :=
  .child member .refl

theorem Within.trans (inner : s.Within t) (outer : t.Within e) : s.Within e := by
  induction outer with
  | refl => exact inner
  | child member _ ih => exact .child member ih

/-- A property holds at every node of an expression. -/
def Everywhere (P : Expr → Prop) (e : Expr) : Prop :=
  ∀ s, s.Within e → P s

theorem everywhere_mk :
    Everywhere P (mk n) ↔ P (mk n) ∧ ∀ c ∈ n.children, Everywhere P c := by
  constructor
  · intro h
    exact ⟨h _ .refl, fun c member s inside => h s (.child member inside)⟩
  · rintro ⟨here, below⟩ s inside
    rcases within_mk.mp inside with rfl | ⟨c, member, inside⟩
    · exact here
    · exact below c member s inside

theorem Everywhere.here (h : Everywhere P e) : P e :=
  h e .refl

theorem Everywhere.child (h : Everywhere P (mk n)) {c : Expr} (member : c ∈ n.children) :
    Everywhere P c :=
  (everywhere_mk.mp h).2 c member

theorem Everywhere.within (h : Everywhere P e) (inside : s.Within e) : Everywhere P s :=
  fun t inner => h t (inner.trans inside)

end Dhall.Expr
