/-
# The constructs an expression is made of

Shifts, substitutions and renamings of binders move variables and put expressions in their
places, and leave all other constructs as they are. So an expression in which every construct
has some property that variables have keeps it, as long as the property does not look at the
children of the construct.

## Main definitions

* `Expr.MadeOf` — every construct in the expression has a property

## Main results

* `Expr.MadeOf.shift`, `Expr.MadeOf.subst`, `Expr.MadeOf.instantiate`,
  `Expr.MadeOf.renameBound` — no other constructs are brought in
-/

import Dhall.AlphaNormal
import Dhall.Proofs.Substitution

namespace Dhall.Expr

/-- Every construct in the expression has the property. -/
def MadeOf (P : Node Unit → Prop) (e : Expr) : Prop :=
  Everywhere (fun s => P s.node.shape) e

variable {P : Node Unit → Prop} {e e' value body : Expr} {n : Node Expr} {x cutoff : Variable}
  {delta : Int64}

theorem madeOf_mk : MadeOf P (mk n) ↔ P n.shape ∧ ∀ c ∈ n.children, MadeOf P c :=
  everywhere_mk

/-- A node of the same shape has the property as well. -/
theorem madeOf_similar {n' : Node Expr} {R : List Label → Expr → Expr → Prop}
    (h : MadeOf P (mk n)) (similar : n.Similar R n')
    (parts : ∀ p ∈ n.scopedChildren, ∀ c', R p.1 p.2 c' → MadeOf P c') : MadeOf P (mk n') := by
  refine madeOf_mk.mpr ⟨similar.shape_eq ▸ (madeOf_mk.mp h).1, fun c' member => ?_⟩
  obtain ⟨p, inside, related⟩ := similar.exists_of_mem member
  exact parts p inside c' related

theorem MadeOf.child (h : MadeOf P (mk n)) {p : List Label × Expr} (member : p ∈ n.scopedChildren) :
    MadeOf P p.2 :=
  (madeOf_mk.mp h).2 p.2 (List.mem_map_of_mem member)

variable (vars : ∀ v, P (.var v))

include vars

theorem madeOf_var (v : Variable) : MadeOf P (var v) :=
  madeOf_mk.mpr ⟨vars v, List.forall_mem_nil _⟩

/-- A shift keeps constructs. -/
theorem MadeOf.shift (h : e.MadeOf P) (shifted : e.shift delta cutoff = .ok e') :
    e'.MadeOf P := by
  induction e using variableInduction generalizing cutoff e' with
  | var v =>
    rw [shift_var] at shifted
    obtain ⟨v', _, rfl⟩ := map_eq_pure_iff.mp shifted
    exact madeOf_var vars v'
  | node n notVar ih =>
    obtain ⟨n', rfl, similar⟩ := shift_mk_eq_ok notVar shifted
    refine madeOf_similar h similar fun p member c' below => ?_
    obtain ⟨cutoff', _, shifted⟩ := below
    exact ih p member (h.child member) shifted

omit vars in
/-- A value seen from under binders is made of the same constructs. -/
theorem MadeOf.underAll (vars : ∀ v, P (.var v)) (h : value.MadeOf P) {binders : List Label}
    {x' : Variable} {value' : Expr} (under : Expr.underAll x value binders = .ok (x', value')) :
    value'.MadeOf P := by
  induction binders generalizing x value with
  | nil =>
    cases under
    exact h
  | cons b binders ih =>
    obtain ⟨⟨x₁, value₁⟩, first, rest⟩ := bind_eq_pure_iff.mp under
    obtain ⟨x₂, _, first⟩ := bind_eq_pure_iff.mp first
    obtain ⟨value₂, shifted, first⟩ := bind_eq_pure_iff.mp first
    cases first
    exact ih (h.shift vars shifted) rest

/-- A substitution brings in the constructs of the value only. -/
theorem MadeOf.subst (h : e.MadeOf P) (hv : value.MadeOf P)
    (substituted : e.subst x value = .ok e') : e'.MadeOf P := by
  induction e using variableInduction generalizing x value e' with
  | var v =>
    rw [subst_var] at substituted
    cases substituted
    split
    · exact hv
    · exact h
  | node n notVar ih =>
    rw [subst_mk notVar] at substituted
    obtain ⟨n', traversed, rfl⟩ := map_eq_pure_iff.mp substituted
    refine madeOf_similar h (Node.traverse_eq_pure_iff.mp traversed) fun p member c' below => ?_
    obtain ⟨⟨x', value'⟩, under, substituted⟩ := bind_eq_pure_iff.mp below
    exact ih p member (h.child member) (MadeOf.underAll vars hv under) substituted

/-- Removing a binder brings in the constructs of the value only. -/
theorem MadeOf.instantiate (h : e.MadeOf P) (hv : value.MadeOf P)
    (instantiated : e.instantiate x value = .ok e') : e'.MadeOf P := by
  obtain ⟨value', shifted, instantiated⟩ := bind_eq_pure_iff.mp instantiated
  obtain ⟨replaced, substituted, removed⟩ := bind_eq_pure_iff.mp instantiated
  exact (h.subst vars (hv.shift vars shifted) substituted).shift vars removed

/-- Renaming a binder keeps the constructs of its body. -/
theorem MadeOf.renameBound {y : Label} (h : body.MadeOf P)
    (renamed : body.renameBound y = .ok e') : e'.MadeOf P := by
  unfold Expr.renameBound at renamed
  split at renamed
  · cases renamed
    exact h
  · obtain ⟨body₁, shifted, renamed⟩ := bind_eq_pure_iff.mp renamed
    obtain ⟨body₂, substituted, removed⟩ := bind_eq_pure_iff.mp renamed
    have replaced := (h.shift vars shifted).subst vars (madeOf_var vars _) substituted
    exact replaced.shift vars removed

end Dhall.Expr
