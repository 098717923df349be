/-
# Simplification of arithmetic terms

The rules of evaluation rewrite operations on flat terms that still mention names. Each rule
returns a flat term that computes the same number or truth value, whatever the names stand
for, and that is bounded where the operation was.

Rules that compare operands up to the names of bound variables compare flat terms, which bind
no names, and two flat terms with the same expression are the same term.

## Main definitions

* `Arithmetic.Refines` — the same value in every scope, and bounded where the other one is
* `Arithmetic.Yields` — the result is the expression of a flat term that refines the given one

## Main results

* `Arithmetic.toExpr_inj` — different flat terms are different expressions
* `Arithmetic.yields_plus`, `Arithmetic.yields_times`, `Arithmetic.yields_subtract` — what the
  rules for calculations return
* `Arithmetic.yields_test`, `Arithmetic.yields_connect`, `Arithmetic.yields_choose` — what the
  rules for truth values and for conditions return
-/

import Dhall.Proofs.Arithmetic.Instantiation
import Dhall.Proofs.Redex

namespace Dhall.Arithmetic

variable {s : Scalar} {Γ : List Label}

/-- The second term computes the same in every scope, and is bounded where the first one is. -/
structure Refines (labels : List Label) (e g : Arithmetic s) : Prop where
  /-- Every variable has a binder. -/
  inScope : g.Scoped labels
  /-- The value is the same. -/
  value : ∀ b (scope : Scope), scope.labels = labels → g.value b scope = e.value b scope
  /-- Bounds are kept. -/
  bounded : ∀ b (scope : Scope), scope.labels = labels → e.Bounded b scope → g.Bounded b scope

theorem Refines.refl {e : Arithmetic s} (inScope : e.Scoped Γ) : Refines Γ e e :=
  ⟨inScope, fun _ _ _ => rfl, fun _ _ _ => id⟩

theorem Refines.trans {e f g : Arithmetic s} (h : Refines Γ e f) (h' : Refines Γ f g) :
    Refines Γ e g where
  inScope := h'.inScope
  value b scope labels := (h'.value b scope labels).trans (h.value b scope labels)
  bounded b scope labels small := h'.bounded b scope labels (h.bounded b scope labels small)

/-! ### Flat terms as expressions -/

/-- A flat term has no names to rename. -/
theorem alphaNormalWithin_toExpr {e : Arithmetic s} (flat : Flat e) (depth : Nat) :
    Expr.alphaNormalWithin depth e.toExpr = .ok e.toExpr := by
  -- The operands of an operation may be one level deeper than those of another.
  have within (e : Expr) (h : ∀ depth, Expr.alphaNormalWithin (depth + 1) e = .ok e)
      (depth : Nat) : Expr.alphaNormalWithin depth e = .ok e := by
    cases depth with
    | zero => rfl
    | succ depth => exact h depth
  induction flat generalizing depth with
  | number n => exact within _ (fun _ => rfl) depth
  | var x i => exact within _ (fun _ => rfl) depth
  | truth c => exact within _ (fun _ => rfl) depth
  | flag => exact within _ (fun _ => rfl) depth
  | @calculate o l r _ _ hl hr =>
    refine within _ (fun depth => ?_) depth
    cases o with
    | plus | times =>
      simp [toExpr, Calculation.toExpr, Expr.alphaNormalWithin, Node.traverse, hl, hr, ok_bind]
    | subtract =>
      have partly := within (.app (.builtin .naturalSubtract) l.toExpr) fun depth => by
        have name := within (.builtin .naturalSubtract) (fun _ => rfl) depth
        simp [Expr.alphaNormalWithin, Node.traverse, hl, name, ok_bind]
      simp [toExpr, Calculation.toExpr, Expr.alphaNormalWithin, Node.traverse, hr, partly, ok_bind]
  | connect _ _ hl hr =>
    refine within _ (fun depth => ?_) depth
    simp [toExpr, Expr.alphaNormalWithin, Node.traverse, hl, hr, ok_bind]
  | choose _ _ _ hc hy hn =>
    refine within _ (fun depth => ?_) depth
    simp [toExpr, Expr.alphaNormalWithin, Node.traverse, hc, hy, hn, ok_bind]
  | @test t e _ he =>
    refine within _ (fun depth => ?_) depth
    have name := within (.builtin t.toBuiltin) (fun _ => rfl) depth
    simp [toExpr, Expr.alphaNormalWithin, Node.traverse, he, name, ok_bind]

theorem alphaEquivalent_toExpr {e f : Arithmetic s} (he : Flat e) (hf : Flat f) :
    e.toExpr.alphaEquivalent f.toExpr = .ok (decide (e.toExpr = f.toExpr)) := by
  unfold Expr.alphaEquivalent
  split
  · next same => simp [same]
  · simp [Expr.alphaNormal, alphaNormalWithin_toExpr he, alphaNormalWithin_toExpr hf, ok_bind]

@[simp] theorem Calculation.toExpr_inj {o o' : Calculation} {l r l' r' : Expr} :
    o.toExpr l r = o'.toExpr l' r' ↔ o = o' ∧ l = l' ∧ r = r' := by
  cases o <;> cases o' <;> simp [toExpr]

@[simp] theorem Calculation.toExpr_ne_natural {o : Calculation} {l r : Expr} {n : UInt64} :
    o.toExpr l r ≠ .natural n := by
  cases o <;> simp [toExpr]

@[simp] theorem Calculation.toExpr_ne_bool {o : Calculation} {l r : Expr} {c : Bool} :
    o.toExpr l r ≠ .bool c := by
  cases o <;> simp [toExpr]

@[simp] theorem Calculation.toExpr_ne_var {o : Calculation} {l r : Expr} {v : Variable} :
    o.toExpr l r ≠ .var v := by
  cases o <;> simp [toExpr]

@[simp] theorem Calculation.toExpr_ne_ifThenElse {o : Calculation} {l r condition yes no : Expr} :
    o.toExpr l r ≠ .ifThenElse condition yes no := by
  cases o <;> simp [toExpr]

theorem Connective.toOperator_inj {o o' : Connective} (h : o.toOperator = o'.toOperator) :
    o = o' := by
  cases o <;> cases o' <;> first | rfl | cases h

theorem Test.toBuiltin_inj {t t' : Test} (h : t.toBuiltin = t'.toBuiltin) : t = t' := by
  cases t <;> cases t' <;> first | rfl | cases h

/-- Different flat terms are different expressions. -/
theorem toExpr_inj (few : Γ.length < UInt64.size) {e f : Arithmetic s} (he : Flat e)
    (hf : Flat f) (inScope : e.Scoped Γ) (inScope' : f.Scoped Γ) (same : e.toExpr = f.toExpr) :
    e = f := by
  have index {x : Label} {i : Nat} (inside : i < Γ.count x) : i < UInt64.size :=
    Nat.lt_trans inside (Nat.lt_of_le_of_lt List.count_le_length few)
  -- Both expressions are read off the same syntax tree, whose construct tells the case of the
  -- second one as well. Indices are below the number of variables, so none of them wraps around.
  induction he with
  | number n =>
    cases hf with
    | calculate => exact absurd same.symm Calculation.toExpr_ne_natural
    | _ => simp_all [toExpr]
  | truth c => cases hf <;> simp_all [toExpr]
  | flag => cases hf <;> simp_all [toExpr]
  | var x i =>
    cases hf with
    | var y j =>
      have parts := (Variable.mk.inj (Node.var.inj (Expr.mk.inj same)))
      have numbers := congrArg UInt64.toNat parts.2
      rw [UInt64.toNat_ofNat_of_lt' (index inScope), UInt64.toNat_ofNat_of_lt' (index inScope')]
        at numbers
      rw [parts.1, numbers]
    | calculate => exact absurd same.symm Calculation.toExpr_ne_var
    | _ => simp_all [toExpr]
  | calculate _ _ hl hr =>
    cases hf with
    | calculate hl' hr' =>
      obtain ⟨rfl, left, right⟩ := Calculation.toExpr_inj.mp same
      rw [hl hl' inScope.1 inScope'.1 left, hr hr' inScope.2 inScope'.2 right]
    | _ => simp_all [toExpr]
  | connect _ _ hl hr =>
    cases hf with
    | connect hl' hr' =>
      obtain ⟨operators, left, right⟩ := Node.op.inj (Expr.mk.inj same)
      rw [Connective.toOperator_inj operators, hl hl' inScope.1 inScope'.1 left,
        hr hr' inScope.2 inScope'.2 right]
    | _ => simp_all [toExpr]
  | choose _ _ _ hc hy hn =>
    cases hf with
    | choose hc' hy' hn' =>
      obtain ⟨condition, yes, no⟩ := Node.ifThenElse.inj (Expr.mk.inj same)
      rw [hc hc' inScope.1 inScope'.1 condition, hy hy' inScope.2.1 inScope'.2.1 yes,
        hn hn' inScope.2.2 inScope'.2.2 no]
    | calculate => exact absurd same.symm Calculation.toExpr_ne_ifThenElse
    | _ => simp_all [toExpr]
  | test _ he =>
    cases hf with
    | test he' =>
      obtain ⟨function, argument⟩ := Node.app.inj (Expr.mk.inj same)
      rw [Test.toBuiltin_inj (Node.builtin.inj (Expr.mk.inj function)),
        he he' inScope inScope' argument]
    | _ => simp_all [toExpr]

/-! ### Literal operands -/

@[simp] theorem natural?_toExpr {e : Arithmetic .natural} {n : UInt64} :
    e.toExpr.natural? = some n ↔ e = number n := by
  rw [Expr.natural?_eq_some]
  cases e with
  | calculate => exact iff_of_false Calculation.toExpr_ne_natural nofun
  | _ => simp [toExpr, Expr.apply]

@[simp] theorem bool?_toExpr {e : Arithmetic .boolean} {c : Bool} :
    e.toExpr.bool? = some c ↔ e = truth c := by
  rw [Expr.bool?_eq_some]
  cases e with
  | _ => simp [toExpr]

theorem toExpr_eq_natural {e : Arithmetic .natural} {n : UInt64} :
    e.toExpr = .natural n ↔ e = .number n :=
  Expr.natural?_eq_some.symm.trans natural?_toExpr

@[simp] theorem bool?_toExpr_natural (e : Arithmetic .natural) : e.toExpr.bool? = none := by
  cases e with
  | calculate o l r => cases o <;> rfl
  | _ => rfl

/-! ### Rules -/

/-- The outcome is the expression of a flat term that refines the given term. -/
def Yields (labels : List Label) (e : Arithmetic s) (outcome : Except Violation Expr) : Prop :=
  ∃ g, Flat g ∧ Refines labels e g ∧ outcome = .ok g.toExpr

section Rules

variable {l r : Arithmetic .natural} {p q : Arithmetic .boolean}

/-- A rule that keeps the operation. -/
theorem Yields.keep {e : Arithmetic s} (flat : Flat e) (inScope : e.Scoped Γ) :
    Yields Γ e (.ok e.toExpr) :=
  ⟨e, flat, .refl inScope, rfl⟩

/-- A rule that returns a part with the value of the whole. -/
theorem Yields.part {e g : Arithmetic s} (flat : Flat g) (inScope : g.Scoped Γ)
    (value : ∀ b scope, g.value b scope = e.value b scope)
    (bounded : ∀ b scope, e.Bounded b scope → g.Bounded b scope) : Yields Γ e (.ok g.toExpr) :=
  ⟨g, flat, ⟨inScope, fun b scope _ => value b scope, fun b scope _ => bounded b scope⟩, rfl⟩

/-- A rule that returns a number. -/
theorem Yields.number {e : Arithmetic .natural} {n : UInt64}
    (value : ∀ b scope, n.toNat = e.value b scope) : Yields Γ e (.ok (.natural n)) :=
  .part (g := .number n) (.number n) trivial value fun _ _ _ => trivial

/-- A rule that returns a truth value. -/
theorem Yields.truth {e : Arithmetic .boolean} {c : Bool} (value : ∀ b scope, c = e.value b scope) :
    Yields Γ e (.ok (.bool c)) :=
  .part (g := .truth c) (.truth c) trivial value fun _ _ _ => trivial

theorem yields_plus (hl : Flat l) (hr : Flat r) (inScope : (calculate .plus l r).Scoped Γ) :
    Yields Γ (calculate .plus l r) (.ok (Operator.reducePlus l.toExpr r.toExpr)) := by
  rcases Operator.reducePlus_cases l.toExpr r.toExpr with
    ⟨zero, same⟩ | ⟨zero, same⟩ | ⟨m, n, left, right, fits, same⟩ | ⟨-, same⟩
  all_goals rw [same]
  · obtain rfl := toExpr_eq_natural.mp zero
    exact .part hr inScope.2 (fun _ _ => (Nat.zero_add _).symm) fun _ _ h => h.2.1
  · obtain rfl := toExpr_eq_natural.mp zero
    exact .part hl inScope.1 (fun _ _ => (Nat.add_zero _).symm) fun _ _ h => h.1
  · obtain rfl := toExpr_eq_natural.mp left
    obtain rfl := toExpr_eq_natural.mp right
    exact .number fun _ _ => by rw [UInt64.toNat_add, Nat.mod_eq_of_lt fits]; rfl
  · exact .keep (.calculate (o := .plus) hl hr) inScope

theorem yields_times (hl : Flat l) (hr : Flat r) (inScope : (calculate .times l r).Scoped Γ) :
    Yields Γ (calculate .times l r) (.ok (Operator.reduceTimes l.toExpr r.toExpr)) := by
  rcases Operator.reduceTimes_cases l.toExpr r.toExpr with
    ⟨zero | zero, same⟩ | ⟨one, same⟩ | ⟨one, same⟩ | ⟨m, n, left, right, fits, same⟩ | ⟨-, same⟩
  all_goals rw [same]
  · obtain rfl := toExpr_eq_natural.mp zero
    exact .number fun _ _ => (Nat.zero_mul _).symm
  · obtain rfl := toExpr_eq_natural.mp zero
    exact .number fun _ _ => (Nat.mul_zero _).symm
  · obtain rfl := toExpr_eq_natural.mp one
    exact .part hr inScope.2 (fun _ _ => (Nat.one_mul _).symm) fun _ _ h => h.2.1
  · obtain rfl := toExpr_eq_natural.mp one
    exact .part hl inScope.1 (fun _ _ => (Nat.mul_one _).symm) fun _ _ h => h.1
  · obtain rfl := toExpr_eq_natural.mp left
    obtain rfl := toExpr_eq_natural.mp right
    exact .number fun _ _ => by rw [UInt64.toNat_mul, Nat.mod_eq_of_lt fits]; rfl
  · exact .keep (.calculate (o := .times) hl hr) inScope

/-- Flat operands that are equal up to names are the same term. -/
private theorem alphaEquivalent_cases (few : Γ.length < UInt64.size) {e f : Arithmetic s}
    (he : Flat e) (hf : Flat f) (inScope : e.Scoped Γ) (inScope' : f.Scoped Γ) :
    e = f ∧ e.toExpr.alphaEquivalent f.toExpr = .ok true ∨
      e.toExpr.alphaEquivalent f.toExpr = .ok false := by
  rw [alphaEquivalent_toExpr he hf]
  by_cases same : e.toExpr = f.toExpr
  · exact .inl ⟨toExpr_inj few he hf inScope inScope' same, by simp [same]⟩
  · exact .inr (by simp [same])

theorem yields_subtract (few : Γ.length < UInt64.size) (hl : Flat l) (hr : Flat r)
    (inScope : (calculate .subtract l r).Scoped Γ) :
    ∃ reduced, Builtin.reduceSubtract l.toExpr r.toExpr = .ok reduced ∧
      Yields Γ (calculate .subtract l r)
        (.ok (reduced.getD (calculate .subtract l r).toExpr)) := by
  unfold Builtin.reduceSubtract
  split
  · next m n left right =>
    obtain rfl := natural?_toExpr.mp left
    obtain rfl := natural?_toExpr.mp right
    have fits : n.toNat - m.toNat < UInt64.size := Nat.lt_of_le_of_lt (Nat.sub_le _ _) n.toNat_lt
    exact ⟨_, rfl, .number fun _ _ => UInt64.toNat_ofNat_of_lt' fits⟩
  · split
    · next zero =>
      obtain rfl := natural?_toExpr.mp zero
      exact ⟨_, rfl, .part hr inScope.2 (fun _ _ => (Nat.sub_zero _).symm) fun _ _ h => h.2.1⟩
    · split
      · next zero =>
        obtain rfl := natural?_toExpr.mp zero
        exact ⟨_, rfl, .number fun _ _ => (Nat.zero_sub _).symm⟩
      · obtain ⟨rfl, same⟩ | other := alphaEquivalent_cases few hl hr inScope.1 inScope.2
        · exact ⟨some (.natural 0), by rw [same]; rfl, .number fun _ _ => (Nat.sub_self _).symm⟩
        · exact ⟨none, by rw [other]; rfl, .keep (.calculate hl hr) inScope⟩

theorem Test.reduceNatural_toBuiltin (t : Test) (n : UInt64) :
    t.toBuiltin.reduceNatural n = some (.bool (t.value n.toNat)) := by
  have zero : n = 0 ↔ n.toNat = 0 := by rw [← UInt64.toNat_inj, UInt64.toNat_zero]
  have two : (n % 2).toNat = n.toNat % 2 := UInt64.toNat_mod n 2
  have even : n % 2 = 0 ↔ n.toNat % 2 = 0 := by rw [← two, ← UInt64.toNat_inj, UInt64.toNat_zero]
  cases t <;> simp only [toBuiltin, Builtin.reduceNatural, value, zero, even, ne_eq]

/-- A property of what is no number is not decided. -/
theorem Test.reduceLiteral_toBuiltin (t : Test) {e : Expr} (h : e.natural? = none) :
    t.toBuiltin.reduceLiteral [e] = none := by
  unfold Builtin.reduceLiteral
  split
  · next same =>
    cases same
    cases h
  · cases t <;> rfl
  · cases t <;> rfl
  · cases t <;> rfl
  · next same => cases same
  · rfl

theorem yields_test (hl : Flat l) {t : Test} (inScope : (test t l).Scoped Γ) :
    Yields Γ (test t l)
      (.ok ((t.toBuiltin.reduceLiteral [l.toExpr]).getD (test t l).toExpr)) := by
  cases literal : l.toExpr.natural? with
  | some n =>
    obtain rfl := natural?_toExpr.mp literal
    have reduced : t.toBuiltin.reduceLiteral [(number n).toExpr] =
        some (.bool (t.value n.toNat)) :=
      t.reduceNatural_toBuiltin n
    rw [reduced]
    exact .truth fun _ _ => rfl
  | none =>
    rw [t.reduceLiteral_toBuiltin literal]
    exact .keep (.test hl) inScope

theorem yields_and (few : Γ.length < UInt64.size) (hp : Flat p) (hq : Flat q)
    (inScope : (connect .and p q).Scoped Γ) :
    Yields Γ (connect .and p q) (Operator.reduceAnd p.toExpr q.toExpr) := by
  unfold Operator.reduceAnd
  split
  · next left =>
    obtain rfl := bool?_toExpr.mp left
    exact .part hq inScope.2 (fun _ _ => rfl) fun _ _ h => h.2 rfl
  · next right _ =>
    obtain rfl := bool?_toExpr.mp right
    exact .part hp inScope.1 (fun _ _ => (Bool.and_true _).symm) fun _ _ h => h.1
  · next left _ =>
    obtain rfl := bool?_toExpr.mp left
    exact .truth fun _ _ => rfl
  · next right _ _ =>
    obtain rfl := bool?_toExpr.mp right
    exact .truth fun _ _ => (Bool.and_false _).symm
  · obtain ⟨rfl, same⟩ | other := alphaEquivalent_cases few hp hq inScope.1 inScope.2
    · rw [same]
      exact .part hp inScope.1 (fun _ _ => (Bool.and_self _).symm) fun _ _ h => h.1
    · rw [other]
      exact .keep (.connect hp hq) inScope

theorem yields_or (few : Γ.length < UInt64.size) (hp : Flat p) (hq : Flat q)
    (inScope : (connect .or p q).Scoped Γ) :
    Yields Γ (connect .or p q) (Operator.reduceOr p.toExpr q.toExpr) := by
  unfold Operator.reduceOr
  split
  · next left =>
    obtain rfl := bool?_toExpr.mp left
    exact .truth fun _ _ => rfl
  · next right _ =>
    obtain rfl := bool?_toExpr.mp right
    exact .truth fun _ _ => (Bool.or_true _).symm
  · next left _ =>
    obtain rfl := bool?_toExpr.mp left
    exact .part hq inScope.2 (fun _ _ => rfl) fun _ _ h => h.2 rfl
  · next right _ _ =>
    obtain rfl := bool?_toExpr.mp right
    exact .part hp inScope.1 (fun _ _ => (Bool.or_false _).symm) fun _ _ h => h.1
  · obtain ⟨rfl, same⟩ | other := alphaEquivalent_cases few hp hq inScope.1 inScope.2
    · rw [same]
      exact .part hp inScope.1 (fun _ _ => (Bool.or_self _).symm) fun _ _ h => h.1
    · rw [other]
      exact .keep (.connect hp hq) inScope

theorem yields_equal (few : Γ.length < UInt64.size) (hp : Flat p) (hq : Flat q)
    (inScope : (connect .equal p q).Scoped Γ) :
    Yields Γ (connect .equal p q) (Operator.reduceEqual p.toExpr q.toExpr) := by
  unfold Operator.reduceEqual
  split
  · next left =>
    obtain rfl := bool?_toExpr.mp left
    exact .part hq inScope.2 (fun _ _ => (Bool.true_beq _).symm) fun _ _ h => h.2 rfl
  · next right _ =>
    obtain rfl := bool?_toExpr.mp right
    exact .part hp inScope.1 (fun _ _ => (beq_true _).symm) fun _ _ h => h.1
  · next _ _ left right =>
    obtain rfl := bool?_toExpr.mp left
    obtain rfl := bool?_toExpr.mp right
    exact .truth fun _ _ => rfl
  · obtain ⟨rfl, same⟩ | other := alphaEquivalent_cases few hp hq inScope.1 inScope.2
    · rw [same]
      exact .truth fun _ _ => (beq_self_eq_true _).symm
    · rw [other]
      exact .keep (.connect hp hq) inScope

theorem yields_notEqual (few : Γ.length < UInt64.size) (hp : Flat p) (hq : Flat q)
    (inScope : (connect .notEqual p q).Scoped Γ) :
    Yields Γ (connect .notEqual p q) (Operator.reduceNotEqual p.toExpr q.toExpr) := by
  unfold Operator.reduceNotEqual
  split
  · next left =>
    obtain rfl := bool?_toExpr.mp left
    exact .part hq inScope.2 (fun _ _ => (Bool.false_bne _).symm) fun _ _ h => h.2 rfl
  · next right _ =>
    obtain rfl := bool?_toExpr.mp right
    exact .part hp inScope.1 (fun _ _ => (Bool.bne_false _).symm) fun _ _ h => h.1
  · next _ _ left right =>
    obtain rfl := bool?_toExpr.mp left
    obtain rfl := bool?_toExpr.mp right
    exact .truth fun _ _ => rfl
  · obtain ⟨rfl, same⟩ | other := alphaEquivalent_cases few hp hq inScope.1 inScope.2
    · rw [same]
      exact .truth fun _ _ => (bne_self_eq_false _).symm
    · rw [other]
      exact .keep (.connect hp hq) inScope

/-- An operation on truth values yields what its rule returns. -/
theorem yields_connect (few : Γ.length < UInt64.size) (o : Connective) (hp : Flat p) (hq : Flat q)
    (inScope : (connect o p q).Scoped Γ) :
    Yields Γ (connect o p q) (o.toOperator.reduce p.toExpr q.toExpr) := by
  cases o with
  | and => exact yields_and few hp hq inScope
  | or => exact yields_or few hp hq inScope
  | equal => exact yields_equal few hp hq inScope
  | notEqual => exact yields_notEqual few hp hq inScope

theorem yields_choose (few : Γ.length < UInt64.size) (hp : Flat p) (hl : Flat l) (hr : Flat r)
    (inScope : (choose p l r).Scoped Γ) :
    Yields Γ (choose p l r) (Expr.choose p.toExpr l.toExpr r.toExpr) := by
  unfold Expr.choose
  split
  · next holds =>
    obtain rfl := bool?_toExpr.mp holds
    exact .part hl inScope.2.1 (fun _ _ => rfl) fun _ _ h => h.2
  · next fails =>
    obtain rfl := bool?_toExpr.mp fails
    exact .part hr inScope.2.2 (fun _ _ => rfl) fun _ _ h => h.2
  · have number : ¬(l.toExpr.bool? = some true ∧ r.toExpr.bool? = some false) := by simp
    rw [if_neg number]
    obtain ⟨rfl, same⟩ | other := alphaEquivalent_cases few hl hr inScope.2.1 inScope.2.2
    · rw [same]
      exact .part hl inScope.2.1 (fun _ _ => (ite_self _).symm) fun _ _ h => by simpa using h.2
    · rw [other]
      exact .keep (.choose hp hl hr) inScope

end Rules

end Dhall.Arithmetic
