/-
# Instantiation of arithmetic expressions

An expression is instantiated by shifting the value, replacing the variable and shifting the
result back. On the expression of a term this is the replacement of terms, provided that there
are fewer binders than indices: then no shift leaves the range of indices.

## Main definitions

* `Expr.Replaces` — a substitution and the shift back that follows it
* `Arithmetic.Flat` — terms without binders and records, the normal forms of the fragment
* `Arithmetic.Fits` — scoped terms with few binders, none of them labelled `b`

## Main results

* `Arithmetic.instantiate_toExpr` — a flat term in the place of a name
* `Arithmetic.instantiate_flag` — a truth value in the place of `b`
-/

import Dhall.Proofs.Arithmetic.Substitution
import Dhall.Substitution

namespace Dhall

/-- A shift of an index that is given as a number. -/
theorem Variable.shift_ofNat {x y : Label} {i j k : Nat} {delta : Int64}
    (notLeast : delta ≠ Int64.minValue) (hi : i < UInt64.size) (hj : j < UInt64.size)
    (hk : k < UInt64.size) (sum : x = y → k ≤ i → (j : Int) = i + delta.toInt) :
    (⟨x, UInt64.ofNat i⟩ : Variable).shift delta ⟨y, UInt64.ofNat k⟩ =
      .ok ⟨x, UInt64.ofNat (if x = y ∧ k ≤ i then j else i)⟩ := by
  rw [shift_eq_ok_iff]
  have moves : movedAt ⟨x, UInt64.ofNat i⟩ ⟨y, UInt64.ofNat k⟩ = true ↔ x = y ∧ k ≤ i := by
    rw [movedAt_iff, UInt64.toNat_ofNat_of_lt' hi, UInt64.toNat_ofNat_of_lt' hk]
  by_cases above : x = y ∧ k ≤ i
  · rw [if_pos (moves.mpr above), if_pos above, UInt64.toNat_ofNat_of_lt' hi,
      UInt64.toNat_ofNat_of_lt' hj]
    exact ⟨notLeast, rfl, sum above.1 above.2⟩
  · rw [if_neg (mt moves.mp above), if_neg above]

theorem ok_bind {α β : Type} (a : α) (f : α → Except Violation β) :
    (Except.ok a >>= f) = f a :=
  rfl

namespace Expr

variable {x x' : Variable} {y : Label} {v v' e e' d d' l l' r r' : Expr} {o : Operator}

/-- Replacing a variable by a value and then shifting back at the variable. -/
def Replaces (x : Variable) (v e e' : Expr) : Prop :=
  ∃ replaced, e.subst x v = .ok replaced ∧ replaced.shift (-1) x = .ok e'

theorem Replaces.instantiate (h : Replaces x v' e e') (moved : v.shift 1 x = .ok v') :
    e.instantiate x v = .ok e' := by
  obtain ⟨replaced, substituted, back⟩ := h
  simp only [Expr.instantiate, moved, substituted, ok_bind, back]

/-! Replacing passes to the children of every construct. -/

theorem Replaces.natural (n : UInt64) : Replaces x v (natural n) (natural n) :=
  ⟨_, rfl, rfl⟩

theorem Replaces.bool (c : Bool) : Replaces x v (bool c) (bool c) :=
  ⟨_, rfl, rfl⟩

theorem Replaces.builtin (c : Builtin) : Replaces x v (Expr.builtin c) (Expr.builtin c) :=
  ⟨_, rfl, rfl⟩

theorem Replaces.app (hl : Replaces x v l l') (hr : Replaces x v r r') :
    Replaces x v (app l r) (app l' r') := by
  obtain ⟨l₁, substl, backl⟩ := hl
  obtain ⟨r₁, substr, backr⟩ := hr
  refine ⟨Expr.app l₁ r₁, ?_, ?_⟩
  · simp [subst_mk, Node.traverse, underAll, substl, substr, ok_bind]
  · simp [shift_mk, Node.traverse, backl, backr, ok_bind]

theorem Replaces.op (hl : Replaces x v l l') (hr : Replaces x v r r') :
    Replaces x v (op o l r) (op o l' r') := by
  obtain ⟨l₁, substl, backl⟩ := hl
  obtain ⟨r₁, substr, backr⟩ := hr
  refine ⟨Expr.op o l₁ r₁, ?_, ?_⟩
  · simp [subst_mk, Node.traverse, underAll, substl, substr, ok_bind]
  · simp [shift_mk, Node.traverse, backl, backr, ok_bind]

theorem Replaces.ifThenElse (he : Replaces x v e e') (hl : Replaces x v l l')
    (hr : Replaces x v r r') : Replaces x v (ifThenElse e l r) (ifThenElse e' l' r') := by
  obtain ⟨e₁, subste, backe⟩ := he
  obtain ⟨l₁, substl, backl⟩ := hl
  obtain ⟨r₁, substr, backr⟩ := hr
  refine ⟨Expr.ifThenElse e₁ l₁ r₁, ?_, ?_⟩
  · simp [subst_mk, Node.traverse, underAll, subste, substl, substr, ok_bind]
  · simp [shift_mk, Node.traverse, backe, backl, backr, ok_bind]

theorem Replaces.field (he : Replaces x v e e') (l : Label) :
    Replaces x v (field e l) (field e' l) := by
  obtain ⟨e₁, subste, backe⟩ := he
  refine ⟨Expr.field e₁ l, ?_, ?_⟩
  · simp [subst_mk, Node.traverse, underAll, subste]
  · simp [shift_mk, Node.traverse, backe, ok_bind]

theorem Replaces.pair (hl : Replaces x v l l') (hr : Replaces x v r r') :
    Replaces x v (Arithmetic.pair l r) (Arithmetic.pair l' r') := by
  obtain ⟨l₁, substl, backl⟩ := hl
  obtain ⟨r₁, substr, backr⟩ := hr
  refine ⟨Arithmetic.pair l₁ r₁, ?_, ?_⟩
  · simp [Arithmetic.pair_eq, subst_mk, Node.traverse, Entries.traverse, underAll, substl, substr,
      ok_bind]
  · simp [Arithmetic.pair_eq, shift_mk, Node.traverse, Entries.traverse, backl, backr, ok_bind]

/-- Under a binder, the variable and the value are those seen from there. -/
theorem Replaces.lam (variable' : x.under y = .ok x') (value' : v.under y = .ok v')
    (hd : Replaces x v d d') (he : Replaces x' v' e e') :
    Replaces x v (lam y d e) (lam y d' e') := by
  obtain ⟨d₁, substd, backd⟩ := hd
  obtain ⟨e₁, subste, backe⟩ := he
  refine ⟨Expr.lam y d₁ e₁, ?_, ?_⟩
  · simp [subst_mk, Node.traverse, underAll, variable', value', substd, subste, ok_bind]
  · simp [shift_mk, Node.traverse, variable', backd, backe, ok_bind]

theorem Replaces.letIn (variable' : x.under y = .ok x') (value' : v.under y = .ok v')
    (hd : Replaces x v d d') (he : Replaces x' v' e e') :
    Replaces x v (letIn [⟨y, none, d⟩] e) (letIn [⟨y, none, d'⟩] e') := by
  obtain ⟨d₁, substd, backd⟩ := hd
  obtain ⟨e₁, subste, backe⟩ := he
  refine ⟨Expr.letIn [⟨y, none, d₁⟩] e₁, ?_, ?_⟩
  · simp [subst_mk, Node.traverse, Binding.traverseAll, Binding.traverse, underAll, variable',
      value', substd, subste, ok_bind]
  · simp [shift_mk, Node.traverse, Binding.traverseAll, Binding.traverse, variable', backd, backe,
      ok_bind]

end Expr

namespace Arithmetic

variable {s : Scalar} {e : Arithmetic s} {w : Arithmetic .natural} {x y : Label}
  {Γ bound : List Label}

/-! ### Flat terms -/

/-- Terms that bind no names and select nothing. -/
inductive Flat : {s : Scalar} → Arithmetic s → Prop
  /-- Numbers are flat. -/
  | number (n : UInt64) : Flat (number n)
  /-- Variables are flat. -/
  | var (x : Label) (i : Nat) : Flat (var x i)
  /-- Operations on flat numbers are flat. -/
  | calculate {o : Calculation} {l r : Arithmetic .natural} (hl : Flat l) (hr : Flat r) :
    Flat (calculate o l r)
  /-- Conditionals are flat if their parts are. -/
  | choose {condition : Arithmetic .boolean} {yes no : Arithmetic .natural}
    (hc : Flat condition) (hy : Flat yes) (hn : Flat no) : Flat (choose condition yes no)
  /-- Truth values are flat. -/
  | truth (c : Bool) : Flat (truth c)
  /-- The truth value `b` is flat. -/
  | flag : Flat flag
  /-- Operations on flat truth values are flat. -/
  | connect {o : Connective} {l r : Arithmetic .boolean} (hl : Flat l) (hr : Flat r) :
    Flat (connect o l r)
  /-- Properties of flat numbers are flat. -/
  | test {t : Test} {e : Arithmetic .natural} (he : Flat e) : Flat (test t e)

theorem Flat.binders (h : Flat e) : e.binders = [] := by
  induction h <;> simp_all [Arithmetic.binders]

theorem Flat.replace {f : List Label → Label → Nat → Arithmetic .natural}
    {g : Arithmetic .boolean} (h : Flat e) (vars : ∀ x i, Flat (f bound x i)) (flags : Flat g) :
    Flat (e.replace f g bound) := by
  induction h with
  | number n => exact .number n
  | var x i => exact vars x i
  | calculate _ _ hl hr => exact .calculate hl hr
  | choose _ _ _ hc hy hn => exact .choose hc hy hn
  | truth c => exact .truth c
  | flag => exact flags
  | connect _ _ hl hr => exact .connect hl hr
  | test _ he => exact .test he

theorem Flat.moved (h : Flat e) (binders : List Label) : Flat (e.moved binders) :=
  h.replace (fun _ _ => .var _ _) .flag

theorem Flat.fix (h : Flat e) (c : Bool) : Flat (e.fix c) :=
  h.replace (fun _ _ => .var _ _) (.truth c)

/-! ### Terms that fit -/

/-- Terms with fewer binders than there are indices, the binders around them included. No
binder has the label of the truth value. -/
structure Fits (labels : List Label) (e : Arithmetic s) : Prop where
  /-- Every variable has a binder. -/
  inScope : e.Scoped labels
  /-- The truth value is not shadowed. -/
  apart : flagLabel ∉ labels ++ e.binders
  /-- There are indices for all binders. -/
  few : (labels ++ e.binders).length < UInt64.size

section Fits

variable {o : Calculation} {o' : Connective} {t : Test} {first : Bool} {times step : UInt64}
  {l r body : Arithmetic .natural} {p q : Arithmetic .boolean}

/-- A term fits if all its binders are around or inside of a term that fits. -/
theorem Fits.of_binders {s' : Scalar} {e' : Arithmetic s'} {Γ' : List Label} (h : Fits Γ e)
    (inScope : e'.Scoped Γ') (inside : ∀ y ∈ Γ' ++ e'.binders, y ∈ Γ ++ e.binders)
    (few : (Γ' ++ e'.binders).length ≤ (Γ ++ e.binders).length) : Fits Γ' e' where
  inScope := inScope
  apart member := h.apart (inside _ member)
  few := Nat.lt_of_le_of_lt few h.few

theorem Fits.length_lt (h : Fits Γ e) : Γ.length < UInt64.size := by
  have few := h.few
  rw [List.length_append] at few
  omega

theorem Fits.ne_flagLabel (h : Fits Γ e) (member : x ∈ Γ) : x ≠ flagLabel :=
  fun same => h.apart (List.mem_append_left _ (same ▸ member))

theorem Fits.calculate (h : Fits Γ (calculate o l r)) : Fits Γ l ∧ Fits Γ r :=
  ⟨h.of_binders h.inScope.1 (by grind [binders]) (by grind [binders]),
    h.of_binders h.inScope.2 (by grind [binders]) (by grind [binders])⟩

theorem Fits.connect (h : Fits Γ (connect o' p q)) : Fits Γ p ∧ Fits Γ q :=
  ⟨h.of_binders h.inScope.1 (by grind [binders]) (by grind [binders]),
    h.of_binders h.inScope.2 (by grind [binders]) (by grind [binders])⟩

theorem Fits.select (h : Fits Γ (select first l r)) : Fits Γ l ∧ Fits Γ r :=
  ⟨h.of_binders h.inScope.1 (by grind [binders]) (by grind [binders]),
    h.of_binders h.inScope.2 (by grind [binders]) (by grind [binders])⟩

theorem Fits.choose (h : Fits Γ (choose p l r)) : Fits Γ p ∧ Fits Γ l ∧ Fits Γ r :=
  ⟨h.of_binders h.inScope.1 (by grind [binders]) (by grind [binders]),
    h.of_binders h.inScope.2.1 (by grind [binders]) (by grind [binders]),
    h.of_binders h.inScope.2.2 (by grind [binders]) (by grind [binders])⟩

theorem Fits.test (h : Fits Γ (test t l)) : Fits Γ l :=
  ⟨h.inScope, h.apart, h.few⟩

theorem Fits.iterate (h : Fits Γ (iterate times x step l)) : Fits Γ l :=
  h.of_binders h.inScope (by grind [binders]) (by grind [binders])

/-- The step of a loop fits under its binder. -/
theorem Fits.loop (h : Fits Γ (Arithmetic.iterate times x step l)) :
    Fits (x :: Γ) (Arithmetic.calculate .plus (var x 0) (number step)) :=
  h.of_binders ⟨by simp [Scoped], trivial⟩ (by grind [binders]) (by grind [binders])

theorem Fits.apply (h : Fits Γ (apply x body l)) : Fits Γ l ∧ Fits (x :: Γ) body :=
  ⟨h.of_binders h.inScope.1 (by grind [binders]) (by grind [binders]),
    h.of_binders h.inScope.2 (by grind [binders]) (by grind [binders])⟩

theorem Fits.define (h : Fits Γ (define x l body)) : Fits Γ l ∧ Fits (x :: Γ) body :=
  ⟨h.of_binders h.inScope.1 (by grind [binders]) (by grind [binders]),
    h.of_binders h.inScope.2 (by grind [binders]) (by grind [binders])⟩

/-- A flat term fits where it is in scope, if some term fits there. -/
theorem Flat.fits (flat : Flat e) (inScope : e.Scoped Γ) {s' : Scalar} {e' : Arithmetic s'}
    (around : Fits Γ e') : Fits Γ e :=
  around.of_binders inScope (by grind [Flat.binders]) (by grind [Flat.binders])

/-- A flat term without names fits. -/
theorem Flat.fits_nil (flat : Flat e) (inScope : e.Scoped []) : Fits [] e where
  inScope := inScope
  apart := by simp [flat.binders]
  few := by simp [flat.binders, UInt64.size]

/-- A flat term in the place of a name brings no binders. -/
theorem Fits.inst (h : Fits (x :: Γ) e) (flat : Flat w) (inScope : w.Scoped Γ) :
    Fits Γ (e.inst x w) :=
  h.of_binders (scoped_inst h.inScope inScope) (by grind [binders_inst, Flat.binders])
    (by grind [binders_inst, Flat.binders])

end Fits

/-! ### Shifts and substitutions -/

/-- A flat term seen from under some binders becomes the term seen from under other binders, if
a shift changes each variable in this way. -/
theorem shift_moved {A B : List Label} {delta : Int64} {cutoff : Variable} (flat : Flat e)
    (inScope : e.Scoped Γ) (apart : cutoff.label ≠ flagLabel)
    (vars : ∀ y i, i < Γ.count y →
      (⟨y, UInt64.ofNat (i + A.count y)⟩ : Variable).shift delta cutoff =
        .ok ⟨y, UInt64.ofNat (i + B.count y)⟩) :
    (e.moved A).toExpr.shift delta cutoff = .ok (e.moved B).toExpr := by
  unfold moved
  induction flat with
  | number n => rfl
  | truth c => rfl
  | var x i =>
    have image := vars x i inScope
    have outside : ¬i < ([] : List Label).count x := Nat.not_lt_zero i
    simp only [replace, moved.movedVar, if_neg outside, toExpr, Expr.shift_var, image]
    rfl
  | flag =>
    -- The flag is no variable of the scope, and the shift leaves it alone.
    have still : (Variable.nearest flagLabel).shift delta cutoff = .ok (.nearest flagLabel) := by
      rw [Variable.shift_eq_ok_iff, if_neg]
      exact fun moves => apart (Variable.movedAt_iff.mp moves).1.symm
    simp only [replace, toExpr, Expr.shift_var, still]
    rfl
  | @calculate o l r _ _ hl hr =>
    have left := hl inScope.1
    have right := hr inScope.2
    cases o <;>
      simp [replace, toExpr, Calculation.toExpr, Expr.shift_mk, Node.traverse, left, right, ok_bind]
  | connect _ _ hl hr =>
    simp [replace, toExpr, Expr.shift_mk, Node.traverse, hl inScope.1, hr inScope.2, ok_bind]
  | choose _ _ _ hc hy hn =>
    simp [replace, toExpr, Expr.shift_mk, Node.traverse, hc inScope.1, hy inScope.2.1,
      hn inScope.2.2, ok_bind]
  | test _ he => simp [replace, toExpr, Expr.shift_mk, Node.traverse, he inScope, ok_bind]

/-- The variable `z@i`, seen from under binders, is seen from under one more. -/
theorem under_ofNat {z : Label} {i : Nat} (few : i + (y :: bound).count z < UInt64.size) :
    (⟨z, UInt64.ofNat (i + bound.count z)⟩ : Variable).under y =
      .ok ⟨z, UInt64.ofNat (i + (y :: bound).count z)⟩ := by
  rw [List.count_cons] at few ⊢
  by_cases same : z = y
  · have step : (y == z) = true := by simp [same]
    rw [if_pos step] at few ⊢
    refine (Variable.shift_ofNat (j := i + bound.count z + 1) (k := 0) (by decide) (by omega)
      (by omega) (by decide) fun _ _ => rfl).trans ?_
    rw [if_pos ⟨same, Nat.zero_le _⟩]
    rfl
  · have still : ¬(y == z) = true := by simp [Ne.symm same]
    rw [if_neg still] at few ⊢
    refine (Variable.shift_ofNat (j := 0) (k := 0) (by decide) (by omega) (by decide) (by decide)
      fun here _ => absurd here same).trans ?_
    rw [if_neg fun moves => same moves.1]
    rfl

/-- The variable `z@i`, seen from under binders, is seen without the outermost of them. -/
theorem shift_back_ofNat {z : Label} {i : Nat} (few : i + (bound ++ [x]).count z < UInt64.size)
    (few' : bound.count x < UInt64.size) :
    (⟨z, UInt64.ofNat (i + (bound ++ [x]).count z)⟩ : Variable).shift (-1)
        ⟨x, UInt64.ofNat (bound.count x)⟩ = .ok ⟨z, UInt64.ofNat (i + bound.count z)⟩ := by
  have down : (-1 : Int64).toInt = -1 := rfl
  rw [List.count_append, List.count_singleton] at few ⊢
  by_cases same : x = z
  · have last : (x == z) = true := by simp [same]
    rw [if_pos last] at few ⊢
    refine (Variable.shift_ofNat (j := i + bound.count z) (by decide) (by omega) (by omega)
      few' fun _ _ => by omega).trans ?_
    rw [if_pos ⟨same.symm, by rw [same]; omega⟩]
  · have still : ¬(x == z) = true := by simp [same]
    rw [if_neg still] at few ⊢
    refine (Variable.shift_ofNat (j := 0) (by decide) (by omega) (by decide) few'
      fun here _ => absurd here.symm same).trans ?_
    rw [if_neg fun moves => same moves.1.symm]
    rfl

/-- The variable that a binder binds, seen from under more binders. -/
abbrev boundBy (x : Label) (bound : List Label) : Variable :=
  ⟨x, UInt64.ofNat (bound.count x)⟩

private theorem index_lt {i : Nat} (few : (bound ++ x :: Γ).length < UInt64.size)
    (inside : i < Γ.count y) : i + (bound ++ [x]).count y < UInt64.size := by
  have sizes : (bound ++ x :: Γ).count y ≤ (bound ++ x :: Γ).length := List.count_le_length
  simp only [List.count_append, List.count_cons, List.count_nil] at sizes ⊢
  omega

/-- Instantiation of a variable. -/
theorem replaces_var {z : Label} {i : Nat} (bound : List Label) (flat : Flat w)
    (inScope : w.Scoped Γ) (apart : x ≠ flagLabel) (few : (bound ++ x :: Γ).length < UInt64.size)
    (below : i < (bound ++ x :: Γ).count z) :
    Expr.Replaces (boundBy x bound) (w.moved (bound ++ [x])).toExpr (.var ⟨z, UInt64.ofNat i⟩)
      (inst.instVar x w bound z i).toExpr := by
  have index : i < UInt64.size :=
    Nat.lt_trans below (Nat.lt_of_le_of_lt List.count_le_length few)
  have cutoff : bound.count x < UInt64.size := by
    have size : bound.count x ≤ bound.length := List.count_le_length
    rw [List.length_append] at few
    omega
  refine ⟨_, Expr.subst_var _ _ _, ?_⟩
  unfold inst.instVar
  by_cases here : z = x ∧ i = bound.count x
  · obtain ⟨rfl, rfl⟩ := here
    rw [if_pos rfl, if_pos ⟨rfl, Nat.le_refl _⟩, if_pos rfl]
    exact shift_moved flat inScope apart fun y j inside =>
      shift_back_ofNat (index_lt few inside) cutoff
  · have other : (⟨z, UInt64.ofNat i⟩ : Variable) ≠ boundBy x bound := by
      intro same
      have indices := congrArg (fun v => v.index.toNat) same
      rw [UInt64.toNat_ofNat_of_lt' index, UInt64.toNat_ofNat_of_lt' cutoff] at indices
      exact here ⟨congrArg Variable.label same, indices⟩
    have down : (-1 : Int64).toInt = -1 := rfl
    -- A variable of the same name beyond the binder has an index that is not zero.
    have moved : (⟨z, UInt64.ofNat i⟩ : Variable).shift (-1) (boundBy x bound) =
        .ok ⟨z, UInt64.ofNat (if z = x ∧ bound.count x ≤ i then i - 1 else i)⟩ :=
      Variable.shift_ofNat (by decide) index (by omega) cutoff fun same above => by
        have notHere : i ≠ bound.count x := fun equal => here ⟨same, equal⟩
        omega
    rw [if_neg other, Expr.shift_var, moved]
    by_cases above : z = x ∧ bound.count x ≤ i
    · have notHere : i ≠ bound.count x := fun equal => here ⟨above.1, equal⟩
      rw [if_pos above, if_pos above, if_neg notHere, above.1]
      rfl
    · rw [if_neg above, if_neg above]
      rfl

/-- A flat term seen from under binders, seen from under one more. -/
theorem under_moved (flat : Flat w) (inScope : w.Scoped Γ) (apart : y ≠ flagLabel)
    (few : (y :: bound ++ x :: Γ).length < UInt64.size) :
    (w.moved (bound ++ [x])).toExpr.under y = .ok (w.moved (y :: bound ++ [x])).toExpr :=
  shift_moved flat inScope apart fun _ _ inside =>
    under_ofNat (index_lt few inside)

theorem under_boundBy (few : (y :: bound ++ x :: Γ).length < UInt64.size) :
    (boundBy x bound).under y = .ok (boundBy x (y :: bound)) := by
  have sizes : (y :: bound).count x ≤ (y :: bound).length := List.count_le_length
  have few' : 0 + (y :: bound).count x < UInt64.size := by
    rw [List.length_append] at few
    omega
  have moved := under_ofNat few'
  rwa [Nat.zero_add, Nat.zero_add] at moved

/-- Instantiation of a variable or of a bound name, under any binders, is a replacement. -/
theorem replaces_toExpr (bound : List Label) (flat : Flat w) (inScope : w.Scoped Γ)
    (h : Fits (bound ++ x :: Γ) e) :
    Expr.Replaces (boundBy x bound) (w.moved (bound ++ [x])).toExpr e.toExpr
      (e.replace (inst.instVar x w) flag bound).toExpr := by
  have here : x ≠ flagLabel := h.ne_flagLabel (by simp)
  -- Under a binder of the term, the variable and the value are those for one more binder.
  have inner {bound : List Label} {y : Label} {body : Arithmetic .natural}
      (h : Fits (y :: bound ++ x :: Γ) body) :
      (boundBy x bound).under y = .ok (boundBy x (y :: bound)) ∧
        (w.moved (bound ++ [x])).toExpr.under y = .ok (w.moved (y :: bound ++ [x])).toExpr :=
    ⟨under_boundBy h.length_lt, under_moved flat inScope (h.ne_flagLabel (by simp)) h.length_lt⟩
  induction e generalizing bound with
  | number n => exact .natural n
  | truth c => exact .bool c
  | var z i => exact replaces_var bound flat inScope here h.length_lt h.inScope
  | flag =>
    have elsewhere : ¬Variable.nearest flagLabel = boundBy x bound :=
      fun same => here (congrArg Variable.label same).symm
    refine ⟨_, Expr.subst_var _ _ _, ?_⟩
    rw [if_neg elsewhere]
    exact shift_moved (A := []) (B := []) (Γ := []) .flag trivial here
      fun _ i inside => absurd inside (Nat.not_lt_zero i)
  | calculate o l r hl hr =>
    have left := hl bound h.calculate.1
    have right := hr bound h.calculate.2
    cases o with
    | plus | times => exact left.op right
    | subtract => exact ((Expr.Replaces.builtin _).app left).app right
  | connect o l r hl hr => exact (hl bound h.connect.1).op (hr bound h.connect.2)
  | choose condition yes no hc hy hn =>
    exact .ifThenElse (hc bound h.choose.1) (hy bound h.choose.2.1) (hn bound h.choose.2.2)
  | define y e body he hb =>
    obtain ⟨variable', value'⟩ := inner h.define.2
    exact .letIn variable' value' (he bound h.define.1) (hb (y :: bound) h.define.2)
  | apply y body e hb he =>
    obtain ⟨variable', value'⟩ := inner h.apply.2
    exact .app (.lam variable' value' (.builtin _) (hb (y :: bound) h.apply.2))
      (he bound h.apply.1)
  | iterate times y step e he =>
    obtain ⟨variable', value'⟩ := inner h.loop
    have nearest := replaces_var (i := 0) (y :: bound) flat inScope here
      h.loop.length_lt h.loop.inScope.1
    have kept : inst.instVar x w (y :: bound) y 0 = var y 0 := by
      unfold inst.instVar
      exact if_neg fun same => by simp [same.1] at same
    rw [kept] at nearest
    exact ((((Expr.Replaces.builtin _).app (.natural _)).app (.builtin _)).app
      (.lam variable' value' (.builtin _) (nearest.op (.natural _)))).app (he bound h.iterate)
  | select first l r hl hr => exact ((hl bound h.select.1).pair (hr bound h.select.2)).field _
  | test t e he => exact (Expr.Replaces.builtin _).app (he bound h.test)

/-- A flat term in the place of a name is the value of the name's binder in its body. -/
theorem instantiate_toExpr (flat : Flat w) (inScope : w.Scoped Γ) (h : Fits (x :: Γ) e) :
    e.toExpr.instantiate (.nearest x) w.toExpr = .ok (e.inst x w).toExpr := by
  have few : ([] ++ x :: Γ).length < UInt64.size := h.length_lt
  have moved : (w.moved []).toExpr.shift 1 (.nearest x) = .ok (w.moved [x]).toExpr :=
    shift_moved flat inScope (h.ne_flagLabel (.head _)) fun _ _ inside =>
      under_ofNat (index_lt few inside)
  rw [moved_nil] at moved
  exact (replaces_toExpr [] flat inScope h).instantiate moved

/-- A truth value in the place of `b` in a flat term without other names. -/
theorem instantiate_flag (flat : Flat e) (inScope : e.Scoped []) (c : Bool) :
    e.toExpr.instantiate (.nearest flagLabel) (.bool c) = .ok (e.fix c).toExpr := by
  have replaced : Expr.Replaces (.nearest flagLabel) (.bool c) e.toExpr (e.fix c).toExpr := by
    unfold fix
    induction flat with
    | number n => exact .natural n
    | truth d => exact .bool d
    | var z i => exact absurd inScope (Nat.not_lt_zero i)
    | flag => exact ⟨_, rfl, rfl⟩
    | @calculate o l r _ _ hl hr =>
      have left := hl inScope.1
      have right := hr inScope.2
      cases o with
      | plus | times => exact left.op right
      | subtract => exact ((Expr.Replaces.builtin _).app left).app right
    | connect _ _ hl hr => exact (hl inScope.1).op (hr inScope.2)
    | choose _ _ _ hc hy hn =>
      exact .ifThenElse (hc inScope.1) (hy inScope.2.1) (hn inScope.2.2)
    | test _ he => exact (Expr.Replaces.builtin _).app (he inScope)
  exact replaced.instantiate rfl

end Arithmetic

end Dhall
