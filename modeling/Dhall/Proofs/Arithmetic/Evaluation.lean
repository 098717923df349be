/-
# Evaluation of first-order arithmetic

Evaluation turns a term into a flat one. Operations on flat terms are simplified, and a term
that binds a name is unfolded into the term with the name replaced. Unfolding may copy the
value of the name, but that value is flat by then, so the number of constructs that are left
to unfold goes down: this is what the main induction is on.

A program is evaluated in two stages. The body of the two functions is evaluated first, with
`n` and `b` still unknown, and then once more for each argument. No stage changes the value.

## Main definitions

* `Arithmetic.redexes` — how many constructs are left to unfold
* `Arithmetic.Simplifies` — evaluation returns a flat term that refines the given one

## Main results

* `Arithmetic.simplifies` — every term that fits simplifies
* `Arithmetic.program_normalizes` — a program returns, a literal that it returns is the value,
  and it returns a literal if no number on the way is too large
-/

import Dhall.Proofs.Arithmetic.Simplification
import Dhall.Proofs.Evaluation
import Mathlib.Algebra.Group.Nat.Defs

namespace Dhall.Arithmetic

open Eval Dhall.Expr

variable {s : Scalar} {Γ : List Label} {x : Label}

/-- The number of constructs that evaluation unfolds. The step of a loop counts too. -/
def redexes : {s : Scalar} → Arithmetic s → Nat
  | _, number _ | _, var _ _ | _, truth _ | _, flag => 0
  | _, calculate _ l r | _, connect _ l r | _, select _ l r => l.redexes + r.redexes
  | _, choose condition yes no => condition.redexes + yes.redexes + no.redexes
  | _, define _ e body | _, apply _ body e => e.redexes + body.redexes + 1
  | _, iterate _ _ _ e => e.redexes + 2
  | _, test _ e => e.redexes

theorem Flat.redexes {e : Arithmetic s} (h : Flat e) : e.redexes = 0 := by
  induction h <;> simp_all [Arithmetic.redexes]

/-- A flat term in the place of a name brings nothing to unfold. -/
theorem redexes_inst {w : Arithmetic .natural} (hw : Flat w) (e : Arithmetic s) :
    (e.inst x w).redexes = e.redexes := by
  have vars (bound : List Label) (y : Label) (i : Nat) :
      (inst.instVar x w bound y i).redexes = 0 := by
    unfold inst.instVar
    split
    · split
      · exact (hw.moved bound).redexes
      · rfl
    · rfl
  have replaced (bound : List Label) :
      (e.replace (inst.instVar x w) flag bound).redexes = e.redexes := by
    induction e generalizing bound <;> simp_all [replace, redexes]
  exact replaced []

/-- Evaluation returns a flat term that refines the given one. -/
def Simplifies (labels : List Label) (e : Arithmetic s) : Prop :=
  ∃ g, Flat g ∧ Refines labels e g ∧ e.toExpr.Normalizes g.toExpr

section Constructs

variable {l l' r r' w body : Arithmetic .natural} {p p' q q' : Arithmetic .boolean}

theorem Flat.simplifies_self {e : Arithmetic s} (flat : Flat e) (inScope : e.Scoped Γ)
    (h : e.toExpr.Normalizes e.toExpr) : Simplifies Γ e :=
  ⟨e, flat, .refl inScope, h⟩

/-! ### Operations -/

/-- Operands may be replaced by what they evaluate to. -/
theorem Refines.calculate {o : Calculation} (hl : Refines Γ l l') (hr : Refines Γ r r') :
    Refines Γ (calculate o l r) (calculate o l' r') where
  inScope := ⟨hl.inScope, hr.inScope⟩
  value b scope labels := by
    simp only [Arithmetic.value, hl.value b scope labels, hr.value b scope labels]
  bounded b scope labels h := by
    refine ⟨hl.bounded b scope labels h.1, hr.bounded b scope labels h.2.1, ?_⟩
    rw [hl.value b scope labels, hr.value b scope labels]
    exact h.2.2

theorem Refines.connect {o : Connective} (hp : Refines Γ p p') (hq : Refines Γ q q') :
    Refines Γ (connect o p q) (connect o p' q') where
  inScope := ⟨hp.inScope, hq.inScope⟩
  value b scope labels := by
    simp only [Arithmetic.value, hp.value b scope labels, hq.value b scope labels]
  bounded b scope labels h := by
    refine ⟨hp.bounded b scope labels h.1, fun undecided => hq.bounded b scope labels (h.2 ?_)⟩
    rwa [hp.value b scope labels] at undecided

theorem Refines.choose (hp : Refines Γ p p') (hl : Refines Γ l l') (hr : Refines Γ r r') :
    Refines Γ (choose p l r) (choose p' l' r') where
  inScope := ⟨hp.inScope, hl.inScope, hr.inScope⟩
  value b scope labels := by
    simp only [Arithmetic.value, hp.value b scope labels, hl.value b scope labels,
      hr.value b scope labels]
  bounded b scope labels h := by
    refine ⟨hp.bounded b scope labels h.1, ?_⟩
    have taken := h.2
    rw [hp.value b scope labels]
    split at taken
    · next holds => rw [if_pos holds]; exact hl.bounded b scope labels taken
    · next fails => rw [if_neg fails]; exact hr.bounded b scope labels taken

theorem Refines.test {t : Test} (h : Refines Γ l l') : Refines Γ (test t l) (test t l') where
  inScope := h.inScope
  value b scope labels := by simp only [Arithmetic.value, h.value b scope labels]
  bounded := h.bounded

/-- `Natural/subtract` waits for its second argument. -/
theorem normalizes_subtract {l l' : Expr} (h : l.Normalizes l') :
    (Expr.app (.builtin .naturalSubtract) l).Normalizes (.app (.builtin .naturalSubtract) l') := by
  have waits : Builtin.reduceLiteral .naturalSubtract [l'] = none := by
    unfold Builtin.reduceLiteral
    split
    case h_5 same => cases same
    all_goals rfl
  have reduced : Returns (fun fuel => Builtin.reduce (normalize fuel) .naturalSubtract [l'])
      (Builtin.reduceLiteral .naturalSubtract [l']) :=
    .pure _
  rw [waits] at reduced
  exact (normalizes_builtin _).builtin h rfl reduced

theorem Simplifies.calculate {o : Calculation} (few : Γ.length < UInt64.size)
    (hl : Simplifies Γ l) (hr : Simplifies Γ r) : Simplifies Γ (calculate o l r) := by
  obtain ⟨l', flatl, refl, norml⟩ := hl
  obtain ⟨r', flatr, refr, normr⟩ := hr
  have parts : Refines Γ (.calculate o l r) (.calculate o l' r') := refl.calculate refr
  cases o with
  | plus =>
    obtain ⟨g, flat, refines, reduced⟩ := yields_plus flatl flatr parts.inScope
    exact ⟨g, flat, parts.trans refines, norml.op normr reduced⟩
  | times =>
    obtain ⟨g, flat, refines, reduced⟩ := yields_times flatl flatr parts.inScope
    exact ⟨g, flat, parts.trans refines, norml.op normr reduced⟩
  | subtract =>
    obtain ⟨reduced, subtracted, g, flat, refines, image⟩ :=
      yields_subtract few flatl flatr parts.inScope
    refine ⟨g, flat, parts.trans refines, ?_⟩
    rw [← Except.ok.inj image]
    exact (normalizes_subtract norml).builtin normr rfl (returns_lift subtracted)

theorem Simplifies.connect {o : Connective} (few : Γ.length < UInt64.size)
    (hp : Simplifies Γ p) (hq : Simplifies Γ q) : Simplifies Γ (connect o p q) := by
  obtain ⟨p', flatp, refp, normp⟩ := hp
  obtain ⟨q', flatq, refq, normq⟩ := hq
  have parts : Refines Γ (.connect o p q) (.connect o p' q') := refp.connect refq
  obtain ⟨g, flat, refines, reduced⟩ := yields_connect few o flatp flatq parts.inScope
  exact ⟨g, flat, parts.trans refines, normp.op normq reduced⟩

theorem Simplifies.choose (few : Γ.length < UInt64.size) (hp : Simplifies Γ p)
    (hl : Simplifies Γ l) (hr : Simplifies Γ r) : Simplifies Γ (choose p l r) := by
  obtain ⟨p', flatp, refp, normp⟩ := hp
  obtain ⟨l', flatl, refl, norml⟩ := hl
  obtain ⟨r', flatr, refr, normr⟩ := hr
  have parts : Refines Γ (.choose p l r) (.choose p' l' r') := refp.choose refl refr
  obtain ⟨g, flat, refines, chosen⟩ := yields_choose few flatp flatl flatr parts.inScope
  exact ⟨g, flat, parts.trans refines, normp.ifThenElse norml normr chosen⟩

theorem Simplifies.test {t : Test} (h : Simplifies Γ l) : Simplifies Γ (test t l) := by
  obtain ⟨l', flatl, refl, norml⟩ := h
  have parts : Refines Γ (.test t l) (.test t l') := refl.test
  obtain ⟨g, flat, refines, image⟩ := yields_test flatl (t := t) parts.inScope
  refine ⟨g, flat, parts.trans refines, ?_⟩
  have reduced : Returns (fun fuel => t.toBuiltin.reduce (normalize fuel) ([] ++ [l'.toExpr]))
      (t.toBuiltin.reduceLiteral [l'.toExpr]) := by
    cases t <;> exact .pure _
  rw [← Except.ok.inj image]
  exact (normalizes_builtin _).builtin norml rfl reduced

/-! ### Selection -/

theorem normalizes_pair {l l' r r' : Expr} (hl : l.Normalizes l') (hr : r.Normalizes r') :
    (pair l r).Normalizes (pair l' r') := by
  rw [pair_eq, pair_eq]
  have second : Returns (fun fuel => (Entries.cons "b" (by decide) r .nil :
      Entries Expr (some "a")).traverse fun _ e => e.normalize fuel)
      (.cons "b" (by decide) r' .nil) :=
    hr.returns.bind ((Returns.pure _).bind (.pure _))
  have fields : Returns (fun fuel => (Entries.cons "a" trivial l (.cons "b" (by decide) r .nil) :
      LabelMap Expr).traverse fun _ e => e.normalize fuel)
      (.cons "a" trivial l' (.cons "b" (by decide) r' .nil)) :=
    hl.returns.bind (second.bind (.pure _))
  have parts : Returns (fun fuel => (Node.record (.cons "a" trivial l
      (.cons "b" (by decide) r .nil))).traverse fun _ e => e.normalize fuel)
      (.record (.cons "a" trivial l' (.cons "b" (by decide) r' .nil))) :=
    fields.bind (.pure _)
  exact .of_step (parts.bind (.pure _))

theorem Simplifies.select {first : Bool} (hl : Simplifies Γ l) (hr : Simplifies Γ r) :
    Simplifies Γ (select first l r) := by
  obtain ⟨l', flatl, refl, norml⟩ := hl
  obtain ⟨r', flatr, refr, normr⟩ := hr
  cases first with
  | true =>
    have selected := (normalizes_pair norml normr).field "a"
    rw [pair_eq l'.toExpr] at selected
    exact ⟨l', flatl, ⟨refl.inScope, refl.value, refl.bounded⟩, selected⟩
  | false =>
    have selected := (normalizes_pair norml normr).field "b"
    rw [pair_eq l'.toExpr] at selected
    exact ⟨r', flatr, ⟨refr.inScope, refr.value, refr.bounded⟩, selected⟩

/-! ### Unfolding -/

/-- A name may be replaced by a flat term that refines its value, in anything that refines what
the name is in scope of. -/
theorem refines_inst {q : Arithmetic .natural} (he : Refines Γ r w)
    (hb : Refines (x :: Γ) body q) : Refines Γ (apply x body r) (q.inst x w) where
  inScope := scoped_inst hb.inScope he.inScope
  value b scope labels := by
    subst labels
    rw [value_inst _ hb.inScope he.inScope, he.value b scope rfl]
    exact hb.value b ((x, r.value b scope) :: scope) rfl
  bounded b scope labels h := by
    subst labels
    refine bounded_inst _ hb.inScope he.inScope ?_ (he.bounded b scope rfl h.1)
    rw [he.value b scope rfl]
    exact hb.bounded b ((x, r.value b scope) :: scope) rfl h.2

/-- A definition is unfolded when its value is known. -/
theorem Simplifies.define (flatw : Flat w) (refw : Refines Γ r w)
    (normw : r.toExpr.Normalizes w.toExpr) (fits : Fits (x :: Γ) body)
    (h : Simplifies Γ (body.inst x w)) : Simplifies Γ (define x r body) := by
  obtain ⟨g, flat, refines, normal⟩ := h
  have applied := refines_inst refw (.refl fits.inScope)
  have unfolded : Refines Γ (.define x r body) (body.inst x w) :=
    ⟨applied.inScope, applied.value, applied.bounded⟩
  exact ⟨g, flat, unfolded.trans refines,
    normw.letIn (instantiate_toExpr flatw refw.inScope fits) normal⟩

/-- A function that is applied is unfolded when its body and its argument are known. -/
theorem Simplifies.apply {q : Arithmetic .natural} (flatw : Flat w) (refw : Refines Γ r w)
    (normw : r.toExpr.Normalizes w.toExpr) (refq : Refines (x :: Γ) body q)
    (normq : body.toExpr.Normalizes q.toExpr) (fits : Fits (x :: Γ) q)
    (h : Simplifies Γ (q.inst x w)) : Simplifies Γ (apply x body r) := by
  obtain ⟨g, flat, refines, normal⟩ := h
  have f : (function x body.toExpr).Normalizes (function x q.toExpr) :=
    (normalizes_builtin _).lam normq
  exact ⟨g, flat, (refines_inst refw refq).trans refines,
    f.apply normw (instantiate_toExpr flatw refw.inScope fits) normal⟩

/-! ### Loops -/

/-- A loop whose step is evaluated to `q` and adds a number to the name it binds. -/
theorem returns_loop {q : Arithmetic .natural} {step : UInt64}
    (refq : Refines (x :: Γ) (.calculate .plus (var x 0) (number step)) q)
    (once : ∀ w, Flat w → w.Scoped Γ → Simplifies Γ (.apply x q w)) (times : Nat) (flatw : Flat w)
    (inScope : w.Scoped Γ) :
    ∃ g : Arithmetic .natural, Flat g ∧ g.Scoped Γ ∧
      Returns (fun fuel => Eval.iterate (fun e => normalize fuel (.app (function x q.toExpr) e))
        times w.toExpr) g.toExpr ∧
      ∀ b (scope : Scope), scope.labels = Γ →
        g.value b scope = (· + step.toNat)^[times] (w.value b scope) ∧
        (w.Bounded b scope → (∀ k ≤ times, (· + step.toNat)^[k] (w.value b scope) < UInt64.size) →
          g.Bounded b scope) := by
  induction times generalizing w with
  | zero => exact ⟨w, flatw, inScope, .pure _, fun b scope _ => ⟨rfl, fun h _ => h⟩⟩
  | succ times ih =>
    obtain ⟨u, flatu, refu, normu⟩ := once w flatw inScope
    obtain ⟨g, flatg, inScope', returned, computed⟩ := ih flatu refu.inScope
    refine ⟨g, flatg, inScope', normu.returns.bind returned, fun b scope labels => ?_⟩
    -- One step adds the number, and stays bounded if the sum does.
    have under : Scope.labels ((x, w.value b scope) :: scope) = x :: Γ := by simp [labels]
    have added : u.value b scope = w.value b scope + step.toNat := by
      rw [refu.value b scope labels, value, refq.value b _ under]
      simp only [value, Calculation.value, Scope.lookup_cons, if_pos]
    obtain ⟨total, small⟩ := computed b scope labels
    rw [added] at total small
    refine ⟨total, fun bounded sums => small (refu.bounded b scope labels ⟨bounded, ?_⟩)
      fun k below => sums (k + 1) (Nat.succ_le_succ below)⟩
    refine refq.bounded b _ under ⟨trivial, trivial, ?_⟩
    simp only [value, Calculation.value, Scope.lookup_cons, if_pos]
    exact sums 1 (Nat.succ_le_succ (Nat.zero_le _))

theorem Simplifies.iterate {q : Arithmetic .natural} {times step : UInt64} (flatw : Flat w)
    (refw : Refines Γ r w) (normw : r.toExpr.Normalizes w.toExpr)
    (refq : Refines (x :: Γ) (.calculate .plus (var x 0) (number step)) q)
    (normq : (Arithmetic.calculate .plus (var x 0) (number step)).toExpr.Normalizes q.toExpr)
    (once : ∀ w, Flat w → w.Scoped Γ → Simplifies Γ (.apply x q w)) :
    Simplifies Γ (iterate times x step r) := by
  obtain ⟨g, flat, inScope, returned, computed⟩ :=
    returns_loop refq once times.toNat flatw refw.inScope
  have refines : Refines Γ (.iterate times x step r) g := by
    refine ⟨inScope, fun b scope labels => ?_, fun b scope labels h => ?_⟩
    · rw [(computed b scope labels).1, refw.value b scope labels]
      rfl
    · refine (computed b scope labels).2 (refw.bounded b scope labels h.1) ?_
      rw [refw.value b scope labels]
      exact h.2
  refine ⟨g, flat, refines, ?_⟩
  have f : (function x (Arithmetic.calculate .plus (var x 0) (number step)).toExpr).Normalizes
      (function x q.toExpr) :=
    (normalizes_builtin _).lam normq
  have one := (normalizes_builtin .naturalFold).builtin (normalizes_natural times) rfl (.pure none)
  have two := one.builtin (normalizes_builtin .natural) rfl (.pure none)
  have three := two.builtin f rfl (.pure none)
  exact three.builtin normw rfl (returned.map some)

end Constructs

/-! ### All constructs -/

/-- Every term that fits is evaluated to a flat term that refines it. The induction is on what
is left to unfold and, where nothing is unfolded, on the term. -/
theorem simplifies (e : Arithmetic s) (h : Fits Γ e) : Simplifies Γ e := by
  obtain ⟨n, bound⟩ : ∃ n, e.redexes ≤ n := ⟨_, Nat.le_refl _⟩
  induction n using Nat.strongRecOn generalizing s e Γ with
  | ind n more =>
    induction e generalizing Γ with
    | number n => exact (Flat.number n).simplifies_self trivial (normalizes_natural n)
    | var x i => exact (Flat.var x i).simplifies_self h.inScope (normalizes_var _)
    | truth c => exact (Flat.truth c).simplifies_self trivial (normalizes_bool c)
    | flag => exact Flat.flag.simplifies_self trivial (normalizes_var _)
    | calculate o l r hl hr =>
      rw [redexes] at bound
      exact (hl h.calculate.1 (by omega)).calculate h.length_lt (hr h.calculate.2 (by omega))
    | connect o l r hl hr =>
      rw [redexes] at bound
      exact (hl h.connect.1 (by omega)).connect h.length_lt (hr h.connect.2 (by omega))
    | choose condition yes no hc hy hn =>
      rw [redexes] at bound
      exact (hc h.choose.1 (by omega)).choose h.length_lt (hy h.choose.2.1 (by omega))
        (hn h.choose.2.2 (by omega))
    | test t e he =>
      exact (he h.test bound).test
    | select first l r hl hr =>
      rw [redexes] at bound
      exact (hl h.select.1 (by omega)).select (hr h.select.2 (by omega))
    -- Unfolding a name leaves fewer redexes, so the result is a case of the outer induction.
    | define x e body he hb =>
      rw [redexes] at bound
      obtain ⟨w, flatw, refw, normw⟩ := he h.define.1 (by omega)
      have fits := h.define.2
      exact .define flatw refw normw fits (more body.redexes (by omega) _
        (fits.inst flatw refw.inScope) (Nat.le_of_eq (redexes_inst flatw body)))
    -- The body of the function is evaluated first, and has then no redexes.
    | apply x body e hb he =>
      rw [redexes] at bound
      obtain ⟨w, flatw, refw, normw⟩ := he h.apply.1 (by omega)
      obtain ⟨q, flatq, refq, normq⟩ := hb h.apply.2 (by omega)
      have fits := flatq.fits refq.inScope h.apply.2
      exact .apply flatw refw normw refq normq fits (more 0 (by omega) _
        (fits.inst flatw refw.inScope) (by simp [redexes_inst flatw, flatq.redexes]))
    -- Each round is evaluated from a flat term, and is one application of a flat function.
    | iterate times x step e he =>
      rw [redexes] at bound
      obtain ⟨w, flatw, refw, normw⟩ := he h.iterate (by omega)
      obtain ⟨q, flatq, refq, normq⟩ := more 0 (by omega) _ h.loop (by simp [redexes])
      refine .iterate flatw refw normw refq normq fun u flatu inScope => ?_
      refine more 1 (by omega) _ ?_ (by simp [redexes, flatq.redexes, flatu.redexes])
      exact h.of_binders ⟨inScope, refq.inScope⟩ (by grind [binders, Flat.binders])
        (by grind [binders, Flat.binders])

/-! ### Terms without names -/

section Closed

variable {c : Bool}

/-- Known numbers are added if the sum is a word. -/
theorem reducePlus_natural {m k : UInt64} (fits : m.toNat + k.toNat < UInt64.size) :
    Operator.reducePlus (.natural m) (.natural k) = .natural (m + k) := by
  unfold Operator.reducePlus
  split
  · next zero => simp_all
  · split
    · next zero => simp_all
    · exact if_pos fits

/-- Known numbers are multiplied if the product is a word. -/
theorem reduceTimes_natural {m k : UInt64} (fits : m.toNat * k.toNat < UInt64.size) :
    Operator.reduceTimes (.natural m) (.natural k) = .natural (m * k) := by
  unfold Operator.reduceTimes
  split
  · next zero => rcases zero with zero | zero <;> simp_all
  · split
    · next one => simp_all
    · split
      · next one => simp_all
      · exact if_pos fits

/-- Known truth values are connected. -/
theorem Connective.reduce_bool (o : Connective) (p q : Bool) :
    o.toOperator.reduce (.bool p) (.bool q) = .ok (.bool (o.value p q)) := by
  cases o <;> cases p <;> cases q <;> rfl

/-- A left truth value that decides does so whatever the right operand is. -/
theorem Connective.reduce_decided {o : Connective} {p : Bool} (h : o.decided p = true) (e : Expr)
    (q : Bool) : o.toOperator.reduce (.bool p) e = .ok (.bool (o.value p q)) := by
  cases o with
  | and =>
    cases p with
    | false =>
      simp only [toOperator, Operator.reduce, Operator.reduceAnd, Expr.bool?]
      split <;> first | rfl | simp_all
    | true => cases h
  | or =>
    cases p with
    | false => cases h
    | true => rfl
  | equal | notEqual => cases h

/-- A flat term in which only `b` is mentioned is evaluated to its value, once `b` is known. -/
theorem fix_computes {e : Arithmetic s} (flat : Flat e) (inScope : e.Scoped [])
    (bounded : e.Bounded c []) :
    ∃ r, (e.fix c).toExpr.Normalizes r ∧ s.Denotes r (e.value c []) := by
  -- What is not computed is evaluated all the same.
  have evaluated {s : Scalar} {e : Arithmetic s} (flat : Flat e) (inScope : e.Scoped []) :
      ∃ r, (e.fix c).toExpr.Normalizes r := by
    obtain ⟨g, -, -, normal⟩ := simplifies (e.fix c) ((flat.fix c).fits_nil (scoped_fix inScope))
    exact ⟨_, normal⟩
  induction flat with
  | number n => exact ⟨.natural n, normalizes_natural n, n, rfl, rfl⟩
  | truth d => exact ⟨.bool d, normalizes_bool d, rfl⟩
  | flag => exact ⟨.bool c, normalizes_bool c, rfl⟩
  | var x i => exact absurd inScope (Nat.not_lt_zero i)
  | @calculate o l r _ _ hl hr =>
    obtain ⟨_, norml, m, rfl, left⟩ := hl inScope.1 bounded.1
    obtain ⟨_, normr, k, rfl, right⟩ := hr inScope.2 bounded.2.1
    have fits := bounded.2.2
    rw [← left, ← right] at fits
    have total : (Arithmetic.calculate o l r).value c [] = o.value m.toNat k.toNat := by
      rw [value, left, right]
    rw [total]
    cases o with
    | plus =>
      exact ⟨_, norml.op normr (congrArg Except.ok (reducePlus_natural fits)), m + k, rfl,
        (UInt64.toNat_add m k).trans (Nat.mod_eq_of_lt fits)⟩
    | times =>
      exact ⟨_, norml.op normr (congrArg Except.ok (reduceTimes_natural fits)), m * k, rfl,
        (UInt64.toNat_mul m k).trans (Nat.mod_eq_of_lt fits)⟩
    | subtract =>
      exact ⟨_, (normalizes_subtract norml).builtin normr rfl (returns_lift rfl), _, rfl,
        UInt64.toNat_ofNat_of_lt' fits⟩
  | @choose p l r _ flatl flatr hp hl hr =>
    obtain ⟨_, normp, rfl⟩ := hp inScope.1 bounded.1
    have taken := bounded.2
    rw [value]
    split at taken
    · next holds =>
      obtain ⟨y, norml, computed⟩ := hl inScope.2.1 taken
      obtain ⟨z, normr⟩ := evaluated flatr inScope.2.2
      rw [if_pos holds]
      rw [holds] at normp
      exact ⟨y, normp.ifThenElse norml normr rfl, computed⟩
    · next fails =>
      obtain ⟨y, norml⟩ := evaluated flatl inScope.2.1
      obtain ⟨z, normr, computed⟩ := hr inScope.2.2 taken
      rw [if_neg fails]
      rw [Bool.not_eq_true] at fails
      rw [fails] at normp
      exact ⟨z, normp.ifThenElse norml normr rfl, computed⟩
  | @connect o p q _ flatq hp hq =>
    obtain ⟨_, normp, rfl⟩ := hp inScope.1 bounded.1
    cases decided : o.decided (p.value c []) with
    | true =>
      obtain ⟨z, normq⟩ := evaluated flatq inScope.2
      exact ⟨_, normp.op normq (Connective.reduce_decided decided z _), rfl⟩
    | false =>
      obtain ⟨_, normq, rfl⟩ := hq inScope.2 (bounded.2 decided)
      exact ⟨_, normp.op normq (o.reduce_bool _ _), rfl⟩
  | @test t l _ he =>
    obtain ⟨_, norml, m, rfl, computed⟩ := he inScope bounded
    have reduced : Returns (fun fuel => t.toBuiltin.reduce (normalize fuel) [.natural m])
        (t.toBuiltin.reduceNatural m) := by
      cases t <;> exact .pure _
    rw [t.reduceNatural_toBuiltin, computed] at reduced
    exact ⟨_, (normalizes_builtin _).builtin norml rfl reduced, rfl⟩

end Closed

/-! ### Programs -/

/-- The number `n` in the place of its name, under the binder of `b`. -/
theorem instantiate_program {g : Arithmetic s} (fits : Fits ["n"] g) (n : UInt64) :
    (Expr.lam flagLabel (.builtin .bool) g.toExpr).instantiate (.nearest "n") (.natural n) =
      .ok (.lam flagLabel (.builtin .bool) (g.inst "n" (number n)).toExpr) := by
  have body := replaces_toExpr (w := number n) (Γ := []) (x := "n") [] (.number n) trivial fits
  exact (Replaces.lam rfl rfl (.builtin .bool) body).instantiate rfl

/-- A program is evaluated in two stages. What the first one leaves of the body mentions no
name but `b`, and computes what the body computes. -/
theorem program_stages (e : Arithmetic s) (fits : Fits ["n"] e) (n : UInt64) :
    ∃ g, Flat g ∧ g.Scoped [] ∧ (∀ b, g.value b [] = e.value b [("n", n.toNat)]) ∧
      (∀ b, e.Bounded b [("n", n.toNat)] → g.Bounded b []) ∧
      ∀ b r, (g.fix b).toExpr.Normalizes r → (e.program n b).Normalizes r := by
  -- The body is evaluated with both names unknown, and then with the number in its place.
  obtain ⟨open', flat, refines, normal⟩ := simplifies e fits
  have fits' : Fits ["n"] open' := flat.fits refines.inScope fits
  have known : Fits [] (open'.inst "n" (number n)) := fits'.inst (.number n) trivial
  obtain ⟨g, flat', refines', normal'⟩ := simplifies _ known
  have value' (b : Bool) : (open'.inst "n" (number n)).value b [] = e.value b [("n", n.toNat)] := by
    rw [value_inst (w := number n) [] fits'.inScope trivial]
    exact refines.value b [("n", n.toNat)] rfl
  refine ⟨g, flat', refines'.inScope, fun b => ?_, fun b h => ?_, fun b r h => ?_⟩
  · rw [refines'.value b [] rfl, value' b]
  · refine refines'.bounded b [] rfl
      (bounded_inst (w := number n) [] fits'.inScope trivial ?_ trivial)
    exact refines.bounded b [("n", n.toNat)] rfl h
  · have unknown : (function "n" (.lam "b" (.builtin .bool) e.toExpr)).Normalizes
        (function "n" (.lam "b" (.builtin .bool) open'.toExpr)) :=
      (normalizes_builtin _).lam ((normalizes_builtin _).lam normal)
    have first := unknown.apply (normalizes_natural n) (instantiate_program fits' n)
      ((normalizes_builtin _).lam normal')
    exact first.apply (normalizes_bool b) (instantiate_flag flat' refines'.inScope b) h

/-- A flat term that is a literal is the literal of its value. -/
theorem Flat.denotes {e : Arithmetic s} (flat : Flat e) (literal : e.toExpr.isLiteral) (b : Bool)
    (scope : Scope) : s.Denotes e.toExpr (e.value b scope) := by
  cases flat with
  | number n => exact ⟨n, rfl, rfl⟩
  | truth c => rfl
  | @calculate o _ _ _ _ => cases o <;> cases literal
  | _ => cases literal

/-- A program returns. A literal that it returns is the value of its body, for unbounded natural
numbers, and it returns a literal if no number on the way to the value is too large. -/
theorem program_normalizes (e : Arithmetic s) (inScope : e.Scoped ["n"])
    (apart : flagLabel ∉ e.binders) (few : e.binders.length < 2 ^ 63) (n : UInt64) (b : Bool) :
    ∃ r, (e.program n b).Normalizes r ∧
      (r.isLiteral → s.Denotes r (e.value b [("n", n.toNat)])) ∧
      (e.Bounded b [("n", n.toNat)] → s.Denotes r (e.value b [("n", n.toNat)])) := by
  have fits : Fits ["n"] e := by
    refine ⟨inScope, fun inside => ?_, ?_⟩
    · rcases List.mem_cons.mp inside with same | inside
      · exact absurd same (by decide)
      · exact apart inside
    · simp only [List.singleton_append, List.length_cons, UInt64.size]
      omega
  obtain ⟨g, flat, inScope', value, bounded, evaluated⟩ := program_stages e fits n
  obtain ⟨r, flatr, refines, normal⟩ :=
    simplifies (g.fix b) ((flat.fix b).fits_nil (scoped_fix inScope'))
  have total : r.value b [] = e.value b [("n", n.toNat)] := by
    rw [refines.value b [] rfl, value_fix [] inScope', value b]
  refine ⟨r.toExpr, evaluated b _ normal, fun literal => ?_, fun h => ?_⟩
  · rw [← total]
    exact flatr.denotes literal b []
  · obtain ⟨r', normal', denotes⟩ := fix_computes flat inScope' (bounded b h)
    rwa [normal'.unique normal, value b] at denotes

/-- With `n = 3` and `b = True`, the term
`let x = n * 2 in Natural/fold 3 Natural (λ(x : Natural) → x + 2)
(if b && Natural/even x then (λ(x : Natural) → x + x@1) 1 else { a = x, b = 7 }.b)` is `13`. -/
theorem program_normalizes_shadowed :
    (program (define "x" (calculate .times (var "n" 0) (number 2))
      (iterate 3 "x" 2
        (choose (connect .and flag (test .even (var "x" 0)))
          (apply "x" (calculate .plus (var "x" 0) (var "x" 1)) (number 1))
          (select false (var "x" 0) (number 7))))) 3 true).Normalizes (.natural 13) := by
  obtain ⟨r, normal, -, computed⟩ := program_normalizes (define "x"
    (calculate .times (var "n" 0) (number 2))
    (iterate 3 "x" 2
      (choose (connect .and flag (test .even (var "x" 0)))
        (apply "x" (calculate .plus (var "x" 0) (var "x" 1)) (number 1))
        (select false (var "x" 0) (number 7)))))
    (by decide) (by decide) (by decide) 3 true
  obtain ⟨v, rfl, total⟩ := computed (by decide)
  have thirteen : v = 13 := UInt64.toNat_inj.mp (total.trans (by decide))
  rwa [thirteen] at normal

end Dhall.Arithmetic
