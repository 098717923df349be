/-
# Definitions and applied functions

A definition `let x = v in b` stands for the function `λ(x : T) → b` applied to `v`, but the
two are evaluated differently. A function is normal before it is applied, so `v` takes the
place of `x` in the normal form of `b`; the body of a definition is left as it is until `v`
has taken the place of `x`. The two have one normal form if `b` is replaced by its normal
form in the definition, and need not have one otherwise: a rule that looks for a form which
only `v` brings in applies to `b`, but not to what has become of `b` without `v`.

No such rule applies to linear expressions. What the definition evaluates then reduces to what
the function evaluates, and reductions of one term that cannot be continued end in one term.

## Main results

* `Expr.normalizes_apply_lam_iff`, `Expr.normalizes_letIn_iff` — how the two are evaluated
* `Expr.normalizes_apply_iff_letIn` — they agree if the body is evaluated first
* `Expr.normalizes_letIn_apply` — they agree on linear expressions
* `Expr.letIn_agrees_apply` — both together, up to names of bound variables
* `Expr.letIn_not_normalizes_apply` — they need not agree otherwise
-/

import Dhall.Proofs.Abort
import Dhall.Proofs.Application
import Dhall.Proofs.Rewriting.NormalForm

namespace Dhall

namespace Expr

variable {e f a b b' d d' r s : Expr} {x : Label}

/-- The normal form of a function is the function on normal forms. -/
theorem normalizes_lam_iff :
    (lam x d b).Normalizes r ↔ ∃ d' b', d.Normalizes d' ∧ b.Normalizes b' ∧ r = lam x d' b' := by
  constructor
  · intro h
    obtain ⟨fuel, returned⟩ := normalizes_iff_step.mp h
    obtain ⟨n, parts, rfl⟩ := map_eq_pure_iff.mp ((map_eq_pure_bind _ _).trans returned)
    obtain ⟨d', domain, parts⟩ := bind_eq_pure_iff.mp parts
    obtain ⟨b', body, rfl⟩ := map_eq_pure_iff.mp ((map_eq_pure_bind _ _).trans parts)
    exact ⟨d', b', ⟨fuel, domain⟩, ⟨fuel, body⟩, rfl⟩
  · rintro ⟨d', b', domain, body, rfl⟩
    exact .lam domain body

/-- A function that is applied is evaluated first, then its argument takes the place of the
variable in what its body has become. -/
theorem normalizes_apply_lam_iff :
    (app (lam x d b) a).Normalizes r ↔ ∃ d' b' a' c, d.Normalizes d' ∧ b.Normalizes b' ∧
      a.Normalizes a' ∧ b'.instantiate (.nearest x) a' = .ok c ∧ c.Normalizes r := by
  constructor
  · intro h
    obtain ⟨f', a', function, argument, fuel, returned⟩ := normalizes_app_iff.mp h
    obtain ⟨d', b', domain, body, rfl⟩ := normalizes_lam_iff.mp function
    obtain ⟨c, instantiated, returned⟩ := bind_eq_pure_iff.mp returned
    exact ⟨d', b', a', c, domain, body, argument, Eval.lift_eq_pure_iff.mp instantiated,
      ⟨fuel, returned⟩⟩
  · rintro ⟨d', b', a', c, domain, body, argument, instantiated, returned⟩
    exact .apply (.lam domain body) argument instantiated returned

/-- The value of a definition is evaluated first, then it takes the place of the variable in
what comes after the definition as that stands. -/
theorem normalizes_letIn_iff {first : Binding Expr} {rest : List (Binding Expr)} :
    (letIn (first :: rest) b).Normalizes r ↔ ∃ a c, first.value.Normalizes a ∧
      (afterFirst rest b).instantiate (.nearest first.label) a = .ok c ∧ c.Normalizes r := by
  constructor
  · intro h
    obtain ⟨fuel, returned⟩ := normalizes_iff_step.mp h
    obtain ⟨a, value, returned⟩ := bind_eq_pure_iff.mp returned
    obtain ⟨c, instantiated, returned⟩ := bind_eq_pure_iff.mp returned
    exact ⟨a, c, ⟨fuel, value⟩, Eval.lift_eq_pure_iff.mp instantiated, ⟨fuel, returned⟩⟩
  · rintro ⟨a, c, value, instantiated, returned⟩
    exact .letIn value instantiated returned

/-- Applying a function is defining its variable in the normal form of its body. -/
theorem normalizes_apply_iff_letIn (type : Option Expr) (hd : d.Normalizes d')
    (hb : b.Normalizes b') :
    (app (lam x d b) a).Normalizes r ↔ (letIn [⟨x, type, a⟩] b').Normalizes r := by
  rw [normalizes_apply_lam_iff, normalizes_letIn_iff]
  constructor
  · rintro ⟨_, body, a', c, _, evaluated, argument, instantiated, returned⟩
    obtain rfl := evaluated.unique hb
    exact ⟨a', c, argument, instantiated, returned⟩
  · rintro ⟨a', c, value, instantiated, returned⟩
    exact ⟨d', b', a', c, hd, hb, value, instantiated, returned⟩

/-- In linear expressions, a definition has the normal form of the applied function. -/
theorem normalizes_letIn_apply (type : Option Expr) (hb : Linear b) (ha : Linear a)
    (defined : (letIn [⟨x, type, a⟩] b).Normalizes r) (applied : (app (lam x d b) a).Normalizes s)
    (context : List Label) : r.nameless context = s.nameless context := by
  obtain ⟨a', c, value, instantiated, returned⟩ := normalizes_letIn_iff.mp defined
  obtain ⟨_, b', _, c', -, body, argument, instantiated', returned'⟩ :=
    normalizes_apply_lam_iff.mp applied
  obtain rfl := argument.unique value
  have bodies := reducesTo_of_normalizes hb body
  have values := reducesTo_of_normalizes ha value
  have linear := linear_instantiate hb (values.linear ha) instantiated
  have linear' := linear_instantiate (bodies.linear hb) (values.linear ha) instantiated'
  -- What the definition evaluates reduces to what the function evaluates.
  have reduces : Term.Reduces (c.nameless context) (c'.nameless context) := by
    rw [nameless_instantiate instantiated, nameless_instantiate instantiated']
    exact (bodies (x :: context)).instantiate (.refl _)
  exact nameless_eq_of_reduces linear linear' returned returned' reduces (.refl _)

/-- Applying a function is defining its variable in the normal form of its body. If the body is
normal already, and also if the body and the value are linear, a definition and the applied
function have the same normal form up to names of bound variables. -/
theorem letIn_agrees_apply (type : Option Expr) :
    (∀ d' b', d.Normalizes d' → b.Normalizes b' → ∀ r,
      (app (lam x d b) a).Normalizes r ↔ (letIn [⟨x, type, a⟩] b').Normalizes r) ∧
    (b.Normalizes b ∨ Linear b ∧ Linear a → ∀ r s, (letIn [⟨x, type, a⟩] b).Normalizes r →
      (app (lam x d b) a).Normalizes s → r.nameless = s.nameless ∧
        (r.alphaEquivalent s = .ok true ∨
          ∃ v : Violation, v.IsOverflow ∧ r.alphaEquivalent s = .error v)) := by
  refine ⟨fun d' b' hd hb r => normalizes_apply_iff_letIn type hd hb, ?_⟩
  intro alike r s defined applied
  have same : r.nameless = s.nameless := by
    rcases alike with normal | ⟨hb, ha⟩
    · obtain ⟨_, _, _, _, domain, -⟩ := normalizes_apply_lam_iff.mp applied
      obtain rfl := ((normalizes_apply_iff_letIn type domain normal).mpr defined).unique applied
      rfl
    · exact funext (normalizes_letIn_apply type hb ha defined applied)
  exact ⟨same, agrees_or_overflows (settled_of_normalizes defined)
    (settled_of_normalizes applied) same⟩

/-- The type of numbers by what they do: `∀(natural : Type) → ∀(succ : natural → natural) →
∀(zero : natural) → natural`. -/
def foldType : Expr :=
  let natural := var (.nearest "natural")
  pi "natural" (const .type) <|
    pi "succ" (pi .placeholder natural natural) (pi "zero" natural natural)

/-- `Natural/fold n`, where `n` is a free variable. -/
def foldFree : Expr :=
  app (builtin .naturalFold) (var (.nearest "n"))

/-- `Natural/build x`. -/
def buildOf (x : Label) : Expr :=
  app (builtin .naturalBuild) (var (.nearest x))

/-- `let x = Natural/fold n in Natural/build x` is `n`, but `Natural/build x` is evaluated on
its own to `x Natural (λ(x : Natural) → x + 1) 0`, and then it is too late to see that a
number is built from its own fold. -/
theorem letIn_not_normalizes_apply :
    ∃ r, (letIn [⟨"x", some foldType, foldFree⟩] (buildOf "x")).Normalizes (var (.nearest "n")) ∧
      (app (lam "x" foldType (buildOf "x")) foldFree).Normalizes r ∧
      (var (.nearest "n")).alphaEquivalent r = .ok false :=
  ⟨_, ⟨12, rfl⟩, ⟨12, rfl⟩, rfl⟩

/-- The function `λ(x : T) → Natural/build x` is applied to `Natural/fold n` as
`let x = Natural/fold n in x Natural (λ(x : Natural) → x + 1) 0` is evaluated, and
`Natural/fold 2 Natural x 0` is `2` for the successor `x`, whether `x` is defined or a parameter. -/
theorem letIn_agrees_apply_fold :
    let arguments := [builtin .natural, successor, natural 0]
    let body := (var (.nearest "x")).apply arguments
    let r := foldFree.apply arguments
    let twice := (builtin .naturalFold).apply
      [natural 2, builtin .natural, var (.nearest "x"), natural 0]
    (foldType.Normalizes foldType ∧ (buildOf "x").Normalizes body ∧
      ((app (lam "x" foldType (buildOf "x")) foldFree).Normalizes r ↔
        (letIn [⟨"x", none, foldFree⟩] body).Normalizes r)) ∧
    Linear twice ∧ Linear successor ∧
      (letIn [⟨"x", none, successor⟩] twice).Normalizes (natural 2) ∧
      ∃ s, (app (lam "x" (builtin .natural) twice) successor).Normalizes s ∧
        (natural 2).nameless = s.nameless := by
  intro arguments body r twice
  have domain : foldType.Normalizes foldType := ⟨12, rfl⟩
  have evaluated : (buildOf "x").Normalizes body := ⟨12, rfl⟩
  have linear : Linear twice ∧ Linear successor := by
    simp [twice, successor, apply, linear_mk, Node.isLinear, Node.children, Node.scopedChildren]
  have defined : (letIn [⟨"x", none, successor⟩] twice).Normalizes (natural 2) := ⟨12, rfl⟩
  have applied : (app (lam "x" (builtin .natural) twice) successor).Normalizes (natural 2) :=
    ⟨12, rfl⟩
  refine ⟨⟨domain, evaluated, (letIn_agrees_apply none).1 _ _ domain evaluated r⟩, linear.1,
    linear.2, defined, _, applied, ?_⟩
  exact ((letIn_agrees_apply none).2 (.inr linear) _ _ defined applied).1

end Expr

end Dhall
