/-
# Normal forms have no redexes

A step of evaluation settles its result if the evaluation of other expressions settles
theirs: the parts are evaluated first, and the rule that is applied to them takes settled
parts to settled results. By induction on the fuel, whatever evaluation returns is settled.

## Main definitions

* `Node.isInert` — constructs that evaluation keeps

## Main results

* `Expr.settled_step` — one step settles its result
* `Expr.settled_normalize` — so does evaluation with any amount of fuel
* `Expr.not_redex_of_normalizes` — no rule applies anywhere in a normal form
-/

import Dhall.Proofs.Settled.Builtin
import Dhall.Proofs.Settled.Record

namespace Dhall

namespace Node

variable {α β : Type}

/-- Whether evaluation keeps a construct and evaluates its children. -/
def isInert : Node α → Bool
  | const _ | var _ | lam .. | pi .. | assertion _ | builtin _ | bool _ | natural _ | integer _
  | double _ | emptyList _ | list _ | present _ | recordType _ | record _ | union _ => true
  | _ => false

/-- Whether a construct is kept belongs to the shape. -/
theorem isInert_of_shape {n : Node α} {n' : Node β} (h : n'.shape = n.shape) :
    n'.isInert = n.isInert := by
  have inert {γ : Type} (n : Node γ) : n.shape.isInert = n.isInert := by
    cases n <;> rfl
  rw [← inert n', ← inert n, h]

end Node

namespace Expr

variable {eval : Expr → Eval Expr} {e f a r : Expr} {n n' : Node Expr}

theorem step_inert (inert : n.isInert) (eval : Expr → Eval Expr) :
    step eval (mk n) = mk <$> n.traverse fun _ e => eval e := by
  cases n <;> first | rfl | exact absurd inert Bool.false_ne_true

theorem stuck_inert (inert : n.isInert) : Stuck (mk n) := by
  cases n <;> trivial

/-! ### One step -/

/-- `if condition then yes else no` of settled expressions is settled. -/
theorem settled_choose {condition yes no : Expr} (hc : Settled condition) (hy : Settled yes)
    (hn : Settled no) (h : choose condition yes no = .ok r) : Settled r := by
  unfold choose at h
  split at h
  · cases h
    exact hy
  · cases h
    exact hn
  · next unknown =>
    split at h
    · cases h
      exact hc
    · next different =>
      rcases Operator.of_alphaEquivalent h with rfl | ⟨differ, rfl⟩
      · exact hy
      · exact settled_ifThenElse.mpr ⟨⟨unknown, different, differ⟩, hc, hy, hn⟩

section Step

variable (settles : Settles eval)

include settles

/-- An application of settled expressions evaluates to a settled one. -/
theorem settled_applyTo (hf : Settled f) (ha : Settled a) (h : f.applyTo eval a = pure r) :
    Settled r := by
  unfold applyTo at h
  split at h
  -- The argument is put into the body before the evaluation, which settles its result.
  · obtain ⟨body, _, h⟩ := bind_eq_pure_iff.mp h
    exact settles body r h
  · next notLam =>
    split at h
    · next b args spine =>
      have arguments : ∀ arg ∈ args ++ [a], Settled arg := by
        have found := Builtin.settled_inherited.arguments hf
        rw [spine] at found
        exact List.forall_mem_append.mpr ⟨found, List.forall_mem_singleton.mpr ha⟩
      obtain ⟨reduced?, reduced, h⟩ := bind_eq_pure_iff.mp h
      cases reduced? with
      | some e =>
        cases h
        exact Builtin.settled_reduce settles arguments reduced
      | none =>
        cases h
        refine settled_app.mpr ⟨⟨notLam, fun b' args' spine' eval' => ?_⟩, hf, ha⟩
        cases spine.symm.trans spine'
        exact Builtin.reduce_eq_none reduced
    · next notBuiltin =>
      cases h
      exact settled_app.mpr
        ⟨⟨notLam, fun b args spine => (notBuiltin b args spine).elim⟩, hf, ha⟩

/-- A match on a settled variant evaluates to a settled expression. -/
theorem settled_mergeVariant {handlers variant : Expr} {type : Option Expr}
    (hh : Settled handlers) (hv : Settled variant) (ht : ∀ t ∈ type, Settled t)
    (h : mergeVariant eval handlers variant type = pure r) : Settled r := by
  have handler {hs : LabelMap Expr} {l : Label} {handler : Expr}
      (known : handlers.record? = some hs) (has : hs.get? l = some handler) : Settled handler := by
    rw [record?_eq_some] at known
    exact (known ▸ hh).value has
  have unhandled {hs : LabelMap Expr} {l : Label} (known : handlers.record? = some hs)
      (alternative : variant.alternative? = some l) (absent : hs.get? l = none) :
      Settled (merge handlers variant type) := by
    refine settled_merge.mpr ⟨fun hs' l' known' alternative' => ?_, hh, hv, ht⟩
    cases known.symm.trans known'
    cases alternative.symm.trans alternative'
    exact absent
  -- Each alternative has its own rule, and the label under which the rule looks is the one that
  -- `alternative?` names.
  unfold mergeVariant at h
  split at h
  · next hs alternatives l known =>
    split at h
    · next has =>
      cases h
      exact handler known has
    · next absent =>
      cases h
      exact unhandled known rfl absent
  · next hs alternatives l payload known =>
    split at h
    · next has => exact settled_applyTo settles (handler known has) (settled_app.mp hv).2.2 h
    · next absent =>
      cases h
      exact unhandled known rfl absent
  · next hs type known =>
    split at h
    · next has =>
      cases h
      exact handler known has
    · next absent =>
      cases h
      exact unhandled known rfl absent
  · next hs payload known =>
    split at h
    · next has => exact settled_applyTo settles (handler known has) (settled_present.mp hv) h
    · next absent =>
      cases h
      exact unhandled known rfl absent
  · next notField notApp notNone notSome =>
    cases h
    refine settled_merge.mpr ⟨fun hs l known alternative => ?_, hh, hv, ht⟩
    unfold alternative? at alternative
    split at alternative
    · exact (notField _ _ _ known rfl).elim
    · exact (notApp _ _ _ _ known rfl).elim
    · exact (notNone _ _ known rfl).elim
    · exact (notSome _ _ known rfl).elim
    · cases alternative

/-- A type that may be missing evaluates to a settled one. -/
theorem settled_mapM {type type' : Option Expr} (h : type.mapM eval = pure type') :
    ∀ t ∈ type', Settled t := by
  cases type with
  | none =>
    cases h
    exact nofun
  | some t =>
    rw [Option.mapM_some] at h
    obtain ⟨t', evaluated, rfl⟩ := map_eq_pure_iff.mp h
    rintro _ ⟨⟩
    exact settles t t' evaluated

/-- The pieces of a text evaluate to settled ones. -/
theorem settled_pieces {pieces pieces' : List (Text.Piece Expr)}
    (h : pieces.mapM (Text.Piece.traverse eval) = pure pieces') :
    ∀ e, .interpolation e ∈ pieces' → Settled e := by
  intro e member
  obtain ⟨piece, _, evaluated⟩ := exists_of_forall₂ (mapM_eq_pure_iff.mp h) member
  cases piece with
  | literal s => cases evaluated
  | interpolation f =>
    obtain ⟨f', image, same⟩ := bind_eq_pure_iff.mp evaluated
    cases same
    exact settles f e image

/-- One step of evaluation settles its result. -/
theorem settled_step : Settles (step eval) := by
  intro e r h
  obtain ⟨n⟩ := e
  by_cases inert : n.isInert
  · rw [step_inert inert] at h
    obtain ⟨n', traversed, rfl⟩ := map_eq_pure_iff.mp h
    have similar := Node.traverse_eq_pure_iff.mp traversed
    have kept : n'.isInert := Node.isInert_of_shape similar.shape_eq ▸ inert
    refine settled_mk.mpr ⟨stuck_inert kept, fun c member => ?_⟩
    obtain ⟨p, _, evaluated⟩ := similar.exists_of_mem member
    exact settles p.2 c evaluated
  -- All other constructs evaluate their parts and then apply the rule that is theirs.
  · cases n with
    | app f a =>
      obtain ⟨f', function, h⟩ := bind_eq_pure_iff.mp h
      obtain ⟨a', argument, h⟩ := bind_eq_pure_iff.mp h
      exact settled_applyTo settles (settles f f' function) (settles a a' argument) h
    | letIn bindings body =>
      cases bindings with
      | nil => cases h
      | cons first rest =>
        obtain ⟨value, _, h⟩ := bind_eq_pure_iff.mp h
        obtain ⟨after, _, h⟩ := bind_eq_pure_iff.mp h
        exact settles after r h
    | annot e type => exact settles e r h
    | text t =>
      obtain ⟨pieces, evaluated, h⟩ := bind_eq_pure_iff.mp h
      cases h
      exact settled_ofPieces (settled_pieces settles evaluated)
    | ifThenElse condition yes no =>
      obtain ⟨condition', hc, h⟩ := bind_eq_pure_iff.mp h
      obtain ⟨yes', hy, h⟩ := bind_eq_pure_iff.mp h
      obtain ⟨no', hn, h⟩ := bind_eq_pure_iff.mp h
      exact settled_choose (settles _ _ hc) (settles _ _ hy) (settles _ _ hn)
        (Eval.lift_eq_pure_iff.mp h)
    | op o x y =>
      obtain ⟨x', left, h⟩ := bind_eq_pure_iff.mp h
      obtain ⟨y', right, h⟩ := bind_eq_pure_iff.mp h
      exact Operator.settled_reduce (settles x x' left) (settles y y' right)
        (Eval.lift_eq_pure_iff.mp h)
    | field e l =>
      obtain ⟨e', evaluated, h⟩ := bind_eq_pure_iff.mp h
      cases h
      exact settled_select (settles e e' evaluated)
    | project e labels =>
      obtain ⟨e', evaluated, h⟩ := bind_eq_pure_iff.mp h
      exact settled_selectAll (settles e e' evaluated) (Eval.lift_eq_pure_iff.mp h)
    | projectType e type =>
      obtain ⟨e', evaluated, h⟩ := bind_eq_pure_iff.mp h
      obtain ⟨type', typed, h⟩ := bind_eq_pure_iff.mp h
      exact settled_selectByType (settles e e' evaluated) (settles type type' typed)
        (Eval.lift_eq_pure_iff.mp h)
    | toMap e type =>
      obtain ⟨e', evaluated, h⟩ := bind_eq_pure_iff.mp h
      obtain ⟨type', typed, h⟩ := bind_eq_pure_iff.mp h
      cases h
      exact settled_toEntries (settles e e' evaluated) (settled_mapM settles typed)
    | merge handlers variant type =>
      obtain ⟨handlers', left, h⟩ := bind_eq_pure_iff.mp h
      obtain ⟨variant', right, h⟩ := bind_eq_pure_iff.mp h
      obtain ⟨type', typed, h⟩ := bind_eq_pure_iff.mp h
      exact settled_mergeVariant settles (settles _ _ left) (settles _ _ right)
        (settled_mapM settles typed) h
    | embed i => cases h
    | _ => exact absurd rfl inert

end Step

/-! ### Evaluation -/

/-- Evaluation returns settled expressions only. -/
theorem settled_normalize (fuel : Nat) : Settles (normalize fuel) := by
  induction fuel with
  | zero =>
    intro e r h
    cases h
  | succ fuel ih => exact settled_step ih

theorem settled_of_normalizes {normal : Expr} (h : e.Normalizes normal) : Settled normal := by
  obtain ⟨fuel, returned⟩ := h
  exact settled_normalize fuel e normal returned

/-- No rule of evaluation applies anywhere in a normal form, under binders neither. -/
theorem not_redex_of_normalizes {e normal : Expr} (h : e.Normalizes normal) :
    ∀ s : Expr, s.Within normal → ¬s.Redex :=
  fun s inside => (settled_of_normalizes h s inside).not_redex

/-- The field of a merge with a record that lacks it, and with an application to evaluate. -/
theorem not_redex_of_normalizes_field :
    let y := var (.nearest "y")
    let e := field (op .prefer (record (.singleton "a" (natural 1)))
      (app (lam "x" (builtin .natural) (var (.nearest "x"))) y)) "b"
    e.Normalizes (field y "b") ∧ ∀ s : Expr, s.Within (field y "b") → ¬s.Redex := by
  intro y e
  have evaluated : e.Normalizes (field y "b") := ⟨5, rfl⟩
  exact ⟨evaluated, not_redex_of_normalizes evaluated⟩

end Expr

end Dhall
