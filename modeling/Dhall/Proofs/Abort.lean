/-
# Where evaluation stops

Evaluation of expressions without imports and without empty definitions stops for three
reasons only: two fields cannot be merged, the types of two fields neither merge nor agree, or
the greatest index is moved up by one. Without merges only the last one is left. The shifts
down that remove binders never stop.

A step of evaluation stops at permitted violations and returns admitted expressions if the
evaluation of other expressions does. By induction on the fuel, evaluation does.

## Main results

* `Expr.proper_step` — one step of evaluation
* `Expr.proper_normalize` — evaluation with any amount of fuel
* `Expr.agrees_or_overflows` — how comparing normal forms ends
* `Expr.stops_of_complete` — which violations there are
-/

import Dhall.Normalize
import Dhall.Proofs.Admitted.Builtin
import Dhall.Proofs.Admitted.Operator
import Dhall.Proofs.AlphaEquivalence
import Dhall.Proofs.Redex

namespace Dhall.Expr

open Violation

variable {merges : Bool} {eval : Expr → Eval Expr} {e f a x y condition yes no : Expr}

/-! ### One step -/

/-- A condition on admitted expressions stops at permitted violations only. -/
theorem proper_choose (hc : condition.Admitted merges) (hy : yes.Admitted merges)
    (hn : no.Admitted merges) : Proper merges (choose condition yes no) := by
  unfold choose
  split
  · exact ensures_pure hy
  · exact ensures_pure hn
  · split
    · exact ensures_pure hc
    · exact proper_ifAlphaEquivalent hy hn hy (admitted_ifThenElse.mpr ⟨hc, hy, hn⟩)

section Step

variable (proper : ∀ e, e.Admitted merges → Proper merges (eval e))

include proper

/-- An application of admitted expressions. -/
theorem proper_applyTo (hf : f.Admitted merges) (ha : a.Admitted merges) :
    Proper merges (f.applyTo eval a) := by
  unfold applyTo
  split
  · next x domain body =>
    have hb := (admitted_lam.mp hf).2
    exact (Eval.ensures_lift (proper_instantiate hb ha _)).bind proper
  · split
    · next b args spine =>
      have arguments : ∀ arg ∈ args ++ [a], Admitted merges arg := by
        have found := admitted_inherited.arguments hf
        rw [spine] at found
        exact List.forall_mem_append.mpr ⟨found, List.forall_mem_singleton.mpr ha⟩
      refine (Builtin.reduces_reduce proper arguments).bind fun reduced result => ?_
      cases reduced with
      | some r => exact ensures_pure (result r rfl)
      | none => exact ensures_pure (admitted_app.mpr ⟨hf, ha⟩)
    · exact ensures_pure (admitted_app.mpr ⟨hf, ha⟩)

/-- A match on an admitted variant. -/
theorem proper_mergeVariant {handlers variant : Expr} {type : Option Expr}
    (hh : handlers.Admitted merges) (hv : variant.Admitted merges)
    (ht : ∀ t ∈ type, Admitted merges t) :
    Proper merges (mergeVariant eval handlers variant type) := by
  have unhandled : Proper merges (pure (merge handlers variant type) : Eval Expr) :=
    ensures_pure (admitted_merge.mpr ⟨hh, hv, ht⟩)
  have handler {hs : LabelMap Expr} {l : Label} {h : Expr} (known : handlers.record? = some hs)
      (has : hs.get? l = some h) : h.Admitted merges := by
    rw [record?_eq_some] at known
    exact (known ▸ hh).value has
  -- The handler is returned for an alternative without a value and applied otherwise.
  unfold mergeVariant
  split
  · next known =>
    split
    · next has => exact ensures_pure (handler known has)
    · exact unhandled
  · next known =>
    split
    · next has => exact proper_applyTo proper (handler known has) (admitted_app.mp hv).2
    · exact unhandled
  · next known =>
    split
    · next has => exact ensures_pure (handler known has)
    · exact unhandled
  · next known =>
    split
    · next has => exact proper_applyTo proper (handler known has) (admitted_present.mp hv)
    · exact unhandled
  · exact unhandled

/-- The pieces of a text of admitted expressions. -/
theorem ensures_pieces {t : Text Expr} (h : ∀ e ∈ t.values, Admitted merges e) :
    Ensures (Permitted merges) (fun pieces => ∀ e, .interpolation e ∈ pieces → Admitted merges e)
      (t.pieces.mapM (Text.Piece.traverse eval)) := by
  have each (piece : Text.Piece Expr) (member : piece ∈ t.pieces) :
      Ensures (Permitted merges) (fun p => ∀ e, p = .interpolation e → Admitted merges e)
        (Text.Piece.traverse eval piece) := by
    cases piece with
    | literal s => exact ensures_pure nofun
    | interpolation e =>
      refine (proper e (h e (mem_values_of_interpolation_mem member))).map fun r image => ?_
      rintro _ ⟨⟩
      exact image
  refine (ensures_mapM (R := fun _ p => ∀ e, p = .interpolation e → Admitted merges e) each).imp
    (fun _ => id) fun pieces _ images e member => ?_
  obtain ⟨_, _, image⟩ := exists_of_forall₂ images member
  exact image e rfl

theorem ensures_type {type : Option Expr} (h : ∀ t ∈ type, Admitted merges t) :
    Ensures (Permitted merges) (fun type => ∀ t ∈ type, Admitted merges t) (type.mapM eval) :=
  ensures_mapM_option fun t stated => proper t (h t stated)

/-- One step of evaluation stops at permitted violations only, and returns admitted
expressions only. -/
theorem proper_step (h : e.Admitted merges) : Proper merges (step eval e) := by
  -- The parts are evaluated first; then the rule of the construct applies to admitted parts.
  unfold step
  split
  · next f a =>
    obtain ⟨hf, ha⟩ := admitted_app.mp h
    exact (proper f hf).bind fun f' hf' =>
      (proper a ha).bind fun a' ha' => proper_applyTo proper hf' ha'
  · exact absurd (admitted_mk.mp h).1 Bool.false_ne_true
  · next first rest body =>
    have hv : first.value.Admitted merges := by
      refine (admitted_mk.mp h).2 _ ?_
      rw [Node.children_letIn_cons]
      exact List.mem_append_left _ (List.mem_append_right _ (.head _))
    exact (proper first.value hv).bind fun value hv' =>
      (Eval.ensures_lift (proper_instantiate (admitted_afterFirst h) hv' _)).bind proper
  · next inner type =>
    have hi : inner.Admitted merges := (admitted_mk.mp h).2 inner (.head _)
    exact proper inner hi
  · next t =>
    exact (ensures_pieces proper (admitted_text.mp h)).bind fun pieces images =>
      ensures_pure (admitted_ofPieces images)
  · next condition yes no =>
    obtain ⟨hc, hy, hn⟩ := admitted_ifThenElse.mp h
    exact (proper condition hc).bind fun _ hc' => (proper yes hy).bind fun _ hy' =>
      (proper no hn).bind fun _ hn' => Eval.ensures_lift (proper_choose hc' hy' hn')
  · next o x y =>
    obtain ⟨_, hx, hy⟩ := admitted_op.mp h
    exact (proper x hx).bind fun _ hx' => (proper y hy).bind fun _ hy' =>
      Eval.ensures_lift (Operator.proper_reduce h hx' hy')
  · next inner l =>
    exact (proper inner (admitted_field.mp h)).bind fun _ hi => ensures_pure (admitted_select hi)
  · next inner labels =>
    exact (proper inner (admitted_project.mp h)).bind fun _ hi =>
      Eval.ensures_lift (proper_selectAll hi)
  · next inner type =>
    obtain ⟨hi, ht⟩ := admitted_projectType.mp h
    exact (proper inner hi).bind fun _ hi' => (proper type ht).bind fun _ ht' =>
      Eval.ensures_lift (proper_selectByType hi' ht')
  · next inner type =>
    obtain ⟨hi, ht⟩ := admitted_toMap.mp h
    exact (proper inner hi).bind fun _ hi' => (ensures_type proper ht).bind fun _ ht' =>
      ensures_pure (admitted_toEntries hi' ht')
  · next handlers variant type =>
    obtain ⟨hh, hv, ht⟩ := admitted_merge.mp h
    exact (proper handlers hh).bind fun _ hh' => (proper variant hv).bind fun _ hv' =>
      (ensures_type proper ht).bind fun _ ht' => proper_mergeVariant proper hh' hv' ht'
  · exact absurd (admitted_mk.mp h).1 Bool.false_ne_true
  -- All other constructs are kept around their evaluated children.
  · next n _ _ _ _ _ _ _ _ _ _ _ _ _ =>
    refine (ensures_traverse (R := fun _ _ c' => Admitted merges c') fun p member =>
      proper p.2 (MadeOf.child h member)).bind fun n' similar => ensures_pure ?_
    exact madeOf_similar h similar fun _ _ _ => id

end Step

/-! ### Evaluation -/

/-- Evaluation of an admitted expression stops at permitted violations only, and returns
admitted expressions only. -/
theorem proper_normalize (fuel : Nat) (h : e.Admitted merges) :
    Proper merges (e.normalize fuel) := by
  induction fuel generalizing e with
  | zero => exact Eval.ensures_outOfFuel
  | succ fuel ih => exact proper_step (fun _ => ih) h

theorem Aborts.permitted {v : Violation} (aborts : e.Aborts v) (h : e.Admitted merges) :
    Permitted merges v := by
  obtain ⟨fuel, outcome⟩ := aborts
  exact (proper_normalize fuel h).stopped outcome

/-! ### Comparing normal forms -/

/-- Normal forms have no imports and no definitions. -/
theorem complete_of_settled (h : Settled e) : e.Complete := by
  intro s inside
  have stuck := h s inside
  constructor
  · rintro i rfl
    exact stuck
  · rintro body rfl
    exact stuck

/-- Comparing normal forms stops at an overflow only. -/
theorem ensures_compared (hx : Settled x) (hy : Settled y) :
    Ensures Violation.IsOverflow (fun _ => True) (x.alphaEquivalent y) :=
  ensures_alphaEquivalent (admitted_of_complete (complete_of_settled hx))
    (admitted_of_complete (complete_of_settled hy))

/-- Normal forms with the same de Bruijn terms are found to be equal, unless the comparison stops
at an overflow. -/
theorem agrees_or_overflows (hx : Settled x) (hy : Settled y) (same : x.nameless = y.nameless) :
    x.alphaEquivalent y = .ok true ∨
      ∃ v : Violation, v.IsOverflow ∧ x.alphaEquivalent y = .error v := by
  cases compared : x.alphaEquivalent y with
  | ok equal =>
    have found := (alphaEquivalent_eq_ok compared []).mpr (congrFun same [])
    exact Or.inl (congrArg _ found)
  | error v => exact Or.inr ⟨v, (ensures_compared hx hy).stopped compared, rfl⟩

/-- Evaluation of a complete expression aborts because fields cannot be merged or because an
index overflows, and without merges an overflow is the only reason. It is the only reason for
which renaming all binders stops, and for which removing a binder stops, in whatever
expression. -/
theorem stops_of_complete :
    (∀ e : Expr, e.Complete →
      (∀ v, e.Aborts v → v.IsMismatch ∨ v.IsOverflow) ∧
      (e.MergeFree → ∀ v, e.Aborts v → v.IsOverflow) ∧
      ∀ v, e.alphaNormal = .error v → v.IsOverflow) ∧
    (∀ (body value : Expr) x v, body.instantiate x value = .error v → v.IsOverflow) ∧
    ∀ (body : Expr) x v, body.renameBound x = .error v → v.IsOverflow := by
  refine ⟨fun e complete => ⟨fun v aborts => ?_, fun free v aborts => ?_, fun v stops => ?_⟩,
    ?_, ?_⟩
  · rcases aborts.permitted (admitted_of_complete complete) with overflow | ⟨_, mismatch⟩
    · exact Or.inr overflow
    · exact Or.inl mismatch
  · rcases aborts.permitted (admitted_of_mergeFree complete free) with overflow | ⟨merges, _⟩
    · exact overflow
    · cases merges
  · exact (ensures_alphaNormal (admitted_of_complete complete)).stopped stops
  · exact fun body value x v stops => (ensures_instantiate body x value).stopped stops
  · exact fun body x v stops => (ensures_renameBound body x).stopped stops

/-- A value with the greatest index that has to move under a binder of its label. -/
theorem stops_of_complete_under_binder :
    let y : Variable := ⟨"y", .ofNat (UInt64.size - 1)⟩
    let keep := lam "x" (builtin .natural) (lam "y" (builtin .natural) (var (.nearest "x")))
    let e := app keep (var y)
    e.Complete ∧ e.MergeFree ∧ e.Aborts (.negativeShift y 1) ∧
      (Violation.negativeShift y 1).IsOverflow := by
  intro y keep e
  have complete : e.Complete := by
    simp [e, keep, Complete, everywhere_mk, Node.children, Node.scopedChildren]
  have free : e.MergeFree := by
    simp [e, keep, MergeFree, everywhere_mk, Node.children, Node.scopedChildren]
  have aborts : e.Aborts (.negativeShift y 1) := ⟨4, rfl⟩
  exact ⟨complete, free, aborts, (stops_of_complete.1 e complete).2.1 free _ aborts⟩

end Dhall.Expr
