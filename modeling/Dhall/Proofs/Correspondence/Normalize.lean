/-
# Evaluation of corresponding expressions

A step of evaluation puts parts together by rules that keep correspondences, and evaluates
other corresponding expressions, some of them under binders. So if both evaluations return,
with whatever fuel, the normal forms correspond.

## Main results

* `Correspondence.agree_step` — one step keeps all correspondences if what it evaluates does
* `Correspondence.agree_normalize` — evaluation keeps correspondences
* `Correspondence.relates_of_normalizes` — corresponding expressions have corresponding
  normal forms
-/

import Dhall.Proofs.Correspondence.Builtin
import Dhall.Proofs.Correspondence.Record
import Dhall.Proofs.Fuel

namespace Dhall

namespace Node

variable {α : Type} {n n' : Node α}

/-- The children of a construct that opens no binders are in its own scope. -/
theorem binders_of_isPlain (plain : n.isPlain) : ∀ p ∈ n.scopedChildren, p.1 = [] := by
  rintro ⟨inner, c⟩ member
  cases n <;> simp_all [isPlain, scopedChildren]
  all_goals tauto

theorem isPlain_shape (n : Node α) : n.shape.isPlain = n.isPlain := by
  cases n <;> rfl

/-- A construct that opens no binders is determined by what is left without labels of binders. -/
theorem eq_of_unlabelled (plain : n.isPlain) (same : n'.unlabelled = n.unlabelled) : n' = n := by
  have isPlain_unlabelled (n : Node α) : n.unlabelled.isPlain = n.isPlain := by
    cases n <;> rfl
  have plain' : n'.isPlain := by rw [← isPlain_unlabelled n', same, isPlain_unlabelled, plain]
  have unlabelled_plain {n : Node α} (plain : n.isPlain) : n.unlabelled = n := by
    cases n <;> first | rfl | exact absurd plain Bool.false_ne_true
  rw [← unlabelled_plain plain, ← unlabelled_plain plain', same]

end Node

namespace Correspondence

open Dhall.Expr

variable {K : Correspondence} {e e' f f' a a' : Expr} {n n' : Node Expr}

/-- Constructs that open no binders correspond if they are similar along the correspondence of
their children. -/
theorem relates_iff_similar (notVar : ∀ v, n ≠ .var v) (plain : n.isPlain) :
    K.Relates (.mk n) (.mk n') ↔ n.Similar (fun _ => K.Relates) n' := by
  have scopes := Node.binders_of_isPlain plain
  constructor
  · intro h
    have notVar' (v : Variable) : n' ≠ .var v := by
      rintro rfl
      exact (not_relates_var notVar).2 h
    obtain ⟨shapes, parts⟩ := (relates_mk notVar notVar').mp h
    refine ⟨Node.eq_of_unlabelled ?_ (Node.seen_eq_iff.mp shapes).1, ?_⟩
    · rw [Node.isPlain_shape, plain]
    · rw [Node.children, List.forall₂_map_right_iff]
      refine ((List.forall₂_and_left _ _).mpr ⟨scopes, parts⟩).imp ?_
      rintro ⟨_, c⟩ ⟨inner, c'⟩ ⟨rfl, binders, related⟩
      obtain rfl := List.eq_nil_of_length_eq_zero binders
      rwa [underAll_nil] at related
  · intro similar
    refine (relates_mk notVar (Node.ne_var_of_shape similar.shape_eq notVar)).mpr
      ⟨congrArg _ similar.shape_eq, ?_⟩
    refine ((List.forall₂_and_left _ _).mpr ⟨scopes, similar.scoped⟩).imp ?_
    rintro ⟨_, c⟩ ⟨_, c'⟩ ⟨rfl, rfl, related⟩
    rw [underAll_nil]
    exact ⟨rfl, related⟩

theorem agree_choose {condition condition' yes yes' no no' : Expr}
    (decides : K.Relates condition condition') (first : K.Relates yes yes')
    (second : K.Relates no no') :
    Agree K.Relates (choose condition yes no) (choose condition' yes' no') := by
  have kept : K.Relates (ifThenElse condition yes no) (ifThenElse condition' yes' no') :=
    Alike.relates (.ifThenElse decides first second)
  unfold choose
  rw [decides.bool?_eq, first.bool?_eq, second.bool?_eq]
  rcases condition.bool? with _ | _ | _
  · dsimp only
    split
    · exact .pure decides
    · exact agree_ifAlphaEquivalent first second first kept
  · exact .pure second
  · exact .pure first

section Step

variable {eval eval' : Expr → Eval Expr}
  (evals : ∀ (K : Correspondence) {e e' : Expr}, K.Relates e e' →
    Agree K.Relates (eval e) (eval' e'))

include evals

/-- Corresponding functions applied to corresponding arguments. -/
theorem agree_applyTo (hf : K.Relates f f') (ha : K.Relates a a') :
    Agree K.Relates (f.applyTo eval a) (f'.applyTo eval' a') := by
  have kept := relates_app hf ha
  have spines (notLam : ∀ x d body, f ≠ lam x d body) (notLam' : ∀ x d body, f' ≠ lam x d body) :
      Agree K.Relates (f.applyTo eval a) (f'.applyTo eval' a') := by
    obtain ⟨heads, arguments⟩ := hf.spine
    generalize head : f.spine.1 = h at heads
    generalize head' : f'.spine.1 = h' at heads
    cases heads.alike with
    | builtin b =>
      rw [applyTo_builtin (Prod.ext head rfl), applyTo_builtin (Prod.ext head' rfl)]
      refine (agree_reduceBuiltin (evals K) b (List.rel_append arguments (.cons ha .nil))).bind ?_
      intro r r' reduced
      cases reduced with
      | none => exact .pure kept
      | some related => exact .pure related
    | _ =>
      rw [applyTo_inert notLam (fun b same => by cases head.symm.trans same),
        applyTo_inert notLam' (fun b same => by cases head'.symm.trans same)]
      exact .pure kept
  cases hf.alike with
  | lam label here inside =>
    exact (Eval.agree_lift (agree_instantiate inside ha)).bind fun _ _ body => evals K body
  | _ => exact spines (fun _ _ _ same => by cases same) fun _ _ _ same => by cases same

/-- Corresponding matches take the same handler. -/
theorem agree_mergeVariant {handlers handlers' variant variant' : Expr} {type type' : Option Expr}
    (hs : K.Relates handlers handlers') (hv : K.Relates variant variant')
    (ht : Option.Rel K.Relates type type') :
    Agree K.Relates (mergeVariant eval handlers variant type)
      (mergeVariant eval' handlers' variant' type') := by
  have kept : K.Relates (merge handlers variant type) (merge handlers' variant' type') :=
    Alike.relates (.merge hs hv ht)
  have fields := hs.record?
  unfold mergeVariant
  generalize handlers.record? = known at fields ⊢
  generalize handlers'.record? = known' at fields ⊢
  cases fields with
  | none => exact .pure kept
  | @some xs xs' fields =>
    -- Both sides have a handler for an alternative, or none of them has.
    have handled (l : Label) : (xs.get? l = none ∧ xs'.get? l = none) ∨
        ∃ h h', xs.get? l = some h ∧ xs'.get? l = some h' ∧ K.Relates h h' := by
      have handler := fields.get? l
      generalize xs.get? l = h at handler ⊢
      generalize xs'.get? l = h' at handler ⊢
      cases handler with
      | none => exact .inl ⟨rfl, rfl⟩
      | some related => exact .inr ⟨_, _, rfl, rfl, related⟩
    -- The forms in which an alternative is known are the same on both sides.
    cases hv.alike with
    | field inner l =>
      cases inner.alike with
      | union =>
        rcases handled l with ⟨unknown, unknown'⟩ | ⟨h, h', known, known', related⟩
        · simpa only [unknown, unknown'] using Agree.pure kept
        · simpa only [known, known'] using Agree.pure related
      | _ => exact .pure kept
    | app function payload =>
      cases function.alike with
      | field inner l =>
        cases inner.alike with
        | union =>
          rcases handled l with ⟨unknown, unknown'⟩ | ⟨h, h', known, known', related⟩
          · simpa only [unknown, unknown'] using Agree.pure kept
          · simpa only [known, known'] using agree_applyTo evals related payload
        | _ => exact .pure kept
      | builtin b =>
        cases b
        case optionalNone =>
          rcases handled "None" with ⟨unknown, unknown'⟩ | ⟨h, h', known, known', related⟩
          · simpa only [unknown, unknown'] using Agree.pure kept
          · simpa only [known, known'] using Agree.pure related
        all_goals exact .pure kept
      | _ => exact .pure kept
    | present payload =>
      rcases handled "Some" with ⟨unknown, unknown'⟩ | ⟨h, h', known, known', related⟩
      · simpa only [unknown, unknown'] using Agree.pure kept
      · simpa only [known, known'] using agree_applyTo evals related payload
    | _ => exact .pure kept

/-- Constructs that are evaluated child by child. -/
theorem agree_inert (notVar : ∀ v, n ≠ .var v) (plain : n.isPlain)
    (h : K.Relates (.mk n) (.mk n')) :
    Agree K.Relates (do pure (.mk (← n.traverse fun _ e => eval e)))
      (do pure (.mk (← n'.traverse fun _ e => eval' e))) := by
  have agreed := ((relates_iff_similar notVar plain).mp h).agree_traverse
    (S := fun _ => K.Relates) fun _ _ _ => evals K
  intro r r' first second
  obtain ⟨m, traversed, first⟩ := bind_eq_pure_iff.mp first
  obtain ⟨m', traversed', second⟩ := bind_eq_pure_iff.mp second
  obtain rfl := LawfulReturn.pure_injective first
  obtain rfl := LawfulReturn.pure_injective second
  have shape := (Node.traverse_eq_pure_iff.mp traversed).shape_eq
  refine (relates_iff_similar (Node.ne_var_of_shape shape notVar) ?_).mpr
    (agreed m m' traversed traversed')
  rw [← Node.isPlain_shape, shape, Node.isPlain_shape, plain]

/-- One step keeps a correspondence, if the evaluation of other expressions keeps all of them. -/
theorem agree_step (h : K.Relates e e') : Agree K.Relates (e.step eval) (e'.step eval') := by
  -- Parts are evaluated from left to right, and then a rule puts the results together.
  cases h.alike with
  | const c => exact .pure h
  | var h => exact .pure h
  | lam label here inside =>
    have parts := (evals K here).bind fun _ _ domain => (evals _ inside).bind fun _ _ body =>
      Agree.pure (m := Eval) (R := fun n n' => K.Relates (.mk n) (.mk n'))
        (Alike.relates (.lam label domain body))
    exact parts.bind fun _ _ related => .pure related
  | pi label here inside =>
    have parts := (evals K here).bind fun _ _ domain => (evals _ inside).bind fun _ _ codomain =>
      Agree.pure (m := Eval) (R := fun n n' => K.Relates (.mk n) (.mk n'))
        (Alike.relates (.pi label domain codomain))
    exact parts.bind fun _ _ related => .pure related
  | app function argument =>
    exact (evals K function).bind fun _ _ hf => (evals K argument).bind fun _ _ ha =>
      agree_applyTo evals hf ha
  | @letIn bindings _ _ _ h =>
    cases bindings with
    | nil =>
      intro r r' stops
      cases stops
    -- The value is put in the place of the first name, so the rest corresponds without it.
    | cons first rest =>
      obtain ⟨first', rest', body', isLet, value, inside⟩ := h.letIn_cons
      cases isLet
      exact (evals K value).bind fun _ _ value =>
        (Eval.agree_lift (agree_instantiate inside value)).bind fun _ _ after => evals K after
  | annot inner _ => exact evals K inner
  | builtin b => exact .pure h
  | op o left right =>
    exact (evals K left).bind fun _ _ left => (evals K right).bind fun _ _ right =>
      Eval.agree_lift (agree_reduce o left right)
  | bool b => exact .pure h
  | ifThenElse decides first second =>
    exact (evals K decides).bind fun _ _ decides => (evals K first).bind fun _ _ first =>
      (evals K second).bind fun _ _ second => Eval.agree_lift (agree_choose decides first second)
  | natural n => exact .pure h
  | integer i => exact .pure h
  | double d => exact .pure h
  | text head tails =>
    refine (agree_mapM (Text.related_pieces head tails) ?_).bind fun _ _ pieces =>
      .pure (relates_ofPieces pieces)
    intro p p' related
    cases related with
    | literal s => exact .pure (.literal s)
    | interpolation related =>
      exact (evals K related).bind fun _ _ value => .pure (.interpolation value)
  | merge matcher matched typed =>
    exact (evals K matcher).bind fun _ _ hs => (evals K matched).bind fun _ _ hv =>
      (agree_mapM_option typed fun _ _ => evals K).bind fun _ _ ht =>
        agree_mergeVariant evals hs hv ht
  | toMap inner typed =>
    exact (evals K inner).bind fun _ _ h => (agree_mapM_option typed fun _ _ => evals K).bind
      fun _ _ ht => .pure (relates_toEntries h ht)
  | field inner l => exact (evals K inner).bind fun _ _ h => .pure (relates_select l h)
  | project inner labels =>
    exact (evals K inner).bind fun _ _ h => Eval.agree_lift (agree_selectAll labels h)
  | projectType inner typed =>
    exact (evals K inner).bind fun _ _ h => (evals K typed).bind fun _ _ ht =>
      Eval.agree_lift (agree_selectByType h ht)
  | embed i =>
    intro r r' stops
    cases stops
  | _ => exact agree_inert evals (fun _ => by nofun) rfl h

end Step

/-- Evaluations of corresponding expressions that return, return corresponding expressions. -/
theorem agree_normalize (fuel : Nat) (h : K.Relates e e') :
    Agree K.Relates (e.normalize fuel) (e'.normalize fuel) := by
  -- Evaluation goes under binders, so the statement is about all correspondences at once.
  induction fuel generalizing K e e' with
  | zero =>
    intro r r' stops
    cases stops
  | succ fuel ih => exact agree_step (fun _ _ _ => ih) h

/-- Corresponding expressions have corresponding normal forms. -/
theorem relates_of_normalizes {normal normal' : Expr} (h : K.Relates e e')
    (first : e.Normalizes normal) (second : e'.Normalizes normal') : K.Relates normal normal' := by
  obtain ⟨fuel, first⟩ := first
  obtain ⟨fuel', second⟩ := second
  have first := (approximates_normalize (Nat.le_max_left fuel fuel') e).outcome first
  have second := (approximates_normalize (Nat.le_max_right fuel fuel') e').outcome second
  exact agree_normalize (max fuel fuel') h normal normal' first second

end Correspondence

end Dhall
