/-
# Built-in functions on admitted arguments

A built-in function returns a part of an argument, a literal, a name applied to such parts, or
the result of an evaluation. It stops where the comparison of two numbers stops, where the
type of a list overflows under the binders of a constructor, or where an evaluation stops.

## Main results

* `Expr.admitted_inherited` — literals of admitted expressions are admitted
* `Builtin.reduces_reduce` — a built-in function on admitted arguments
-/

import Dhall.Proofs.Admitted
import Dhall.Proofs.Inherited

namespace Dhall

open Violation Dhall.Expr

namespace Expr

variable {merges : Bool} {e f type : Expr} {args : List Expr}

theorem admitted_plainText (s : String) : (plainText s).Admitted merges :=
  admitted_text.mpr nofun

theorem admitted_apply (hf : f.Admitted merges) (h : ∀ a ∈ args, Admitted merges a) :
    (f.apply args).Admitted merges := by
  induction args generalizing f with
  | nil => exact hf
  | cons a args ih =>
    obtain ⟨here, below⟩ := List.forall_mem_cons.mp h
    exact ih (admitted_app.mpr ⟨hf, here⟩) below

theorem admitted_named {b : Builtin} (h : type.Admitted merges) :
    (app (builtin b) type).Admitted merges :=
  admitted_app.mpr ⟨admitted_builtin b, h⟩

/-- A literal is admitted if its parts are. -/
theorem admitted_inherited : Inherited (Admitted merges) where
  of_app := admitted_app.mp
  of_list := admitted_list.mp
  to_bool := admitted_bool
  to_natural := admitted_natural
  to_integer := admitted_integer
  to_double := admitted_double
  to_plainText := admitted_plainText
  to_builtin := admitted_builtin
  to_named _ := admitted_named
  to_emptyList := admitted_emptyList.mpr
  to_list := admitted_list.mpr
  to_present := admitted_present.mpr
  to_record := admitted_record.mpr
  to_recordType := admitted_recordType.mpr

theorem admitted_successor : successor.Admitted merges :=
  admitted_lam.mpr ⟨admitted_builtin _,
    admitted_op.mpr ⟨rfl, admitted_var _, admitted_natural 1⟩⟩

/-- The type of the items moves under a binder, where an index may overflow. -/
theorem proper_prepend (h : type.Admitted merges) : Proper merges (prepend type) := by
  refine (proper_under h "a").bind fun type' h' => ensures_pure ?_
  have items : ∀ item ∈ [var (.nearest "a")], Admitted merges item :=
    List.forall_mem_singleton.mpr (admitted_var _)
  exact admitted_lam.mpr ⟨h, admitted_lam.mpr ⟨admitted_named h',
    admitted_op.mpr ⟨rfl, admitted_list.mpr items, admitted_var _⟩⟩⟩

theorem admitted_wrap (h : type.Admitted merges) : (wrap type).Admitted merges :=
  admitted_lam.mpr ⟨h, admitted_present.mpr (admitted_var _)⟩

end Expr

namespace Builtin

variable {merges : Bool} {eval : Expr → Eval Expr} {b : Builtin} {args : List Expr} {e r : Expr}

/-- What a built-in function may make of its arguments, if it reduces. -/
abbrev Reduces {m : Type → Type} [Monad m] [MonadExceptOf Violation m] (merges : Bool)
    (x : m (Option Expr)) : Prop :=
  Ensures (Permitted merges) (fun r => ∀ e ∈ r, Admitted merges e) x

theorem reduces_some {m : Type → Type} [Monad m] [MonadExceptOf Violation m] [LawfulStop m]
    (h : e.Admitted merges) : Reduces merges (pure (some e) : m (Option Expr)) := by
  refine ensures_pure ?_
  rintro _ ⟨⟩
  exact h

theorem reduces_none {m : Type → Type} [Monad m] [MonadExceptOf Violation m] [LawfulStop m] :
    Reduces merges (pure none : m (Option Expr)) :=
  ensures_pure nofun

theorem reduces_map {x : Eval Expr} (h : Proper merges x) : Reduces merges (some <$> x) := by
  refine h.map fun r image => ?_
  rintro _ ⟨⟩
  exact image

/-- Subtraction of a number from another one, or from an equal one. -/
theorem reduces_reduceSubtract {x y : Expr} (hx : x.Admitted merges) (hy : y.Admitted merges) :
    Reduces merges (reduceSubtract x y) := by
  unfold reduceSubtract
  split
  · exact reduces_some (admitted_natural _)
  · split
    · exact reduces_some hy
    · split
      · exact reduces_some (admitted_natural 0)
      · refine (ensures_alphaEquivalent hx hy).permit.bind fun same _ => ?_
        cases same with
        | true => exact reduces_some (admitted_natural 0)
        | false => exact reduces_none

variable (proper : ∀ e, e.Admitted merges → Proper merges (eval e))

include proper

theorem reduces_reduceBuild (h : ∀ a ∈ args, Admitted merges a) :
    Reduces merges (b.reduceBuild eval args) := by
  unfold reduceBuild
  split
  · next g =>
    have hg := h g (.head _)
    split
    · next n known => exact reduces_some (admitted_inherited.argumentsOf hg known n (.head _))
    · refine reduces_map (proper _ (admitted_apply hg ?_))
      simp [admitted_successor]
  · next type g =>
    have ht := h type (.head _)
    have hg := h g (.tail _ (.head _))
    split
    · next first l known =>
      exact reduces_some (admitted_inherited.argumentsOf hg known l (.tail _ (.head _)))
    · refine (Eval.ensures_lift (proper_prepend ht)).bind fun cons hc => ?_
      refine reduces_map (proper _ (admitted_apply hg ?_))
      simp [listOf, ht, hc]
  · next type g =>
    have ht := h type (.head _)
    have hg := h g (.tail _ (.head _))
    split
    · next first o known =>
      exact reduces_some (admitted_inherited.argumentsOf hg known o (.tail _ (.head _)))
    · refine reduces_map (proper _ (admitted_apply hg ?_))
      simp [optionalOf, noneOf, ht, admitted_wrap ht]
  · exact reduces_none

theorem reduces_reduceFold (h : ∀ a ∈ args, Admitted merges a) :
    Reduces merges (b.reduceFold eval args) := by
  unfold reduceFold
  split
  · next m first succ zero =>
    refine reduces_map (Eval.ensures_iterate (h zero (by simp)) fun e he => ?_)
    exact proper _ (admitted_app.mpr ⟨h succ (by simp), he⟩)
  · next nil => exact reduces_some (h nil (by simp))
  · next first items second cons nil =>
    have hi := admitted_list.mp (h (Expr.list items) (by simp))
    refine reduces_map (ensures_foldrM (h nil (by simp)) fun item member e he => ?_)
    exact proper _ (admitted_apply (h cons (by simp)) (by simp [hi item member, he]))
  · next first e second function last =>
    have he := admitted_present.mp (h (present e) (by simp))
    exact reduces_map (proper _ (admitted_app.mpr ⟨h function (by simp), he⟩))
  · next first o second function last notPresent =>
    split
    · exact reduces_some (h last (by simp))
    · exact reduces_none
  · exact reduces_none

/-- A built-in function on admitted arguments stops at permitted violations only, and returns
admitted expressions only. -/
theorem reduces_reduce (h : ∀ a ∈ args, Admitted merges a) :
    Reduces merges (b.reduce eval args) := by
  unfold reduce
  split
  · next x y =>
    exact Eval.ensures_lift (reduces_reduceSubtract (h x (.head _)) (h y (.tail _ (.head _))))
  · exact reduces_reduceBuild proper h
  · exact reduces_reduceBuild proper h
  · exact reduces_reduceBuild proper h
  · exact reduces_reduceFold proper h
  · exact reduces_reduceFold proper h
  · exact reduces_reduceFold proper h
  · exact ensures_pure fun r => admitted_inherited.of_reduceLiteral h

end Builtin

end Dhall
