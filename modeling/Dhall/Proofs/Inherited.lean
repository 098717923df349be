/-
# Properties that literals inherit from their parts

A built-in function that inspects a literal returns a literal that is made of its arguments and
of the parts of these. So a property that literals have just if their parts have it holds of the
result if it holds of the arguments, whatever the property is.

## Main definitions

* `Expr.Inherited` — properties that literals have if their parts have them

## Main results

* `Expr.Inherited.arguments` — arguments of applications have such a property as well
* `Expr.Inherited.of_reduceLiteral` — so have the results of functions that inspect literals
-/

import Dhall.LabelMap.Lemmas
import Dhall.Reduction.Builtin

namespace Dhall

open Dhall.Expr

/-- A property that the parts of applications and of lists have, and that a literal, or a name of
a type or of a constructor that is applied, has if its parts have it. -/
structure Expr.Inherited (P : Expr → Prop) : Prop where
  of_app {f a : Expr} : P (app f a) → P f ∧ P a
  of_list {items : List Expr} : P (list items) → ∀ e ∈ items, P e
  to_bool (b : Bool) : P (bool b)
  to_natural (n : UInt64) : P (natural n)
  to_integer (i : Int64) : P (integer i)
  to_double (d : Double) : P (double d)
  to_plainText (s : String) : P (plainText s)
  to_builtin (b : Builtin) : P (builtin b)
  to_named {b : Builtin} {type : Expr} (constructs : b ∈ [.list, .optional, .optionalNone]) :
    P type → P (app (builtin b) type)
  to_emptyList {type : Expr} : P type → P (emptyList type)
  to_list {items : List Expr} : (∀ e ∈ items, P e) → P (list items)
  to_present {e : Expr} : P e → P (present e)
  to_record {fields : LabelMap Expr} : (∀ e ∈ fields.values, P e) → P (record fields)
  to_recordType {fields : LabelMap Expr} : (∀ e ∈ fields.values, P e) → P (recordType fields)

namespace Expr.Inherited

variable {P : Expr → Prop} {b : Builtin} {e r type : Expr} {args items : List Expr}

/-! ### Arguments -/

/-- The arguments of an application have the property. -/
theorem arguments (K : Inherited P) (h : P e) : ∀ a ∈ e.spine.2, P a := by
  induction e using spine.induct with
  | case1 f a head args same ih =>
    obtain ⟨hf, ha⟩ := K.of_app h
    rw [spine_app]
    exact List.forall_mem_append.mpr ⟨ih hf, List.forall_mem_singleton.mpr ha⟩
  | case2 e notApp =>
    unfold spine
    split
    · exact (notApp _ _ rfl).elim
    · exact List.forall_mem_nil _

/-- And so have the arguments of a built-in name. -/
theorem argumentsOf (K : Inherited P) (h : P e) (known : e.argumentsOf? b = some args) :
    ∀ a ∈ args, P a := by
  unfold argumentsOf? at known
  split at known
  · next c found same =>
    split at known
    · cases known
      have arguments := K.arguments h
      rwa [same] at arguments
    · cases known
  · cases known

/-! ### Results -/

theorem of_reduceNatural (K : Inherited P) {n : UInt64} (h : b.reduceNatural n = some r) : P r := by
  unfold Builtin.reduceNatural at h
  split at h
  · cases h
    exact K.to_bool _
  · cases h
    exact K.to_bool _
  · cases h
    exact K.to_bool _
  · split at h
    · cases h
      exact K.to_integer _
    · cases h
  · cases h
    exact K.to_plainText _
  · cases h

theorem of_reduceInteger (K : Inherited P) {i : Int64} (h : b.reduceInteger i = some r) : P r := by
  unfold Builtin.reduceInteger at h
  split at h
  · cases h
    exact K.to_plainText _
  · cases h
    exact K.to_double _
  · split at h
    · cases h
    · cases h
      exact K.to_integer _
  · cases h
    exact K.to_natural _
  · cases h

theorem to_indexedItem (K : Inherited P) (h : P e) (i : Nat) : P (indexedItem i e) := by
  refine K.to_record (LabelMap.forall_values_ofList ?_)
  exact List.forall_mem_cons.mpr ⟨K.to_natural _, List.forall_mem_singleton.mpr h⟩

theorem to_indexedType (K : Inherited P) (h : P type) : P (indexedType type) := by
  refine K.to_recordType (LabelMap.forall_values_ofList ?_)
  exact List.forall_mem_cons.mpr ⟨K.to_builtin _, List.forall_mem_singleton.mpr h⟩

/-- The first or the last item of a list, or what stands for no item. -/
theorem to_item (K : Inherited P) {item? : Option Expr} (ht : P type) (h : ∀ e ∈ items, P e)
    (member : ∀ e, item? = some e → e ∈ items) :
    P ((item?.map present).getD (noneOf type)) := by
  cases item? with
  | none => exact K.to_named (by simp) ht
  | some e => exact K.to_present (h e (member e rfl))

theorem of_reduceList (K : Inherited P) (ht : P type) (he : P e)
    (h : b.reduceList type e = some r) : P r := by
  unfold Builtin.reduceList at h
  split at h
  · -- Of an empty list only its type is left, and the type of the items is an argument.
    split at h
    · cases h
      exact K.to_natural 0
    · cases h
      exact K.to_named (by simp) ht
    · cases h
      exact K.to_named (by simp) ht
    · cases h
      exact he
    · cases h
      exact K.to_emptyList (K.to_named (by simp) (K.to_indexedType ht))
    · cases h
  · next items =>
    have he := K.of_list he
    split at h
    · cases h
      exact K.to_natural _
    · cases h
      exact K.to_item ht he fun e => List.mem_of_head?
    · cases h
      exact K.to_item ht he fun e => List.mem_of_getLast?
    · cases h
      exact K.to_list fun e member => he e (List.mem_reverse.mp member)
    · cases h
      refine K.to_list fun e member => ?_
      obtain ⟨i, inside, rfl⟩ := List.mem_mapIdx.mp member
      exact K.to_indexedItem (he _ (List.getElem_mem inside)) i
    · cases h
  · cases h

/-- What a function that inspects literals makes of arguments with the property has it. -/
theorem of_reduceLiteral (K : Inherited P) (h : ∀ a ∈ args, P a)
    (reduced : b.reduceLiteral args = some r) : P r := by
  unfold Builtin.reduceLiteral at reduced
  split at reduced
  · exact K.of_reduceNatural reduced
  · exact K.of_reduceInteger reduced
  · split at reduced
    · cases reduced
      exact K.to_plainText _
    · cases reduced
  · split at reduced
    · obtain ⟨s, _, rfl⟩ := Option.map_eq_some_iff.mp reduced
      exact K.to_plainText _
    · cases reduced
  · exact K.of_reduceList (h _ (.head _)) (h _ (.tail _ (.head _))) reduced
  · cases reduced

end Expr.Inherited

end Dhall
