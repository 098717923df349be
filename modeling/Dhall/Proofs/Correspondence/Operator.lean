/-
# Operators on corresponding operands

Whether a rule of an operator applies depends on literals among the operands and on
comparisons of them, which are the same on both sides of a correspondence. The results are
built from the operands, so they correspond.

## Main results

* `Correspondence.agree_mergeRecords`, `Correspondence.agree_mergeRecordTypes` — recursive
  merges keep correspondences
* `Correspondence.agree_reduce` — so do all operators
-/

import Dhall.Proofs.Correspondence.Interpolation
import Dhall.Proofs.Merge

namespace Dhall.Correspondence

open Dhall.Expr Operator

variable {K : Correspondence} {x x' y y' : Expr}

/-- A choice between two results by a comparison of the operands. -/
theorem agree_ifAlphaEquivalent {r r' s s' : Expr} (hx : K.Relates x x') (hy : K.Relates y y')
    (hr : K.Relates r r') (hs : K.Relates s s') :
    Agree K.Relates (do pure (if ← x.alphaEquivalent y then r else s))
      (do pure (if ← x'.alphaEquivalent y' then r' else s')) := by
  refine (agree_alphaEquivalent hx hy).bind ?_
  rintro same _ rfl
  refine .pure ?_
  split
  · exact hr
  · exact hs

theorem relates_op (o : Operator) (hx : K.Relates x x') (hy : K.Relates y y') :
    K.Relates (op o x y) (op o x' y') :=
  Alike.relates (.op o hx hy)

theorem relates_bool (b : Bool) : K.Relates (bool b) (bool b) :=
  Alike.relates (.bool b)

theorem relates_record {xs xs' : LabelMap Expr} (h : xs.Related K.Relates xs') :
    K.Relates (record xs) (record xs') :=
  Alike.relates (.record h)

theorem relates_recordType {xs xs' : LabelMap Expr} (h : xs.Related K.Relates xs') :
    K.Relates (recordType xs) (recordType xs') :=
  Alike.relates (.recordType h)

theorem relates_natural (n : UInt64) : K.Relates (natural n) (natural n) :=
  Alike.relates (.natural n)

section Rules

/-! ### Booleans and numbers -/

variable (hx : K.Relates x x') (hy : K.Relates y y')

include hx hy

/-- Operators on booleans look for literals and compare the other operands. -/
theorem agree_reduceBoolean {o : Operator} (boolean : o ∈ [.and, .or, .equal, .notEqual]) :
    Agree K.Relates (o.reduce x y) (o.reduce x' y') := by
  have undecided (o : Operator) {r r' : Expr} (h : K.Relates r r') :=
    agree_ifAlphaEquivalent hx hy h (relates_op o hx hy)
  simp only [List.mem_cons, List.not_mem_nil, or_false] at boolean
  rcases boolean with rfl | rfl | rfl | rfl
  all_goals
    simp only [reduce, reduceAnd, reduceOr, reduceEqual, reduceNotEqual, hx.bool?_eq, hy.bool?_eq]
    rcases x.bool? with _ | _ | _ <;> rcases y.bool? with _ | _ | _
  all_goals
    first
    | exact undecided _ hx
    | exact undecided _ (relates_bool _)
    | exact .pure hx
    | exact .pure hy
    | exact .pure (relates_bool _)

theorem relates_reducePlus : K.Relates (reducePlus x y) (reducePlus x' y') := by
  unfold reducePlus
  rw [hx.natural?_eq, hy.natural?_eq]
  split
  · exact hy
  · split
    · exact hx
    · cases x.natural? <;> cases y.natural? <;> dsimp only
      any_goals exact relates_op .plus hx hy
      split
      · exact relates_natural _
      · exact relates_op .plus hx hy

theorem relates_reduceTimes : K.Relates (reduceTimes x y) (reduceTimes x' y') := by
  unfold reduceTimes
  rw [hx.natural?_eq, hy.natural?_eq]
  split
  · exact relates_natural 0
  · split
    · exact hy
    · split
      · exact hx
      · cases x.natural? <;> cases y.natural? <;> dsimp only
        any_goals exact relates_op .times hx hy
        split
        · exact relates_natural _
        · exact relates_op .times hx hy

/-! ### Lists and text -/

theorem relates_reduceListAppend : K.Relates (reduceListAppend x y) (reduceListAppend x' y') := by
  have stuck := relates_op .listAppend hx hy
  unfold reduceListAppend
  split
  · cases hx.alike
    exact hy
  · next notEmpty =>
    cases hy.alike
    cases hx.alike
    case emptyList => exact absurd rfl (notEmpty _)
    all_goals exact hx
  · cases hx.alike with | list left =>
    cases hy.alike with | list right =>
    exact Alike.relates (.list (List.rel_append left right))
  · next noEmptyLeft noEmptyRight noLists =>
    split
    · cases hx.alike
      exact absurd rfl (noEmptyLeft _)
    · cases hy.alike
      exact absurd rfl (noEmptyRight _)
    · cases hx.alike
      cases hy.alike
      exact absurd rfl (noLists _ _ rfl)
    · exact stuck

/-- Splicing the pieces of literals that are interpolated keeps correspondences. -/
theorem relates_reduceTextAppend : K.Relates (reduceTextAppend x y) (reduceTextAppend x' y') :=
  relates_ofPieces (.cons (.interpolation hx) (.cons (.interpolation hy) .nil))

/-! ### Records -/

theorem agree_reducePrefer : Agree K.Relates (reducePrefer x y) (reducePrefer x' y') := by
  have undecided := agree_ifAlphaEquivalent hx hy hy (relates_op .prefer hx hy)
  have left := hx.record?
  have right := hy.record?
  unfold reducePrefer
  generalize x.record? = xs at left ⊢
  generalize x'.record? = xs' at left ⊢
  generalize y.record? = ys at right ⊢
  generalize y'.record? = ys' at right ⊢
  cases left with
  | none =>
    cases right with
    | none => exact undecided
    | some right =>
      cases right with
      | nil => exact .pure hx
      | cons _ _ => exact undecided
  | some left =>
    cases right with
    | none =>
      cases left with
      | nil => exact .pure hy
      | cons _ _ => exact undecided
    | some right =>
      have union := relates_record (LabelMap.related_union left right)
      cases right with
      | nil => exact .pure hx
      | cons _ _ =>
        cases left with
        | nil => exact .pure hy
        | cons _ _ => exact .pure union

end Rules

/-! ### Recursive merges -/

theorem Relates.maybeRecord_eq (h : K.Relates x x') : x'.maybeRecord = x.maybeRecord := by
  cases h.alike <;> rfl

theorem Relates.recordType?_isSome_eq (h : K.Relates x x') :
    x'.recordType?.isSome = x.recordType?.isSome := by
  cases h.alike <;> rfl

theorem Relates.maybeRecordType_eq (h : K.Relates x x') :
    x'.maybeRecordType = x.maybeRecordType := by
  cases h.alike <;> rfl

/-- Merging corresponding records returns corresponding expressions. -/
theorem agree_mergeRecords (hx : K.Relates x x') (hy : K.Relates y y') :
    Agree K.Relates (mergeRecords x y) (mergeRecords x' y') := by
  induction x, y using mergeRecords_induction generalizing x' y' with
  | unknown x y unknown =>
    have unknown' : x'.record? = none ∨ y'.record? = none :=
      unknown.imp (none_iff_of_rel hx.record?).mp (none_iff_of_rel hy.record?).mp
    rw [mergeRecords_of_unknown unknown, mergeRecords_of_unknown unknown']
    simp only [← Entries.nil_iff_of_rel hx.record?, ← Entries.nil_iff_of_rel hy.record?]
    refine .pure ?_
    split
    · exact hy
    · split
      · exact hx
      · exact relates_op .combine hx hy
  | records xs ys ih =>
    cases hx.alike with | record fields =>
    cases hy.alike with | record others =>
    rw [mergeRecords_record, mergeRecords_record]
    refine (fields.agree_traverse fun l x x' has _ here => ?_).map fun _ _ merged =>
      relates_record (LabelMap.related_union others merged)
    unfold mergeField
    cases known : ys.get? l with
    | none =>
      rw [(none_iff_of_rel (others.get? l)).mp known]
      exact .pure here
    | some y =>
      obtain ⟨y', known', there⟩ := exists_of_rel_some (known ▸ others.get? l)
      simp only [known', here.maybeRecord_eq, there.maybeRecord_eq]
      split
      · exact ih l x y has known here there
      · exact nofun

/-- What becomes of the types of corresponding fields corresponds, if their merges do. -/
theorem agree_mergeFieldType {ys ys' : LabelMap Expr} {l : Label} (here : K.Relates x x')
    (others : ys.Related K.Relates ys')
    (merges : ∀ y y', ys.get? l = some y → K.Relates y y' →
      Agree K.Relates (mergeRecordTypes x y) (mergeRecordTypes x' y')) :
    Agree K.Relates (mergeFieldType ys l x) (mergeFieldType ys' l x') := by
  unfold mergeFieldType
  cases known : ys.get? l with
  | none =>
    rw [(none_iff_of_rel (others.get? l)).mp known]
    exact .pure here
  | some y =>
    obtain ⟨y', known', there⟩ := exists_of_rel_some (known ▸ others.get? l)
    simp only [known', here.recordType?_isSome_eq, there.recordType?_isSome_eq,
      here.maybeRecordType_eq, there.maybeRecordType_eq]
    split
    · exact merges y y' known there
    · refine (agree_alphaEquivalent here there).bind ?_
      rintro same _ rfl
      split
      · exact .pure here
      · split
        · exact .pure (relates_op .combineTypes here there)
        · exact nofun

/-- Merging corresponding record types returns corresponding expressions. -/
theorem agree_mergeRecordTypes (hx : K.Relates x x') (hy : K.Relates y y') :
    Agree K.Relates (mergeRecordTypes x y) (mergeRecordTypes x' y') := by
  induction x, y using mergeRecordTypes_induction generalizing x' y' with
  | unknown x y unknown =>
    have unknown' : x'.recordType? = none ∨ y'.recordType? = none :=
      unknown.imp (none_iff_of_rel hx.recordType?).mp (none_iff_of_rel hy.recordType?).mp
    rw [mergeRecordTypes_of_unknown unknown, mergeRecordTypes_of_unknown unknown']
    simp only [← Entries.nil_iff_of_rel hx.recordType?, ← Entries.nil_iff_of_rel hy.recordType?]
    refine .pure ?_
    split
    · exact hy
    · split
      · exact hx
      · exact relates_op .combineTypes hx hy
  | recordTypes xs ys ih =>
    cases hx.alike with | recordType fields =>
    cases hy.alike with | recordType others =>
    rw [mergeRecordTypes_recordType, mergeRecordTypes_recordType]
    refine (fields.agree_traverse fun l x x' has _ here => ?_).map fun _ _ merged =>
      relates_recordType (LabelMap.related_union others merged)
    exact agree_mergeFieldType here others fun y y' has' => ih l x y has has' here

/-- Operators on corresponding operands return corresponding expressions. -/
theorem agree_reduce (o : Operator) (hx : K.Relates x x') (hy : K.Relates y y') :
    Agree K.Relates (o.reduce x y) (o.reduce x' y') := by
  cases o with
  | and | or | equal | notEqual => exact agree_reduceBoolean hx hy (by decide)
  | plus => exact .pure (relates_reducePlus hx hy)
  | times => exact .pure (relates_reduceTimes hx hy)
  | textAppend => exact .pure (relates_reduceTextAppend hx hy)
  | listAppend => exact .pure (relates_reduceListAppend hx hy)
  | prefer => exact agree_reducePrefer hx hy
  | combine => exact agree_mergeRecords hx hy
  | combineTypes => exact agree_mergeRecordTypes hx hy
  | equivalent | alternative => exact .pure (relates_op _ hx hy)

end Dhall.Correspondence
