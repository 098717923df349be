/-
# Operators and records on admitted operands

The rules of operators, fields and projections return an operand, a part of one, a literal or
the operation that they have found no reason to change. What they stop at are comparisons of
operands, and merges of fields that cannot be merged.

## Main results

* `Expr.proper_mergeRecords`, `Expr.proper_mergeRecordTypes` — merges
* `Operator.proper_reduce` — operators
* `Expr.admitted_select`, `Expr.proper_selectAll` — fields and projections
-/

import Dhall.Proofs.Admitted
import Dhall.Proofs.Merge
import Dhall.Proofs.Settled

namespace Dhall

open Violation

namespace Expr

variable {merges : Bool} {e x y type : Expr} {l : Label} {fields : LabelMap Expr}

/-! ### Parts -/

/-- The value of a field of an admitted record is admitted. -/
theorem Admitted.value {value : Expr} (h : (record fields).Admitted merges)
    (has : fields.get? l = some value) : value.Admitted merges :=
  admitted_record.mp h value (Entries.mem_values_iff.mpr ⟨l, has⟩)

theorem admitted_singleton {value : Expr} (h : value.Admitted merges) :
    (record (.singleton l value)).Admitted merges :=
  admitted_record.mpr (List.forall_mem_singleton.mpr h)

/-! ### Comparisons -/

/-- A rule that compares two operands stops at an overflow only. -/
theorem proper_ifAlphaEquivalent {agreed stuck : Expr} (hx : x.Admitted merges)
    (hy : y.Admitted merges) (ha : agreed.Admitted merges) (hs : stuck.Admitted merges) :
    Proper merges (do pure (if ← x.alphaEquivalent y then agreed else stuck) :
      Except Violation Expr) := by
  refine (ensures_alphaEquivalent hx hy).permit.bind fun same _ => ensures_pure ?_
  split
  · exact ha
  · exact hs

/-! ### Recursive merges -/

/-- Merging admitted records stops at fields that cannot be merged. -/
theorem proper_mergeRecords (hx : x.Admitted true) (hy : y.Admitted true) :
    Proper true (mergeRecords x y) := by
  induction x, y using mergeRecords_induction with
  | unknown x y unknown =>
    rw [mergeRecords_of_unknown unknown]
    refine ensures_pure ?_
    split
    · exact hy
    · split
      · exact hx
      · exact admitted_op.mpr ⟨rfl, hx, hy⟩
  | records xs ys ih =>
    rw [mergeRecords_record]
    refine (ensures_traverse_entries fun l x has => ?_).map fun merged values =>
      admitted_record.mpr (LabelMap.forall_values_union (admitted_record.mp hy) values)
    unfold mergeField
    split
    · exact ensures_pure (hx.value has)
    · next y has' =>
      split
      · exact ih l x y has has' (hx.value has) (hy.value has')
      · exact ensures_throw (Or.inr ⟨rfl, Or.inl ⟨l, x, y, rfl⟩⟩)

/-- Merging admitted record types stops at fields whose types neither merge nor agree, or
where a comparison of types stops. -/
theorem proper_mergeRecordTypes (hx : x.Admitted true) (hy : y.Admitted true) :
    Proper true (mergeRecordTypes x y) := by
  induction x, y using mergeRecordTypes_induction with
  | unknown x y unknown =>
    rw [mergeRecordTypes_of_unknown unknown]
    refine ensures_pure ?_
    split
    · exact hy
    · split
      · exact hx
      · exact admitted_op.mpr ⟨rfl, hx, hy⟩
  | recordTypes xs ys ih =>
    rw [mergeRecordTypes_recordType]
    rw [admitted_recordType] at hx hy
    refine (ensures_traverse_entries fun l x has => ?_).map fun merged types =>
      admitted_recordType.mpr (LabelMap.forall_values_union hy types)
    have here := hx x (Entries.mem_values_iff.mpr ⟨l, has⟩)
    unfold mergeFieldType
    split
    · exact ensures_pure here
    · next y has' =>
      have there := hy y (Entries.mem_values_iff.mpr ⟨l, has'⟩)
      split
      · exact ih l x y has has' here there
      · refine (ensures_alphaEquivalent here there).permit.bind fun same _ => ?_
        split
        · exact ensures_pure here
        · split
          · exact ensures_pure (admitted_op.mpr ⟨rfl, here, there⟩)
          · exact ensures_throw (Or.inr ⟨rfl, Or.inr ⟨l, x, y, rfl⟩⟩)

/-! ### Texts -/

/-- Splicing admitted expressions into each other makes an admitted text. -/
theorem admitted_ofPieces {pieces : List (Text.Piece Expr)}
    (h : ∀ e, .interpolation e ∈ pieces → e.Admitted merges) :
    (ofPieces pieces).Admitted merges := by
  have values : ∀ e ∈ (Text.ofPieces (pieces.flatMap splicePiece)).values,
      e.Admitted merges := by
    intro e member
    obtain ⟨piece, inside, here⟩ := List.mem_flatMap.mp (interpolation_mem_of_mem_values member)
    unfold splicePiece at here
    split at here
    · next t => exact admitted_text.mp (h _ inside) e (mem_values_of_interpolation_mem here)
    · obtain rfl := List.mem_singleton.mp here
      exact h e inside
  unfold ofPieces ofText
  split
  · next head e last whole =>
    split
    · rw [whole] at values
      exact values e (.head _)
    · rw [← whole]
      exact admitted_text.mpr values
  · exact admitted_text.mpr values

end Expr

/-! ### Operators -/

namespace Operator

open Dhall.Expr

variable {merges : Bool} {x y : Expr}

/-- Operators on booleans look for literals and compare the other operands. -/
theorem proper_reduceBoolean {o : Operator} (hx : x.Admitted merges) (hy : y.Admitted merges)
    (boolean : o ∈ [.and, .or, .equal, .notEqual]) : Proper merges (o.reduce x y) := by
  have literal (b : Bool) : (bool b).Admitted merges := admitted_bool b
  have undecided (agreed : Expr) (ha : agreed.Admitted merges) :
      Proper merges (do pure (if ← x.alphaEquivalent y then agreed else op o x y) :
        Except Violation Expr) := by
    refine proper_ifAlphaEquivalent hx hy ha (admitted_op.mpr ⟨?_, hx, hy⟩)
    simp only [List.mem_cons, List.not_mem_nil, or_false] at boolean
    rcases boolean with rfl | rfl | rfl | rfl <;> rfl
  simp only [List.mem_cons, List.not_mem_nil, or_false] at boolean
  rcases boolean with rfl | rfl | rfl | rfl
  all_goals
    simp only [reduce, reduceAnd, reduceOr, reduceEqual, reduceNotEqual]
    split
  all_goals
    first
    | exact undecided _ hx
    | exact undecided _ (literal _)
    | exact ensures_pure hx
    | exact ensures_pure hy
    | exact ensures_pure (literal _)

theorem admitted_reducePlus (hx : x.Admitted merges) (hy : y.Admitted merges) :
    (reducePlus x y).Admitted merges := by
  rcases reducePlus_cases x y with ⟨-, same⟩ | ⟨-, same⟩ | ⟨m, n, -, -, -, same⟩ | ⟨-, same⟩
  all_goals rw [same]
  · exact hy
  · exact hx
  · exact admitted_natural _
  · exact admitted_op.mpr ⟨rfl, hx, hy⟩

theorem admitted_reduceTimes (hx : x.Admitted merges) (hy : y.Admitted merges) :
    (reduceTimes x y).Admitted merges := by
  rcases reduceTimes_cases x y with
    ⟨-, same⟩ | ⟨-, same⟩ | ⟨-, same⟩ | ⟨m, n, -, -, -, same⟩ | ⟨-, same⟩
  all_goals rw [same]
  · exact admitted_natural 0
  · exact hy
  · exact hx
  · exact admitted_natural _
  · exact admitted_op.mpr ⟨rfl, hx, hy⟩

theorem admitted_reduceTextAppend (hx : x.Admitted merges) (hy : y.Admitted merges) :
    (reduceTextAppend x y).Admitted merges := by
  refine admitted_ofPieces fun e member => ?_
  rcases List.mem_pair.mp member with same | same
  · cases same
    exact hx
  · cases same
    exact hy

theorem admitted_reduceListAppend (hx : x.Admitted merges) (hy : y.Admitted merges) :
    (reduceListAppend x y).Admitted merges := by
  unfold reduceListAppend
  split
  · exact hy
  · exact hx
  · rw [admitted_list] at hx hy ⊢
    exact List.forall_mem_append.mpr ⟨hx, hy⟩
  · exact admitted_op.mpr ⟨rfl, hx, hy⟩

theorem proper_reducePrefer (hx : x.Admitted merges) (hy : y.Admitted merges) :
    Proper merges (reducePrefer x y) := by
  unfold reducePrefer
  split
  · exact ensures_pure hx
  · exact ensures_pure hy
  · next xs ys left right =>
    rw [record?_eq_some] at left right
    subst left right
    rw [admitted_record] at hx hy
    exact ensures_pure (admitted_record.mpr (LabelMap.forall_values_union hx hy))
  · exact proper_ifAlphaEquivalent hx hy hy (admitted_op.mpr ⟨rfl, hx, hy⟩)

/-- An admitted operation on admitted operands stops at permitted violations only. -/
theorem proper_reduce {o : Operator} (h : (op o x y).Admitted merges) {x' y' : Expr}
    (hx : x'.Admitted merges) (hy : y'.Admitted merges) : Proper merges (o.reduce x' y') := by
  have allowed := (admitted_op.mp h).1
  cases o with
  | and | or | equal | notEqual => exact proper_reduceBoolean hx hy (by simp)
  | plus => exact ensures_pure (admitted_reducePlus hx hy)
  | times => exact ensures_pure (admitted_reduceTimes hx hy)
  | textAppend => exact ensures_pure (admitted_reduceTextAppend hx hy)
  | listAppend => exact ensures_pure (admitted_reduceListAppend hx hy)
  | prefer => exact proper_reducePrefer hx hy
  | combine =>
    obtain rfl : merges = true := allowed
    exact proper_mergeRecords hx hy
  | combineTypes =>
    obtain rfl : merges = true := allowed
    exact proper_mergeRecordTypes hx hy
  | equivalent | alternative => exact ensures_pure (admitted_op.mpr ⟨rfl, hx, hy⟩)

end Operator

/-! ### Fields and projections -/

namespace Expr

variable {merges : Bool} {e x y type : Expr} {l : Label}

/-- A field of an admitted expression is admitted. -/
theorem admitted_select (h : e.Admitted merges) : (e.select l).Admitted merges := by
  -- A field that a literal has is returned, or the literal is cut down to it; otherwise the
  -- question passes to the other operand.
  induction e using select.induct l with
  | case1 fields value has =>
    simp only [select, has]
    exact h.value has
  | case2 fields absent =>
    simp only [select, absent]
    exact admitted_field.mpr h
  | case3 e labels ih => exact ih (admitted_project.mp h)
  | case4 e type ih => exact ih (admitted_projectType.mp h).1
  | case5 x y ys known value has =>
    simp only [select, known, has]
    rw [record?_eq_some] at known
    exact (known ▸ (admitted_op.mp h).2.2).value has
  | case6 x y ys known absent ih =>
    simp only [select, known, absent]
    exact ih (admitted_op.mp h).2.1
  | case7 x y xs unknown known value has =>
    simp only [select, unknown, known, has]
    rw [record?_eq_some] at known
    subst known
    obtain ⟨_, hx, hy⟩ := admitted_op.mp h
    exact admitted_field.mpr (admitted_op.mpr ⟨rfl, admitted_singleton (hx.value has), hy⟩)
  | case8 x y xs unknown known absent ih =>
    simp only [select, unknown, known, absent]
    exact ih (admitted_op.mp h).2.2
  | case9 x y right left =>
    simp only [select, right, left]
    exact admitted_field.mpr h
  | case10 x y xs known value has =>
    simp only [select, known, has]
    rw [record?_eq_some] at known
    subst known
    obtain ⟨allowed, hx, hy⟩ := admitted_op.mp h
    exact admitted_field.mpr (admitted_op.mpr ⟨allowed, admitted_singleton (hx.value has), hy⟩)
  | case11 x y xs known absent ih =>
    simp only [select, known, absent]
    exact ih (admitted_op.mp h).2.2
  | case12 x y ys known unknown value has =>
    simp only [select, unknown, known, has]
    rw [record?_eq_some] at known
    subst known
    obtain ⟨allowed, hx, hy⟩ := admitted_op.mp h
    exact admitted_field.mpr (admitted_op.mpr ⟨allowed, hx, admitted_singleton (hy.value has)⟩)
  | case13 x y ys known unknown absent ih =>
    simp only [select, unknown, known, absent]
    exact ih (admitted_op.mp h).2.1
  | case14 x y left right =>
    simp only [select, left, right]
    exact admitted_field.mpr h
  | case15 e notRecord notProject notProjectType notPrefer notCombine =>
    rw [select_eq_field notRecord notProject notProjectType notPrefer notCombine]
    exact admitted_field.mpr h

/-- A projection of an admitted expression stops at permitted violations only. -/
theorem proper_selectAll {labels : LabelSet} (h : e.Admitted merges) :
    Proper merges (e.selectAll labels) := by
  induction e, labels using selectAll.induct with
  | case1 e =>
    rw [selectAll_nil]
    exact ensures_pure (admitted_record.mpr nofun)
  | case2 fields labels some =>
    rw [selectAll]
    · exact ensures_pure
        (admitted_record.mpr (Entries.forall_values_restrict (admitted_record.mp h)))
    · exact some
  | case3 e inner labels some ih =>
    rw [selectAll]
    · exact ih (admitted_project.mp h)
    · exact some
  | case4 x y labels some fields known ih =>
    rw [selectAll]
    · simp only [known]
      rw [record?_eq_some] at known
      subst known
      obtain ⟨_, hx, hy⟩ := admitted_op.mp h
      have kept : ∀ value ∈ (fields.restrict labels.contains).values, Admitted merges value :=
        Entries.forall_values_restrict (admitted_record.mp hy)
      exact (ih hx).bind fun left hl =>
        Operator.proper_reducePrefer hl (admitted_record.mpr kept)
    · exact some
  | case5 x y labels some unknown =>
    rw [selectAll]
    · simp only [unknown]
      exact ensures_pure (admitted_project.mpr h)
    · exact some
  | case6 e labels some notRecord notProject notPrefer =>
    rw [selectAll_eq_project some notRecord notProject notPrefer]
    exact ensures_pure (admitted_project.mpr h)

theorem proper_selectByType (h : e.Admitted merges) (ht : type.Admitted merges) :
    Proper merges (e.selectByType type) := by
  unfold selectByType
  split
  · exact proper_selectAll h
  · exact ensures_pure (admitted_projectType.mpr ⟨h, ht⟩)

/-- The entries of an admitted record are an admitted list. -/
theorem admitted_toEntries {type : Option Expr} (h : e.Admitted merges)
    (ht : ∀ t ∈ type, t.Admitted merges) : (e.toEntries type).Admitted merges := by
  unfold toEntries
  split
  · exact admitted_emptyList.mpr (ht _ rfl)
  · exact admitted_toMap.mpr ⟨h, nofun⟩
  · next fields known _ _ =>
    rw [record?_eq_some] at known
    subst known
    refine admitted_list.mpr fun entry member => ?_
    obtain ⟨⟨l, value⟩, inside, rfl⟩ := List.mem_map.mp member
    have value := admitted_record.mp h value (List.mem_map_of_mem inside)
    refine admitted_record.mpr (LabelMap.forall_values_ofList ?_)
    exact List.forall_mem_cons.mpr ⟨admitted_text.mpr nofun, List.forall_mem_singleton.mpr value⟩
  · exact admitted_toMap.mpr ⟨h, ht⟩

end Expr

end Dhall
