/-
# Recursive merges, field by field

Two records are merged by merging each field that both have and by keeping all others. Since
what becomes of one field does not depend on the others, the merged fields are a traversal of
the fields of the first record, and the merged record is known label by label.

## Main definitions

* `Expr.mergeField`, `Expr.mergeFieldType` — what becomes of one field of the first record

## Main results

* `Expr.mergeRecords_of_unknown`, `Expr.mergeRecords_record` — merges by their operands
* `Expr.mergeRecords_induction` — an induction over both operands, down to the fields they share
* `Expr.mergeRecords_eq_record_iff` — when a merge is a record, and which
* `Operator.reducePrefer_eq_record_iff` — when a preference is a record, and which
-/

import Dhall.Proofs.AlphaEquivalence
import Dhall.Proofs.Fields
import Dhall.Reduction.Operator

namespace Dhall

namespace LabelMap

variable {α : Type}

@[simp] theorem union_nil (xs : LabelMap α) : xs.union .nil = xs := by
  refine Entries.ext_get? fun l => ?_
  rw [get?_union]
  cases xs.get? l <;> rfl

@[simp] theorem nil_union (ys : LabelMap α) : union .nil ys = ys := by
  refine Entries.ext_get? fun l => ?_
  rw [get?_union]
  cases ys.get? l <;> rfl

@[simp] theorem union_self (xs : LabelMap α) : xs.union xs = xs := by
  refine Entries.ext_get? fun l => ?_
  rw [get?_union]
  cases xs.get? l <;> rfl

end LabelMap

theorem Node.children_record {α : Type} (fields : LabelMap α) :
    (record fields).children = fields.values := by
  simp [children, scopedChildren, Function.comp_def]

theorem Node.children_recordType {α : Type} (fields : LabelMap α) :
    (recordType fields).children = fields.values := by
  simp [children, scopedChildren, Function.comp_def]

namespace Expr

variable {x y z : Expr} {xs ys zs : LabelMap Expr} {l : Label}

theorem record?_eq_none_iff : x.record? = none ↔ ∀ fields, x ≠ record fields := by
  rw [Option.eq_none_iff_forall_ne_some]
  exact forall_congr' fun fields => not_congr record?_eq_some

theorem recordType?_eq_none_iff : x.recordType? = none ↔ ∀ fields, x ≠ recordType fields := by
  rw [Option.eq_none_iff_forall_ne_some]
  exact forall_congr' fun fields => not_congr recordType?_eq_some

/-- A field of a record, merged with that of another record if it has one. -/
def mergeField (others : LabelMap Expr) (l : Label) (x : Expr) : Except Violation Expr :=
  match others.get? l with
  | none => .ok x
  | some y =>
    if x.maybeRecord && y.maybeRecord then mergeRecords x y
    else .error (.recordMismatch l x y)

/-- The type of a field, merged with that of another record type if it has one. -/
def mergeFieldType (others : LabelMap Expr) (l : Label) (x : Expr) : Except Violation Expr :=
  match others.get? l with
  | none => .ok x
  | some y =>
    if x.recordType?.isSome && y.recordType?.isSome then mergeRecordTypes x y
    else do
      if ← x.alphaEquivalent y then pure x
      else if x.maybeRecordType && y.maybeRecordType then pure (op .combineTypes x y)
      else .error (.recordTypeMismatch l x y)

/-- The fields are merged one by one. -/
theorem mergeFields_eq_traverse {bound : Option Label} (fields : Entries Expr bound)
    (others : LabelMap Expr) : mergeFields fields others = fields.traverse (mergeField others) := by
  induction fields with
  | nil => rw [mergeFields, Entries.traverse]; rfl
  | cons l above x rest ih =>
    rw [mergeFields, Entries.traverse, ih, mergeField]
    cases others.get? l with
    | none => rfl
    | some y =>
      dsimp only
      split <;> rfl

/-- The types of the fields are merged one by one. -/
theorem mergeFieldTypes_eq_traverse {bound : Option Label} (fields : Entries Expr bound)
    (others : LabelMap Expr) :
    mergeFieldTypes fields others = fields.traverse (mergeFieldType others) := by
  induction fields with
  | nil => rw [mergeFieldTypes, Entries.traverse]; rfl
  | cons l above x rest ih =>
    rw [mergeFieldTypes, Entries.traverse, ih, mergeFieldType]
    cases others.get? l with
    | none => rfl
    | some y =>
      dsimp only
      split
      · rfl
      · cases x.alphaEquivalent y with
        | error v => rfl
        | ok same =>
          cases same with
          | true => rfl
          | false => split <;> rfl

/-- A field is kept where the other record has none, and merged with the other one where both
may be records. -/
theorem mergeField_eq_ok_iff : mergeField ys l x = .ok z ↔
    ys.get? l = none ∧ z = x ∨
      ∃ y, ys.get? l = some y ∧ (x.maybeRecord && y.maybeRecord) ∧ mergeRecords x y = .ok z := by
  unfold mergeField
  cases ys.get? l with
  | none =>
    rw [Except.ok.injEq]
    constructor
    · rintro rfl
      exact Or.inl ⟨rfl, rfl⟩
    · rintro (⟨-, rfl⟩ | ⟨_, ⟨⟩, _⟩)
      rfl
  | some y =>
    dsimp only
    by_cases mergeable : (x.maybeRecord && y.maybeRecord) = true
    · rw [if_pos mergeable]
      constructor
      · intro merges
        exact Or.inr ⟨y, rfl, mergeable, merges⟩
      · rintro (⟨⟨⟩, _⟩ | ⟨_, ⟨⟩, _, merges⟩)
        exact merges
    · rw [if_neg mergeable]
      constructor
      · exact nofun
      · rintro (⟨⟨⟩, _⟩ | ⟨_, ⟨⟩, mergeable', _⟩)
        exact absurd mergeable' mergeable

/-- Where one operand is no record, an empty record drops out of the merge, and other operands
are kept beside each other. -/
theorem mergeRecords_of_unknown (unknown : x.record? = none ∨ y.record? = none) :
    mergeRecords x y = .ok (if x.record? = some .nil then y
      else if y.record? = some .nil then x else op .combine x y) := by
  rw [mergeRecords.eq_def]
  split
  · next xs =>
    obtain ⟨⟨⟩⟩ | right := unknown
    rw [right]
    cases xs <;> rfl
  · next noRecord =>
    have left : x.record? = none := record?_eq_none_iff.mpr noRecord
    rw [left]
    rcases y.record? with _ | _ | _ <;> rfl

theorem mergeRecordTypes_of_unknown (unknown : x.recordType? = none ∨ y.recordType? = none) :
    mergeRecordTypes x y = .ok (if x.recordType? = some .nil then y
      else if y.recordType? = some .nil then x else op .combineTypes x y) := by
  rw [mergeRecordTypes.eq_def]
  split
  · next xs =>
    obtain ⟨⟨⟩⟩ | right := unknown
    rw [right]
    cases xs <;> rfl
  · next noRecord =>
    have left : x.recordType? = none := recordType?_eq_none_iff.mpr noRecord
    rw [left]
    rcases y.recordType? with _ | _ | _ <;> rfl

/-- To prove something about the operands of a merge, prove it where one of them is no record,
and for two records assuming it of each pair of fields that they share. -/
theorem mergeRecords_induction {motive : Expr → Expr → Prop}
    (unknown : ∀ x y, x.record? = none ∨ y.record? = none → motive x y)
    (records : ∀ xs ys, (∀ l x y, xs.get? l = some x → ys.get? l = some y → motive x y) →
      motive (record xs) (record ys)) (x y : Expr) : motive x y := by
  induction x using induction generalizing y with | step n ih =>
  cases left : (mk n).record? with
  | none => exact unknown _ _ (Or.inl left)
  | some xs =>
    cases right : y.record? with
    | none => exact unknown _ _ (Or.inr right)
    | some ys =>
      obtain rfl := mk.inj (record?_eq_some.mp left)
      obtain rfl := record?_eq_some.mp right
      refine records xs ys fun l x y has _ => ih x ?_ y
      rw [Node.children_record]
      exact Entries.mem_values_iff.mpr ⟨l, has⟩

/-- The same for merges of record types. -/
theorem mergeRecordTypes_induction {motive : Expr → Expr → Prop}
    (unknown : ∀ x y, x.recordType? = none ∨ y.recordType? = none → motive x y)
    (recordTypes : ∀ xs ys, (∀ l x y, xs.get? l = some x → ys.get? l = some y → motive x y) →
      motive (recordType xs) (recordType ys)) (x y : Expr) : motive x y := by
  induction x using induction generalizing y with | step n ih =>
  cases left : (mk n).recordType? with
  | none => exact unknown _ _ (Or.inl left)
  | some xs =>
    cases right : y.recordType? with
    | none => exact unknown _ _ (Or.inr right)
    | some ys =>
      obtain rfl := mk.inj (recordType?_eq_some.mp left)
      obtain rfl := recordType?_eq_some.mp right
      refine recordTypes xs ys fun l x y has _ => ih x ?_ y
      rw [Node.children_recordType]
      exact Entries.mem_values_iff.mpr ⟨l, has⟩

/-- Records are merged by merging their fields. -/
theorem mergeRecords_record (xs ys : LabelMap Expr) :
    mergeRecords (record xs) (record ys) =
      (fun merged => record (ys.union merged)) <$> xs.traverse (mergeField ys) := by
  rw [mergeRecords, ← mergeFields_eq_traverse, map_eq_pure_bind]
  rfl

/-- Record types are merged by merging the types of their fields. -/
theorem mergeRecordTypes_recordType (xs ys : LabelMap Expr) :
    mergeRecordTypes (recordType xs) (recordType ys) =
      (fun merged => recordType (ys.union merged)) <$> xs.traverse (mergeFieldType ys) := by
  rw [mergeRecordTypes, ← mergeFieldTypes_eq_traverse, map_eq_pure_bind]
  rfl

/-- An empty record on the left drops out. -/
theorem mergeRecords_nil (y : Expr) : mergeRecords (record .nil) y = .ok y := by
  cases known : y.record? with
  | none =>
    rw [mergeRecords, known]
    rfl
  | some ys =>
    obtain rfl := record?_eq_some.mp known
    rw [mergeRecords_record, Entries.traverse]
    exact congrArg (fun zs => Except.ok (record zs)) (LabelMap.union_nil ys)

/-- An empty record on the right drops out. -/
theorem mergeRecords_nil_right (x : Expr) : mergeRecords x (record .nil) = .ok x := by
  cases known : x.record? with
  | none =>
    rw [mergeRecords_of_unknown (Or.inl known), known]
    rfl
  | some xs =>
    obtain rfl := record?_eq_some.mp known
    have kept : xs.traverse (mergeField .nil) = .ok xs := by
      refine Entries.traverse_eq_pure_iff.mpr fun l => ?_
      cases xs.get? l with
      | none => exact .none
      | some x => exact .some rfl
    rw [mergeRecords_record, kept]
    exact congrArg (fun zs => Except.ok (record zs)) (LabelMap.nil_union xs)

/-- A merge is a record only if both operands are records whose fields can be merged. -/
theorem mergeRecords_eq_record_iff : mergeRecords x y = .ok (record zs) ↔
    ∃ xs ys merged, x = record xs ∧ y = record ys ∧ xs.traverse (mergeField ys) = .ok merged ∧
      zs = ys.union merged := by
  constructor
  · intro h
    by_cases unknown : x.record? = none ∨ y.record? = none
    · -- The result is an operand beside an empty record, so it is no record, or it is a merge.
      exfalso
      rw [mergeRecords_of_unknown unknown] at h
      split at h
      · next empty =>
        cases h
        obtain left | ⟨⟨⟩⟩ := unknown
        cases empty.symm.trans left
      · split at h
        · next empty =>
          cases h
          obtain ⟨⟨⟩⟩ | right := unknown
          cases empty.symm.trans right
        · cases h
    · obtain ⟨left, right⟩ := not_or.mp unknown
      obtain ⟨xs, left⟩ := Option.ne_none_iff_exists'.mp left
      obtain ⟨ys, right⟩ := Option.ne_none_iff_exists'.mp right
      obtain rfl := record?_eq_some.mp left
      obtain rfl := record?_eq_some.mp right
      rw [mergeRecords_record] at h
      obtain ⟨merged, fields, same⟩ := map_eq_pure_iff.mp h
      cases same
      exact ⟨xs, ys, merged, rfl, rfl, fields, rfl⟩
  · rintro ⟨xs, ys, merged, rfl, rfl, fields, rfl⟩
    rw [mergeRecords_record, fields]
    rfl

/-- Where only one record has a field, the merge has that field. -/
theorem get?_of_mergeRecords (h : mergeRecords (record xs) (record ys) = .ok (record zs))
    (l : Label) :
    (xs.get? l = none → zs.get? l = ys.get? l) ∧ (ys.get? l = none → zs.get? l = xs.get? l) := by
  obtain ⟨_, _, merged, same, same', fields, rfl⟩ := mergeRecords_eq_record_iff.mp h
  cases same
  cases same'
  have here := Entries.traverse_eq_pure_iff.mp fields l
  rw [LabelMap.get?_union]
  constructor
  · intro absent
    rw [absent] at here
    rw [eq_none_of_rel here, Option.none_or]
  · intro absent
    cases known : xs.get? l with
    | none =>
      rw [known] at here
      rw [eq_none_of_rel here, Option.none_or, absent]
    | some x =>
      rw [known] at here
      obtain ⟨z, merges, kept⟩ := exists_of_rel_some here
      rw [mergeField, absent] at kept
      cases kept
      rw [merges, Option.some_or]

/-- A field of a merge depends on this field of the two records only. So it stays the same if
the records lose other fields, and then the merge still returns. -/
theorem exists_mergeRecords_of_shared {xs' ys' : LabelMap Expr}
    (h : mergeRecords (record xs) (record ys) = .ok (record zs))
    (shared : ∀ k x y, xs'.get? k = some x → ys'.get? k = some y →
      xs.get? k = some x ∧ ys.get? k = some y)
    (left : xs'.get? l = xs.get? l) (right : ys'.get? l = ys.get? l) :
    ∃ zs', mergeRecords (record xs') (record ys') = .ok (record zs') ∧
      zs'.get? l = zs.get? l := by
  obtain ⟨_, _, merged, same, same', fields, rfl⟩ := mergeRecords_eq_record_iff.mp h
  cases same
  cases same'
  have each := Entries.traverse_eq_pure_iff.mp fields
  -- Each field is merged with the field that it had been merged with before, if with any.
  have returns (k : Label) (x : Expr) (has : xs'.get? k = some x) :
      ∃ z, mergeField ys' k x = .ok z := by
    cases known : ys'.get? k with
    | none => exact ⟨x, mergeField_eq_ok_iff.mpr (Or.inl ⟨known, rfl⟩)⟩
    | some y =>
      obtain ⟨inLeft, inRight⟩ := shared k x y has known
      have merges := each k
      rw [inLeft] at merges
      obtain ⟨z, -, merges⟩ := exists_of_rel_some merges
      refine ⟨z, (?_ : mergeField ys' k x = mergeField ys k x).trans merges⟩
      rw [mergeField, mergeField, known, inRight]
  obtain ⟨merged', fields'⟩ : ∃ merged', xs'.traverse (mergeField ys') = .ok merged' :=
    Entries.exists_traverse_eq_pure returns
  refine ⟨ys'.union merged', ?_, ?_⟩
  · exact mergeRecords_eq_record_iff.mpr ⟨xs', ys', merged', rfl, rfl, fields', rfl⟩
  · have here := each l
    have here' := Entries.traverse_eq_pure_iff.mp fields' l
    have agrees (x : Expr) : mergeField ys' l x = mergeField ys l x := by
      rw [mergeField, mergeField, right]
    rw [left] at here'
    rw [LabelMap.get?_union, LabelMap.get?_union, right]
    cases known : xs.get? l with
    | none =>
      rw [known] at here here'
      rw [eq_none_of_rel here, eq_none_of_rel here']
    | some x =>
      rw [known] at here here'
      obtain ⟨z, has, merges⟩ := exists_of_rel_some here
      obtain ⟨z', has', merges'⟩ := exists_of_rel_some here'
      rw [agrees, merges] at merges'
      cases merges'
      rw [has, has']

end Expr

namespace Operator

open Dhall.Expr

variable {x y : Expr} {zs : LabelMap Expr}

/-- Of two records the fields of the second one are preferred. -/
theorem reducePrefer_record (xs ys : LabelMap Expr) :
    reducePrefer (record xs) (record ys) = .ok (record (xs.union ys)) := by
  unfold reducePrefer
  split
  · next empty =>
    cases empty
    rw [LabelMap.union_nil]
  · next empty _ =>
    cases empty
    rw [LabelMap.nil_union]
  · next left right =>
    cases left
    cases right
    rfl
  · next unknown => exact (unknown _ _ rfl rfl).elim

/-- A preference is a record only if both operands are records. -/
theorem reducePrefer_eq_record_iff : reducePrefer x y = .ok (record zs) ↔
    ∃ xs ys, x = record xs ∧ y = record ys ∧ zs = xs.union ys := by
  constructor
  · intro h
    unfold reducePrefer at h
    split at h
    · next empty =>
      cases h
      rw [record?_eq_some] at empty
      exact ⟨zs, .nil, rfl, empty, (LabelMap.union_nil zs).symm⟩
    · next empty _ =>
      cases h
      rw [record?_eq_some] at empty
      exact ⟨.nil, zs, empty, rfl, (LabelMap.nil_union zs).symm⟩
    · next xs ys _ _ left right =>
      cases h
      rw [record?_eq_some] at left right
      exact ⟨xs, ys, left, right, rfl⟩
    · next unknown =>
      obtain ⟨same, compared, h⟩ := bind_eq_pure_iff.mp h
      cases same with
      | false => cases h
      | true =>
        -- What agrees with a record is a record, and then both operands are known.
        cases h
        obtain ⟨xs, rfl⟩ := eq_record_of_nameless ((alphaEquivalent_eq_ok compared []).mp rfl)
        exact (unknown xs zs rfl rfl).elim
  · rintro ⟨xs, ys, rfl, rfl, rfl⟩
    exact reducePrefer_record xs ys

@[simp] theorem reducePrefer_nil (y : Expr) : reducePrefer (record .nil) y = .ok y := by
  cases known : y.record? with
  | some ys =>
    obtain rfl := record?_eq_some.mp known
    rw [reducePrefer_record, LabelMap.nil_union]
  | none =>
    rw [reducePrefer, known]
    rfl

@[simp] theorem reducePrefer_nil_right (x : Expr) : reducePrefer x (record .nil) = .ok x := by
  cases known : x.record? with
  | none =>
    rw [reducePrefer, known]
    rfl
  | some xs =>
    rw [reducePrefer, known]
    cases xs <;> rfl

/-- An operand is not changed by preferring it to itself. -/
theorem reducePrefer_self (x : Expr) : reducePrefer x x = .ok x := by
  cases known : x.record? with
  | some xs =>
    obtain rfl := record?_eq_some.mp known
    rw [reducePrefer_record, LabelMap.union_self]
  | none =>
    have agrees : x.alphaEquivalent x = .ok true := if_pos rfl
    simp [reducePrefer, known, agrees]

end Operator

end Dhall
