/-
# Recursive merges

`∧` merges two records and `⩓` merges two record types. Fields of one side alone are
kept, and fields of both sides are merged again. Fields that cannot be merged are
kept as an unevaluated merge while one side may still turn out to be a record; else
the merge is a violation.

Fields are merged by ascending label, so the first violation is that of the least
label.
-/

import Dhall.AlphaNormal
import Dhall.Expr.View

namespace Dhall.Expr

/-- Whether an expression is, or may turn out to be, a record. -/
def maybeRecord (e : Expr) : Bool :=
  e.record?.isSome || e.isNeutral

/-- Whether an expression is, or may turn out to be, a record type. -/
def maybeRecordType (e : Expr) : Bool :=
  e.recordType?.isSome || e.isNeutral

mutual

/-- `x ∧ y` for normal operands. -/
def mergeRecords : Expr → Expr → Except Violation Expr
  | record xs, y =>
    match y.record? with
    | none => .ok (if xs.isEmpty then y else op .combine (record xs) y)
    | some ys => do pure (record (LabelMap.union ys (← mergeFields xs ys)))
  | x, y =>
    .ok (match y.record? with
      | some .nil => x
      | _ => op .combine x y)

/-- The fields of a record, those that another record has as well merged with its. -/
def mergeFields {bound : Option Label} :
    Entries Expr bound → LabelMap Expr → Except Violation (Entries Expr bound)
  | .nil, _ => .ok .nil
  | .cons l above x rest, others => do
    let x ←
      match others.get? l with
      | none => .ok x
      | some y =>
        if x.maybeRecord && y.maybeRecord then mergeRecords x y
        else .error (.recordMismatch l x y)
    let rest ← mergeFields rest others
    pure (.cons l above x rest)

end

mutual

/-- `x ⩓ y` for normal operands. -/
def mergeRecordTypes : Expr → Expr → Except Violation Expr
  | recordType xs, y =>
    match y.recordType? with
    | none => .ok (if xs.isEmpty then y else op .combineTypes (recordType xs) y)
    | some ys => do pure (recordType (LabelMap.union ys (← mergeFieldTypes xs ys)))
  | x, y =>
    .ok (match y.recordType? with
      | some .nil => x
      | _ => op .combineTypes x y)

/-- The types of the fields of a record, those of fields that another record has as well
merged with its. Types that agree need no merge. -/
def mergeFieldTypes {bound : Option Label} :
    Entries Expr bound → LabelMap Expr → Except Violation (Entries Expr bound)
  | .nil, _ => .ok .nil
  | .cons l above x rest, others => do
    let x ←
      match others.get? l with
      | none => .ok x
      | some y =>
        -- Two record types merge even when they agree.
        if x.recordType?.isSome && y.recordType?.isSome then mergeRecordTypes x y
        else do
          if ← x.alphaEquivalent y then pure x
          else if x.maybeRecordType && y.maybeRecordType then pure (op .combineTypes x y)
          else .error (.recordTypeMismatch l x y)
    let rest ← mergeFieldTypes rest others
    pure (.cons l above x rest)

end

end Dhall.Expr
