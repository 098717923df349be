/-
# Mismatches in recursive merges

A recursive merge goes down both of its operands as long as they are literals, and meets pairs
of other expressions where it cannot go on. A pair fits if its merge can be left for later, or
if it consists of equal types, and it clashes otherwise. A merge returns if all pairs that it
meets fit, and else it stops at the first one that does not, where pairs are ordered by the
labels that lead to them.

Whether a pair can be left for later is decided by its outermost constructs alone: an
application or an operation may turn out to be anything, also where no variable is free in it.
So types like `List Natural` and `List Bool` do not clash, although they have no values in
common and there is nothing to wait for.

## Main definitions

* `Merging` — the two recursive merges
* `Merging.Meets` — the pairs where a merge cannot go down both operands
* `Merging.Fits`, `Merging.Clash` — pairs that can stay, and pairs that cannot be merged

## Main results

* `Merging.exists_reduce_iff`, `Merging.reduce_eq_error_iff` — when a merge returns, and where
  it stops otherwise
* `Merging.aborts_mismatch` — clashes are reported, and the first one is
* `Merging.normalizes_of_mismatched_fields` — operands without free variables whose fields
  differ, and that are merged in silence
-/

import Dhall.Proofs.Abort
import Dhall.Proofs.Evaluation
import Dhall.Proofs.FreeVariable
import Dhall.Proofs.Merge
import Dhall.Proofs.NormalForm

namespace Dhall

open Dhall.Expr

/-- A recursive merge: that of records, or that of record types. -/
inductive Merging
  | records
  | recordTypes

namespace Merging

/-- The operator of the merge. -/
def operator : Merging → Operator
  | records => .combine
  | recordTypes => .combineTypes

/-- The literal that has the given fields. -/
def literal : Merging → LabelMap Expr → Expr
  | records => record
  | recordTypes => recordType

/-- The violation of operands that have different things under one label. -/
def mismatch : Merging → Label → Expr → Expr → Violation
  | records => .recordMismatch
  | recordTypes => .recordTypeMismatch

/-- The pairs, one of them no literal, that both operands have at the end of the same labels. -/
inductive Meets (k : Merging) :
    LabelMap Expr → LabelMap Expr → List Label → Expr → Expr → Prop
  | here {xs ys : LabelMap Expr} {l : Label} {x y : Expr} (left : xs.get? l = some x)
    (right : ys.get? l = some y) (apart : ¬∃ xs' ys', x = k.literal xs' ∧ y = k.literal ys') :
    Meets k xs ys [l] x y
  | deeper {xs ys xs' ys' : LabelMap Expr} {l : Label} {path : List Label} {x y : Expr}
    (left : xs.get? l = some (k.literal xs')) (right : ys.get? l = some (k.literal ys'))
    (meets : Meets k xs' ys' path x y) : Meets k xs ys (l :: path) x y

/-- The pair can stay: it may still turn out to be a pair of literals, or it consists of types
that agree. -/
def Fits : Merging → Expr → Expr → Prop
  | records, x, y => x.maybeRecord ∧ y.maybeRecord
  | recordTypes, x, y =>
    x.alphaEquivalent y = .ok true ∨
      x.alphaEquivalent y = .ok false ∧ x.maybeRecordType ∧ y.maybeRecordType

/-- The pair cannot be merged: it does not agree, and one of its parts is no literal and cannot
turn out to be one. -/
def Clash : Merging → Expr → Expr → Prop
  | records, x, y => ¬(x.maybeRecord ∧ y.maybeRecord)
  | recordTypes, x, y =>
    x.alphaEquivalent y = .ok false ∧ ¬(x.maybeRecordType ∧ y.maybeRecordType)

/-- The types in the pair can be compared without an index that leaves its range. -/
def Compares : Merging → Expr → Expr → Prop
  | records, _, _ => True
  | recordTypes, x, y => ∃ same, x.alphaEquivalent y = .ok same

/-- The pair is a clash, and all pairs that are met before it fit. -/
def FirstClash (k : Merging) (xs ys : LabelMap Expr) (path : List Label) (x y : Expr) : Prop :=
  k.Meets xs ys path x y ∧ k.Clash x y ∧
    ∀ path' x' y', k.Meets xs ys path' x' y' → path' < path → k.Fits x' y'

/-- The violation at which the merge of a pair under a label stops. -/
def Stops : Merging → Label → Expr → Expr → Violation → Prop
  | records, l, x, y, v => Clash records x y ∧ v = .recordMismatch l x y
  | recordTypes, l, x, y, v =>
    x.alphaEquivalent y = .error v ∨ Clash recordTypes x y ∧ v = .recordTypeMismatch l x y

/-- What becomes of one field of the first operand. -/
def mergeField : Merging → LabelMap Expr → Label → Expr → Except Violation Expr
  | records => Expr.mergeField
  | recordTypes => Expr.mergeFieldType

variable {k : Merging} {xs ys zs : LabelMap Expr} {l : Label} {x y : Expr} {v : Violation}
  {path : List Label}

theorem literal_injective (k : Merging) : Function.Injective k.literal := by
  cases k with
  | records => exact fun _ _ same => Node.record.inj (mk.inj same)
  | recordTypes => exact fun _ _ same => Node.recordType.inj (mk.inj same)

theorem bool_ne_literal (k : Merging) (b : Bool) (fields : LabelMap Expr) :
    Expr.bool b ≠ k.literal fields := by
  cases k with
  | records => exact nofun
  | recordTypes => exact nofun

/-! ### One field -/

/-- Literals are merged field by field. -/
theorem reduce_literal (k : Merging) (xs ys : LabelMap Expr) :
    k.operator.reduce (k.literal xs) (k.literal ys) =
      (fun merged => k.literal (ys.union merged)) <$> xs.traverse (k.mergeField ys) := by
  cases k with
  | records => exact mergeRecords_record xs ys
  | recordTypes => exact mergeRecordTypes_recordType xs ys

/-- A field that only the first operand has is kept. -/
theorem mergeField_of_absent (absent : ys.get? l = none) : k.mergeField ys l x = .ok x := by
  cases k with
  | records => simp only [mergeField, Expr.mergeField, absent]
  | recordTypes => simp only [mergeField, Expr.mergeFieldType, absent]

/-- Two literals under one label are merged in turn. -/
theorem mergeField_literal {xs' ys' : LabelMap Expr} (shared : ys.get? l = some (k.literal ys')) :
    k.mergeField ys l (k.literal xs') = k.operator.reduce (k.literal xs') (k.literal ys') := by
  cases k with
  | records => simp only [mergeField, Expr.mergeField, shared]; rfl
  | recordTypes => simp only [mergeField, Expr.mergeFieldType, shared]; rfl

/-- A merge of records that is met by something else returns. -/
theorem exists_mergeRecords_of_apart (apart : ¬∃ xs' ys', x = record xs' ∧ y = record ys') :
    ∃ z, mergeRecords x y = .ok z := by
  by_cases unknown : x.record? = none ∨ y.record? = none
  · exact ⟨_, mergeRecords_of_unknown unknown⟩
  · obtain ⟨left, right⟩ := not_or.mp unknown
    obtain ⟨xs, left⟩ := Option.ne_none_iff_exists'.mp left
    obtain ⟨ys, right⟩ := Option.ne_none_iff_exists'.mp right
    exact (apart ⟨xs, ys, record?_eq_some.mp left, record?_eq_some.mp right⟩).elim

/-- The merge of a pair of records and other expressions returns if the pair fits. -/
theorem mergeField_records_of_apart (shared : ys.get? l = some y)
    (apart : ¬∃ xs' ys', x = record xs' ∧ y = record ys') :
    (∃ z, Expr.mergeField ys l x = .ok z) ∧ Fits records x y ∨
      Expr.mergeField ys l x = .error (.recordMismatch l x y) ∧ Clash records x y := by
  simp only [Expr.mergeField, shared]
  by_cases fits : x.maybeRecord ∧ y.maybeRecord
  · rw [if_pos (Bool.and_eq_true_iff.mpr fits)]
    exact Or.inl ⟨exists_mergeRecords_of_apart apart, fits⟩
  · rw [if_neg (fun both => fits (Bool.and_eq_true_iff.mp both))]
    exact Or.inr ⟨rfl, fits⟩

/-- Two types that are not both record types are not both seen as one. -/
theorem recordType?_isSome_of_apart (apart : ¬∃ xs' ys', x = recordType xs' ∧ y = recordType ys') :
    ¬(x.recordType?.isSome && y.recordType?.isSome) = true := by
  intro both
  obtain ⟨left, right⟩ := Bool.and_eq_true_iff.mp both
  obtain ⟨xs', left⟩ := Option.isSome_iff_exists.mp left
  obtain ⟨ys', right⟩ := Option.isSome_iff_exists.mp right
  exact apart ⟨xs', ys', recordType?_eq_some.mp left, recordType?_eq_some.mp right⟩

/-- The merge of a pair of record types and other types returns if the pair fits. -/
theorem mergeField_recordTypes_of_apart (shared : ys.get? l = some y)
    (apart : ¬∃ xs' ys', x = recordType xs' ∧ y = recordType ys') :
    (∃ z, mergeFieldType ys l x = .ok z) ∧ Fits recordTypes x y ∨
      ∃ v, mergeFieldType ys l x = .error v ∧ Stops recordTypes l x y v := by
  simp only [mergeFieldType, shared, if_neg (recordType?_isSome_of_apart apart)]
  cases compared : x.alphaEquivalent y with
  | error v => exact Or.inr ⟨v, rfl, Or.inl compared⟩
  | ok same =>
    cases same with
    | true => exact Or.inl ⟨⟨x, rfl⟩, Or.inl compared⟩
    | false =>
      by_cases fits : x.maybeRecordType ∧ y.maybeRecordType
      · refine Or.inl ⟨⟨op .combineTypes x y, ?_⟩, Or.inr ⟨compared, fits⟩⟩
        exact if_pos (Bool.and_eq_true_iff.mpr fits)
      · refine Or.inr ⟨_, ?_, Or.inr ⟨⟨compared, fits⟩, rfl⟩⟩
        exact if_neg fun both => fits (Bool.and_eq_true_iff.mp both)

/-- The merge of a pair under a label returns if the pair fits, and else it stops. -/
theorem mergeField_of_apart (shared : ys.get? l = some y)
    (apart : ¬∃ xs' ys', x = k.literal xs' ∧ y = k.literal ys') :
    (∃ z, k.mergeField ys l x = .ok z) ∧ k.Fits x y ∨
      ∃ v, k.mergeField ys l x = .error v ∧ k.Stops l x y v := by
  cases k with
  | records =>
    rcases mergeField_records_of_apart shared apart with returns | ⟨stops, clash⟩
    · exact Or.inl returns
    · exact Or.inr ⟨_, stops, clash, rfl⟩
  | recordTypes => exact mergeField_recordTypes_of_apart shared apart

theorem Fits.not_stops (fits : k.Fits x y) : ¬k.Stops l x y v := by
  cases k with
  | records =>
    rintro ⟨clash, -⟩
    exact clash fits
  | recordTypes =>
    rintro (overflow | ⟨⟨apart, clash⟩, -⟩)
    · rcases fits with same | ⟨apart, -⟩
      · cases overflow.symm.trans same
      · cases overflow.symm.trans apart
    · rcases fits with same | ⟨-, fits⟩
      · cases apart.symm.trans same
      · exact clash fits

theorem Stops.unique {w : Violation} (h : k.Stops l x y v) (h' : k.Stops l x y w) : v = w := by
  cases k with
  | records => exact h.2.trans h'.2.symm
  | recordTypes =>
    rcases h with overflow | ⟨⟨apart, -⟩, rfl⟩
    · rcases h' with overflow' | ⟨⟨apart, -⟩, -⟩
      · exact Except.error.inj (overflow.symm.trans overflow')
      · cases overflow.symm.trans apart
    · rcases h' with overflow | ⟨-, rfl⟩
      · cases overflow.symm.trans apart
      · rfl

/-- A pair that does not fit is one at which the merge stops. -/
theorem mergeField_eq_error_iff (shared : ys.get? l = some y)
    (apart : ¬∃ xs' ys', x = k.literal xs' ∧ y = k.literal ys') :
    k.mergeField ys l x = .error v ↔ k.Stops l x y v := by
  rcases mergeField_of_apart shared apart with ⟨⟨z, returns⟩, fits⟩ | ⟨w, stops, why⟩
  · rw [returns]
    exact ⟨(nofun), fun why => (fits.not_stops why).elim⟩
  · rw [stops]
    constructor
    · intro same
      exact Except.error.inj same ▸ why
    · intro why'
      rw [why.unique why']

theorem exists_mergeField_iff (shared : ys.get? l = some y)
    (apart : ¬∃ xs' ys', x = k.literal xs' ∧ y = k.literal ys') :
    (∃ z, k.mergeField ys l x = .ok z) ↔ k.Fits x y := by
  rcases mergeField_of_apart shared apart with ⟨returns, fits⟩ | ⟨w, stops, why⟩
  · exact ⟨fun _ => fits, fun _ => returns⟩
  · rw [stops]
    exact ⟨fun ⟨_, same⟩ => (nomatch same), fun fits => (fits.not_stops why).elim⟩

/-! ### All fields -/

/-- To prove something about the fields of a literal, assume it of the fields of all literals
among them. -/
theorem fields_induction (k : Merging) {P : LabelMap Expr → Prop}
    (h : ∀ xs, (∀ l xs', xs.get? l = some (k.literal xs') → P xs') → P xs)
    (xs : LabelMap Expr) : P xs := by
  suffices all : ∀ e : Expr, ∀ xs, e = k.literal xs → P xs from all _ xs rfl
  intro e
  induction e using induction with
  | step n ih =>
    intro xs same
    refine h xs fun l xs' has => ih _ ?_ xs' rfl
    have member := Entries.mem_values_iff.mpr ⟨l, has⟩
    cases k with
    | records =>
      cases same
      rwa [Node.children_record]
    | recordTypes =>
      cases same
      rwa [Node.children_recordType]

/-- A merge returns if all pairs that it meets fit. -/
theorem exists_reduce_iff (k : Merging) (xs ys : LabelMap Expr) :
    (∃ z, k.operator.reduce (k.literal xs) (k.literal ys) = .ok z) ↔
      ∀ path x y, k.Meets xs ys path x y → k.Fits x y := by
  induction xs using fields_induction k generalizing ys with | h xs ih =>
  -- A merge is a traversal, so it returns if it does at each label.
  rw [reduce_literal]
  constructor
  · rintro ⟨z, returns⟩ path x y meets
    obtain ⟨merged, fields, -⟩ := map_eq_pure_iff.mp returns
    have each := Entries.traverse_eq_pure_iff.mp fields
    cases meets with
    | @here _ _ l _ _ left right apart =>
      have here := each l
      rw [left] at here
      obtain ⟨c, -, returns⟩ := exists_of_rel_some here
      exact (exists_mergeField_iff right apart).mp ⟨c, returns⟩
    | @deeper _ _ xs' ys' l path _ _ left right meets =>
      have here := each l
      rw [left] at here
      obtain ⟨c, -, returns⟩ := exists_of_rel_some here
      rw [mergeField_literal right] at returns
      exact (ih l xs' left ys').mp ⟨c, returns⟩ path x y meets
  · intro fit
    have each (l : Label) (x : Expr) (has : xs.get? l = some x) :
        ∃ z, k.mergeField ys l x = .ok z := by
      cases shared : ys.get? l with
      | none => exact ⟨x, mergeField_of_absent shared⟩
      | some y =>
        by_cases both : ∃ xs' ys', x = k.literal xs' ∧ y = k.literal ys'
        · obtain ⟨xs', ys', rfl, rfl⟩ := both
          rw [mergeField_literal shared]
          refine (ih l xs' has ys').mpr fun path x y meets => ?_
          exact fit (l :: path) x y (.deeper has shared meets)
        · exact (exists_mergeField_iff shared both).mpr (fit [l] x y (.here has shared both))
    obtain ⟨merged, fields⟩ := Entries.exists_traverse_eq_pure (m := Except Violation) each
    exact ⟨_, map_eq_pure_iff.mpr ⟨merged, fields, rfl⟩⟩

/-- One field is merged if all pairs that are met under its label fit. -/
theorem exists_mergeField_iff_meets (has : xs.get? l = some x) :
    (∃ z, k.mergeField ys l x = .ok z) ↔
      ∀ path a b, k.Meets xs ys (l :: path) a b → k.Fits a b := by
  cases shared : ys.get? l with
  | none =>
    refine ⟨fun _ path a b meets => ?_, fun _ => ⟨x, mergeField_of_absent shared⟩⟩
    cases meets with
    | here _ right _ | deeper _ right _ => cases shared.symm.trans right
  | some y =>
    -- Two literals are merged again, and any other two values are met right here.
    by_cases both : ∃ xs' ys', x = k.literal xs' ∧ y = k.literal ys'
    · obtain ⟨xs', ys', rfl, rfl⟩ := both
      rw [mergeField_literal shared, exists_reduce_iff]
      constructor
      · intro fit path a b meets
        cases meets with
        | here left right apart =>
          cases has.symm.trans left
          cases shared.symm.trans right
          exact (apart ⟨xs', ys', rfl, rfl⟩).elim
        | deeper left right meets =>
          obtain rfl := k.literal_injective (Option.some.inj (has.symm.trans left))
          obtain rfl := k.literal_injective (Option.some.inj (shared.symm.trans right))
          exact fit path a b meets
      · intro fit path a b meets
        exact fit path a b (.deeper has shared meets)
    · rw [exists_mergeField_iff shared both]
      constructor
      · intro fits path a b meets
        cases meets with
        | here left right _ =>
          cases has.symm.trans left
          cases shared.symm.trans right
          exact fits
        | deeper left right _ =>
          cases has.symm.trans left
          cases shared.symm.trans right
          exact (both ⟨_, _, rfl, rfl⟩).elim
      · intro fit
        exact fit [] x y (.here has shared both)

theorem Meets.exists_cons {a b : Expr} (h : k.Meets xs ys path a b) :
    ∃ l rest x, path = l :: rest ∧ xs.get? l = some x := by
  cases h with
  | here left _ _ | deeper left _ _ => exact ⟨_, _, _, rfl, left⟩

/-- The field at which a merge stops is the one with the least label of those that do not
return. -/
theorem reduce_eq_error_iff_field (k : Merging) (xs ys : LabelMap Expr) (v : Violation) :
    k.operator.reduce (k.literal xs) (k.literal ys) = .error v ↔
      ∃ l x, xs.get? l = some x ∧ k.mergeField ys l x = .error v ∧
        ∀ m, m < l → ∀ path a b, k.Meets xs ys (m :: path) a b → k.Fits a b := by
  have stop : k.operator.reduce (k.literal xs) (k.literal ys) = .error v ↔
      xs.traverse (k.mergeField ys) = .error v := by
    rw [reduce_literal]
    cases xs.traverse (k.mergeField ys) with
    | error w => exact ⟨fun same => by cases same; rfl, fun same => by cases same; rfl⟩
    | ok merged => exact ⟨nofun, nofun⟩
  refine stop.trans (Entries.traverse_eq_error_iff.trans ?_)
  refine exists_congr fun l => exists_congr fun x => and_congr_right fun _ =>
    and_congr_right fun _ => ?_
  constructor
  · intro earlier m before path a b meets
    obtain ⟨_, _, x, same, has⟩ := meets.exists_cons
    cases same
    exact (exists_mergeField_iff_meets has).mp (earlier m x has before) path a b meets
  · intro earlier m x has before
    exact (exists_mergeField_iff_meets has).mpr (earlier m before)

/-- A merge stops at the first pair that does not fit, where the labels that lead to two pairs
are compared one by one. -/
theorem reduce_eq_error_iff (k : Merging) (xs ys : LabelMap Expr) (v : Violation) :
    k.operator.reduce (k.literal xs) (k.literal ys) = .error v ↔
      ∃ path l x y, path.getLast? = some l ∧ k.Meets xs ys path x y ∧ k.Stops l x y v ∧
        ∀ path' a b, k.Meets xs ys path' a b → path' < path → k.Fits a b := by
  induction xs using fields_induction k generalizing ys with | h xs ih =>
  -- The induction is on the nesting of the first literal: the least label at which the merge
  -- stops comes first in the path, and the path of the nested merge follows.
  rw [reduce_eq_error_iff_field]
  constructor
  · rintro ⟨l, x, has, stops, earlier⟩
    cases shared : ys.get? l with
    | none =>
      rw [mergeField_of_absent shared] at stops
      cases stops
    | some y =>
      by_cases both : ∃ xs' ys', x = k.literal xs' ∧ y = k.literal ys'
      · obtain ⟨xs', ys', rfl, rfl⟩ := both
        rw [mergeField_literal shared] at stops
        obtain ⟨path, m, x, y, last, meets, why, earlier'⟩ := (ih l xs' has ys').mp stops
        refine ⟨l :: path, m, x, y, ?_, .deeper has shared meets, why, ?_⟩
        · rw [List.getLast?_cons, last]
          rfl
        · intro path' a b meets' before
          obtain ⟨_, _, -, rfl, -⟩ := meets'.exists_cons
          rcases List.cons_lt_cons_iff.mp before with less | ⟨rfl, later⟩
          · exact earlier _ less _ a b meets'
          · -- Under the same label the pairs of the nested merge are met.
            cases meets' with
            | here left right apart =>
              cases has.symm.trans left
              cases shared.symm.trans right
              exact (apart ⟨xs', ys', rfl, rfl⟩).elim
            | deeper left right meets' =>
              obtain rfl := k.literal_injective (Option.some.inj (has.symm.trans left))
              obtain rfl := k.literal_injective (Option.some.inj (shared.symm.trans right))
              exact earlier' _ a b meets' later
      · have why := (mergeField_eq_error_iff shared both).mp stops
        refine ⟨[l], l, x, y, rfl, .here has shared both, why, fun path' a b meets' before => ?_⟩
        obtain ⟨_, _, -, rfl, -⟩ := meets'.exists_cons
        rcases List.cons_lt_cons_iff.mp before with less | ⟨-, below⟩
        · exact earlier _ less _ a b meets'
        · exact (List.not_lt_nil _ below).elim
  · rintro ⟨path, l, x, y, last, meets, why, earlier⟩
    -- Pairs under smaller labels come before everything under the first label of the path.
    have first (m : Label) (path' : List Label) (same : path = m :: path') (n : Label)
        (before : n < m) (rest : List Label) (a b : Expr) (meets' : k.Meets xs ys (n :: rest) a b) :
        k.Fits a b := by
      refine earlier _ a b meets' ?_
      rw [same]
      exact List.cons_lt_cons_iff.mpr (Or.inl before)
    cases meets with
    | @here _ _ m _ _ left right apart =>
      obtain rfl := Option.some.inj last
      exact ⟨m, x, left, (mergeField_eq_error_iff right apart).mpr why, first m [] rfl⟩
    | @deeper _ _ xs' ys' m path _ _ left right meets =>
      refine ⟨m, k.literal xs', left, ?_, first m path rfl⟩
      rw [mergeField_literal right]
      obtain ⟨n, rest, -, rfl, -⟩ := meets.exists_cons
      refine (ih m xs' left ys').mpr ⟨n :: rest, l, x, y, last, meets, why, ?_⟩
      intro path' a b meets' before
      refine earlier (m :: path') a b (.deeper left right meets') ?_
      exact List.cons_lt_cons_iff.mpr (Or.inr ⟨rfl, before⟩)

/-! ### Clashes -/

theorem stops_of_clash (clash : k.Clash x y) (l : Label) : k.Stops l x y (k.mismatch l x y) := by
  cases k with
  | records => exact ⟨clash, rfl⟩
  | recordTypes => exact Or.inr ⟨clash, rfl⟩

/-- A pair that can be compared is one at which the merge stops because it clashes. -/
theorem Stops.mismatch_of_compares (h : k.Stops l x y v) (compares : k.Compares x y) :
    v = k.mismatch l x y := by
  cases k with
  | records => exact h.2
  | recordTypes =>
    rcases h with overflow | ⟨-, same⟩
    · obtain ⟨same, compared⟩ := compares
      cases overflow.symm.trans compared
    · exact same

/-- The pairs that a merge of normal forms meets are normal forms. -/
theorem Meets.settled (meets : k.Meets xs ys path x y) (left : Settled (k.literal xs))
    (right : Settled (k.literal ys)) : Settled x ∧ Settled y := by
  have field {xs : LabelMap Expr} {l : Label} {x : Expr} (h : Settled (k.literal xs))
      (has : xs.get? l = some x) : Settled x := by
    have member := Entries.mem_values_iff.mpr ⟨l, has⟩
    cases k with
    | records => exact settled_record.mp h x member
    | recordTypes => exact settled_recordType.mp h x member
  induction meets with
  | here inLeft inRight _ => exact ⟨field left inLeft, field right inRight⟩
  | deeper inLeft inRight _ ih => exact ih (field left inLeft) (field right inRight)

/-- A merge that reports a mismatch has met it: comparing types reports something else. -/
theorem Stops.clash_of_mismatch {m : Label} {a b : Expr} (h : k.Stops l x y (k.mismatch m a b))
    (settled : Settled x ∧ Settled y) : k.Clash x y ∧ m = l ∧ a = x ∧ b = y := by
  cases k with
  | records =>
    obtain ⟨clash, same⟩ := h
    cases same
    exact ⟨clash, rfl, rfl, rfl⟩
  | recordTypes =>
    rcases h with overflow | ⟨clash, same⟩
    · obtain ⟨z, same⟩ := (ensures_compared settled.1 settled.2).stopped overflow
      cases same
    · cases same
      exact ⟨clash, rfl, rfl, rfl⟩

/-- The merge of two literals reports a mismatch exactly if it meets a clash before anything
else that does not fit, and then it reports this clash. If there is a clash anywhere and all
types that are met can be compared, a mismatch is reported. -/
theorem aborts_mismatch (k : Merging) {A B xs ys : LabelMap Expr}
    (left : (k.literal A).Normalizes (k.literal xs))
    (right : (k.literal B).Normalizes (k.literal ys)) :
    (∀ l x y, (op k.operator (k.literal A) (k.literal B)).Aborts (k.mismatch l x y) ↔
      ∃ path, path.getLast? = some l ∧ k.FirstClash xs ys path x y) ∧
    ((∃ path x y, k.Meets xs ys path x y ∧ k.Clash x y) →
      (∀ path x y, k.Meets xs ys path x y → k.Compares x y) →
      ∃ l x y, (op k.operator (k.literal A) (k.literal B)).Aborts (k.mismatch l x y)) := by
  refine ⟨fun l x y => ?_, fun ⟨path, x, y, meets, clash⟩ compares => ?_⟩
  · rw [aborts_op_iff left right, reduce_eq_error_iff]
    constructor
    · rintro ⟨path, m, a, b, last, meets, stops, earlier⟩
      have settled := meets.settled (settled_of_normalizes left) (settled_of_normalizes right)
      obtain ⟨clash, rfl, rfl, rfl⟩ := stops.clash_of_mismatch settled
      exact ⟨path, last, meets, clash, earlier⟩
    · rintro ⟨path, last, meets, clash, earlier⟩
      exact ⟨path, l, x, y, last, meets, stops_of_clash clash l, earlier⟩
  -- Where the merge returns it meets no clash, and where it stops the types that are met compare,
  -- so it stops at a mismatch.
  · cases reduced : k.operator.reduce (k.literal xs) (k.literal ys) with
    | ok z =>
      have fits := (exists_reduce_iff k xs ys).mp ⟨z, reduced⟩ path x y meets
      exact (fits.not_stops (stops_of_clash clash "")).elim
    | error v =>
      obtain ⟨path', l, a, b, -, meets', stops, -⟩ := (reduce_eq_error_iff k xs ys v).mp reduced
      obtain rfl := stops.mismatch_of_compares (compares path' a b meets')
      exact ⟨l, a, b, (aborts_op_iff left right).mpr reduced⟩

/-- The clash of two records that is one level down is reported with its own label. -/
theorem aborts_mismatch_nested :
    let yes := bool true
    let left := record (.singleton "a" (record (.singleton "b" yes)))
    let right := record (.singleton "a" (record (.singleton "b" (record .nil))))
    left.Normalizes left ∧ right.Normalizes right ∧
      (op .combine left right).Aborts (.recordMismatch "b" yes (record .nil)) := by
  intro yes left right
  have normal : left.Normalizes left := ⟨4, rfl⟩
  have normal' : right.Normalizes right := ⟨4, rfl⟩
  have met : records.Meets (.singleton "a" (record (.singleton "b" yes)))
      (.singleton "a" (record (.singleton "b" (record .nil)))) [⟨"a"⟩, ⟨"b"⟩] yes
      (record .nil) := by
    refine .deeper rfl rfl (.here (l := "b") rfl rfl ?_)
    rintro ⟨_, _, literal, -⟩
    exact records.bool_ne_literal true _ literal
  have clash : records.Clash yes (record .nil) := fun both => nomatch both.1
  refine ⟨normal, normal', ((aborts_mismatch records normal normal').1 "b" _ _).mpr ?_⟩
  refine ⟨_, rfl, met, clash, fun path x y meets before => ?_⟩
  -- There is no other pair, and this one is not before itself.
  exfalso
  cases meets with
  | here inLeft inRight apart =>
    obtain ⟨-, rfl⟩ := LabelMap.get?_singleton_eq_some.mp inLeft
    obtain ⟨-, rfl⟩ := LabelMap.get?_singleton_eq_some.mp inRight
    exact apart ⟨_, _, rfl, rfl⟩
  | deeper inLeft inRight meets =>
    obtain ⟨rfl, literal⟩ := LabelMap.get?_singleton_eq_some.mp inLeft
    obtain rfl := records.literal_injective literal
    cases meets with
    | here inLeft _ _ =>
      obtain ⟨rfl, -⟩ := LabelMap.get?_singleton_eq_some.mp inLeft
      simp [List.cons_lt_cons_iff, Label.lt_irrefl] at before
    | deeper inLeft _ _ =>
      obtain ⟨-, literal⟩ := LabelMap.get?_singleton_eq_some.mp inLeft
      exact records.bool_ne_literal true _ literal

/-- Two record types and two records, all without free variables, with fields that do not agree
and that are no literals. The types `List Natural` and `List Bool` are left as an operation,
and an empty record disappears in an optional value that is none. -/
theorem normalizes_of_mismatched_fields :
    let naturals := app (builtin .list) (builtin .natural)
    let bools := app (builtin .list) (builtin .bool)
    let absent := app (builtin .optionalNone) (builtin .natural)
    let S := recordType (.singleton "a" naturals)
    let T := recordType (.singleton "a" bools)
    let r := record (.singleton "a" absent)
    let s := record (.singleton "a" (record .nil))
    (∀ v, ¬S.HasFree v ∧ ¬T.HasFree v ∧ ¬r.HasFree v ∧ ¬s.HasFree v) ∧
      (S.Normalizes S ∧ T.Normalizes T ∧ naturals.alphaEquivalent bools = .ok false ∧
        (op .combineTypes S T).Normalizes
          (recordType (.singleton "a" (op .combineTypes naturals bools))) ∧
        ∀ v, ¬(op .combineTypes S T).Aborts v) ∧
      r.Normalizes r ∧ s.Normalizes s ∧ (op .combine r s).Normalizes r ∧
        ∀ v, ¬(op .combine r s).Aborts v := by
  intro naturals bools absent S T r s
  have types : S.Normalizes S ∧ T.Normalizes T := ⟨⟨5, rfl⟩, ⟨5, rfl⟩⟩
  have values : r.Normalizes r ∧ s.Normalizes s := ⟨⟨5, rfl⟩, ⟨5, rfl⟩⟩
  have different : naturals.alphaEquivalent bools = .ok false := rfl
  have left : (op .combineTypes S T).Normalizes
      (recordType (.singleton "a" (op .combineTypes naturals bools))) := by
    refine normalizes_op_iff.mpr ⟨S, T, types.1, types.2, ?_⟩
    refine (mergeRecordTypes_recordType _ _).trans ?_
    -- Two applications are no record types, so the operation is kept between them.
    have field :
        (LabelMap.singleton "a" naturals).traverse (mergeFieldType (.singleton "a" bools)) =
        .ok (LabelMap.singleton "a" (op .combineTypes naturals bools)) := rfl
    rw [field]
    exact congrArg (fun fields => Except.ok (recordType fields)) (LabelMap.union_singleton _ _ _)
  -- The empty record is the neutral operand, so the field keeps the value that is none.
  have merged : (op .combine r s).Normalizes r := by
    refine normalizes_op_iff.mpr ⟨r, s, values.1, values.2, ?_⟩
    refine (mergeRecords_record _ _).trans ?_
    have field : (LabelMap.singleton "a" absent).traverse
        (Expr.mergeField (.singleton "a" (record .nil))) =
          .ok (LabelMap.singleton "a" absent) := rfl
    rw [field]
    exact congrArg (fun fields => Except.ok (record fields)) (LabelMap.union_singleton _ _ _)
  have closed (v : Variable) : ¬S.HasFree v ∧ ¬T.HasFree v ∧ ¬r.HasFree v ∧ ¬s.HasFree v := by
    simp [HasFree, S, T, r, s, naturals, bools, absent, LabelMap.singleton, resolved_mk,
      Term.hasFree_construct, Node.scopedChildren, Entries.values, Entries.toList]
  exact ⟨closed, ⟨types.1, types.2, different, left, fun _ => left.not_aborts⟩, values.1, values.2,
    merged, fun _ => merged.not_aborts⟩

end Merging

end Dhall
