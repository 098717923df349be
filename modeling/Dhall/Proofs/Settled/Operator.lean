/-
# Operators on settled operands

Each rule of an operator returns an operand, a literal or a merge of the operands, or it
has found why no rule applies. Merged records take their fields from the operands, and
fields that cannot be merged yet are kept as a merge that is stuck.

## Main results

* `Expr.settled_mergeRecords`, `Expr.settled_mergeRecordTypes` — recursive merges return
  settled expressions
* `Operator.settled_reduce` — so do all operators
-/

import Dhall.Proofs.Merge
import Dhall.Proofs.Settled

namespace Dhall

namespace Expr

variable {e x y : Expr}

/-! ### Recursive merges -/

/-- Merging settled records returns a settled expression. -/
theorem settled_mergeRecords (hx : Settled x) (hy : Settled y) {r : Expr}
    (h : mergeRecords x y = .ok r) : Settled r := by
  induction x, y using mergeRecords_induction generalizing r with
  | unknown x y unknown =>
    rw [mergeRecords_of_unknown unknown] at h
    cases h
    split
    · exact hy
    · next left =>
      split
      · exact hx
      · next right => exact settled_op.mpr ⟨⟨left, right, unknown⟩, hx, hy⟩
  | records xs ys ih =>
    rw [mergeRecords_record] at h
    obtain ⟨merged, fields, rfl⟩ := map_eq_pure_iff.mp h
    rw [settled_record] at hx hy ⊢
    refine LabelMap.forall_values_union hy fun value member => ?_
    obtain ⟨l, x, has, returned⟩ := Entries.exists_of_mem_values_traverse fields member
    have here := hx x (Entries.mem_values_iff.mpr ⟨l, has⟩)
    obtain ⟨-, rfl⟩ | ⟨y, has', -, merges⟩ := mergeField_eq_ok_iff.mp returned
    · exact here
    · exact ih l x y has has' here (hy y (Entries.mem_values_iff.mpr ⟨l, has'⟩)) merges

/-- Merging settled record types returns a settled expression. -/
theorem settled_mergeRecordTypes (hx : Settled x) (hy : Settled y) {r : Expr}
    (h : mergeRecordTypes x y = .ok r) : Settled r := by
  induction x, y using mergeRecordTypes_induction generalizing r with
  | unknown x y unknown =>
    rw [mergeRecordTypes_of_unknown unknown] at h
    cases h
    split
    · exact hy
    · split
      · exact hx
      · exact settled_op.mpr ⟨unknown, hx, hy⟩
  | recordTypes xs ys ih =>
    rw [mergeRecordTypes_recordType] at h
    obtain ⟨merged, fields, rfl⟩ := map_eq_pure_iff.mp h
    rw [settled_recordType] at hx hy ⊢
    refine LabelMap.forall_values_union hy fun type member => ?_
    obtain ⟨l, x, has, returned⟩ := Entries.exists_of_mem_values_traverse fields member
    have here := hx x (Entries.mem_values_iff.mpr ⟨l, has⟩)
    unfold mergeFieldType at returned
    split at returned
    · cases returned
      exact here
    · next y has' =>
      have there := hy y (Entries.mem_values_iff.mpr ⟨l, has'⟩)
      split at returned
      · exact ih l x y has has' here there returned
      · next unknown =>
        obtain ⟨same, -, returned⟩ := bind_eq_pure_iff.mp returned
        split at returned
        · cases returned
          exact here
        · split at returned
          · cases returned
            -- The merge is kept as it is: it is stuck, even where an operand is empty.
            refine settled_op.mpr ⟨?_, here, there⟩
            simpa [Operator.Stuck, imp_iff_not_or] using unknown
          · cases returned

end Expr

/-! ### Operators -/

namespace Operator

open Dhall.Expr

variable {x y r : Expr}

/-- Of two views of which not both are known, one is unknown. -/
theorem eq_none_or_eq_none {α β : Type} {a? : Option α} {b? : Option β}
    (h : ∀ a b, a? = some a → b? = some b → False) : a? = none ∨ b? = none := by
  cases a? with
  | none => exact Or.inl rfl
  | some a =>
    cases b? with
    | none => exact Or.inr rfl
    | some b => exact (h a b rfl rfl).elim

/-- A rule for operands that agree either applies or finds that they do not agree. -/
theorem of_alphaEquivalent {agreed stuck : Expr}
    (h : (do pure (if ← x.alphaEquivalent y then agreed else stuck)) = Except.ok r) :
    r = agreed ∨ x.alphaEquivalent y = .ok false ∧ r = stuck := by
  obtain ⟨same, compared, h⟩ := bind_eq_pure_iff.mp h
  cases h
  cases same with
  | true => exact Or.inl rfl
  | false => exact Or.inr ⟨compared, rfl⟩

/-- A rule for operands that agree returns a settled expression, if what it returns for them
is settled, and if no other rule applies to operands that do not agree. -/
theorem settled_agreed {o : Operator} {agreed : Expr} (hx : Settled x) (hy : Settled y)
    (h : (do pure (if ← x.alphaEquivalent y then agreed else op o x y)) = Except.ok r)
    (ha : Settled agreed) (stuck : x.alphaEquivalent y = .ok false → o.Stuck x y) :
    Settled r := by
  rcases of_alphaEquivalent h with rfl | ⟨differ, rfl⟩
  · exact ha
  · exact settled_op.mpr ⟨stuck differ, hx, hy⟩

theorem settled_reduceAnd (hx : Settled x) (hy : Settled y) (h : reduceAnd x y = .ok r) :
    Settled r := by
  unfold reduceAnd at h
  split at h
  · cases h
    exact hy
  · cases h
    exact hx
  · cases h
    exact settled_bool false
  · cases h
    exact settled_bool false
  · next left right => exact settled_agreed hx hy h hx fun differ => ⟨left, right, differ⟩

theorem settled_reduceOr (hx : Settled x) (hy : Settled y) (h : reduceOr x y = .ok r) :
    Settled r := by
  unfold reduceOr at h
  split at h
  · cases h
    exact settled_bool true
  · cases h
    exact settled_bool true
  · cases h
    exact hy
  · cases h
    exact hx
  · next left right => exact settled_agreed hx hy h hx fun differ => ⟨left, right, differ⟩

theorem settled_reduceEqual (hx : Settled x) (hy : Settled y) (h : reduceEqual x y = .ok r) :
    Settled r := by
  unfold reduceEqual at h
  split at h
  · cases h
    exact hy
  · cases h
    exact hx
  · cases h
    exact settled_bool _
  · next left right unknown =>
    exact settled_agreed hx hy h (settled_bool true)
      fun differ => ⟨left, right, eq_none_or_eq_none unknown, differ⟩

theorem settled_reduceNotEqual (hx : Settled x) (hy : Settled y)
    (h : reduceNotEqual x y = .ok r) : Settled r := by
  unfold reduceNotEqual at h
  split at h
  · cases h
    exact hy
  · cases h
    exact hx
  · cases h
    exact settled_bool _
  · next left right unknown =>
    exact settled_agreed hx hy h (settled_bool false)
      fun differ => ⟨left, right, eq_none_or_eq_none unknown, differ⟩

theorem settled_reducePlus (hx : Settled x) (hy : Settled y) : Settled (reducePlus x y) := by
  rcases reducePlus_cases x y with ⟨-, same⟩ | ⟨-, same⟩ | ⟨m, n, -, -, -, same⟩ | ⟨stuck, same⟩
  all_goals rw [same]
  · exact hy
  · exact hx
  · exact settled_natural _
  · exact settled_op.mpr ⟨stuck, hx, hy⟩

theorem settled_reduceTimes (hx : Settled x) (hy : Settled y) : Settled (reduceTimes x y) := by
  rcases reduceTimes_cases x y with
    ⟨-, same⟩ | ⟨-, same⟩ | ⟨-, same⟩ | ⟨m, n, -, -, -, same⟩ | ⟨stuck, same⟩
  all_goals rw [same]
  · exact settled_natural 0
  · exact hy
  · exact hx
  · exact settled_natural _
  · exact settled_op.mpr ⟨stuck, hx, hy⟩

theorem settled_reduceTextAppend (hx : Settled x) (hy : Settled y) :
    Settled (reduceTextAppend x y) := by
  refine settled_ofPieces fun e member => ?_
  rcases List.mem_pair.mp member with same | same
  · cases same
    exact hx
  · cases same
    exact hy

theorem settled_reduceListAppend (hx : Settled x) (hy : Settled y) :
    Settled (reduceListAppend x y) := by
  unfold reduceListAppend
  split
  · exact hy
  · exact hx
  · next xs ys =>
    rw [settled_list] at hx hy ⊢
    exact List.forall_mem_append.mpr ⟨hx, hy⟩
  · next left right unknown =>
    exact settled_op.mpr ⟨⟨left, right, fun xs ys isX isY => unknown xs ys isX isY⟩, hx, hy⟩

theorem settled_reducePrefer (hx : Settled x) (hy : Settled y) (h : reducePrefer x y = .ok r) :
    Settled r := by
  unfold reducePrefer at h
  split at h
  · cases h
    exact hx
  · cases h
    exact hy
  · next xs ys left right =>
    cases h
    rw [record?_eq_some] at left right
    subst left right
    rw [settled_record] at hx hy ⊢
    exact LabelMap.forall_values_union hx hy
  · next left right unknown =>
    exact settled_agreed hx hy h hy
      fun differ => ⟨left, right, eq_none_or_eq_none unknown, differ⟩

/-- On settled operands an operator returns a settled expression, if it returns. -/
theorem settled_reduce {o : Operator} (hx : Settled x) (hy : Settled y)
    (h : o.reduce x y = .ok r) : Settled r := by
  cases o with
  | and => exact settled_reduceAnd hx hy h
  | or => exact settled_reduceOr hx hy h
  | equal => exact settled_reduceEqual hx hy h
  | notEqual => exact settled_reduceNotEqual hx hy h
  | plus => exact Except.ok.inj h ▸ settled_reducePlus hx hy
  | times => exact Except.ok.inj h ▸ settled_reduceTimes hx hy
  | textAppend => exact Except.ok.inj h ▸ settled_reduceTextAppend hx hy
  | listAppend => exact Except.ok.inj h ▸ settled_reduceListAppend hx hy
  | prefer => exact settled_reducePrefer hx hy h
  | combine => exact settled_mergeRecords hx hy h
  | combineTypes => exact settled_mergeRecordTypes hx hy h
  | equivalent | alternative => exact Except.ok.inj h ▸ settled_op.mpr ⟨trivial, hx, hy⟩

end Operator

end Dhall
