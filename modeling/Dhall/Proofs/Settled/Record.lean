/-
# Fields, projections and maps of settled records

Selecting from a merge returns a value of a record, or cuts a record of the merge down to
the one field that is asked for. What is cut down still differs from the other operand,
because that is no record.

## Main results

* `Expr.settled_select` — fields of settled expressions are settled
* `Expr.settled_selectAll`, `Expr.settled_selectByType` — so are projections
* `Expr.settled_toEntries` — so are records as maps
-/

import Dhall.Proofs.AlphaEquivalence
import Dhall.Proofs.Settled.Operator

namespace Dhall

namespace Expr

variable {e x y type r : Expr} {l : Label}

/-- A record differs from what is no record also if it is cut down to one field. -/
theorem alphaEquivalent_singleton {fields : LabelMap Expr} {value : Expr}
    (unknown : y.record? = none) (differ : (record fields).alphaEquivalent y = .ok false)
    (has : fields.get? l = some value) :
    (record (.singleton l value)).alphaEquivalent y = .ok false := by
  have other (fields : LabelMap Expr) : record fields ≠ y := by
    rintro rfl
    exact nomatch unknown
  unfold alphaEquivalent at differ
  rw [if_neg (other _)] at differ
  obtain ⟨whole, image, differ⟩ := bind_eq_pure_iff.mp differ
  obtain ⟨y', right, _⟩ := bind_eq_pure_iff.mp differ
  obtain ⟨value', part⟩ : ∃ value', value.alphaNormal = .ok value' := by
    rw [alphaNormal_mk, alphaNormalStep_plain rfl] at image
    obtain ⟨n', traversed, _⟩ := map_eq_pure_iff.mp image
    have similar := Node.traverse_eq_pure_iff.mp traversed
    have member : value ∈ (Node.record fields).children := by
      simpa [Node.children, Node.scopedChildren] using Entries.mem_values_iff.mpr ⟨l, has⟩
    obtain ⟨p, _, part⟩ := similar.symm.exists_of_mem member
    exact ⟨p.2, part⟩
  have left : (record (.singleton l value)).alphaNormal = .ok (record (.singleton l value')) := by
    rw [alphaNormal_mk, alphaNormalStep_plain rfl]
    simp [Node.traverse, LabelMap.singleton, Entries.traverse, part]
  have compared : (record (.singleton l value)).alphaEquivalent y =
      .ok (decide (record (.singleton l value') = y')) := by
    unfold alphaEquivalent
    rw [if_neg (other _), left, right]
    rfl
  rw [compared]
  -- Were the two equal up to names, then the second one would be a record as well.
  refine congrArg _ (Bool.eq_false_iff.mpr fun same => ?_)
  rw [same] at compared
  obtain ⟨fields', isRecord⟩ :=
    eq_record_of_nameless ((alphaEquivalent_eq_ok compared []).mp rfl).symm
  exact other _ isRecord.symm

theorem onlyField_of_none (unknown : e.record? = none) : e.OnlyField l :=
  fun _ known => nomatch unknown.symm.trans known

theorem onlyField_singleton (value : Expr) : (record (.singleton l value)).OnlyField l := by
  rintro fields ⟨⟩
  exact ⟨value, rfl⟩

/-- A record that is cut down to one field is not empty. -/
theorem record?_singleton_ne (l : Label) (value : Expr) :
    (record (.singleton l value)).record? ≠ some .nil := by
  rintro ⟨⟩

theorem settled_singleton (l : Label) {value : Expr} :
    Settled (record (.singleton l value)) ↔ Settled value := by
  rw [settled_record]
  exact List.forall_mem_singleton

/-- The value of a field of a settled record is settled. -/
theorem Settled.value {fields : LabelMap Expr} {value : Expr} (h : Settled (record fields))
    (has : fields.get? l = some value) : Settled value :=
  settled_record.mp h value (Entries.mem_values_iff.mpr ⟨l, has⟩)

/-- A field of a settled expression is settled. -/
theorem settled_select (h : Settled e) : Settled (e.select l) := by
  -- A field that a literal has is returned, or the literal is cut down to it; otherwise the
  -- question passes to the other operand.
  induction e using select.induct l with
  | case1 fields value has =>
    simp only [select, has]
    exact h.value has
  | case2 fields absent =>
    simp only [select, absent]
    exact settled_field.mpr ⟨absent, h⟩
  | case3 e labels ih => exact ih (settled_project.mp h).2
  | case4 e type ih => exact ih (settled_projectType.mp h).2.1
  | case5 x y ys known value has =>
    simp only [select, known, has]
    rw [record?_eq_some] at known
    exact (known ▸ (settled_op.mp h).2.2).value has
  | case6 x y ys known absent ih =>
    simp only [select, known, absent]
    exact ih (settled_op.mp h).2.1
  | case7 x y xs unknown known value has =>
    simp only [select, unknown, known, has]
    rw [record?_eq_some] at known
    subst known
    obtain ⟨⟨_, _, _, differ⟩, hx, hy⟩ := settled_op.mp h
    have singleton := (settled_singleton l).mpr (hx.value has)
    refine settled_field.mpr ⟨⟨unknown, onlyField_singleton value⟩,
      settled_op.mpr ⟨⟨record?_singleton_ne l value, ?_, Or.inr unknown, ?_⟩, singleton, hy⟩⟩
    · rw [unknown]
      exact (Option.some_ne_none _).symm
    · exact alphaEquivalent_singleton unknown differ has
  | case8 x y xs unknown known absent ih =>
    simp only [select, unknown, known, absent]
    exact ih (settled_op.mp h).2.2
  | case9 x y right left =>
    simp only [select, right, left]
    exact settled_field.mpr ⟨⟨right, onlyField_of_none left⟩, h⟩
  | case10 x y xs known value has =>
    simp only [select, known, has]
    rw [record?_eq_some] at known
    subst known
    obtain ⟨⟨_, filled, one⟩, hx, hy⟩ := settled_op.mp h
    have unknown : y.record? = none := one.resolve_left (Option.some_ne_none xs)
    have singleton := (settled_singleton l).mpr (hx.value has)
    exact settled_field.mpr ⟨⟨onlyField_singleton value, onlyField_of_none unknown⟩,
      settled_op.mpr ⟨⟨record?_singleton_ne l value, filled, Or.inr unknown⟩, singleton, hy⟩⟩
  | case11 x y xs known absent ih =>
    simp only [select, known, absent]
    exact ih (settled_op.mp h).2.2
  | case12 x y ys known unknown value has =>
    simp only [select, unknown, known, has]
    rw [record?_eq_some] at known
    subst known
    obtain ⟨⟨filled, _, _⟩, hx, hy⟩ := settled_op.mp h
    have singleton := (settled_singleton l).mpr (hy.value has)
    exact settled_field.mpr ⟨⟨onlyField_of_none unknown, onlyField_singleton value⟩,
      settled_op.mpr ⟨⟨filled, record?_singleton_ne l value, Or.inl unknown⟩, hx, singleton⟩⟩
  | case13 x y ys known unknown absent ih =>
    simp only [select, unknown, known, absent]
    exact ih (settled_op.mp h).2.1
  | case14 x y right left =>
    simp only [select, right, left]
    exact settled_field.mpr ⟨⟨onlyField_of_none left, onlyField_of_none right⟩, h⟩
  | case15 e notRecord notProject notProjectType notPrefer notCombine =>
    have stuck : e.FieldStuck l := by
      unfold FieldStuck
      split
      · exact (notRecord _ rfl).elim
      · exact (notProject _ _ rfl).elim
      · exact (notProjectType _ _ rfl).elim
      · exact (notPrefer _ _ rfl).elim
      · exact (notCombine _ _ rfl).elim
      · trivial
    rw [select_eq_field notRecord notProject notProjectType notPrefer notCombine]
    exact settled_field.mpr ⟨stuck, h⟩

/-- A projection of a settled expression is settled. -/
theorem settled_selectAll {labels : LabelSet} (h : Settled e)
    (selected : e.selectAll labels = .ok r) : Settled r := by
  induction e, labels using selectAll.induct generalizing r with
  | case1 e =>
    cases (selectAll_nil e).symm.trans selected
    exact settled_record.mpr nofun
  | case2 fields labels some =>
    rw [selectAll] at selected
    · cases selected
      exact settled_record.mpr (Entries.forall_values_restrict (settled_record.mp h))
    · exact some
  | case3 e inner labels some ih =>
    rw [selectAll] at selected
    · exact ih (settled_project.mp h).2 selected
    · exact some
  -- The projection goes on in the left operand, and the fields of the right one take precedence.
  | case4 x y labels some fields known ih =>
    rw [selectAll] at selected
    · simp only [known] at selected
      obtain ⟨left, selectedLeft, selected⟩ := bind_eq_pure_iff.mp selected
      rw [record?_eq_some] at known
      subst known
      refine Operator.settled_reducePrefer (ih (settled_op.mp h).2.1 selectedLeft) ?_ selected
      exact settled_record.mpr
        (Entries.forall_values_restrict (settled_record.mp (settled_op.mp h).2.2))
    · exact some
  | case5 x y labels some unknown =>
    rw [selectAll] at selected
    · simp only [unknown] at selected
      cases selected
      exact settled_project.mpr ⟨⟨some, unknown⟩, h⟩
    · exact some
  | case6 e labels some notRecord notProject notPrefer =>
    -- No rule takes the operand apart, so it is one that a projection is left at.
    have stuck : e.ProjectStuck := by
      unfold ProjectStuck
      split
      · exact (notRecord _ rfl).elim
      · exact (notProject _ _ rfl).elim
      · exact (notPrefer _ _ rfl).elim
      · trivial
    rw [selectAll_eq_project some notRecord notProject notPrefer] at selected
    cases selected
    exact settled_project.mpr ⟨⟨some, stuck⟩, h⟩

/-- A projection by a settled type is settled. -/
theorem settled_selectByType (h : Settled e) (ht : Settled type)
    (selected : e.selectByType type = .ok r) : Settled r := by
  unfold selectByType at selected
  split at selected
  · exact settled_selectAll h selected
  · next unknown =>
    cases selected
    exact settled_projectType.mpr ⟨unknown, h, ht⟩

/-- The entries of a settled record are a settled list. -/
theorem settled_toEntries {type : Option Expr} (h : Settled e) (types : ∀ t ∈ type, Settled t) :
    Settled (e.toEntries type) := by
  unfold toEntries
  split
  · exact settled_emptyList.mpr (types _ rfl)
  · next known =>
    refine settled_toMap.mpr ⟨fun fields same => ?_, h, types⟩
    exact ⟨Option.some.inj (same.symm.trans known), rfl⟩
  · next fields known _ _ =>
    rw [record?_eq_some] at known
    subst known
    refine settled_list.mpr fun entry member => ?_
    obtain ⟨⟨l, value⟩, inside, rfl⟩ := List.mem_map.mp member
    have value := settled_record.mp h value (List.mem_map_of_mem inside)
    refine settled_record.mpr (LabelMap.forall_values_ofList ?_)
    exact List.forall_mem_cons.mpr ⟨settled_plainText l.name, List.forall_mem_singleton.mpr value⟩
  · next unknown =>
    exact settled_toMap.mpr ⟨fun fields known => (nomatch unknown.symm.trans known), h, types⟩

end Expr

end Dhall
