/-
# Shifts that are undone

A shift up moves indices away from the cutoff, so none of those that it moves comes to lie
below the cutoff, and none of those below it is moved. A shift down by as much therefore finds
above the cutoff what the shift up has moved, and nothing else. Under binders the cutoff rises
in the same way in both directions.

So only the way up can fail: an index that has been moved up can always be moved back.

## Main results

* `Expr.shift_mk_eq_ok_iff` — what a shift returns at a construct
* `Expr.shift_neg_eq_ok` — a shift down undoes a shift up
-/

import Dhall.Proofs.Substitution

namespace Dhall

namespace Variable

variable {v v' cutoff : Variable} {delta : Int64}

/-- A shift down has the amount of the shift up, and it is not the one that is refused. -/
theorem toInt_neg_of_nonneg (upwards : 0 ≤ delta.toInt) :
    -delta ≠ Int64.minValue ∧ (-delta).toInt = -delta.toInt := by
  have bound := delta.toInt_lt
  have negated : (-delta).toInt = -delta.toInt := by
    rw [Int64.toInt_neg]
    exact Int.bmod_eq_of_le (by omega) (by omega)
  refine ⟨fun refused => ?_, negated⟩
  -- The magnitude of the least shift is greater than every shift up.
  have magnitude : Int64.minValue.toInt = -2 ^ 63 := by decide
  rw [refused, magnitude] at negated
  omega

/-- A variable that has been moved up is above the cutoff still, and it can be moved back. -/
theorem shift_back_eq_ok (upwards : 0 ≤ delta.toInt) (h : v.shift delta cutoff = .ok v') :
    v'.shift (-delta) cutoff = .ok v := by
  obtain ⟨notLeast, negated⟩ := toInt_neg_of_nonneg upwards
  rw [shift_eq_ok_iff] at h ⊢
  by_cases above : v.movedAt cutoff = true
  · rw [if_pos above] at h
    obtain ⟨-, label, sum⟩ := h
    rw [movedAt_iff] at above
    have still : v'.movedAt cutoff = true :=
      movedAt_iff.mpr ⟨label.trans above.1, by omega⟩
    rw [if_pos still]
    exact ⟨notLeast, label.symm, by omega⟩
  · rw [if_neg above] at h
    rw [h, if_neg above]

/-- A variable that is not at the cutoff can be moved up again after it has been moved down. -/
theorem shift_up_of_shift_back (elsewhere : v.label = cutoff.label →
    v.index.toNat ≠ cutoff.index.toNat) (h : v.shift (-1) cutoff = .ok v') :
    v'.shift 1 cutoff = .ok v := by
  have down : (-1 : Int64).toInt = -1 := rfl
  have up : (1 : Int64).toInt = 1 := rfl
  rw [shift_eq_ok_iff] at h ⊢
  by_cases above : v.movedAt cutoff = true
  · rw [if_pos above, down] at h
    obtain ⟨-, label, sum⟩ := h
    rw [movedAt_iff] at above
    have different := elsewhere above.1
    have still : v'.movedAt cutoff = true :=
      movedAt_iff.mpr ⟨label.trans above.1, by omega⟩
    rw [if_pos still, up]
    exact ⟨by decide, label.symm, by omega⟩
  · rw [if_neg above] at h
    rw [h, if_neg above]

/-- No variable is at the cutoff after room has been made there. -/
theorem ne_of_shift_up (h : v.shift 1 cutoff = .ok v') :
    ¬(v'.label = cutoff.label ∧ v'.index.toNat = cutoff.index.toNat) := by
  have up : (1 : Int64).toInt = 1 := rfl
  rintro ⟨label, index⟩
  rw [shift_eq_ok_iff] at h
  by_cases above : v.movedAt cutoff = true
  · rw [if_pos above, up] at h
    rw [movedAt_iff] at above
    omega
  · rw [if_neg above] at h
    rw [← h, movedAt_iff] at above
    exact above ⟨label, Nat.le_of_eq index.symm⟩

end Variable

namespace Expr

variable {e e' : Expr} {cutoff : Variable} {delta : Int64}

/-- A shift of a construct returns the construct of the shifted children. -/
theorem shift_mk_eq_ok_iff {n n' : Node Expr} (notVar : ∀ v, n ≠ .var v) :
    (mk n).shift delta cutoff = .ok (mk n') ↔
      n.Similar (fun inner c c' => ∃ cutoff',
        cutoff.underAll inner = .ok cutoff' ∧ c.shift delta cutoff' = .ok c') n' := by
  constructor
  · intro h
    obtain ⟨_, same, similar⟩ := shift_mk_eq_ok notVar h
    exact mk.inj same ▸ similar
  · intro similar
    rw [shift_mk notVar]
    refine map_eq_pure_iff.mpr ⟨n', Node.traverse_eq_pure_iff.mpr ?_, rfl⟩
    exact similar.imp fun _ _ _ shifted => bind_eq_pure_iff.mpr shifted

/-- A shift that every variable is taken back by takes every expression back. -/
theorem shift_inverse {there back : Int64}
    (inverse : ∀ v v' cutoff : Variable,
      v.shift there cutoff = .ok v' → v'.shift back cutoff = .ok v)
    (h : e.shift there cutoff = .ok e') : e'.shift back cutoff = .ok e := by
  -- The cutoff is any variable, since it is another one under binders.
  induction e using variableInduction generalizing e' cutoff with
  | var v =>
    rw [shift_var] at h
    obtain ⟨v', shifted, rfl⟩ := map_eq_pure_iff.mp h
    rw [shift_var, inverse v v' cutoff shifted]
    rfl
  | node n notVar ih =>
    obtain ⟨n', rfl, similar⟩ := shift_mk_eq_ok notVar h
    refine (shift_mk_eq_ok_iff (Node.ne_var_of_shape similar.shape_eq notVar)).mpr ?_
    -- Each child is shifted back at the cutoff at which it has been shifted.
    refine (similar.imp fun p member c' => ?_).symm
    rintro ⟨cutoff', under, shifted⟩
    exact ⟨cutoff', under, ih p member shifted⟩

/-- What a shift up returns can be shifted down by as much at the same cutoff, and this gives the
expression back. -/
theorem shift_neg_eq_ok (upwards : 0 ≤ delta.toInt) (h : e.shift delta cutoff = .ok e') :
    e'.shift (-delta) cutoff = .ok e :=
  shift_inverse (fun _ _ _ => Variable.shift_back_eq_ok upwards) h

/-- Occurrences below and above the cutoff, under definitions that raise it, one of them with the
greatest index but two. -/
theorem shift_neg_eq_ok_shadowed :
    let x (n : UInt64) := var ⟨"x", n⟩
    let e (n : UInt64) := letIn [⟨"x", some (x 0), x n⟩, ⟨"y", none, x 1⟩] (app (x 0) (x (n + 1)))
    let big : UInt64 := .ofNat (UInt64.size - 4)
    (e 1).shift 2 ⟨"x", 1⟩ = .ok (e 3) ∧ (e 3).shift (-2) ⟨"x", 1⟩ = .ok (e 1) ∧
      ∃ e', (e big).shift 2 ⟨"x", 1⟩ = .ok e' ∧ e'.shift (-2) ⟨"x", 1⟩ = .ok (e big) := by
  intro x e big
  have shifted : (e 1).shift 2 ⟨"x", 1⟩ = .ok (e 3) := rfl
  exact ⟨shifted, shift_neg_eq_ok (by decide) shifted, _, rfl, shift_neg_eq_ok (by decide) rfl⟩

end Expr

end Dhall
