/-
# Shifts stop only where an index overflows

A shift up stops at a variable whose index is the greatest word, and at no other. A shift down
could stop at a variable of index zero, but the places where a binder is removed are such that
nothing refers to the binder: the value that takes its place has made room for it, and all of
its occurrences are replaced. What is left for a removal to stop at are the shifts up, of the
value and of the cutoffs that pass under binders.

## Main definitions

* `Violation.IsOverflow` — the violation of a greatest index that is moved up

## Main results

* `Expr.ensures_shift_up` — a shift up stops at an overflow only
* `Expr.ensures_shift_back` — so does a shift down to which nothing refers
* `Expr.ensures_instantiate`, `Expr.ensures_renameBound` — so do both ways to remove a binder
-/

import Dhall.Proofs.Outcome
import Dhall.Proofs.Renaming

namespace Dhall

/-- A variable with the greatest index is moved up by one. -/
def Violation.IsOverflow (v : Violation) : Prop :=
  ∃ x : Label, v = .negativeShift ⟨x, .ofNat (UInt64.size - 1)⟩ 1

open Violation

namespace Variable

variable {v cutoff : Variable}

/-- One more is no index only for the greatest index. -/
theorem eq_of_moveIndex?_eq_none {n : UInt64} (h : moveIndex? n 1 = none) :
    n = .ofNat (UInt64.size - 1) := by
  by_contra notGreatest
  have greatest : (UInt64.ofNat (UInt64.size - 1)).toNat = UInt64.size - 1 := rfl
  have smaller : n.toNat + 1 < UInt64.size := by
    have bound : n.toNat < UInt64.size := n.toNat_lt
    have different : n.toNat ≠ UInt64.size - 1 := fun same =>
      notGreatest (UInt64.toNat_inj.mp (same.trans greatest.symm))
    omega
  have moved : moveIndex? n 1 = some (UInt64.ofNat (n.toNat + 1)) := by
    refine moveIndex?_eq_some_iff.mpr ⟨by decide, ?_⟩
    rw [UInt64.toNat_ofNat_of_lt' smaller]
    rfl
  exact nomatch h.symm.trans moved

/-- A shift up of a variable stops at an overflow only. -/
theorem ensures_shift_up (v cutoff : Variable) :
    Ensures IsOverflow (v.shift 1 cutoff = .ok ·) (v.shift 1 cutoff) where
  returned := id
  stopped {violation} same := by
    unfold shift at same
    split at same
    · split at same
      · cases same
      · next refused =>
        cases same
        exact ⟨v.label, by rw [← eq_of_moveIndex?_eq_none refused]⟩
    · cases same

/-- So does moving a variable under binders. -/
theorem ensures_underAll (v : Variable) (binders : List Label) :
    Ensures IsOverflow (v.underAll binders = .ok ·) (v.underAll binders) := by
  have stops : Ensures IsOverflow (fun _ => True) (v.underAll binders) := by
    induction binders generalizing v with
    | nil => exact ensures_pure .intro
    | cons x binders ih => exact (ensures_shift_up v (nearest x)).bind fun v' _ => ih v'
  exact stops.of_returned

/-- A variable that is not at the cutoff is moved down if it is moved. -/
theorem shift_back_returns (h : v.label = cutoff.label → v.index.toNat ≠ cutoff.index.toNat) :
    ∃ v', v.shift (-1) cutoff = .ok v' := by
  by_cases above : v.movedAt cutoff = true
  · obtain ⟨label, notBelow⟩ := movedAt_iff.mp above
    have positive : 0 < v.index.toNat := by
      have different := h label
      omega
    have bound : v.index.toNat < UInt64.size := v.index.toNat_lt
    have smaller : v.index.toNat - 1 < UInt64.size := by omega
    refine ⟨⟨v.label, .ofNat (v.index.toNat - 1)⟩, shift_eq_ok_iff.mpr ?_⟩
    have down : (-1 : Int64).toInt = -1 := rfl
    rw [if_pos above, UInt64.toNat_ofNat_of_lt' smaller, down]
    exact ⟨by decide, rfl, by omega⟩
  · exact ⟨v, shift_eq_ok_iff.mpr (by rw [if_neg above])⟩

end Variable

namespace Expr

variable {e value body : Expr} {cutoff x : Variable} {Δ Γ : List Label}

/-- A shift up stops at an overflow only. -/
theorem ensures_shift_up (e : Expr) (cutoff : Variable) :
    Ensures IsOverflow (e.shift 1 cutoff = .ok ·) (e.shift 1 cutoff) := by
  have stops : Ensures IsOverflow (fun _ => True) (e.shift 1 cutoff) := by
    induction e using variableInduction generalizing cutoff with
    | var v =>
      rw [shift_var]
      exact (Variable.ensures_shift_up v cutoff).map fun _ _ => .intro
    | node n notVar ih =>
      rw [shift_mk notVar]
      refine (ensures_traverse (R := fun _ _ _ => True) fun p member => ?_).map fun _ _ => .intro
      exact (Variable.ensures_underAll cutoff p.1).bind fun cutoff' _ => ih p member cutoff'
  exact stops.of_returned

/-- A shift down stops at an overflow only, if nothing refers to the place that is closed: what
it stops at is a cutoff that passes under a binder. -/
theorem ensures_shift_back (index : cutoff.index.toNat = Δ.count cutoff.label)
    (misses : (e.resolved (Δ ++ cutoff.label :: Γ)).Misses Δ.length) :
    Ensures IsOverflow (e.shift (-1) cutoff = .ok ·) (e.shift (-1) cutoff) := by
  have stops : Ensures IsOverflow (fun _ => True) (e.shift (-1) cutoff) := by
    induction e using variableInduction generalizing cutoff Δ with
    | var v =>
      -- The cutoff is the closed place itself, and the variable does not refer to it.
      have elsewhere (label : v.label = cutoff.label) : v.index.toNat ≠ cutoff.index.toNat := by
        intro here
        rw [resolved_var, locate_middle.mpr ⟨label, here.trans index⟩] at misses
        exact Term.not_misses_bound _ misses
      obtain ⟨v', moved⟩ := Variable.shift_back_returns elsewhere
      rw [shift_var, moved]
      exact ensures_pure .intro
    | node n notVar ih =>
      rw [resolved_mk notVar] at misses
      rw [shift_mk notVar]
      refine (ensures_traverse (R := fun _ _ _ => True) fun p member => ?_).map fun _ _ => .intro
      refine (Variable.ensures_underAll cutoff p.1).bind fun cutoff' under => ?_
      obtain ⟨label, index'⟩ := index_underAll under index
      have missed := misses.argument (List.mem_map_of_mem member)
      refine ih p member index' ?_
      rw [label, List.append_assoc, List.length_append, List.length_reverse, Nat.add_comm]
      exact missed
  exact stops.of_returned

/-- Moving a variable and a value under binders stops at an overflow only. -/
theorem ensures_underAll (x : Variable) (value : Expr) (binders : List Label) :
    Ensures IsOverflow (fun _ => True) (underAll x value binders) := by
  induction binders generalizing x value with
  | nil => exact ensures_pure .intro
  | cons b binders ih =>
    have first : Ensures IsOverflow (fun _ => True) (do
        pure (← x.under b, ← value.under b) : Except Violation (Variable × Expr)) :=
      (Variable.ensures_shift_up x _).bind fun x' _ =>
        (ensures_shift_up value _).bind fun value' _ => ensures_pure .intro
    exact first.bind fun p _ => ih p.1 p.2

/-- A substitution stops at an overflow only. -/
theorem ensures_subst (e : Expr) (x : Variable) (value : Expr) :
    Ensures IsOverflow (e.subst x value = .ok ·) (e.subst x value) := by
  have stops : Ensures IsOverflow (fun _ => True) (e.subst x value) := by
    induction e using variableInduction generalizing x value with
    | var v =>
      rw [subst_var]
      exact ensures_pure .intro
    | node n notVar ih =>
      rw [subst_mk notVar]
      refine (ensures_traverse (R := fun _ _ _ => True) fun p member => ?_).map fun _ _ => .intro
      exact (ensures_underAll x value p.1).bind fun moved _ => ih p member moved.1 moved.2
  exact stops.of_returned

/-- Putting a value in the place of a variable and removing its binder stops at an overflow
only, whatever the variable is. -/
theorem ensures_instantiate (e : Expr) (x : Variable) (value : Expr) :
    Ensures IsOverflow (e.instantiate x value = .ok ·) (e.instantiate x value) := by
  -- A context in which the variable is bound has as many binders of its label as its index says.
  have index : x.index.toNat = (List.replicate x.index.toNat x.label).count x.label := by
    rw [List.count_replicate_self]
  have stops : Ensures IsOverflow (fun _ => True) (e.instantiate x value) :=
    (ensures_shift_up value x).bind fun value' shifted =>
      (ensures_subst e x value').bind fun replaced substituted =>
        (ensures_shift_back (Γ := []) index
          ⟨_, resolved_subst_shifted shifted substituted index⟩).trivial
  exact stops.of_returned

/-- Renaming a binder stops at an overflow only. -/
theorem ensures_renameBound (body : Expr) (x : Label) :
    Ensures IsOverflow (body.renameBound x = .ok ·) (body.renameBound x) := by
  have stops : Ensures IsOverflow (fun _ => True) (body.renameBound x) := by
    unfold renameBound
    split
    · exact ensures_pure .intro
    · next different =>
      exact (ensures_shift_up body _).bind fun body₁ shifted =>
        (ensures_subst body₁ _ _).bind fun body₂ substituted =>
          (ensures_shift_back (Γ := []) (index_nearest_of_ne different)
            ⟨_, resolved_replaced different shifted substituted []⟩).trivial
  exact stops.of_returned

end Expr

end Dhall
