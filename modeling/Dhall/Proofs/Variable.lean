/-
# Indices that move

Indices are words and a shift of a word may leave the range. When it does not, the new
index is the sum of the old one and the shift, as an integer. Seen from under binders a
variable has an index that is greater by the number of binders of its label.

## Main results

* `Variable.moveIndex?_eq_some_iff` — when a moved index is an index, and which
* `Variable.shift_eq_ok_iff` — what a shift of a variable returns
* `Variable.underAll_eq_ok` — a variable seen from under binders
* `Variable.underAll_returns_iff` — whether its index has room for them
-/

import Dhall.Proofs.Traversal
import Dhall.Shift

namespace Dhall.Variable

/-- A moved index is the exact sum, and every exact sum in range is returned. -/
theorem moveIndex?_eq_some_iff {n m : UInt64} {delta : Int64} :
    moveIndex? n delta = some m ↔
      delta ≠ Int64.minValue ∧ (m.toNat : Int) = n.toNat + delta.toInt := by
  have bound : m.toNat < UInt64.size := m.toNat_lt
  unfold moveIndex?
  dsimp only
  split
  · next refused =>
    refine ⟨nofun, ?_⟩
    -- A sum that is some index `m` is in range, whatever the reason of the refusal says.
    rintro ⟨notLeast, sum⟩
    rcases refused with least | outside
    · exact absurd least notLeast
    · omega
  · next inRange =>
    push Not at inRange
    obtain ⟨notLeast, nonnegative, below⟩ := inRange
    have inWord : (n.toNat + delta.toInt).toNat < UInt64.size := by omega
    rw [Option.some_inj, ← UInt64.toNat_inj, UInt64.toNat_ofNat_of_lt' inWord]
    constructor
    · intro sum
      exact ⟨notLeast, by omega⟩
    · rintro ⟨-, sum⟩
      omega

theorem movedAt_iff {v cutoff : Variable} :
    v.movedAt cutoff = true ↔
      v.label = cutoff.label ∧ cutoff.index.toNat ≤ v.index.toNat := by
  rw [movedAt, decide_eq_true_iff, UInt64.le_iff_toNat_le]

/-- A shift returns if the moved index is an index, and then it changes nothing else. -/
theorem shift_eq_ok_iff {v cutoff v' : Variable} {delta : Int64} :
    v.shift delta cutoff = .ok v' ↔
      if v.movedAt cutoff then
        delta ≠ Int64.minValue ∧ v'.label = v.label ∧
          (v'.index.toNat : Int) = v.index.toNat + delta.toInt
      else v' = v := by
  unfold shift
  split
  · cases moved : moveIndex? v.index delta with
    | none =>
      -- A sum that fits would have been the index.
      refine ⟨nofun, ?_⟩
      rintro ⟨notLeast, -, sum⟩
      rw [moveIndex?_eq_some_iff.mpr ⟨notLeast, sum⟩] at moved
      cases moved
    | some index =>
      have sum := moveIndex?_eq_some_iff.mp moved
      obtain ⟨y, m⟩ := v'
      simp only [Except.ok.injEq, mk.injEq]
      constructor
      · rintro ⟨rfl, rfl⟩
        exact ⟨sum.1, rfl, sum.2⟩
      · rintro ⟨-, rfl, sum'⟩
        refine ⟨rfl, UInt64.toNat_inj.mp ?_⟩
        omega
  · rw [Except.ok.injEq]
    exact eq_comm

/-- Under one binder the index grows if the binder has the label of the variable. -/
theorem under_eq_ok {v v' : Variable} {x : Label} (h : v.under x = .ok v') :
    v'.label = v.label ∧ v'.index.toNat = v.index.toNat + [x].count v.label := by
  rw [under, shift_eq_ok_iff] at h
  have one : (1 : Int64).toInt = 1 := rfl
  rw [List.count_singleton]
  by_cases same : x = v.label
  · have moved : v.movedAt (nearest x) = true :=
      movedAt_iff.mpr ⟨same.symm, Nat.zero_le _⟩
    rw [if_pos moved, one] at h
    rw [if_pos (beq_iff_eq.mpr same)]
    exact ⟨h.2.1, by omega⟩
  · have still : ¬v.movedAt (nearest x) = true := fun moved =>
      same (movedAt_iff.mp moved).1.symm
    rw [if_neg still] at h
    rw [if_neg (by simpa using same), h]
    exact ⟨rfl, rfl⟩

/-- A variable can be seen from under a binder if its index is not the greatest one, or the binder
has another label. -/
theorem exists_under_eq_ok {v : Variable} {x : Label}
    (room : v.index.toNat + [x].count v.label < UInt64.size) : ∃ v', v.under x = .ok v' := by
  have one : (1 : Int64).toInt = 1 := rfl
  by_cases moved : v.movedAt (nearest x) = true
  · have label : v.label = x := (movedAt_iff.mp moved).1
    rw [label, List.count_singleton_self] at room
    refine ⟨⟨v.label, .ofNat (v.index.toNat + 1)⟩, shift_eq_ok_iff.mpr ?_⟩
    rw [if_pos moved, one, UInt64.toNat_ofNat_of_lt' room]
    exact ⟨by decide, rfl, rfl⟩
  · exact ⟨v, shift_eq_ok_iff.mpr (by rw [if_neg moved])⟩

/-- Under several binders the index grows by the number of those that have the label. -/
theorem underAll_eq_ok {v v' : Variable} {binders : List Label} (h : v.underAll binders = .ok v') :
    v'.label = v.label ∧ v'.index.toNat = v.index.toNat + binders.count v.label := by
  induction binders generalizing v with
  | nil =>
    cases h
    exact ⟨rfl, rfl⟩
  | cons x binders ih =>
    obtain ⟨u, first, rest⟩ := bind_eq_pure_iff.mp h
    have one := under_eq_ok first
    have more := ih rest
    rw [one.1, one.2] at more
    rw [List.count_cons, more.2, List.count_singleton]
    exact ⟨more.1, by omega⟩

/-- A variable can be seen from under several binders if its index has room for those that have
its label. -/
theorem underAll_returns_iff {v : Variable} {binders : List Label} :
    (∃ v', v.underAll binders = .ok v') ↔
      v.index.toNat + binders.count v.label < UInt64.size := by
  constructor
  · rintro ⟨v', under⟩
    rw [← (underAll_eq_ok under).2]
    exact v'.index.toNat_lt
  · intro room
    induction binders generalizing v with
    | nil => exact ⟨v, rfl⟩
    | cons x binders ih =>
      rw [List.count_cons, ← List.count_singleton, Nat.add_comm (List.count _ _)] at room
      obtain ⟨v', first⟩ := exists_under_eq_ok (x := x) (v := v) (by omega)
      obtain ⟨label, index⟩ := under_eq_ok first
      obtain ⟨v'', rest⟩ := ih (v := v') (by rw [label, index]; omega)
      exact ⟨v'', bind_eq_pure_iff.mpr ⟨v', first, rest⟩⟩

end Dhall.Variable
