/-
# Shifts and the range of indices

A shift adds an integer to the index of every variable that is at the cutoff or above it, and an
index is a word. So a shift has to stop when a sum is no word, and where it returns, it has
replaced each of these variables by the one with the exact sum, and nothing else.

It stops in two more cases. The least shift is refused for any variable that it would move, also
where the sum is a word, since what is subtracted is negated first. And the cutoff is a variable
that is moved under binders by a shift of its own, so where its index overflows under binders, the
shift stops although no variable there can be above such a cutoff.

## Main definitions

* `Expr.mapVariables` — a function of the variables and of the binders above them, everywhere
* `Expr.Moves` — the indices that are at a cutoff or above it

## Main results

* `Expr.mk_eq_mapVariables_iff` — replacing variables goes to the children
* `Expr.shift_eq_ok_iff` — when a shift returns, and what
* `Expr.shift_aborts_iff` — when a shift stops
-/

import Dhall.Proofs.Occurrence

namespace Dhall

/-- A property of the old children alone can be taken out of a relation between the children. -/
theorem Node.similar_and_iff {α β : Type} {n : Node α} {n' : Node β} {P : List Label → α → Prop}
    {R : List Label → α → β → Prop} :
    n.Similar (fun inner c c' => P inner c ∧ R inner c c') n' ↔
      (∀ p ∈ n.scopedChildren, P p.1 p.2) ∧ n.Similar R n' := by
  have children := List.forall₂_and_left (p := fun q : List Label × α => P q.1 q.2)
    (R := fun q c' => R q.1 q.2 c') n.scopedChildren n'.children
  exact (and_congr_right fun _ => children).trans and_left_comm

namespace Variable

/-- The variable that a shift without bounds makes of a variable, at a cutoff with the label `x`
and the index `k`. -/
def displaced (w : Variable) (delta : Int) (x : Label) (k : Nat) : Variable :=
  if w.label = x ∧ k ≤ w.index.toNat then ⟨w.label, .ofNat (w.index.toNat + delta).toNat⟩ else w

/-- A shift can move an index if it is not the least shift and the sum is a word. -/
def CanMove (delta : Int64) (m : Nat) : Prop :=
  delta ≠ Int64.minValue ∧ 0 ≤ m + delta.toInt ∧ m + delta.toInt < UInt64.size

/-- A shift of a variable returns the displaced variable if the index can be moved or is not
moved. -/
theorem shift_eq_ok_iff_displaced {w w' v : Variable} {delta : Int64} :
    w.shift delta v = .ok w' ↔
      (w.label = v.label ∧ v.index.toNat ≤ w.index.toNat → CanMove delta w.index.toNat) ∧
        w' = w.displaced delta.toInt v.label v.index.toNat := by
  rw [shift_eq_ok_iff, displaced]
  simp only [movedAt_iff]
  split
  · next above =>
    -- Any word that is the sum shows that the sum is in range.
    have bound : w'.index.toNat < UInt64.size := w'.index.toNat_lt
    obtain ⟨y, i⟩ := w'
    rw [mk.injEq]
    constructor
    · rintro ⟨notLeast, label, sum⟩
      refine ⟨fun _ => ⟨notLeast, by omega, by omega⟩, label, ?_⟩
      rw [← sum, Int.toNat_natCast, UInt64.ofNat_toNat]
    · rintro ⟨canMove, label, rfl⟩
      obtain ⟨notLeast, nonnegative, below⟩ := canMove above
      have inWord : (w.index.toNat + delta.toInt).toNat < UInt64.size := by omega
      rw [UInt64.toNat_ofNat_of_lt' inWord]
      exact ⟨notLeast, label, by omega⟩
  · next below => exact (and_iff_right fun above => absurd above below).symm

end Variable

namespace Expr

/-- The expression in which a function replaces each variable. The function is also given the
labels of the binders above the variable, the outermost first. -/
def mapVariables (e : Expr) : (List Label → Variable → Variable) → Expr :=
  e.fold fun n f =>
    match n with
    | .var w => var (f [] w)
    | n => mk (Id.run (n.traverse fun inner mapChild =>
        pure (mapChild fun binders => f (inner ++ binders))))

/-- Some variable in an expression has the label and the index `m`, and `m` is at least the index
of a cutoff that starts at `k` and counts the binders above the variable that have the label. -/
def Moves (e : Expr) (x : Label) (k m : Nat) : Prop :=
  ∃ (binders : List Label) (w : Variable), (var w).StandsUnder binders e ∧
    w.label = x ∧ w.index.toNat = m ∧ k + binders.count x ≤ m

/-- There is room for the cutoff of a shift below all binders of an expression, and every index
that is moved can be moved. -/
structure CanShift (e : Expr) (delta : Int64) (cutoff : Variable) : Prop where
  /-- The index of the cutoff does not overflow. -/
  room : e.RoomFor cutoff
  /-- No sum is out of range, and the shift is not refused. -/
  canMove : ∀ m, e.Moves cutoff.label cutoff.index.toNat m → Variable.CanMove delta m

/-- An expression in which the variables that a shift at a cutoff moves are displaced. -/
def displaced (e : Expr) (delta : Int) (x : Label) (k : Nat) : Expr :=
  e.mapVariables fun binders w => w.displaced delta x (k + binders.count x)

variable {e e' : Expr} {n n' : Node Expr} {v w : Variable} {x : Label} {k m : Nat}
  {f : List Label → Variable → Variable} {delta : Int64}

/-! ### Replaced variables -/

theorem mapVariables_mk (notVar : ∀ v, n ≠ .var v) :
    (mk n).mapVariables f = mk (Id.run (n.traverse fun inner c =>
      pure (c.mapVariables fun binders => f (inner ++ binders)))) := by
  rw [mapVariables, fold_mk]
  split
  · next v image => cases n <;> simp_all [Node.map]
  · rw [Node.traverse_map]
    rfl

/-- Below a construct the function is given the binders around the child first. -/
theorem mk_eq_mapVariables_iff (notVar : ∀ v, n ≠ .var v) :
    mk n' = (mk n).mapVariables f ↔ n.Similar (fun inner c c' =>
      c' = c.mapVariables fun binders => f (inner ++ binders)) n' := by
  rw [mapVariables_mk notVar, mk.injEq]
  constructor
  · intro same
    refine (Node.traverse_eq_pure_iff (m := Id).mp same.symm).imp fun p _ c' returned => ?_
    exact returned.symm
  · intro similar
    refine (Node.traverse_eq_pure_iff (m := Id).mpr ?_).symm
    exact similar.imp fun p _ c' same => same.symm

/-! ### Displaced variables -/

theorem mk_eq_displaced_iff (notVar : ∀ v, n ≠ .var v) {delta : Int} :
    mk n' = (mk n).displaced delta x k ↔ n.Similar (fun inner c c' =>
      c' = c.displaced delta x (k + inner.count x)) n' := by
  simp only [displaced, mk_eq_mapVariables_iff notVar, List.count_append, Nat.add_assoc]

theorem moves_var : (var w).Moves x k m ↔ w.label = x ∧ w.index.toNat = m ∧ k ≤ m :=
  exists_standsUnder_var

/-- What is moved in a construct is moved in a child, where the cutoff has counted the binders
around the child. -/
theorem moves_mk (notVar : ∀ v, n ≠ .var v) :
    (mk n).Moves x k m ↔ ∃ p ∈ n.scopedChildren, p.2.Moves x (k + p.1.count x) m := by
  refine (exists_standsUnder_mk notVar).trans ?_
  simp only [Moves, List.count_append, Nat.add_assoc]

/-! ### Shifts -/

theorem roomFor_var (w v : Variable) : (var w).RoomFor v := by
  intro s binders stands
  rcases standsUnder_mk.mp stands with ⟨-, rfl⟩ | ⟨p, member, -⟩
  · exact v.index.toNat_lt
  · cases member

/-- There is room for a variable in a construct if the variable can be seen from under the binders
around each child and there is room for it in the child. -/
theorem roomFor_mk (h : ∀ p ∈ n.scopedChildren, ∃ v', v.underAll p.1 = .ok v' ∧ p.2.RoomFor v') :
    (mk n).RoomFor v := by
  intro s binders stands
  rcases standsUnder_mk.mp stands with ⟨-, rfl⟩ | ⟨p, member, inner, inside, rfl⟩
  · exact v.index.toNat_lt
  · obtain ⟨v', under, below⟩ := h p member
    obtain ⟨label, index⟩ := Variable.underAll_eq_ok under
    have room := below s inner inside
    rwa [index, label, Nat.add_assoc, ← List.count_append] at room

theorem canShift_var : (var w).CanShift delta v ↔
    (w.label = v.label ∧ v.index.toNat ≤ w.index.toNat → Variable.CanMove delta w.index.toNat) := by
  constructor
  · intro h above
    exact h.canMove _ (moves_var.mpr ⟨above.1, rfl, above.2⟩)
  · refine fun h => ⟨roomFor_var w v, fun m moved => ?_⟩
    obtain ⟨label, rfl, above⟩ := moves_var.mp moved
    exact h ⟨label, above⟩

/-- A construct can be shifted if the cutoff can be seen from under the binders around each child
and the child can be shifted there. -/
theorem canShift_mk (notVar : ∀ v, n ≠ .var v) : (mk n).CanShift delta v ↔
    ∀ p ∈ n.scopedChildren, ∃ v', v.underAll p.1 = .ok v' ∧ p.2.CanShift delta v' := by
  constructor
  · intro h p member
    obtain ⟨v', under, room⟩ := h.room.child member
    obtain ⟨label, index⟩ := Variable.underAll_eq_ok under
    refine ⟨v', under, room, fun m moved => h.canMove m ?_⟩
    rw [label, index] at moved
    exact (moves_mk notVar).mpr ⟨p, member, moved⟩
  · intro each
    refine ⟨roomFor_mk fun p member => ?_, fun m moved => ?_⟩
    · obtain ⟨v', under, below⟩ := each p member
      exact ⟨v', under, below.room⟩
    · -- Seen from the child, the cutoff has counted the binders around it.
      obtain ⟨p, member, inside⟩ := (moves_mk notVar).mp moved
      obtain ⟨v', under, below⟩ := each p member
      obtain ⟨label, index⟩ := Variable.underAll_eq_ok under
      rw [← index, ← label] at inside
      exact below.canMove m inside

/-- A shift returns if it can be done, and then it has displaced the variables. -/
theorem shift_eq_ok_iff : e.shift delta v = .ok e' ↔
    e.CanShift delta v ∧ e' = e.displaced delta.toInt v.label v.index.toNat := by
  -- The cutoff is any variable, since it is another one under binders.
  induction e using variableInduction generalizing e' v with
  | var w =>
    rw [shift_var, canShift_var]
    constructor
    · intro h
      obtain ⟨w', shifted, rfl⟩ := map_eq_pure_iff.mp h
      obtain ⟨canMove, rfl⟩ := Variable.shift_eq_ok_iff_displaced.mp shifted
      exact ⟨canMove, rfl⟩
    · rintro ⟨canMove, rfl⟩
      exact map_eq_pure_iff.mpr ⟨_, Variable.shift_eq_ok_iff_displaced.mpr ⟨canMove, rfl⟩, rfl⟩
  | node n notVar ih =>
    have inChild (p : List Label × Expr) (member : p ∈ n.scopedChildren) (c' : Expr) :
        (∃ v', v.underAll p.1 = .ok v' ∧ p.2.shift delta v' = .ok c') ↔
          (∃ v', v.underAll p.1 = .ok v' ∧ p.2.CanShift delta v') ∧
            c' = p.2.displaced delta.toInt v.label (v.index.toNat + p.1.count v.label) := by
      constructor
      · rintro ⟨v', under, shifted⟩
        obtain ⟨label, index⟩ := Variable.underAll_eq_ok under
        obtain ⟨canShift, rfl⟩ := (ih p member).mp shifted
        exact ⟨⟨v', under, canShift⟩, by rw [label, index]⟩
      · rintro ⟨⟨v', under, canShift⟩, rfl⟩
        obtain ⟨label, index⟩ := Variable.underAll_eq_ok under
        exact ⟨v', under, (ih p member).mpr ⟨canShift, by rw [label, index]⟩⟩
    obtain ⟨n'⟩ := e'
    rw [shift_mk_eq_ok_iff notVar, canShift_mk notVar, mk_eq_displaced_iff notVar,
      ← Node.similar_and_iff (P := fun inner c => ∃ v', v.underAll inner = .ok v' ∧
        CanShift c delta v')]
    constructor
    · exact fun h => h.imp fun p member c' => (inChild p member c').mp
    · exact fun h => h.imp fun p member c' => (inChild p member c').mpr

/-- A shift that cannot be done stops, and no other one does. -/
theorem shift_eq_error_iff :
    (∃ violation, e.shift delta v = .error violation) ↔ ¬e.CanShift delta v := by
  cases outcome : e.shift delta v with
  | error violation =>
    refine ⟨fun _ h => ?_, fun _ => ⟨violation, rfl⟩⟩
    rw [shift_eq_ok_iff.mpr ⟨h, rfl⟩] at outcome
    cases outcome
  | ok e' =>
    refine ⟨fun h => ?_, fun h => absurd (shift_eq_ok_iff.mp outcome).1 h⟩
    obtain ⟨_, impossible⟩ := h
    cases impossible

/-- A shift stops exactly if a variable that is moved has an index whose sum with the shift is out
of range, or any variable is moved by the least shift, or the index of the cutoff overflows below
the binders. Otherwise each variable that is moved has the exact sum as its new index, and
everything else is as before. -/
theorem shift_aborts_iff (e : Expr) (delta : Int64) (v : Variable) :
    ((∃ violation, e.shift delta v = .error violation) ↔
      (∃ m, e.Moves v.label v.index.toNat m ∧
        ¬(0 ≤ m + delta.toInt ∧ m + delta.toInt < UInt64.size)) ∨
      (delta = Int64.minValue ∧ ∃ m, e.Moves v.label v.index.toNat m) ∨
      ¬e.RoomFor v) ∧
    ∀ e', e.shift delta v = .ok e' →
      (∀ m, e.Moves v.label v.index.toNat m →
        ((UInt64.ofNat (m + delta.toInt).toNat).toNat : Int) = m + delta.toInt) ∧
      e' = e.mapVariables fun binders w =>
        if w.label = v.label ∧ v.index.toNat + binders.count v.label ≤ w.index.toNat then
          ⟨w.label, .ofNat (w.index.toNat + delta.toInt).toNat⟩
        else w := by
  constructor
  -- A shift returns if there is room and if all variables that move can move.
  · rw [shift_eq_error_iff]
    constructor
    · intro h
      by_contra none
      push Not at none
      obtain ⟨inRange, notLeast, room⟩ := none
      exact h ⟨room, fun m moved => ⟨fun least => notLeast least m moved, inRange m moved⟩⟩
    · rintro (⟨m, moved, outside⟩ | ⟨least, m, moved⟩ | crowded) h
      · exact outside (h.canMove m moved).2
      · exact (h.canMove m moved).1 least
      · exact crowded h.room
  · intro e' h
    obtain ⟨canShift, same⟩ := shift_eq_ok_iff.mp h
    refine ⟨fun m moved => ?_, same⟩
    obtain ⟨-, nonnegative, below⟩ := canShift.canMove m moved
    rw [UInt64.toNat_ofNat_of_lt' (by omega)]
    exact Int.toNat_of_nonneg nonnegative

/-- Under a binder with the label of the cutoff, the greatest index is above the cutoff and the
least one is below it. -/
theorem shift_aborts_iff_greatest :
    let x (m : Nat) := var ⟨"x", .ofNat m⟩
    let e (m : Nat) := lam "x" (x 0) (app (x 0) (x m))
    (∃ violation, (e (UInt64.size - 1)).shift 1 ⟨"x", 1⟩ = .error violation) ∧
      (e (UInt64.size - 1)).shift (-1) ⟨"x", 1⟩ = .ok (e (UInt64.size - 2)) ∧
      ∀ m, (e (UInt64.size - 1)).Moves "x" 1 m →
        ((UInt64.ofNat (m + (-1 : Int64).toInt).toNat).toNat : Int) = m + (-1 : Int64).toInt := by
  intro x e
  have moved : (e (UInt64.size - 1)).Moves "x" 1 (UInt64.size - 1) := by
    refine (moves_mk (n := .lam _ _ _) (fun _ => nofun)).mpr ⟨_, .tail _ (.head _), ?_⟩
    refine (moves_mk (n := .app _ _) (fun _ => nofun)).mpr ⟨_, .tail _ (.head _), ?_⟩
    exact moves_var.mpr ⟨rfl, rfl, by decide⟩
  have shifted : (e (UInt64.size - 1)).shift (-1) ⟨"x", 1⟩ = .ok (e (UInt64.size - 2)) := rfl
  exact ⟨(shift_aborts_iff _ 1 ⟨"x", 1⟩).1.mpr (.inl ⟨_, moved, by decide⟩), shifted,
    ((shift_aborts_iff _ (-1) ⟨"x", 1⟩).2 _ shifted).1⟩

/-- The least shift stops at an index whose sum with it is zero, and a shift by one stops where the
index of the cutoff overflows, although no variable is moved. -/
theorem shift_aborts_in_range :
    ¬(∀ (e : Expr) (delta : Int64) (v : Variable),
      (∃ violation, e.shift delta v = .error violation) ↔
        ∃ m, e.Moves v.label v.index.toNat m ∧
          ¬(0 ≤ m + delta.toInt ∧ m + delta.toInt < UInt64.size)) ∧
    (∃ violation,
      (var ⟨"x", 0x8000000000000000⟩).shift Int64.minValue ⟨"x", 0⟩ = .error violation) ∧
    ∃ violation, (lam "x" (builtin .natural) (var ⟨"y", 0⟩)).shift 1
      ⟨"x", .ofNat (UInt64.size - 1)⟩ = .error violation := by
  refine ⟨fun exactly => ?_, ⟨_, rfl⟩, _, rfl⟩
  obtain ⟨m, moved, outside⟩ :=
    (exactly (var ⟨"x", 0x8000000000000000⟩) Int64.minValue ⟨"x", 0⟩).mp ⟨_, rfl⟩
  obtain ⟨-, rfl, -⟩ := moves_var.mp moved
  exact outside (by decide)

end Expr

end Dhall
