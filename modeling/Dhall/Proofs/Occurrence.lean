/-
# Where a variable occurs

Whether a variable occurs free in an expression is found out by putting a marker in its place
and comparing. That the comparison is right depends on every occurrence being reached with the
index that it has there: under binders with its label, the variable is the one whose index is
greater by their number.

An occurrence is described here without any substitution, as a variable that stands somewhere in
the expression below binders, and the binders with its label are counted. What a substitution and
a shift do is read off from where the variable occurs: if it occurs nowhere, all values leave the
expression as it is, and its binder can be taken away and put back.

## Main definitions

* `Expr.StandsUnder` — standing somewhere in an expression, below binders
* `Expr.OccursAt` — a variable with the label and index of a given one, counted from outside
* `Expr.RoomFor` — the index of a variable can be counted at every place

## Main results

* `Expr.hasFree_iff_occursAt` — occurrences are what is free among the positions
* `Expr.roomFor_iff_mentions_returns` — looking for a variable returns if there is room for it
* `Expr.mentions_exact` — what looking for a variable finds out
-/

import Dhall.Proofs.FreeVariable
import Dhall.Proofs.Overflow
import Dhall.Proofs.Shift

namespace Dhall.Expr

/-- An expression stands somewhere in another one, below binders with these labels, the outermost
first. -/
inductive StandsUnder (s : Expr) : List Label → Expr → Prop
  /-- An expression stands in itself, below no binder. -/
  | here : StandsUnder s [] s
  /-- What stands in a child is also below the binders that the construct has around the child. -/
  | child {n : Node Expr} {p : List Label × Expr} {binders : List Label}
      (member : p ∈ n.scopedChildren) (inside : StandsUnder s binders p.2) :
      StandsUnder s (p.1 ++ binders) (mk n)

/-- Some variable in an expression has a label, and an index that is greater than the given one
by the number of binders above it that have the label. -/
def OccursAt (e : Expr) (x : Label) (m : Nat) : Prop :=
  ∃ (binders : List Label) (w : Variable),
    (var w).StandsUnder binders e ∧ w.label = x ∧ w.index.toNat = m + binders.count x

/-- At no place in an expression are there so many binders with the label of a variable that the
index of the variable would overflow there. -/
def RoomFor (e : Expr) (v : Variable) : Prop :=
  ∀ (s : Expr) (binders : List Label), s.StandsUnder binders e →
    v.index.toNat + binders.count v.label < UInt64.size

variable {e e' value : Expr} {n : Node Expr} {v v' w : Variable} {x : Label} {m : Nat}
  {binders : List Label}

theorem standsUnder_mk {s : Expr} :
    s.StandsUnder binders (mk n) ↔ (s = mk n ∧ binders = []) ∨
      ∃ p ∈ n.scopedChildren, ∃ inner, s.StandsUnder inner p.2 ∧ binders = p.1 ++ inner := by
  constructor
  · intro stands
    cases stands with
    | here => exact Or.inl ⟨rfl, rfl⟩
    | child member inside => exact Or.inr ⟨_, member, _, inside, rfl⟩
  · rintro (⟨rfl, rfl⟩ | ⟨p, member, inner, inside, rfl⟩)
    · exact .here
    · exact .child member inside

/-! ### Occurrences -/

theorem exists_standsUnder_var {P : List Label → Variable → Prop} :
    (∃ binders u, (var u).StandsUnder binders (var w) ∧ P binders u) ↔ P [] w := by
  constructor
  · rintro ⟨binders, u, stands, h⟩
    rcases standsUnder_mk.mp stands with ⟨same, rfl⟩ | ⟨p, member, -⟩
    · cases same
      exact h
    · cases member
  · exact fun h => ⟨[], w, .here, h⟩

/-- A variable that stands in a construct stands in a child, below the binders around the child. -/
theorem exists_standsUnder_mk {P : List Label → Variable → Prop} (notVar : ∀ v, n ≠ .var v) :
    (∃ binders w, (var w).StandsUnder binders (mk n) ∧ P binders w) ↔
      ∃ p ∈ n.scopedChildren, ∃ inner w, (var w).StandsUnder inner p.2 ∧ P (p.1 ++ inner) w := by
  constructor
  · rintro ⟨binders, w, stands, h⟩
    rcases standsUnder_mk.mp stands with ⟨same, -⟩ | ⟨p, member, inner, inside, rfl⟩
    · exact absurd (mk.inj same).symm (notVar w)
    · exact ⟨p, member, inner, w, inside, h⟩
  · rintro ⟨p, member, inner, w, inside, h⟩
    exact ⟨p.1 ++ inner, w, .child member inside, h⟩

theorem occursAt_var : (var w).OccursAt x m ↔ w.label = x ∧ w.index.toNat = m :=
  exists_standsUnder_var

/-- An occurrence in a construct is an occurrence in a child, where the binders around the child
have been counted. -/
theorem occursAt_mk (notVar : ∀ v, n ≠ .var v) :
    (mk n).OccursAt x m ↔ ∃ p ∈ n.scopedChildren, p.2.OccursAt x (m + p.1.count x) := by
  refine (exists_standsUnder_mk notVar).trans ?_
  simp only [OccursAt, List.count_append, Nat.add_assoc]

/-- Seen from under the binders around a child, a variable occurs in the child if it occurs there
in the construct. -/
theorem occursAt_of_child (notVar : ∀ v, n ≠ .var v) {p : List Label × Expr}
    (member : p ∈ n.scopedChildren) (under : v.underAll p.1 = .ok v')
    (occurs : p.2.OccursAt v'.label v'.index.toNat) : (mk n).OccursAt v.label v.index.toNat := by
  obtain ⟨label, index⟩ := Variable.underAll_eq_ok under
  rw [label, index] at occurs
  exact (occursAt_mk notVar).mpr ⟨p, member, occurs⟩

/-- Under a context, a variable is free with the index that is left after its binders in the
context. -/
theorem hasFree_resolved_iff (context : List Label) :
    (e.resolved context).HasFree x m ↔ e.OccursAt x (context.count x + m) := by
  induction e using variableInduction generalizing context with
  | var w =>
    rw [resolved_var, occursAt_var]
    constructor
    · intro free
      rcases locate_cases context w.label w.index.toNat with ⟨i, atom⟩ | ⟨i, atom⟩
      · rw [atom] at free
        exact absurd free Term.not_hasFree_bound
      · have left := (locate_eq_free_iff.mp atom).2
        rw [atom, Term.hasFree_free] at free
        obtain ⟨rfl, rfl⟩ := free
        exact ⟨rfl, left⟩
    · rintro ⟨rfl, index⟩
      rw [locate_eq_free_iff.mpr ⟨rfl, index⟩]
      exact .here
  | node n notVar ih =>
    rw [resolved_mk notVar, Term.hasFree_construct, occursAt_mk notVar]
    simp only [List.mem_map, exists_exists_and_eq_and]
    refine exists_congr fun p => and_congr_right fun member => ?_
    -- The binders around a child are a part of its context.
    have index : (p.1.reverse ++ context).count x + m = context.count x + m + p.1.count x := by
      rw [List.count_append, List.count_reverse]
      omega
    rw [ih p member, index]

/-- What is free among the positions is what occurs by name. -/
theorem hasFree_iff_occursAt : e.HasFree v ↔ e.OccursAt v.label v.index.toNat := by
  rw [HasFree, hasFree_resolved_iff, List.count_nil, Nat.zero_add]

/-! ### Room for the index -/

/-- If there is room for a variable, it can be seen from under the binders around a child, and
there is room for it in the child. -/
theorem RoomFor.child (room : (mk n).RoomFor v) {p : List Label × Expr}
    (member : p ∈ n.scopedChildren) : ∃ v', v.underAll p.1 = .ok v' ∧ p.2.RoomFor v' := by
  have atChild := room p.2 (p.1 ++ []) (.child member .here)
  rw [List.append_nil] at atChild
  obtain ⟨v', under⟩ := Variable.underAll_returns_iff.mpr atChild
  refine ⟨v', under, fun s binders inside => ?_⟩
  obtain ⟨label, index⟩ := Variable.underAll_eq_ok under
  have below := room s (p.1 ++ binders) (.child member inside)
  rwa [List.count_append, ← Nat.add_assoc, ← index, ← label] at below

/-- A substitution that returns has passed below all binders. -/
theorem roomFor_of_subst (h : e.subst v value = .ok e') : e.RoomFor v := by
  intro s binders stands
  -- The variable and the value are those that the substitution has reached on the way down.
  induction stands generalizing v value e' with
  | here => exact v.index.toNat_lt
  | @child n p binders member inside ih =>
    have notVar (u : Variable) : n ≠ .var u := by
      rintro rfl
      cases member
    rw [subst_mk notVar] at h
    obtain ⟨n', traversed, -⟩ := map_eq_pure_iff.mp h
    have similar := Node.traverse_eq_pure_iff.mp traversed
    obtain ⟨c', -, replaced⟩ := exists_of_forall₂ similar.2.flip member
    obtain ⟨⟨v', value'⟩, under, substituted⟩ := bind_eq_pure_iff.mp replaced
    obtain ⟨label, index⟩ := Variable.underAll_eq_ok (underAll_eq_ok under []).1
    have below := ih substituted
    rwa [List.count_append, ← Nat.add_assoc, ← index, ← label]

/-- Whatever it is seen from under, a builtin stays the same. -/
theorem underAll_builtin (b : Builtin) (under : v.underAll binders = .ok v') :
    underAll v (builtin b) binders = .ok (v', builtin b) := by
  induction binders generalizing v with
  | nil =>
    cases under
    rfl
  | cons x binders ih =>
    obtain ⟨v₁, first, rest⟩ := bind_eq_pure_iff.mp under
    refine bind_eq_pure_iff.mpr ⟨(v₁, builtin b), ?_, ih rest⟩
    exact bind_eq_pure_iff.mpr ⟨v₁, first, rfl⟩

/-- A builtin can take the place of every variable that there is room for. -/
theorem RoomFor.exists_subst_builtin (room : e.RoomFor v) (b : Builtin) :
    ∃ e', e.subst v (builtin b) = .ok e' := by
  induction e using variableInduction generalizing v with
  | var w => exact ⟨_, subst_var w v _⟩
  | node n notVar ih =>
    rw [subst_mk notVar]
    refine exists_map_eq_pure mk (Node.exists_traverse_eq_pure fun p member => ?_)
    obtain ⟨v', under, below⟩ := room.child member
    obtain ⟨c', substituted⟩ := ih p member below
    exact ⟨c', bind_eq_pure_iff.mpr ⟨(v', builtin b), underAll_builtin b under, substituted⟩⟩

/-- Looking for a variable returns exactly if there is room for it everywhere. -/
theorem roomFor_iff_mentions_returns : e.RoomFor v ↔ ∃ found, e.mentions v = .ok found := by
  constructor
  · intro room
    obtain ⟨e', substituted⟩ := room.exists_subst_builtin .bool
    exact ⟨_, bind_eq_pure_iff.mpr ⟨e', substituted, rfl⟩⟩
  · rintro ⟨found, h⟩
    obtain ⟨e', substituted, -⟩ := bind_eq_pure_iff.mp h
    exact roomFor_of_subst substituted

/-! ### Variables that do not occur -/

/-- A substitution for a variable that does not occur gives the expression back. -/
theorem subst_eq_self_of_not_occursAt (absent : ¬e.OccursAt v.label v.index.toNat)
    (h : e.subst v value = .ok e') : e' = e := by
  induction e using variableInduction generalizing v value e' with
  | var w =>
    rw [subst_var] at h
    have different : w ≠ v := by
      rintro rfl
      exact absent (occursAt_var.mpr ⟨rfl, rfl⟩)
    rw [if_neg different] at h
    exact (Except.ok.inj h).symm
  | node n notVar ih =>
    rw [subst_mk notVar] at h
    obtain ⟨n', traversed, rfl⟩ := map_eq_pure_iff.mp h
    have similar := Node.traverse_eq_pure_iff.mp traversed
    refine congrArg mk (similar.imp fun p member c' replaced => ?_).eq
    obtain ⟨⟨v', value'⟩, under, substituted⟩ := bind_eq_pure_iff.mp replaced
    -- The value is another one in the child, so nothing may depend on it.
    refine ih p member (fun occurs => absent ?_) substituted
    exact occursAt_of_child notVar member (underAll_eq_ok under []).1 occurs

/-- A variable that does not occur can be removed, and making room for it again gives the
expression back. -/
theorem RoomFor.exists_shift_back (room : e.RoomFor v)
    (absent : ¬e.OccursAt v.label v.index.toNat) :
    ∃ e', e.shift (-1) v = .ok e' ∧ e'.shift 1 v = .ok e := by
  induction e using variableInduction generalizing v with
  | var w =>
    have elsewhere (label : w.label = v.label) : w.index.toNat ≠ v.index.toNat := fun index =>
      absent (occursAt_var.mpr ⟨label, index⟩)
    obtain ⟨w', down⟩ := Variable.shift_back_returns elsewhere
    refine ⟨var w', by rw [shift_var, down]; rfl, ?_⟩
    rw [shift_var, Variable.shift_up_of_shift_back elsewhere down]
    rfl
  | node n notVar ih =>
    have inChild (p : List Label × Expr) (member : p ∈ n.scopedChildren) :
        ∃ v' c', v.underAll p.1 = .ok v' ∧ p.2.shift (-1) v' = .ok c' ∧
          c'.shift 1 v' = .ok p.2 := by
      obtain ⟨v', under, below⟩ := room.child member
      obtain ⟨c', down, up⟩ := ih p member below fun occurs =>
        absent (occursAt_of_child notVar member under occurs)
      exact ⟨v', c', under, down, up⟩
    have returned : ∃ n', n.traverse (fun binders c => do
        c.shift (-1) (← v.underAll binders)) = pure n' := by
      refine Node.exists_traverse_eq_pure fun p member => ?_
      obtain ⟨v', c', under, down, -⟩ := inChild p member
      exact ⟨c', bind_eq_pure_iff.mpr ⟨v', under, down⟩⟩
    obtain ⟨n', returned⟩ := returned
    have similar := Node.traverse_eq_pure_iff.mp returned
    refine ⟨mk n', by rw [shift_mk notVar, returned]; rfl, ?_⟩
    refine (shift_mk_eq_ok_iff (Node.ne_var_of_shape similar.shape_eq notVar)).mpr ?_
    refine (similar.imp fun p member c' shifted => ?_).symm
    -- What the way down has returned at a child is what the way up starts from.
    obtain ⟨v', c'', under, down, up⟩ := inChild p member
    have same : p.2.shift (-1) v' = pure c' := by rwa [under] at shifted
    obtain rfl : c'' = c' := Except.ok.inj (down.symm.trans same)
    exact ⟨v', under, up⟩

/-- Where room has been made for a variable, it does not occur. -/
theorem not_occursAt_of_shift_up (h : e.shift 1 v = .ok e') :
    ¬e'.OccursAt v.label v.index.toNat := by
  induction e using variableInduction generalizing e' v with
  | var w =>
    rw [shift_var] at h
    obtain ⟨w', moved, rfl⟩ := map_eq_pure_iff.mp h
    rw [occursAt_var]
    exact Variable.ne_of_shift_up moved
  | node n notVar ih =>
    obtain ⟨n', rfl, similar⟩ := shift_mk_eq_ok notVar h
    rw [occursAt_mk (Node.ne_var_of_shape similar.shape_eq notVar)]
    rintro ⟨q, member, occurs⟩
    obtain ⟨p, inside, binders, v', under, shifted⟩ := exists_of_forall₂ similar.scoped member
    obtain ⟨label, index⟩ := Variable.underAll_eq_ok under
    refine ih p inside shifted ?_
    rwa [label, index, ← binders]

/-- If the index of a variable has room below all binders, then looking for the variable returns.
It is found exactly if it occurs, and it is not found exactly if no substitution for it that
returns changes the expression, and also exactly if its binder can be removed and put back. -/
theorem mentions_exact (room : e.RoomFor v) :
    ∃ found, e.mentions v = .ok found ∧
      (found = true ↔ ∃ binders w, (var w).StandsUnder binders e ∧ w.label = v.label ∧
        w.index.toNat = v.index.toNat + binders.count v.label) ∧
      (found = false ↔ ∀ value e', e.subst v value = .ok e' → e' = e) ∧
      (found = false ↔ ∃ e', e.shift (-1) v = .ok e' ∧ e'.shift 1 v = .ok e) := by
  obtain ⟨found, returned⟩ := roomFor_iff_mentions_returns.mp room
  have occurs : found = true ↔ e.OccursAt v.label v.index.toNat :=
    (mentions_eq_ok returned).trans hasFree_iff_occursAt
  have absent : found = false ↔ ¬e.OccursAt v.label v.index.toNat := by
    rw [← occurs, Bool.not_eq_true]
  refine ⟨found, returned, occurs, ?_, ?_⟩
  · constructor
    · intro notFound value e' substituted
      exact subst_eq_self_of_not_occursAt (absent.mp notFound) substituted
    · -- The marker is one of the values.
      intro unchanged
      obtain ⟨marked, substituted, same⟩ := bind_eq_pure_iff.mp returned
      rw [unchanged _ marked substituted] at same
      rw [← Except.ok.inj same]
      exact decide_eq_false (not_not_intro rfl)
  · rw [absent]
    constructor
    · exact room.exists_shift_back
    · rintro ⟨e', -, up⟩
      exact not_occursAt_of_shift_up up

/-- The marker is also in the expression, and the label of the variable is bound twice above an
occurrence and once above what is none. -/
theorem mentions_exact_marker :
    let x : Variable := ⟨"x", 1⟩
    let marker := builtin .bool
    let e (i : UInt64) := pi "x" marker (letIn [⟨"x", some marker, var ⟨"x", 0⟩⟩] (var ⟨"x", i⟩))
    (e 3).mentions x = .ok true ∧ (e 2).mentions x = .ok false ∧
      ¬(∀ value r, (e 3).subst x value = .ok r → r = e 3) ∧
      (∀ value r, (e 2).subst x value = .ok r → r = e 2) ∧
      ∃ e', (e 2).shift (-1) x = .ok e' ∧ e'.shift 1 x = .ok (e 2) := by
  intro x marker e
  have found : (e 3).mentions x = .ok true := rfl
  have notFound : (e 2).mentions x = .ok false := rfl
  obtain ⟨_, returned, -, constant, -⟩ :=
    mentions_exact (roomFor_iff_mentions_returns.mpr ⟨_, found⟩)
  obtain rfl := Except.ok.inj (found.symm.trans returned)
  obtain ⟨_, returned', -, constant', shifted⟩ :=
    mentions_exact (roomFor_iff_mentions_returns.mpr ⟨_, notFound⟩)
  obtain rfl := Except.ok.inj (notFound.symm.trans returned')
  refine ⟨found, notFound, fun unchanged => ?_, constant'.mp rfl, shifted.mp rfl⟩
  cases constant.mpr unchanged

end Dhall.Expr
