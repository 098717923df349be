/-
# Recursive merges are deep unions

A record literal is seen as a tree: labels lead from a record to the values of its fields, and the
values that are no records are the leaves. Two trees are compatible if the paths that they have in
common lead to records in both. A recursive merge of compatible records puts the one tree over the
other: at every path it has what one of the records has there, or the merge of the two records
that are there. So nothing is lost or doubled, and neither the order of the operands nor that of
several merges matters.

Whether a merge of records stops does not depend on the order of the operands either, whatever
they have in common.

## Main definitions

* `Expr.reach?` — what a path of labels leads to
* `Expr.Compatible` — nothing but records in common
* `Joins` — what a deep union has at a place, from what the two trees have there

## Main results

* `Expr.mergeRecords_iff_joins` — merges of compatible records, field by field
* `Expr.joins_reach?` — and at every path
* `Expr.mergeRecords_comm`, `Expr.mergeRecords_assoc` — the order does not matter
* `Expr.combine_deep_union` — evaluated merges of records
-/

import Dhall.Proofs.Mismatch

namespace Dhall

/-- What a deep union has at a place where the two trees have the first two values, if any. -/
inductive Joins : Option Expr → Option Expr → Option Expr → Prop
  /-- The second tree has nothing there. -/
  | left (x? : Option Expr) : Joins x? none x?
  /-- The first tree has nothing there. -/
  | right (y? : Option Expr) : Joins none y? y?
  /-- Both trees go on. -/
  | both {xs ys zs : LabelMap Expr}
    (merged : Expr.mergeRecords (.record xs) (.record ys) = .ok (.record zs)) :
    Joins (some (.record xs)) (some (.record ys)) (some (.record zs))

namespace Joins

variable {x? y? z? z?' : Option Expr}

theorem of_none_left (h : Joins none y? z?) : z? = y? := by
  cases h with
  | left | right => rfl

theorem of_none_right (h : Joins x? none z?) : z? = x? := by
  cases h with
  | left | right => rfl

/-- What a deep union has at a place is determined. -/
theorem unique (h : Joins x? y? z?) (h' : Joins x? y? z?') : z? = z?' := by
  cases h with
  | left => exact h'.of_none_right.symm
  | right => exact h'.of_none_left.symm
  | both merged =>
    cases h' with
    | both merged' => exact congrArg some (Except.ok.inj (merged.symm.trans merged'))

end Joins

namespace Expr

variable {e x y z a b : Expr} {xs ys zs ms ns rs : LabelMap Expr} {l : Label} {path : List Label}

/-! ### Paths -/

/-- What is reached by selecting labels from record literals, one after the other. -/
def reach? : Expr → List Label → Option Expr
  | e, [] => some e
  | record fields, l :: path => (fields.get? l).bind fun e => e.reach? path
  | _, _ :: _ => none

@[simp] theorem reach?_nil (e : Expr) : e.reach? [] = some e := by
  unfold reach?
  rfl

@[simp] theorem reach?_record (fields : LabelMap Expr) (l : Label) (path : List Label) :
    (record fields).reach? (l :: path) = (fields.get? l).bind fun e => e.reach? path := rfl

/-- The paths that both trees have lead to records. -/
def Compatible (x y : Expr) : Prop :=
  ∀ path a b, x.reach? path = some a → y.reach? path = some b →
    (∃ xs, a = record xs) ∧ ∃ ys, b = record ys

theorem Compatible.symm (h : Compatible x y) : Compatible y x :=
  fun path a b left right => (h path b a right left).symm

/-- What two compatible records have under one label is compatible. -/
theorem Compatible.field (h : Compatible (record xs) (record ys)) (left : xs.get? l = some x)
    (right : ys.get? l = some y) : Compatible x y := by
  intro path a b inLeft inRight
  refine h (l :: path) a b ?_ ?_
  · rw [reach?_record, left]
    exact inLeft
  · rw [reach?_record, right]
    exact inRight

/-- Records are compatible if what they have under each label is. -/
theorem compatible_record (h : ∀ l x y, xs.get? l = some x → ys.get? l = some y →
    (∃ xs', x = record xs') ∧ (∃ ys', y = record ys') ∧ Compatible x y) :
    Compatible (record xs) (record ys) := by
  intro path a b left right
  cases path with
  | nil =>
    cases left
    cases right
    exact ⟨⟨xs, rfl⟩, ys, rfl⟩
  | cons l path =>
    obtain ⟨x, inLeft, left⟩ := Option.bind_eq_some_iff.mp left
    obtain ⟨y, inRight, right⟩ := Option.bind_eq_some_iff.mp right
    exact (h l x y inLeft inRight).2.2 path a b left right

/-! ### Merges -/

/-- A merge of records is a record, if it returns. -/
theorem exists_record_of_mergeRecords (h : mergeRecords (record xs) (record ys) = .ok z) :
    ∃ zs, z = record zs := by
  rw [mergeRecords_record] at h
  obtain ⟨merged, -, rfl⟩ := map_eq_pure_iff.mp h
  exact ⟨_, rfl⟩

theorem Compatible.meets {k : List Label} (h : Compatible (record xs) (record ys)) :
    ¬Merging.records.Meets xs ys k a b := by
  intro meets
  induction meets with
  | @here xs ys l x y left right apart =>
    obtain ⟨⟨xs', rfl⟩, ys', rfl⟩ := h [l] x y (by simp [left]) (by simp [right])
    exact apart ⟨xs', ys', rfl, rfl⟩
  | deeper left right _ ih => exact ih (h.field left right)

/-- The merge of compatible records returns. -/
theorem exists_mergeRecords (h : Compatible (record xs) (record ys)) :
    ∃ zs, mergeRecords (record xs) (record ys) = .ok (record zs) := by
  obtain ⟨z, returned⟩ := (Merging.exists_reduce_iff .records xs ys).mpr fun path a b meets =>
    (h.meets meets).elim
  obtain ⟨zs, rfl⟩ := exists_record_of_mergeRecords returned
  exact ⟨zs, returned⟩

/-- At each label, the merge of compatible records joins what they have. -/
theorem joins_get? (h : Compatible (record xs) (record ys))
    (merged : mergeRecords (record xs) (record ys) = .ok (record zs)) (l : Label) :
    Joins (xs.get? l) (ys.get? l) (zs.get? l) := by
  obtain ⟨_, _, fields, same, same', traversed, rfl⟩ := mergeRecords_eq_record_iff.mp merged
  cases same
  cases same'
  have here := Entries.traverse_eq_pure_iff.mp traversed l
  rw [LabelMap.get?_union]
  cases left : xs.get? l with
  | none =>
    -- A field of the second record alone is not traversed, it is only kept by the union.
    rw [left] at here
    rw [eq_none_of_rel here]
    exact .right _
  | some x =>
    rw [left] at here
    obtain ⟨z, has, returned⟩ := exists_of_rel_some here
    rw [has]
    rcases mergeField_eq_ok_iff.mp returned with ⟨absent, rfl⟩ | ⟨y, right, -, returned⟩
    · rw [absent]
      exact .left _
    · obtain ⟨⟨xs', rfl⟩, ys', rfl⟩ := h [l] x y (by simp [left]) (by simp [right])
      obtain ⟨zs', rfl⟩ := exists_record_of_mergeRecords returned
      rw [right]
      exact .both returned

/-- The merge of compatible records is known from what it has at each label. -/
theorem mergeRecords_iff_joins (h : Compatible (record xs) (record ys)) :
    mergeRecords (record xs) (record ys) = .ok (record zs) ↔
      ∀ l, Joins (xs.get? l) (ys.get? l) (zs.get? l) := by
  refine ⟨joins_get? h, fun joins => ?_⟩
  -- The merge returns some record, which has the same at each label.
  obtain ⟨zs', merged⟩ := exists_mergeRecords h
  have same : zs' = zs := Entries.ext_get? fun l => (joins_get? h merged l).unique (joins l)
  rw [merged, same]

/-- At each path, the merge of compatible records joins what they have. -/
theorem joins_reach? (h : Compatible (record xs) (record ys))
    (merged : mergeRecords (record xs) (record ys) = .ok (record zs)) (path : List Label) :
    Joins ((record xs).reach? path) ((record ys).reach? path) ((record zs).reach? path) := by
  induction path generalizing xs ys zs with
  | nil => exact .both merged
  | cons l path ih =>
    have here := joins_get? h merged l
    rw [reach?_record, reach?_record, reach?_record]
    generalize left : xs.get? l = x? at here ⊢
    generalize right : ys.get? l = y? at here ⊢
    generalize zs.get? l = z? at here ⊢
    cases here with
    | left => exact .left _
    | right => exact .right _
    | both merged => exact ih (h.field left right) merged

/-- The leaves of a merge of compatible records are their leaves. -/
theorem reach?_leaf_iff (h : Compatible (record xs) (record ys))
    (merged : mergeRecords (record xs) (record ys) = .ok (record zs)) (leaf : e.record? = none) :
    (record zs).reach? path = some e ↔
      (record xs).reach? path = some e ∨ (record ys).reach? path = some e := by
  have joined := joins_reach? h merged path
  generalize (record xs).reach? path = x? at joined ⊢
  generalize (record ys).reach? path = y? at joined ⊢
  generalize (record zs).reach? path = z? at joined ⊢
  have noRecord (fields : LabelMap Expr) : some (record fields) ≠ some e := by
    rintro ⟨⟩
    cases leaf
  cases joined with
  | left | right => simp
  | both => simp [noRecord]

/-- What is compatible with two compatible records is so with their merge. -/
theorem Compatible.merge (h : Compatible (record xs) (record ys))
    (merged : mergeRecords (record xs) (record ys) = .ok (record ms))
    (left : Compatible (record xs) z) (right : Compatible (record ys) z) :
    Compatible (record ms) z := by
  intro path a b inMerge inThird
  have joined := joins_reach? h merged path
  rw [inMerge] at joined
  generalize first : (record xs).reach? path = x? at joined
  generalize second : (record ys).reach? path = y? at joined
  cases joined with
  | left => exact left path a b first inThird
  | right => exact right path a b second inThird
  | both => exact ⟨⟨_, rfl⟩, (left path _ b first inThird).2⟩

/-- Compatible records can be merged in either order. -/
theorem mergeRecords_comm (h : Compatible (record xs) (record ys))
    (merged : mergeRecords (record xs) (record ys) = .ok (record zs)) :
    mergeRecords (record ys) (record xs) = .ok (record zs) := by
  induction xs using Merging.fields_induction .records generalizing ys zs with | h xs ih =>
  refine (mergeRecords_iff_joins h.symm).mpr fun l => ?_
  have here := joins_get? h merged l
  generalize left : xs.get? l = x? at here ⊢
  generalize right : ys.get? l = y? at here ⊢
  generalize zs.get? l = z? at here ⊢
  cases here with
  | left => exact .right _
  | right => exact .left _
  | both merged => exact .both (ih l _ left (h.field left right) merged)

/-- Three compatible records can be merged from either side. -/
theorem mergeRecords_assoc (hxy : Compatible (record xs) (record ys))
    (hyz : Compatible (record ys) (record zs)) (hxz : Compatible (record xs) (record zs))
    (first : mergeRecords (record xs) (record ys) = .ok (record ms))
    (last : mergeRecords (record ys) (record zs) = .ok (record ns))
    (merged : mergeRecords (record ms) (record zs) = .ok (record rs)) :
    mergeRecords (record xs) (record ns) = .ok (record rs) := by
  induction xs using Merging.fields_induction .records generalizing ys zs ms ns rs with | h xs ih =>
  have onLeft : Compatible (record ms) (record zs) := hxy.merge first hxz hyz
  have onRight : Compatible (record ns) (record xs) := hyz.merge last hxy.symm hxz.symm
  refine (mergeRecords_iff_joins onRight.symm).mpr fun l => ?_
  -- Where one of the records has nothing, the merge of the two others is on both sides. Only where
  -- all three have a record does the induction have something to say.
  have m := joins_get? hxy first l
  have n := joins_get? hyz last l
  have r := joins_get? onLeft merged l
  generalize inFirst : xs.get? l = x? at m ⊢
  generalize inSecond : ys.get? l = y? at m n
  generalize inThird : zs.get? l = z? at n r
  generalize ms.get? l = m? at m r
  generalize ns.get? l = n? at n ⊢
  generalize rs.get? l = r? at r ⊢
  cases m with
  | left =>
    obtain rfl := n.of_none_left
    exact r
  | right =>
    obtain rfl := n.unique r
    exact .right _
  | both first =>
    cases r with
    | left =>
      obtain rfl := n.of_none_right
      exact .both first
    | both merged =>
      cases n with
      | both last =>
        exact .both (ih l _ inFirst (hxy.field inFirst inSecond) (hyz.field inSecond inThird)
          (hxz.field inFirst inThird) first last merged)

/-! ### Evaluation -/

theorem meets_symm {k : List Label} (h : Merging.records.Meets xs ys k a b) :
    Merging.records.Meets ys xs k b a := by
  induction h with
  | here left right apart =>
    exact .here right left fun ⟨ys', xs', isRight, isLeft⟩ => apart ⟨xs', ys', isLeft, isRight⟩
  | deeper left right _ ih => exact .deeper right left ih

/-- A merge of normal records stops if some pair that it meets does not fit. -/
theorem aborts_combine_iff (hx : (record xs).Normalizes (record xs))
    (hy : (record ys).Normalizes (record ys)) :
    (∃ v, (op .combine (record xs) (record ys)).Aborts v) ↔
      ∃ path a b, Merging.records.Meets xs ys path a b ∧ ¬Merging.records.Fits a b := by
  have returns := Merging.exists_reduce_iff .records xs ys
  have stops : (∃ v, (op .combine (record xs) (record ys)).Aborts v) ↔
      ¬∃ z, Operator.combine.reduce (record xs) (record ys) = .ok z := by
    simp only [aborts_op_iff hx hy]
    cases Operator.combine.reduce (record xs) (record ys) <;> simp
  rw [stops]
  refine (not_congr returns).trans ?_
  simp only [not_forall, exists_prop]

/-- A pair that does not fit does not fit the other way round. -/
theorem aborts_combine_swap (hx : (record xs).Normalizes (record xs))
    (hy : (record ys).Normalizes (record ys))
    (h : ∃ v, (op .combine (record xs) (record ys)).Aborts v) :
    ∃ v, (op .combine (record ys) (record xs)).Aborts v := by
  obtain ⟨path, a, b, meets, clash⟩ := (aborts_combine_iff hx hy).mp h
  exact (aborts_combine_iff hy hx).mpr
    ⟨path, b, a, meets_symm meets, fun fits => clash fits.symm⟩

/-- The recursive merge of normal records is a deep union. It stops in both orders or in none. If
the records are compatible, it returns a record with just the leaves of the two, which is the same
in both orders, and a third record that is compatible with both can be merged from either side. -/
theorem combine_deep_union (hx : (record xs).Normalizes (record xs))
    (hy : (record ys).Normalizes (record ys)) (hz : (record zs).Normalizes (record zs)) :
    ((∃ v, (op .combine (record xs) (record ys)).Aborts v) ↔
      ∃ v, (op .combine (record ys) (record xs)).Aborts v) ∧
    (Compatible (record xs) (record ys) →
      ∃ ms, (op .combine (record xs) (record ys)).Normalizes (record ms) ∧
        (∀ path e, e.record? = none → ((record ms).reach? path = some e ↔
          (record xs).reach? path = some e ∨ (record ys).reach? path = some e)) ∧
        (op .combine (record ys) (record xs)).Normalizes (record ms) ∧
        (Compatible (record ys) (record zs) → Compatible (record xs) (record zs) →
          ∃ rs, (op .combine (op .combine (record xs) (record ys)) (record zs)).Normalizes rs ∧
            (op .combine (record xs) (op .combine (record ys) (record zs))).Normalizes rs)) := by
  refine ⟨⟨aborts_combine_swap hx hy, aborts_combine_swap hy hx⟩, fun hxy => ?_⟩
  obtain ⟨ms, first⟩ := exists_mergeRecords hxy
  have inner := hx.op (o := .combine) hy first
  refine ⟨ms, inner, fun path e leaf => reach?_leaf_iff hxy first leaf,
    hy.op hx (mergeRecords_comm hxy first), fun hyz hxz => ?_⟩
  obtain ⟨ns, last⟩ := exists_mergeRecords hyz
  obtain ⟨rs, merged⟩ := exists_mergeRecords (hxy.merge first hxz hyz)
  have inner' := hy.op (o := .combine) hz last
  exact ⟨record rs, inner.op hz merged,
    hx.op inner' (mergeRecords_assoc hxy hyz hxz first last merged)⟩

/-- Three records with one field in common, which is a record with a field of its own in each. -/
theorem combine_deep_union_shared_field :
    let tree (l : Label) (n : UInt64) := record (.singleton "a" (record (.singleton l (natural n))))
    let b := tree "b" 1
    let c := tree "c" 2
    let d := tree "d" 3
    b.Normalizes b ∧ c.Normalizes c ∧ d.Normalizes d ∧
      Compatible b c ∧ Compatible c d ∧ Compatible b d ∧
      ∃ ms rs, (op .combine b c).Normalizes (record ms) ∧
        (record ms).reach? ["a", "b"] = some (natural 1) ∧
        (record ms).reach? ["a", "c"] = some (natural 2) ∧
        (op .combine c b).Normalizes (record ms) ∧
        (op .combine (op .combine b c) d).Normalizes rs ∧
        (op .combine b (op .combine c d)).Normalizes rs := by
  intro tree b c d
  have normal (l : Label) (n : UInt64) : (tree l n).Normalizes (tree l n) := ⟨4, rfl⟩
  have compatible {k l : Label} (different : k ≠ l) (m n : UInt64) :
      Compatible (tree k m) (tree l n) := by
    refine compatible_record fun _ _ _ left right => ?_
    obtain ⟨-, rfl⟩ := LabelMap.get?_singleton_eq_some.mp left
    obtain ⟨-, rfl⟩ := LabelMap.get?_singleton_eq_some.mp right
    refine ⟨⟨_, rfl⟩, ⟨_, rfl⟩, compatible_record fun _ _ _ left right => ?_⟩
    obtain ⟨rfl, -⟩ := LabelMap.get?_singleton_eq_some.mp left
    exact absurd (LabelMap.get?_singleton_eq_some.mp right).1 different.symm
  have hbc := compatible (k := "b") (l := "c") (by decide) 1 2
  have hcd := compatible (k := "c") (l := "d") (by decide) 2 3
  have hbd := compatible (k := "b") (l := "d") (by decide) 1 3
  obtain ⟨ms, merged, leaves, swapped, assoc⟩ :=
    (combine_deep_union (normal "b" 1) (normal "c" 2) (normal "d" 3)).2 hbc
  obtain ⟨rs, left, right⟩ := assoc hcd hbd
  exact ⟨normal _ _, normal _ _, normal _ _, hbc, hcd, hbd, ms, rs, merged,
    (leaves _ _ rfl).mpr (Or.inl rfl), (leaves _ _ rfl).mpr (Or.inr rfl), swapped, left, right⟩

end Expr

end Dhall
