/-
# Recursive merges of record types

A merge of record types goes down both operands where both have a record type, and compares what
they have elsewhere. As long as no type in question may still turn out to be a record type, nothing
is left for later: a merge returns if the two operands have types that agree at the end of the same
labels, and the merge is then known label by label.

Agreeing is an equivalence, and a record type agrees with record types only. So it does not matter
in which order types are compared, and of several operands each pair has to agree, whichever of
them are merged first. Of types that agree the first one is kept. Merges of the same operands in
the same order are therefore equal, and in another order they differ in names of bound variables
alone.

## Main definitions

* `Expr.Agrees` — types that a comparison finds to be equal
* `Definite` — record types in which no type may still turn out to be a record type
* `JoinsTypes` — what a merge has under a label, from what its operands have there

## Main results

* `Expr.mergeRecordTypes_iff_joins` — merges, label by label
* `Expr.mergeRecordTypes_self`, `Expr.exists_mergeRecordTypes_swap`,
  `Expr.mergeRecordTypes_assoc` — the laws of merges
* `Expr.combineTypes_laws` — the same for evaluation, which stops at mismatches only
-/

import Dhall.Proofs.Mismatch

namespace Dhall

open Dhall.Expr

namespace Expr

variable {x y z : Expr}

/-- A comparison finds two types to be equal up to names of bound variables. -/
def Agrees (x y : Expr) : Prop :=
  x.alphaEquivalent y = .ok true

theorem agrees_iff :
    Agrees x y ↔ x = y ∨ ∃ n, x.alphaNormal = .ok n ∧ y.alphaNormal = .ok n := by
  unfold Agrees alphaEquivalent
  split
  · next same => exact iff_of_true rfl (Or.inl same)
  · next different =>
    rw [or_iff_right different]
    constructor
    · intro h
      obtain ⟨n, left, h⟩ := bind_eq_pure_iff.mp h
      obtain ⟨m, right, h⟩ := bind_eq_pure_iff.mp h
      obtain rfl : n = m := of_decide_eq_true (Except.ok.inj h)
      exact ⟨n, left, right⟩
    · rintro ⟨n, left, right⟩
      rw [left, right]
      exact congrArg Except.ok (decide_eq_true rfl)

theorem Agrees.refl (x : Expr) : Agrees x x :=
  agrees_iff.mpr (Or.inl rfl)

theorem Agrees.symm (h : Agrees x y) : Agrees y x := by
  rcases agrees_iff.mp h with rfl | ⟨n, left, right⟩
  · exact .refl x
  · exact agrees_iff.mpr (Or.inr ⟨n, right, left⟩)

theorem Agrees.trans (h : Agrees x y) (h' : Agrees y z) : Agrees x z := by
  rcases agrees_iff.mp h with rfl | ⟨n, left, right⟩
  · exact h'
  · rcases agrees_iff.mp h' with rfl | ⟨m, left', right'⟩
    · exact h
    · obtain rfl : n = m := Except.ok.inj (right.symm.trans left')
      exact agrees_iff.mpr (Or.inr ⟨n, left, right'⟩)

/-- Types that agree have the same de Bruijn terms. -/
theorem Agrees.nameless (h : Agrees x y) : x.nameless = y.nameless :=
  funext fun context => (alphaEquivalent_eq_ok h context).mp rfl

/-- What agrees with a type that is no record type is none. -/
theorem Agrees.recordType?_eq_none (h : Agrees x y) (known : x.recordType? = none) :
    y.recordType? = none := by
  cases record : y.recordType? with
  | none => rfl
  | some ys =>
    obtain rfl := recordType?_eq_some.mp record
    obtain ⟨xs, rfl⟩ := eq_recordType_of_nameless (congrFun h.nameless [])
    cases known

end Expr

/-- No type in the fields of a record type, or of a record type among them, may still turn out to
be a record type. -/
inductive Definite : LabelMap Expr → Prop
  /-- The fields themselves, and those of record types among them. -/
  | intro {xs : LabelMap Expr} (field : ∀ l x, xs.get? l = some x → x.isNeutral = false)
    (nested : ∀ l xs', xs.get? l = some (recordType xs') → Definite xs') : Definite xs

/-- What a merge of record types has under a label where its operands have the first two types, if
any. -/
inductive JoinsTypes : Option Expr → Option Expr → Option Expr → Prop
  /-- The second operand has nothing there. -/
  | left (x? : Option Expr) : JoinsTypes x? none x?
  /-- The first operand has nothing there. -/
  | right (y? : Option Expr) : JoinsTypes none y? y?
  /-- Both operands have a record type there. -/
  | nested {xs ys zs : LabelMap Expr}
    (merged : mergeRecordTypes (recordType xs) (recordType ys) = .ok (recordType zs)) :
    JoinsTypes (some (recordType xs)) (some (recordType ys)) (some (recordType zs))
  /-- Both operands have types there that agree. -/
  | leaf {x y : Expr} (known : x.recordType? = none) (agrees : Agrees x y) :
    JoinsTypes (some x) (some y) (some x)

variable {x y z : Expr} {xs ys zs ms ns rs : LabelMap Expr} {l : Label} {v : Violation}

namespace Definite

theorem field (h : Definite xs) (has : xs.get? l = some x) : x.isNeutral = false := by
  cases h with
  | intro field _ => exact field l x has

theorem nested (h : Definite xs) (has : xs.get? l = some (recordType ys)) : Definite ys := by
  cases h with
  | intro _ nested => exact nested l ys has

/-- A record type with one field, for a type that is known and whose own fields are. -/
theorem singleton (known : x.isNeutral = false) (inner : ∀ ys, x = recordType ys → Definite ys) :
    Definite (.singleton l x) := by
  refine .intro (fun k y has => ?_) fun k ys has => ?_
  · obtain ⟨-, rfl⟩ := LabelMap.get?_singleton_eq_some.mp has
    exact known
  · exact inner ys (LabelMap.get?_singleton_eq_some.mp has).2

end Definite

namespace JoinsTypes

variable {x? y? z? z?' m? n? r? : Option Expr}

theorem of_none_left (h : JoinsTypes none y? z?) : z? = y? := by
  cases h with
  | left | right => rfl

theorem of_none_right (h : JoinsTypes x? none z?) : z? = x? := by
  cases h with
  | left | right => rfl

/-- What a merge has under a label is determined. -/
theorem unique (h : JoinsTypes x? y? z?) (h' : JoinsTypes x? y? z?') : z? = z?' := by
  cases h with
  | left => exact h'.of_none_right.symm
  | right => exact h'.of_none_left.symm
  | nested merged =>
    cases h' with
    | nested merged' => exact congrArg some (Except.ok.inj (merged.symm.trans merged'))
    | leaf known => cases known
  | leaf known =>
    cases h' with
    | nested => cases known
    | leaf => rfl

/-- A field of the first operand is a field of the merge. -/
theorem exists_some (h : JoinsTypes (some x) y? z?) : ∃ z, z? = some z := by
  cases h with
  | left | nested | leaf => exact ⟨_, rfl⟩

/-- A type of the merge is a type of one of the operands, or a merge of record types of both. -/
theorem origin (h : JoinsTypes x? y? (some z)) : x? = some z ∨ y? = some z ∨
    ∃ xs ys zs, x? = some (recordType xs) ∧ y? = some (recordType ys) ∧
      mergeRecordTypes (recordType xs) (recordType ys) = .ok (recordType zs) ∧
        z = recordType zs := by
  cases h with
  | left | leaf => exact Or.inl rfl
  | right => exact Or.inr (Or.inl rfl)
  | nested merged => exact Or.inr (Or.inr ⟨_, _, _, rfl, rfl, merged, rfl⟩)

/-- Where one of the types is no record type, they have to agree. -/
theorem iff_agrees (apart : ¬∃ xs ys, x = recordType xs ∧ y = recordType ys) :
    JoinsTypes (some x) (some y) (some z) ↔ Agrees x y ∧ z = x := by
  constructor
  · intro h
    cases h with
    | nested => exact (apart ⟨_, _, rfl, rfl⟩).elim
    | leaf _ agrees => exact ⟨agrees, rfl⟩
  · rintro ⟨agrees, rfl⟩
    refine .leaf ?_ agrees
    -- If one of the types were a record type, so would be the other.
    cases left : z.recordType? with
    | none => rfl
    | some xs =>
      cases right : y.recordType? with
      | none => exact left.symm.trans (agrees.symm.recordType?_eq_none right)
      | some ys =>
        exact (apart ⟨xs, ys, recordType?_eq_some.mp left, recordType?_eq_some.mp right⟩).elim

/-- Three types under one label can be merged from either side. For record types this is assumed of
the types below them. -/
theorem assoc (below : ∀ xs ys zs rs, x? = some (recordType xs) → y? = some (recordType ys) →
      z? = some (recordType zs) →
      ((∃ ms, mergeRecordTypes (recordType xs) (recordType ys) = .ok (recordType ms) ∧
        mergeRecordTypes (recordType ms) (recordType zs) = .ok (recordType rs)) ↔
      ∃ ns, mergeRecordTypes (recordType ys) (recordType zs) = .ok (recordType ns) ∧
        mergeRecordTypes (recordType xs) (recordType ns) = .ok (recordType rs))) :
    (∃ m?, JoinsTypes x? y? m? ∧ JoinsTypes m? z? r?) ↔
      ∃ n?, JoinsTypes y? z? n? ∧ JoinsTypes x? n? r? := by
  constructor
  · rintro ⟨m?, first, second⟩
    cases first with
    | left => exact ⟨z?, .right z?, second⟩
    | right => exact ⟨r?, second, .right r?⟩
    | nested merged =>
      cases second with
      | left => exact ⟨_, .left _, .nested merged⟩
      | nested merged' =>
        obtain ⟨ns, inner, outer⟩ := (below _ _ _ _ rfl rfl rfl).mp ⟨_, merged, merged'⟩
        exact ⟨_, .nested inner, .nested outer⟩
      | leaf known => cases known
    | leaf known agrees =>
      cases second with
      | left => exact ⟨_, .left _, .leaf known agrees⟩
      | nested => cases known
      | leaf _ agrees' =>
        -- The first type has been kept, so what agrees with it agrees with the second one as well.
        have last := agrees.symm.trans agrees'
        exact ⟨_, .leaf (agrees.recordType?_eq_none known) last, .leaf known agrees⟩
  · rintro ⟨n?, first, second⟩
    cases first with
    | left => exact ⟨r?, second, .left r?⟩
    | right => exact ⟨x?, .left x?, second⟩
    | nested merged =>
      cases second with
      | right => exact ⟨_, .right _, .nested merged⟩
      | nested merged' =>
        obtain ⟨ms, inner, outer⟩ := (below _ _ _ _ rfl rfl rfl).mpr ⟨_, merged, merged'⟩
        exact ⟨_, .nested inner, .nested outer⟩
      -- What agrees with a merge of record types is a record type.
      | leaf known agrees => cases agrees.recordType?_eq_none known
    | leaf known agrees =>
      cases second with
      | right => exact ⟨_, .right _, .leaf known agrees⟩
      | nested => cases known
      | leaf known' agrees' =>
        exact ⟨_, .leaf known' agrees', .leaf known' (agrees'.trans agrees)⟩

end JoinsTypes

namespace Expr

/-! ### Merges, label by label -/

/-- A merge of record types is a record type, if it returns. -/
theorem exists_recordType_of_mergeRecordTypes
    (h : mergeRecordTypes (recordType xs) (recordType ys) = .ok z) : ∃ zs, z = recordType zs := by
  rw [mergeRecordTypes_recordType] at h
  obtain ⟨merged, -, rfl⟩ := map_eq_pure_iff.mp h
  exact ⟨_, rfl⟩

/-- What becomes of one field of the first operand. -/
theorem mergeFieldType_iff_joins (hx : x.isNeutral = false) (hy : Definite ys) :
    mergeFieldType ys l x = .ok z ↔ JoinsTypes (some x) (ys.get? l) (some z) := by
  cases shared : ys.get? l with
  | none =>
    rw [mergeFieldType, shared, Except.ok.injEq]
    constructor
    · rintro rfl
      exact .left _
    · intro h
      exact (Option.some.inj h.of_none_right).symm
  | some y =>
    by_cases both : ∃ xs' ys', x = recordType xs' ∧ y = recordType ys'
    · obtain ⟨xs', ys', rfl, rfl⟩ := both
      have step : mergeFieldType ys l (recordType xs') =
          mergeRecordTypes (recordType xs') (recordType ys') :=
        Merging.mergeField_literal (k := .recordTypes) shared
      rw [step]
      constructor
      · intro merged
        obtain ⟨zs, rfl⟩ := exists_recordType_of_mergeRecordTypes merged
        exact .nested merged
      · intro h
        cases h with
        | nested merged => exact merged
        | leaf known => cases known
    · rw [JoinsTypes.iff_agrees both]
      have apart := Merging.recordType?_isSome_of_apart both
      -- Neither of the types is neutral, so there is nothing to wait for.
      have decided : ¬(x.maybeRecordType && y.maybeRecordType) = true := by
        rwa [maybeRecordType, maybeRecordType, hx, hy.field shared, Bool.or_false, Bool.or_false]
      simp only [mergeFieldType, shared, if_neg apart, if_neg decided]
      cases compared : x.alphaEquivalent y with
      | error v =>
        refine iff_of_false (fun returned => ?_) fun h => ?_
        · cases returned
        · cases compared.symm.trans h.1
      | ok same =>
        cases same with
        | true =>
          constructor
          · intro returned
            cases returned
            exact ⟨compared, rfl⟩
          · rintro ⟨-, rfl⟩
            rfl
        | false =>
          refine iff_of_false (fun returned => ?_) fun h => ?_
          · cases returned
          · cases compared.symm.trans h.1

/-- Under each label, a merge joins what its operands have. -/
theorem joins_of_mergeRecordTypes (hx : Definite xs) (hy : Definite ys)
    (merged : mergeRecordTypes (recordType xs) (recordType ys) = .ok (recordType zs)) (l : Label) :
    JoinsTypes (xs.get? l) (ys.get? l) (zs.get? l) := by
  rw [mergeRecordTypes_recordType] at merged
  obtain ⟨fields, traversed, same⟩ := map_eq_pure_iff.mp merged
  obtain rfl := Node.recordType.inj (mk.inj same)
  have here := Entries.traverse_eq_pure_iff.mp traversed l
  rw [LabelMap.get?_union]
  cases left : xs.get? l with
  | none =>
    -- A field of the second operand alone is not traversed, it is only kept by the union.
    rw [left] at here
    rw [eq_none_of_rel here]
    exact .right _
  | some x =>
    rw [left] at here
    obtain ⟨z, has, returned⟩ := exists_of_rel_some here
    rw [has]
    exact (mergeFieldType_iff_joins (hx.field left) hy).mp returned

/-- A merge returns if there is something to have under each label. -/
theorem exists_mergeRecordTypes (hx : Definite xs) (hy : Definite ys)
    (h : ∀ l, ∃ z?, JoinsTypes (xs.get? l) (ys.get? l) z?) :
    ∃ zs, mergeRecordTypes (recordType xs) (recordType ys) = .ok (recordType zs) := by
  have each (l : Label) (x : Expr) (has : xs.get? l = some x) :
      ∃ z, mergeFieldType ys l x = .ok z := by
    obtain ⟨z?, joins⟩ := h l
    rw [has] at joins
    obtain ⟨z, rfl⟩ := joins.exists_some
    exact ⟨z, (mergeFieldType_iff_joins (hx.field has) hy).mpr joins⟩
  obtain ⟨fields, traversed⟩ := Entries.exists_traverse_eq_pure (m := Except Violation) each
  refine ⟨ys.union fields, ?_⟩
  rw [mergeRecordTypes_recordType]
  exact map_eq_pure_iff.mpr ⟨fields, traversed, rfl⟩

/-- A merge is known from what it has under each label. -/
theorem mergeRecordTypes_iff_joins (hx : Definite xs) (hy : Definite ys) :
    mergeRecordTypes (recordType xs) (recordType ys) = .ok (recordType zs) ↔
      ∀ l, JoinsTypes (xs.get? l) (ys.get? l) (zs.get? l) := by
  refine ⟨joins_of_mergeRecordTypes hx hy, fun joins => ?_⟩
  -- The merge returns some record type, which has the same under each label.
  obtain ⟨zs', merged⟩ := exists_mergeRecordTypes hx hy fun l => ⟨_, joins l⟩
  have same : zs' = zs :=
    Entries.ext_get? fun l => (joins_of_mergeRecordTypes hx hy merged l).unique (joins l)
  rw [merged, same]

/-- Nothing in a merge may still turn out to be a record type. -/
theorem definite_merge (hx : Definite xs) (hy : Definite ys)
    (merged : mergeRecordTypes (recordType xs) (recordType ys) = .ok (recordType zs)) :
    Definite zs := by
  induction hx generalizing ys zs with
  | @intro xs field nested ih =>
    have joins := joins_of_mergeRecordTypes (.intro field nested) hy merged
    refine .intro (fun l z has => ?_) fun l zs' has => ?_
    · rcases (has ▸ joins l).origin with left | right | ⟨xs', ys', zs', left, right, inner, rfl⟩
      · exact field l z left
      · exact hy.field right
      · rfl
    · rcases (has ▸ joins l).origin with left | right | ⟨xs', ys', _, left, right, inner, same⟩
      · exact nested l zs' left
      · exact hy.nested right
      · cases same
        exact ih l xs' left (hy.nested right) inner

/-! ### The laws of merges -/

/-- A record type that is merged with itself stays the same. -/
theorem mergeRecordTypes_self (h : Definite xs) :
    mergeRecordTypes (recordType xs) (recordType xs) = .ok (recordType xs) := by
  induction h with
  | @intro xs field nested ih =>
    have definite : Definite xs := .intro field nested
    refine (mergeRecordTypes_iff_joins definite definite).mpr fun l => ?_
    cases has : xs.get? l with
    | none => exact .left none
    | some x =>
      cases record : x.recordType? with
      | none => exact .leaf record (.refl x)
      | some xs' =>
        obtain rfl := recordType?_eq_some.mp record
        exact .nested (ih l xs' has)

/-- Record types with the same de Bruijn terms under each label have the same ones. -/
theorem nameless_recordType
    (h : ∀ l, Option.Rel (fun x y => y.nameless = x.nameless) (xs.get? l) (ys.get? l)) :
    (recordType ys).nameless = (recordType xs).nameless := by
  obtain ⟨shapes, values⟩ := Entries.related_iff_values.mp (Entries.related_iff_get?.mpr h)
  refine nameless_congr ⟨congrArg Node.recordType shapes, ?_⟩
  rw [Node.children_recordType, Node.scopedChildren, List.forall₂_map_left_iff]
  exact values

/-- If a merge returns, then so it does in the other order, and the results differ in names of
bound variables alone. -/
theorem exists_mergeRecordTypes_swap (hx : Definite xs) (hy : Definite ys)
    (merged : mergeRecordTypes (recordType xs) (recordType ys) = .ok (recordType zs)) :
    ∃ zs', mergeRecordTypes (recordType ys) (recordType xs) = .ok (recordType zs') ∧
      (recordType zs').nameless = (recordType zs).nameless := by
  induction hx generalizing ys zs with
  | @intro xs field nested ih =>
    have hx : Definite xs := .intro field nested
    have joins := joins_of_mergeRecordTypes hx hy merged
    have swapped (l : Label) : ∃ z?, JoinsTypes (ys.get? l) (xs.get? l) z? ∧
        Option.Rel (fun z z' => z'.nameless = z.nameless) (zs.get? l) z? := by
      have unchanged (z? : Option Expr) :
          Option.Rel (fun z z' : Expr => z'.nameless = z.nameless) z? z? := by
        cases z? with
        | none => exact .none
        | some z => exact .some rfl
      have here := joins l
      generalize left : xs.get? l = x? at here ⊢
      generalize right : ys.get? l = y? at here ⊢
      generalize zs.get? l = z? at here ⊢
      cases here with
      | left => exact ⟨x?, .right x?, unchanged x?⟩
      | right => exact ⟨y?, .left y?, unchanged y?⟩
      | nested inner =>
        obtain ⟨zs', outer, same⟩ := ih l _ left (hy.nested right) inner
        exact ⟨_, .nested outer, .some same⟩
      | leaf known agrees =>
        -- Each order keeps the type of its first operand: this is where the names may differ.
        exact ⟨_, .leaf (agrees.recordType?_eq_none known) agrees.symm, .some agrees.nameless.symm⟩
    obtain ⟨zs', merged'⟩ := exists_mergeRecordTypes hy hx fun l =>
      (swapped l).imp fun _ => And.left
    refine ⟨zs', merged', nameless_recordType fun l => ?_⟩
    obtain ⟨z?, joins', same⟩ := swapped l
    rwa [(joins_of_mergeRecordTypes hy hx merged' l).unique joins']

/-- What is merged from the left, label by label. -/
theorem mergeRecordTypes_left_iff (hx : Definite xs) (hy : Definite ys) (hz : Definite zs) :
    (∃ ms, mergeRecordTypes (recordType xs) (recordType ys) = .ok (recordType ms) ∧
      mergeRecordTypes (recordType ms) (recordType zs) = .ok (recordType rs)) ↔
    ∀ l, ∃ m?, JoinsTypes (xs.get? l) (ys.get? l) m? ∧
      JoinsTypes m? (zs.get? l) (rs.get? l) := by
  constructor
  · rintro ⟨ms, first, second⟩ l
    exact ⟨ms.get? l, joins_of_mergeRecordTypes hx hy first l,
      joins_of_mergeRecordTypes (definite_merge hx hy first) hz second l⟩
  · intro joins
    obtain ⟨ms, first⟩ := exists_mergeRecordTypes hx hy fun l => (joins l).imp fun _ => And.left
    refine ⟨ms, first, ?_⟩
    refine (mergeRecordTypes_iff_joins (definite_merge hx hy first) hz).mpr fun l => ?_
    obtain ⟨m?, inner, outer⟩ := joins l
    rwa [(joins_of_mergeRecordTypes hx hy first l).unique inner]

/-- What is merged from the right, label by label. -/
theorem mergeRecordTypes_right_iff (hx : Definite xs) (hy : Definite ys) (hz : Definite zs) :
    (∃ ns, mergeRecordTypes (recordType ys) (recordType zs) = .ok (recordType ns) ∧
      mergeRecordTypes (recordType xs) (recordType ns) = .ok (recordType rs)) ↔
    ∀ l, ∃ n?, JoinsTypes (ys.get? l) (zs.get? l) n? ∧
      JoinsTypes (xs.get? l) n? (rs.get? l) := by
  constructor
  · rintro ⟨ns, first, second⟩ l
    exact ⟨ns.get? l, joins_of_mergeRecordTypes hy hz first l,
      joins_of_mergeRecordTypes hx (definite_merge hy hz first) second l⟩
  · intro joins
    obtain ⟨ns, first⟩ := exists_mergeRecordTypes hy hz fun l => (joins l).imp fun _ => And.left
    refine ⟨ns, first, ?_⟩
    refine (mergeRecordTypes_iff_joins hx (definite_merge hy hz first)).mpr fun l => ?_
    obtain ⟨n?, inner, outer⟩ := joins l
    rwa [(joins_of_mergeRecordTypes hy hz first l).unique inner]

/-- Merges of three record types return the same from either side. -/
theorem mergeRecordTypes_assoc (hx : Definite xs) (hy : Definite ys) (hz : Definite zs) :
    (∃ ms, mergeRecordTypes (recordType xs) (recordType ys) = .ok (recordType ms) ∧
      mergeRecordTypes (recordType ms) (recordType zs) = .ok (recordType rs)) ↔
    ∃ ns, mergeRecordTypes (recordType ys) (recordType zs) = .ok (recordType ns) ∧
      mergeRecordTypes (recordType xs) (recordType ns) = .ok (recordType rs) := by
  induction hx generalizing ys zs rs with
  | @intro xs field nested ih =>
    have hx : Definite xs := .intro field nested
    -- Both sides are compared under each label, where the induction is about three record types.
    rw [mergeRecordTypes_left_iff hx hy hz, mergeRecordTypes_right_iff hx hy hz]
    refine forall_congr' fun l => JoinsTypes.assoc ?_
    intro xs' ys' zs' rs' left middle right
    exact ih l xs' left (hy.nested middle) (hz.nested right)

/-! ### Evaluation -/

/-- The expression evaluates to a record type, or its evaluation stops at a mismatch of types or at
an overflow. -/
def MergesOrMismatches (e : Expr) : Prop :=
  (∃ xs, e.Normalizes (recordType xs)) ∨
    ∃ v : Violation, e.Aborts v ∧ (v.IsOverflow ∨ ∃ l x y, v = .recordTypeMismatch l x y)

/-- A merge of normal record types stops at mismatches only. -/
theorem mismatch_of_mergeRecordTypes (hx : Settled (recordType xs)) (hy : Settled (recordType ys))
    (h : mergeRecordTypes (recordType xs) (recordType ys) = .error v) :
    v.IsOverflow ∨ ∃ l x y, v = .recordTypeMismatch l x y := by
  obtain ⟨path, l, x, y, -, meets, stops, -⟩ :=
    (Merging.reduce_eq_error_iff .recordTypes xs ys v).mp h
  obtain ⟨left, right⟩ := meets.settled hx hy
  rcases stops with overflow | ⟨-, mismatch⟩
  · exact Or.inl ((ensures_compared left right).stopped overflow)
  · exact Or.inr ⟨l, x, y, mismatch⟩

/-- Merges may be nested: the first of them that stops is where the evaluation stops. -/
theorem MergesOrMismatches.combineTypes {e f : Expr} (he : e.MergesOrMismatches)
    (hf : f.MergesOrMismatches) : (op .combineTypes e f).MergesOrMismatches := by
  rcases he with ⟨xs, left⟩ | ⟨v, stops, why⟩
  · rcases hf with ⟨ys, right⟩ | ⟨v, stops, why⟩
    · cases merged : mergeRecordTypes (recordType xs) (recordType ys) with
      | ok z =>
        obtain ⟨zs, rfl⟩ := exists_recordType_of_mergeRecordTypes merged
        exact Or.inl ⟨zs, left.op right merged⟩
      | error v =>
        refine Or.inr ⟨v, (aborts_op_iff left right).mpr merged, ?_⟩
        exact mismatch_of_mergeRecordTypes (settled_of_normalizes left)
          (settled_of_normalizes right) merged
    · exact Or.inr ⟨v, .op_right left stops, why⟩
  · exact Or.inr ⟨v, stops.op_left f, why⟩

/-- Operands that evaluate to record types have the normal forms of their merge. -/
theorem normalizes_combineTypes_iff {e f r : Expr} (left : e.Normalizes (recordType xs))
    (right : f.Normalizes (recordType ys)) : (op .combineTypes e f).Normalizes r ↔
      ∃ zs, r = recordType zs ∧
        mergeRecordTypes (recordType xs) (recordType ys) = .ok (recordType zs) := by
  rw [normalizes_op_iff]
  constructor
  · rintro ⟨x, y, left', right', merged⟩
    obtain rfl := left'.unique left
    obtain rfl := right'.unique right
    obtain ⟨zs, rfl⟩ := exists_recordType_of_mergeRecordTypes merged
    exact ⟨zs, rfl, merged⟩
  · rintro ⟨zs, rfl, merged⟩
    exact ⟨_, _, left, right, merged⟩

/-- A merge that returns also returns in the other order, up to names of bound variables. -/
theorem exists_normalizes_swap (hx : (recordType xs).Normalizes (recordType xs))
    (hy : (recordType ys).Normalizes (recordType ys)) (dx : Definite xs) (dy : Definite ys)
    {r : Expr} (h : (op .combineTypes (recordType xs) (recordType ys)).Normalizes r) :
    ∃ s, (op .combineTypes (recordType ys) (recordType xs)).Normalizes s ∧
      s.nameless = r.nameless := by
  obtain ⟨zs, rfl, merged⟩ := (normalizes_combineTypes_iff hx hy).mp h
  obtain ⟨zs', swapped, same⟩ := exists_mergeRecordTypes_swap dx dy merged
  exact ⟨_, hy.op (o := .combineTypes) hx swapped, same⟩

/-- Three record types have the same merges from either side. -/
theorem normalizes_assoc_iff (hx : (recordType xs).Normalizes (recordType xs))
    (hy : (recordType ys).Normalizes (recordType ys))
    (hz : (recordType zs).Normalizes (recordType zs))
    (dx : Definite xs) (dy : Definite ys) (dz : Definite zs) (r : Expr) :
    (op .combineTypes (op .combineTypes (recordType xs) (recordType ys)) (recordType zs)).Normalizes
        r ↔
      (op .combineTypes (recordType xs)
        (op .combineTypes (recordType ys) (recordType zs))).Normalizes r := by
  -- An operand of the outer merge has the normal form of the inner one, if any.
  constructor
  · intro h
    obtain ⟨m, -, inner, -, -⟩ := normalizes_op_iff.mp h
    obtain ⟨ms, rfl, first⟩ := (normalizes_combineTypes_iff hx hy).mp inner
    obtain ⟨rs, rfl, second⟩ := (normalizes_combineTypes_iff inner hz).mp h
    obtain ⟨ns, first', second'⟩ := (mergeRecordTypes_assoc dx dy dz).mp ⟨ms, first, second⟩
    exact hx.op (hy.op (o := .combineTypes) hz first') second'
  · intro h
    obtain ⟨-, n, -, inner, -⟩ := normalizes_op_iff.mp h
    obtain ⟨ns, rfl, first⟩ := (normalizes_combineTypes_iff hy hz).mp inner
    obtain ⟨rs, rfl, second⟩ := (normalizes_combineTypes_iff hx inner).mp h
    obtain ⟨ms, first', second'⟩ := (mergeRecordTypes_assoc dx dy dz).mpr ⟨ns, first, second⟩
    exact (hx.op (o := .combineTypes) hy first').op hz second'

/-- The merge of record types is idempotent, commutative and associative, as long as none of their
types may still turn out to be a record type. In either order it returns or stops, and the results
are equal up to names of bound variables; from either side three operands have the same results.
Where it does not return, there is a mismatch or an overflow. -/
theorem combineTypes_laws (hx : (recordType xs).Normalizes (recordType xs))
    (hy : (recordType ys).Normalizes (recordType ys))
    (hz : (recordType zs).Normalizes (recordType zs))
    (dx : Definite xs) (dy : Definite ys) (dz : Definite zs) :
    let join := op .combineTypes
    let X := recordType xs
    let Y := recordType ys
    let Z := recordType zs
    (join X X).Normalizes X ∧
    ((∃ r, (join X Y).Normalizes r) ↔ ∃ s, (join Y X).Normalizes s) ∧
    (∀ r s, (join X Y).Normalizes r → (join Y X).Normalizes s → r.nameless = s.nameless ∧
      (r.alphaEquivalent s = .ok true ∨
        ∃ v : Violation, v.IsOverflow ∧ r.alphaEquivalent s = .error v)) ∧
    (∀ r, (join (join X Y) Z).Normalizes r ↔ (join X (join Y Z)).Normalizes r) ∧
    ∀ e ∈ [join X Y, join Y X, join (join X Y) Z, join X (join Y Z)],
      (∃ r, e.Normalizes r) ∨ ∃ v : Violation, e.Aborts v ∧
        (v.IsOverflow ∨ ∃ l x y, v = .recordTypeMismatch l x y) := by
  intro join X Y Z
  refine ⟨hx.op hx (mergeRecordTypes_self dx), ⟨?_, ?_⟩, fun r s left right => ?_,
    normalizes_assoc_iff hx hy hz dx dy dz, fun e member => ?_⟩
  · rintro ⟨r, h⟩
    exact (exists_normalizes_swap hx hy dx dy h).imp fun _ => And.left
  · rintro ⟨s, h⟩
    exact (exists_normalizes_swap hy hx dy dx h).imp fun _ => And.left
  -- The merge in the other order has only one normal form.
  · obtain ⟨s', swapped, same⟩ := exists_normalizes_swap hx hy dx dy left
    obtain rfl := right.unique swapped
    exact ⟨same.symm, agrees_or_overflows (settled_of_normalizes left)
      (settled_of_normalizes right) same.symm⟩
  -- All four expressions are built from record types by merges.
  · have mergesX : X.MergesOrMismatches := Or.inl ⟨xs, hx⟩
    have mergesY : Y.MergesOrMismatches := Or.inl ⟨ys, hy⟩
    have mergesZ : Z.MergesOrMismatches := Or.inl ⟨zs, hz⟩
    have merges : e.MergesOrMismatches := by
      simp only [List.mem_cons, List.not_mem_nil, or_false] at member
      rcases member with rfl | rfl | rfl | rfl
      · exact mergesX.combineTypes mergesY
      · exact mergesY.combineTypes mergesX
      · exact (mergesX.combineTypes mergesY).combineTypes mergesZ
      · exact mergesX.combineTypes (mergesY.combineTypes mergesZ)
    exact merges.imp_left fun ⟨rs, h⟩ => ⟨_, h⟩

/-- Three record types that share a field below a field, with a function type whose variable has
another name in each. -/
theorem combineTypes_laws_renamed :
    let join := op .combineTypes
    let X (x : Label) := recordType
      (.singleton "a" (recordType (.singleton "b" (pi x (builtin .natural) (builtin .bool)))))
    (join (X "x") (X "x")).Normalizes (X "x") ∧
      (join (X "x") (X "y")).Normalizes (X "x") ∧ (join (X "y") (X "x")).Normalizes (X "y") ∧
      (X "x").alphaEquivalent (X "y") = .ok true ∧ X "x" ≠ X "y" ∧
      (join (join (X "x") (X "y")) (X "z")).Normalizes (X "x") ∧
      (join (X "x") (join (X "y") (X "z"))).Normalizes (X "x") := by
  intro join X
  have normal (x : Label) : (X x).Normalizes (X x) := ⟨6, rfl⟩
  have leaf (x : Label) : Definite (.singleton "b" (pi x (builtin .natural) (builtin .bool))) :=
    .singleton rfl nofun
  have definite (x : Label) : Definite
      (.singleton "a" (recordType (.singleton "b" (pi x (builtin .natural) (builtin .bool))))) := by
    refine .singleton rfl ?_
    rintro _ ⟨⟩
    exact leaf x
  obtain ⟨self, -, same, assoc, -⟩ := combineTypes_laws (normal "x") (normal "y") (normal "z")
    (definite "x") (definite "y") (definite "z")
  have field {x y : Expr} (l : Label) (h : JoinsTypes (some x) (some y) (some x)) (k : Label) :
      JoinsTypes ((LabelMap.singleton l x).get? k) ((LabelMap.singleton l y).get? k)
        ((LabelMap.singleton l x).get? k) := by
    simp only [LabelMap.singleton, Entries.get?_cons]
    split
    · exact h
    · exact .left none
  -- Below two fields the function types agree up to the name of their variable.
  have merged (x y : Label) (agrees : Agrees (pi x (builtin .natural) (builtin .bool))
      (pi y (builtin .natural) (builtin .bool))) : mergeRecordTypes (X x) (X y) = .ok (X x) := by
    have inner := (mergeRecordTypes_iff_joins (leaf x) (leaf y)).mpr (field "b" (.leaf rfl agrees))
    exact (mergeRecordTypes_iff_joins (definite x) (definite y)).mpr (field "a" (.nested inner))
  have left : (join (X "x") (X "y")).Normalizes (X "x") :=
    (normal "x").op (normal "y") (merged "x" "y" rfl)
  have right : (join (X "y") (X "x")).Normalizes (X "y") :=
    (normal "y").op (normal "x") (merged "y" "x" rfl)
  have three : (join (join (X "x") (X "y")) (X "z")).Normalizes (X "x") :=
    left.op (normal "z") (merged "x" "z" rfl)
  refine ⟨self, left, right, ?_, by decide, three, (assoc _).mp three⟩
  rcases (same _ _ left right).2 with equal | ⟨v, -, stopped⟩
  · exact equal
  · cases stopped

end Expr

end Dhall
