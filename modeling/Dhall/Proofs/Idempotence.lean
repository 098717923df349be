/-
# Normalizing normal forms

The rules of evaluation leave stuck expressions as they are, with one exception: the types
of fields that are merged may leave a merge of record types with an empty operand, which
evaluation would drop. So a normal form without such a merge is its own normal form, and
so is every expression within it; and where there is such a merge, it is not its own
normal form.

## Main definitions

* `Expr.EmptyMerge` — a merge of record types with an empty operand

## Main results

* `Expr.step_of_stuck` — stuck expressions with fixed children are fixed
* `Expr.normalizes_self_iff` — which normal forms stay the same when they are normalized again
-/

import Dhall.Proofs.Fuel
import Dhall.Proofs.NormalForm

namespace Dhall

/-! ### Rules on stuck expressions -/

namespace Text

variable {α : Type}

theorem ofPieces_literalPieces (s : String) (pieces : List (Piece α)) :
    ofPieces (literalPieces s ++ pieces) =
      ⟨s ++ (ofPieces pieces).head, (ofPieces pieces).tail⟩ := by
  unfold literalPieces
  split
  · next empty =>
    rw [empty, String.empty_append]
    rfl
  · rfl

/-- A literal is put together again from its pieces. -/
theorem ofPieces_pieces (t : Text α) : ofPieces t.pieces = t := by
  have interpolations (tail : List (α × String)) :
      ofPieces (tail.flatMap fun p => .interpolation p.1 :: literalPieces p.2) = ⟨"", tail⟩ := by
    induction tail with
    | nil => rfl
    | cons p tail ih =>
      obtain ⟨a, s⟩ := p
      rw [List.flatMap_cons, List.cons_append, ofPieces, ofPieces_literalPieces, ih,
        String.append_empty]
  rw [pieces, ofPieces_literalPieces, interpolations, String.append_empty]

end Text

namespace Expr

variable {eval : Expr → Eval Expr} {e f a x y type : Expr} {l : Label} {n : Node Expr}

theorem ofPieces_of_stuck {t : Text Expr} (h : Stuck (text t)) : ofPieces t.pieces = text t := by
  have spliced : t.pieces.flatMap splicePiece = t.pieces := by
    have single (piece : Text.Piece Expr) (member : piece ∈ t.pieces) :
        splicePiece piece = [piece] := by
      unfold splicePiece
      split
      · next u => exact absurd (mem_values_of_interpolation_mem member) (h.1 u)
      · rfl
    rw [List.flatMap_congr single, List.flatMap_singleton']
  rw [ofPieces, spliced, Text.ofPieces_pieces]
  unfold ofText
  split
  · next head e last =>
    rw [if_neg]
    rintro ⟨rfl, rfl⟩
    exact h.2 e rfl
  · rfl

theorem choose_of_stuck {condition yes no : Expr} (h : Stuck (ifThenElse condition yes no)) :
    choose condition yes no = .ok (ifThenElse condition yes no) := by
  obtain ⟨unknown, different, differ⟩ := h
  simp only [choose, unknown, if_neg different, differ]
  rfl

theorem mergeRecords_of_stuck (h : Operator.Stuck x y .combine) :
    mergeRecords x y = .ok (op .combine x y) := by
  obtain ⟨filledX, filledY, unknown⟩ := h
  unfold mergeRecords
  split
  · next xs =>
    have filled : xs.isEmpty = false := by
      cases xs with
      | nil => exact absurd rfl filledX
      | cons => rfl
    rw [unknown.resolve_left nofun]
    simp only [filled]
    rfl
  · split
    · next empty => exact absurd empty filledY
    · rfl

theorem mergeRecordTypes_of_stuck (h : Operator.Stuck x y .combineTypes)
    (filled : recordType .nil ∉ [x, y]) : mergeRecordTypes x y = .ok (op .combineTypes x y) := by
  simp only [List.mem_cons, List.not_mem_nil, or_false, not_or] at filled
  unfold mergeRecordTypes
  split
  · next xs =>
    have filled : xs.isEmpty = false := by
      cases xs with
      | nil => exact absurd rfl filled.1
      | cons => rfl
    rw [h.resolve_left nofun]
    simp only [filled]
    rfl
  · split
    · next empty => exact absurd (recordType?_eq_some.mp empty).symm filled.2
    · rfl

end Expr

namespace Operator

open Dhall.Expr

variable {x y : Expr}

/-- Views of which one is unknown are not both known. -/
theorem not_both {α : Type} {a? b? : Option α} {a b : α} (h : a? = none ∨ b? = none)
    (first : a? = some a) (second : b? = some b) : False := by
  rcases h with unknown | unknown
  · cases unknown.symm.trans first
  · cases unknown.symm.trans second

theorem reduceEqual_of_stuck (h : Operator.Stuck x y .equal) :
    reduceEqual x y = .ok (op .equal x y) := by
  obtain ⟨left, right, unknown, differ⟩ := h
  unfold reduceEqual
  split
  · next known => exact absurd known left
  · next known _ => exact absurd known right
  · next first second => exact (not_both unknown first second).elim
  · rw [differ]
    rfl

theorem reduceNotEqual_of_stuck (h : Operator.Stuck x y .notEqual) :
    reduceNotEqual x y = .ok (op .notEqual x y) := by
  obtain ⟨left, right, unknown, differ⟩ := h
  unfold reduceNotEqual
  split
  · next known => exact absurd known left
  · next known _ => exact absurd known right
  · next first second => exact (not_both unknown first second).elim
  · rw [differ]
    rfl

theorem reducePlus_of_stuck (h : Operator.Stuck x y .plus) : reducePlus x y = op .plus x y := by
  obtain ⟨left, right, large⟩ := h
  unfold reducePlus
  rw [if_neg left, if_neg right]
  split
  · next m n first second => exact if_neg (large m n first second)
  · rfl

theorem reduceTimes_of_stuck (h : Operator.Stuck x y .times) :
    reduceTimes x y = op .times x y := by
  obtain ⟨zeroLeft, zeroRight, oneLeft, oneRight, large⟩ := h
  unfold reduceTimes
  rw [if_neg (not_or.mpr ⟨zeroLeft, zeroRight⟩), if_neg oneLeft, if_neg oneRight]
  split
  · next m n first second => exact if_neg (large m n first second)
  · rfl

theorem reduceListAppend_of_stuck (h : Operator.Stuck x y .listAppend) :
    reduceListAppend x y = op .listAppend x y := by
  obtain ⟨left, right, unknown⟩ := h
  unfold reduceListAppend
  split
  · exact absurd rfl (left _)
  · exact absurd rfl (right _)
  · exact absurd rfl (unknown _ _ rfl)
  · rfl

theorem reducePrefer_of_stuck (h : Operator.Stuck x y .prefer) :
    reducePrefer x y = .ok (op .prefer x y) := by
  obtain ⟨left, right, unknown, differ⟩ := h
  unfold reducePrefer
  split
  · next empty => exact absurd empty right
  · next empty _ => exact absurd empty left
  · next first second => exact (not_both unknown first second).elim
  · rw [differ]
    rfl

/-- Operators leave what is stuck as it is, but for merges of record types. -/
theorem reduce_of_stuck {o : Operator} (h : o.Stuck x y)
    (filled : o = .combineTypes → recordType .nil ∉ [x, y]) : o.reduce x y = .ok (op o x y) := by
  cases o with
  | and =>
    obtain ⟨left, right, differ⟩ := h
    simp only [reduce, reduceAnd, left, right, differ]
    rfl
  | or =>
    obtain ⟨left, right, differ⟩ := h
    simp only [reduce, reduceOr, left, right, differ]
    rfl
  | equal => exact reduceEqual_of_stuck h
  | notEqual => exact reduceNotEqual_of_stuck h
  | plus => exact congrArg Except.ok (reducePlus_of_stuck h)
  | times => exact congrArg Except.ok (reduceTimes_of_stuck h)
  | textAppend => exact h.elim
  | listAppend => exact congrArg Except.ok (reduceListAppend_of_stuck h)
  | prefer => exact reducePrefer_of_stuck h
  | combine => exact mergeRecords_of_stuck h
  | combineTypes => exact mergeRecordTypes_of_stuck h (filled rfl)
  | equivalent | alternative => rfl

end Operator

namespace Expr

variable {eval : Expr → Eval Expr} {e f a x y type : Expr} {l : Label} {n : Node Expr}

theorem select_of_stuck (h : e.FieldStuck l) : e.select l = field e l := by
  unfold FieldStuck at h
  split at h
  · next fields => simp only [select, h]
  · exact h.elim
  · exact h.elim
  · next x y =>
    obtain ⟨right, only⟩ := h
    cases left : x.record? with
    | none => simp only [select, left, right]
    | some xs =>
      -- A literal with no other field is cut down to itself.
      obtain ⟨value, rfl⟩ := only xs left
      have has : (LabelMap.singleton l value).get? l = some value := if_pos rfl
      simp only [select, left, right, has]
      rw [record?_eq_some.mp left]
  · next x y =>
    obtain ⟨onlyX, onlyY⟩ := h
    cases left : x.record? with
    | none =>
      cases right : y.record? with
      | none => simp only [select, left, right]
      | some ys =>
        obtain ⟨value, rfl⟩ := onlyY ys right
        have has : (LabelMap.singleton l value).get? l = some value := if_pos rfl
        simp only [select, left, right, has]
        rw [record?_eq_some.mp right]
    | some xs =>
      obtain ⟨value, rfl⟩ := onlyX xs left
      have has : (LabelMap.singleton l value).get? l = some value := if_pos rfl
      simp only [select, left, has]
      rw [record?_eq_some.mp left]
  · next notRecord notProject notProjectType notPrefer notCombine =>
    exact select_eq_field notRecord notProject notProjectType notPrefer notCombine

theorem selectAll_of_stuck {labels : LabelSet} (h : Stuck (project e labels)) :
    e.selectAll labels = .ok (project e labels) := by
  obtain ⟨some, stuck⟩ := h
  rw [selectAll.eq_def]
  split
  · exact absurd rfl some
  · exact stuck.elim
  · exact stuck.elim
  · next x y =>
    split
    · next fields known => cases known.symm.trans stuck
    · rfl
  · rfl

theorem selectByType_of_stuck (h : Stuck (projectType e type)) :
    e.selectByType type = .ok (projectType e type) := by
  have unknown : type.recordType? = none := h
  unfold selectByType
  rw [unknown]

theorem toEntries_of_stuck {type : Option Expr} (h : Stuck (toMap e type)) :
    e.toEntries type = toMap e type := by
  unfold toEntries
  split
  · next known => cases (h _ known).2
  · next known => rw [record?_eq_some.mp known]
  · next fields known notSome notNone =>
    obtain ⟨rfl, rfl⟩ := h fields known
    exact (notNone rfl rfl).elim
  · rfl

theorem applyTo_of_stuck (h : Stuck (app f a)) : f.applyTo eval a = pure (app f a) := by
  unfold applyTo
  split
  · exact absurd rfl (h.1 _ _ _)
  · split
    · next b args spine =>
      rw [h.2 b args spine eval]
      rfl
    · rfl

theorem mergeVariant_of_stuck {handlers variant : Expr} {type : Option Expr}
    (h : Stuck (merge handlers variant type)) :
    mergeVariant eval handlers variant type = pure (merge handlers variant type) := by
  unfold mergeVariant
  split
  · next known => rw [h _ _ known rfl]
  · next known => rw [h _ _ known rfl]
  · next known => rw [h _ _ known rfl]
  · next known => rw [h _ _ known rfl]
  · rfl

/-! ### Fields in common -/

/-- The types of a field that both record types have are kept as a merge, and one of them may
be empty, unless both are known or they agree. -/
theorem mergeRecordTypes_singleton (l : Label) (unknown : y.recordType? = none)
    (differ : x.alphaEquivalent y = .ok false) (maybe : x.maybeRecordType && y.maybeRecordType) :
    mergeRecordTypes (recordType (.singleton l x)) (recordType (.singleton l y)) =
      .ok (recordType (.singleton l (op .combineTypes x y))) := by
  have merged : mergeFieldTypes (LabelMap.singleton l x) (LabelMap.singleton l y) =
      .ok (LabelMap.singleton l (op .combineTypes x y)) := by
    have shared : (LabelMap.singleton l y).get? l = some y := if_pos rfl
    rw [LabelMap.singleton, mergeFieldTypes, shared]
    simp only [unknown, differ, mergeFieldTypes]
    rw [if_pos maybe, Option.isSome_none, Bool.and_false]
    rfl
  rw [mergeRecordTypes]
  simp only [recordType?, merged]
  exact congrArg (fun fields => Except.ok (recordType fields)) (LabelMap.union_singleton l _ _)

/-! ### Fixed points -/

/-- A merge of record types that has an empty operand. Evaluation drops such an operand, but
the merge of two record types leaves it in the type of a field. -/
inductive EmptyMerge : Expr → Prop
  /-- One of the operands is the empty record type. -/
  | intro {x y : Expr} (empty : recordType .nil ∈ [x, y]) : EmptyMerge (op .combineTypes x y)

/-- A type that may be missing evaluates to itself if it does where it is there. -/
theorem optional_of_fixed {type : Option Expr} (fixed : ∀ t ∈ type, eval t = pure t) :
    type.mapM eval = pure type := by
  cases type with
  | none => rfl
  | some t =>
    rw [Option.mapM_some, fixed t rfl]
    rfl

/-- The pieces of a text evaluate to themselves if the interpolations do. -/
theorem pieces_of_fixed {t : Text Expr} (fixed : ∀ c ∈ t.values, eval c = pure c) :
    t.pieces.mapM (Text.Piece.traverse eval) = pure t.pieces := by
  refine mapM_eq_pure_iff.mpr (List.forall₂_same.mpr fun piece member => ?_)
  cases piece with
  | literal s => rfl
  | interpolation e =>
    rw [Text.Piece.traverse, fixed e (mem_values_of_interpolation_mem member)]
    rfl

/-- One step leaves a stuck expression as it is, if its parts evaluate to themselves. -/
theorem step_of_stuck (h : Stuck (mk n)) (filled : ¬EmptyMerge (mk n))
    (fixed : ∀ c ∈ n.children, eval c = pure c) : step eval (mk n) = pure (mk n) := by
  by_cases inert : n.isInert
  · rw [step_inert inert]
    refine map_eq_pure_iff.mpr ⟨n, ?_, rfl⟩
    exact Node.traverse_eq_pure_iff.mpr
      (Node.similar_self fun p member => fixed p.2 (List.mem_map_of_mem member))
  -- A construct that is not kept is rebuilt by its rule, which finds nothing to do.
  · cases n with
    | app f a =>
      have hf := fixed f (.head _)
      have ha := fixed a (.tail _ (.head _))
      simp only [step, hf, ha, pure_bind, applyTo_of_stuck h]
    | letIn | annot | embed => exact h.elim
    | text t =>
      have values : ∀ c ∈ t.values, eval c = pure c := by
        intro c member
        exact fixed c (by simpa [Node.children, Node.scopedChildren] using member)
      simp only [step, pieces_of_fixed values, pure_bind, ofPieces_of_stuck h]
    | ifThenElse condition yes no =>
      have hc := fixed condition (.head _)
      have hy := fixed yes (.tail _ (.head _))
      have hn := fixed no (.tail _ (.tail _ (.head _)))
      simp only [step, hc, hy, hn, pure_bind, choose_of_stuck h]
      rfl
    | op o x y =>
      have hx := fixed x (.head _)
      have hy := fixed y (.tail _ (.head _))
      have kept : o = .combineTypes → recordType .nil ∉ [x, y] := by
        rintro rfl empty
        exact filled ⟨empty⟩
      simp only [step, hx, hy, pure_bind, Operator.reduce_of_stuck h kept]
      rfl
    | field e l =>
      have he := fixed e (.head _)
      simp only [step, he, pure_bind, select_of_stuck h]
    | project e labels =>
      have he := fixed e (.head _)
      simp only [step, he, pure_bind, selectAll_of_stuck h]
      rfl
    | projectType e type =>
      have he := fixed e (.head _)
      have ht := fixed type (.tail _ (.head _))
      simp only [step, he, ht, pure_bind, selectByType_of_stuck h]
      rfl
    | toMap e type =>
      have he := fixed e (.head _)
      have ht : type.mapM eval = pure type := by
        refine optional_of_fixed fun t member => fixed t ?_
        simp [Node.children, Node.scopedChildren, Option.mem_def.mp member]
      simp only [step, he, ht, pure_bind, toEntries_of_stuck h]
    | merge handlers variant type =>
      have hh := fixed handlers (.head _)
      have hv := fixed variant (.tail _ (.head _))
      have ht : type.mapM eval = pure type := by
        refine optional_of_fixed fun t member => fixed t ?_
        simp [Node.children, Node.scopedChildren, Option.mem_def.mp member]
      simp only [step, hh, hv, ht, pure_bind, mergeVariant_of_stuck h]
    | _ => exact absurd rfl inert

/-- With fuel for each of its nodes, a settled expression without such merges evaluates to
itself. -/
theorem normalize_eq_self {fuel : Nat} (h : Settled e) (filled : Everywhere (¬EmptyMerge ·) e)
    (enough : e.size ≤ fuel) : e.normalize fuel = pure e := by
  induction e using induction generalizing fuel with
  | step n ih =>
    have positive := size_pos (mk n)
    obtain ⟨fuel, rfl⟩ : ∃ k, fuel = k + 1 := ⟨fuel - 1, by omega⟩
    refine step_of_stuck h.stuck filled.here fun c member => ?_
    have smaller := size_lt_of_mem member
    exact ih c member (h.child member) (filled.child member) (by omega)

/-- A settled expression without such merges is its own normal form. -/
theorem Settled.normalizes_self (h : Settled e) (filled : Everywhere (¬EmptyMerge ·) e) :
    e.Normalizes e :=
  ⟨e.size, congrArg Eval.outcome? (normalize_eq_self h filled (Nat.le_refl _))⟩

/-- A merge of record types that has an empty operand does not stay as it is. -/
theorem EmptyMerge.mergeRecordTypes_ne (empty : EmptyMerge (op .combineTypes x y)) :
    mergeRecordTypes x y ≠ .ok (op .combineTypes x y) := by
  intro kept
  -- The operand that is left over is smaller than the merge.
  have smaller {c : Expr} (member : c ∈ [x, y]) : c ≠ op .combineTypes x y := fun same =>
    Nat.ne_of_lt (size_lt_of_mem (n := .op .combineTypes x y) member) (congrArg size same)
  obtain ⟨empty⟩ := empty
  rw [mergeRecordTypes.eq_def] at kept
  split at kept
  · next xs =>
    split at kept
    · next unknown =>
      rcases List.mem_pair.mp empty with left | rfl
      · cases left
        exact smaller (.tail _ (.head _)) (Except.ok.inj kept)
      · cases unknown
    · obtain ⟨fields, _, kept⟩ := bind_eq_pure_iff.mp kept
      cases kept
  · next unknown =>
    rcases List.mem_pair.mp empty with rfl | rfl
    · exact unknown _ rfl
    · exact smaller (.head _) (Except.ok.inj kept)

/-- Such a merge is not its own normal form, if its operands are. -/
theorem EmptyMerge.not_normalizes_self (empty : EmptyMerge (op .combineTypes x y))
    (hx : x.Normalizes x) (hy : y.Normalizes y) :
    ¬(op .combineTypes x y).Normalizes (op .combineTypes x y) := by
  rintro ⟨fuel, returned⟩
  cases fuel with
  | zero => cases returned
  | succ fuel =>
    obtain ⟨x', left, returned⟩ := bind_eq_pure_iff.mp returned
    obtain ⟨y', right, returned⟩ := bind_eq_pure_iff.mp returned
    -- The operands evaluate to themselves, so the operator is applied to just these.
    obtain rfl := hx.unique ⟨fuel, left⟩
    obtain rfl := hy.unique ⟨fuel, right⟩
    exact empty.mergeRecordTypes_ne (Eval.lift_eq_pure_iff.mp returned)

/-- The children of a construct that evaluation keeps are their own normal forms if the whole
is. -/
theorem Normalizes.child (h : (mk n).Normalizes (mk n)) (inert : n.isInert) {c : Expr}
    (member : c ∈ n.children) : c.Normalizes c := by
  obtain ⟨fuel, returned⟩ := h
  cases fuel with
  | zero => cases returned
  | succ fuel =>
    have returned : step (normalize fuel) (mk n) = pure (mk n) := returned
    rw [step_inert inert] at returned
    obtain ⟨n', traversed, same⟩ := map_eq_pure_iff.mp returned
    cases same
    have fixed := (Node.traverse_eq_pure_iff.mp traversed).2
    rw [Node.children, List.forall₂_map_right_iff, List.forall₂_same] at fixed
    obtain ⟨p, inside, rfl⟩ := List.mem_map.mp member
    exact ⟨fuel, fixed p inside⟩

/-- The expressions within a normal form are their own normal forms exactly if none of them is
a merge of record types with an empty operand. -/
theorem normalizes_self_iff {normal : Expr} (h : e.Normalizes normal) :
    (∀ s : Expr, s.Within normal → s.Normalizes s) ↔
      ∀ s : Expr, s.Within normal → ¬EmptyMerge s := by
  constructor
  · intro fixed s inside empty
    -- The operands are within the normal form too, so they are evaluated to themselves first.
    obtain @⟨x, y, operand⟩ := empty
    have hx := fixed x (Within.trans (.of_child (.head _)) inside)
    have hy := fixed y (Within.trans (.of_child (.tail _ (.head _))) inside)
    exact EmptyMerge.not_normalizes_self ⟨operand⟩ hx hy (fixed _ inside)
  · intro filled s inside
    have settled : Settled s := (settled_of_normalizes h).within inside
    have filled : Everywhere (¬EmptyMerge ·) s := Everywhere.within filled inside
    exact settled.normalizes_self filled

/-- `{ a : x } ⩓ { a : y }` has the normal form `{ a : x ⩓ y }`. -/
theorem normalizes_self_iff_shared_field :
    let e := op .combineTypes (recordType (.singleton "a" (var (.nearest "x"))))
      (recordType (.singleton "a" (var (.nearest "y"))))
    let normal := recordType
      (.singleton "a" (op .combineTypes (var (.nearest "x")) (var (.nearest "y"))))
    e.Normalizes normal ∧ ((∀ s : Expr, s.Within normal → s.Normalizes s) ↔
      ∀ s : Expr, s.Within normal → ¬EmptyMerge s) := by
  intro e normal
  have evaluated : e.Normalizes normal :=
    .op ⟨2, rfl⟩ ⟨2, rfl⟩ (mergeRecordTypes_singleton "a" rfl rfl rfl)
  exact ⟨evaluated, normalizes_self_iff evaluated⟩

/-- `{ a : {} } ⩓ { a : r }` has the normal form `{ a : {} ⩓ r }`, which has the normal form
`{ a : r }`. -/
theorem normalizes_not_idempotent :
    let e := op .combineTypes (recordType (.singleton "a" (recordType .nil)))
      (recordType (.singleton "a" (var (.nearest "r"))))
    let normal := recordType
      (.singleton "a" (op .combineTypes (recordType .nil) (var (.nearest "r"))))
    e.Normalizes normal ∧ ¬normal.Normalizes normal := by
  intro e normal
  have evaluated : e.Normalizes normal :=
    .op ⟨2, rfl⟩ ⟨2, rfl⟩ (mergeRecordTypes_singleton "a" rfl rfl rfl)
  refine ⟨evaluated, fun same => ?_⟩
  have kept := same.child (n := .recordType _) rfl (.head _)
  exact EmptyMerge.not_normalizes_self ⟨.head _⟩ ⟨1, rfl⟩ ⟨1, rfl⟩ kept

end Expr

end Dhall
