/-
# Redexes

A redex is an expression at whose outermost construct evaluation still has something to
do, given that its parts are normal. The redexes are listed here rule by rule. What has no
rule is stuck: a stuck expression says why it is, as what its parts are not, and this is
what evaluation establishes at each node that it builds.

## Main definitions

* `Expr.Redex` — the left-hand sides of the rules of evaluation
* `Expr.Stuck` — what keeps every rule from applying

## Main results

* `Expr.Stuck.not_redex` — no rule applies to what is stuck
* `Operator.reducePlus_cases`, `Operator.reduceTimes_cases` — a sum or a product reduces by a rule,
  or it is stuck
-/

import Dhall.Normalize
import Dhall.Proofs.Subterm
import Mathlib.Data.List.Basic

namespace Dhall

namespace Expr

/-- The label under which `merge` looks for a handler, if the alternative is known. -/
def alternative? : Expr → Option Label
  | field (union _) l | app (field (union _) l) _ => some l
  | app (builtin .optionalNone) _ => some "None"
  | present _ => some "Some"
  | _ => none

/-! ### Redexes -/

/-- A rule of evaluation applies at the outermost construct. -/
inductive Redex : Expr → Prop
  /-- Definitions are put in the place of their names. -/
  | letIn (bindings : List (Binding Expr)) (body : Expr) : Redex (letIn bindings body)
  /-- Annotations are dropped. -/
  | annot (e type : Expr) : Redex (annot e type)
  /-- Imports are no values. -/
  | embed (i : Import) : Redex (embed i)
  /-- Functions are applied. -/
  | beta (x : Label) (domain body a : Expr) : Redex (app (lam x domain body) a)
  /-- A built-in function has the arguments that it needs. -/
  | builtin {f a : Expr} {b : Builtin} {args : List Expr} {fuel : Nat}
      (spine : f.spine = (builtin b, args))
      (reduces : b.reduce (normalize fuel) (args ++ [a]) ≠ pure none) : Redex (app f a)
  /-- The condition is known. -/
  | condition (b : Bool) (yes no : Expr) : Redex (ifThenElse (bool b) yes no)
  /-- The branches are the values of the condition. -/
  | branches (c : Expr) : Redex (ifThenElse c (bool true) (bool false))
  /-- The condition makes no difference. -/
  | sameBranches {c yes no : Expr} (same : yes.alphaEquivalent no = .ok true) :
    Redex (ifThenElse c yes no)
  /-- An operand of `&&` or `||` is known. -/
  | logic {o : Operator} {x y : Expr} {b : Bool} (logical : o ∈ [Operator.and, .or])
      (known : bool b ∈ [x, y]) : Redex (op o x y)
  /-- An operand of `==` is `True`. -/
  | equalTrue {x y : Expr} (known : bool true ∈ [x, y]) : Redex (op .equal x y)
  /-- An operand of `!=` is `False`. -/
  | notEqualFalse {x y : Expr} (known : bool false ∈ [x, y]) : Redex (op .notEqual x y)
  /-- Both truth values that are compared are known. -/
  | comparison {o : Operator} (compares : o ∈ [Operator.equal, .notEqual]) (a b : Bool) :
    Redex (op o (bool a) (bool b))
  /-- Both operands are the same. -/
  | sameOperands {o : Operator} {x y : Expr}
      (idempotent : o ∈ [Operator.and, .or, .equal, .notEqual, .prefer])
      (same : x.alphaEquivalent y = .ok true) : Redex (op o x y)
  /-- An operand of `+` is zero. -/
  | plusZero {x y : Expr} (known : natural 0 ∈ [x, y]) : Redex (op .plus x y)
  /-- An operand of `*` is zero or one. -/
  | timesZeroOne {x y : Expr} {n : UInt64} (unit : n = 0 ∨ n = 1)
      (known : natural n ∈ [x, y]) : Redex (op .times x y)
  /-- A sum of numbers fits in 64 bits. -/
  | plus {m n : UInt64} (fits : m.toNat + n.toNat < UInt64.size) :
    Redex (op .plus (natural m) (natural n))
  /-- A product of numbers fits in 64 bits. -/
  | times {m n : UInt64} (fits : m.toNat * n.toNat < UInt64.size) :
    Redex (op .times (natural m) (natural n))
  /-- Texts that are joined become one literal. -/
  | textAppend (x y : Expr) : Redex (op .textAppend x y)
  /-- A literal inside a literal is spliced. -/
  | splice {t u : Text Expr} (inside : text u ∈ t.values) : Redex (text t)
  /-- A literal that is one interpolation alone is what it interpolates. -/
  | lone (e : Expr) : Redex (text ⟨"", [(e, "")]⟩)
  /-- An operand of `#` is an empty list. -/
  | appendEmpty {type x y : Expr} (known : emptyList type ∈ [x, y]) : Redex (op .listAppend x y)
  /-- Both lists are known. -/
  | append (xs ys : List Expr) : Redex (op .listAppend (list xs) (list ys))
  /-- A record that is merged is empty. -/
  | mergeEmpty {o : Operator} {x y : Expr} (merges : o ∈ [Operator.prefer, .combine])
      (known : record .nil ∈ [x, y]) : Redex (op o x y)
  /-- Both records that are merged are known. -/
  | mergeRecords {o : Operator} (merges : o ∈ [Operator.prefer, .combine])
      (xs ys : LabelMap Expr) : Redex (op o (record xs) (record ys))
  /-- Both record types that are merged are known. -/
  | mergeRecordTypes (xs ys : LabelMap Expr) :
    Redex (op .combineTypes (recordType xs) (recordType ys))
  /-- The record has the field. -/
  | field {fields : LabelMap Expr} {l : Label} {value : Expr}
      (has : fields.get? l = some value) : Redex (field (record fields) l)
  /-- A projection keeps the field. -/
  | fieldProject (e : Expr) (labels : LabelSet) (l : Label) : Redex (field (project e labels) l)
  /-- A projection by a type keeps the field. -/
  | fieldProjectType (e type : Expr) (l : Label) : Redex (field (projectType e type) l)
  /-- The preferred operand decides whether it has the field. -/
  | fieldPrefer (x : Expr) (ys : LabelMap Expr) (l : Label) :
    Redex (field (op .prefer x (record ys)) l)
  /-- A record that is merged is more than the field. -/
  | fieldMerge {o : Operator} {x y : Expr} {fields : LabelMap Expr} {l : Label}
      (merges : o ∈ [Operator.prefer, .combine]) (known : record fields ∈ [x, y])
      (more : ∀ value, fields ≠ .singleton l value) : Redex (field (op o x y) l)
  /-- Nothing is projected. -/
  | projectNone (e : Expr) : Redex (project e .nil)
  /-- The record that is projected is known. -/
  | project (fields : LabelMap Expr) (labels : LabelSet) : Redex (project (record fields) labels)
  /-- The inner of two projections is dropped. -/
  | projectProject (e : Expr) (inner labels : LabelSet) :
    Redex (project (project e inner) labels)
  /-- A projection is split between the operands. -/
  | projectPrefer (x : Expr) (ys : LabelMap Expr) (labels : LabelSet) :
    Redex (project (op .prefer x (record ys)) labels)
  /-- The type that says what is projected is known. -/
  | projectType (e : Expr) (fields : LabelMap Expr) : Redex (projectType e (recordType fields))
  /-- An empty record as a map is an empty list of the annotated type. -/
  | toMapEmpty (type : Expr) : Redex (toMap (record .nil) (some type))
  /-- The entries of the record are known. -/
  | toMap {fields : LabelMap Expr} (type : Option Expr) (entries : fields ≠ .nil) :
    Redex (toMap (record fields) type)
  /-- There is a handler for the alternative. -/
  | merge {handlers : LabelMap Expr} {variant handler : Expr} {l : Label} (type : Option Expr)
      (known : variant.alternative? = some l) (handled : handlers.get? l = some handler) :
    Redex (merge (record handlers) variant type)

end Expr

/-! ### Stuck expressions -/

open Dhall.Expr

/-- No rule applies to an operation. -/
def Operator.Stuck (x y : Expr) : Operator → Prop
  | .and | .or => x.bool? = none ∧ y.bool? = none ∧ x.alphaEquivalent y = .ok false
  | .equal => x.bool? ≠ some true ∧ y.bool? ≠ some true ∧ (x.bool? = none ∨ y.bool? = none) ∧
    x.alphaEquivalent y = .ok false
  | .notEqual => x.bool? ≠ some false ∧ y.bool? ≠ some false ∧
    (x.bool? = none ∨ y.bool? = none) ∧ x.alphaEquivalent y = .ok false
  | .plus => x.natural? ≠ some 0 ∧ y.natural? ≠ some 0 ∧
    ∀ m n, x.natural? = some m → y.natural? = some n → ¬m.toNat + n.toNat < UInt64.size
  | .times => x.natural? ≠ some 0 ∧ y.natural? ≠ some 0 ∧ x.natural? ≠ some 1 ∧
    y.natural? ≠ some 1 ∧
    ∀ m n, x.natural? = some m → y.natural? = some n → ¬m.toNat * n.toNat < UInt64.size
  | .textAppend => False
  | .listAppend => (∀ type, x ≠ emptyList type) ∧ (∀ type, y ≠ emptyList type) ∧
    ∀ xs ys, x = list xs → y ≠ list ys
  | .prefer => x.record? ≠ some .nil ∧ y.record? ≠ some .nil ∧
    (x.record? = none ∨ y.record? = none) ∧ x.alphaEquivalent y = .ok false
  | .combine => x.record? ≠ some .nil ∧ y.record? ≠ some .nil ∧
    (x.record? = none ∨ y.record? = none)
  | .combineTypes => x.recordType? = none ∨ y.recordType? = none
  | .equivalent | .alternative => True

namespace Expr

/-- A record with no field but `l`, if the expression is a record. -/
def OnlyField (l : Label) (e : Expr) : Prop :=
  ∀ fields, e.record? = some fields → ∃ value, fields = .singleton l value

/-- No rule applies to the field `l` of an expression. -/
def FieldStuck (l : Label) : Expr → Prop
  | record fields => fields.get? l = none
  | project .. | projectType .. => False
  | op .prefer x y => y.record? = none ∧ x.OnlyField l
  | op .combine x y => x.OnlyField l ∧ y.OnlyField l
  | _ => True

/-- No rule applies to a projection of an expression. -/
def ProjectStuck : Expr → Prop
  | record _ | project .. => False
  | op .prefer _ y => y.record? = none
  | _ => True

/-- No rule applies at the outermost construct, because the parts do not have the form that
a rule asks for. -/
def Stuck : Expr → Prop
  | letIn .. | annot .. | embed _ => False
  | app f a => (∀ x domain body, f ≠ lam x domain body) ∧
    ∀ b args, f.spine = (builtin b, args) → ∀ eval, b.reduce eval (args ++ [a]) = pure none
  | op o x y => o.Stuck x y
  | ifThenElse condition yes no => condition.bool? = none ∧
    ¬(yes.bool? = some true ∧ no.bool? = some false) ∧ yes.alphaEquivalent no = .ok false
  | text t => (∀ u, text u ∉ t.values) ∧ ∀ e, t ≠ ⟨"", [(e, "")]⟩
  | field e l => e.FieldStuck l
  | project e labels => labels ≠ .nil ∧ e.ProjectStuck
  | projectType _ type => type.recordType? = none
  | toMap e type => ∀ fields, e.record? = some fields → fields = .nil ∧ type = none
  | merge handlers variant _ => ∀ hs l, handlers.record? = some hs →
    variant.alternative? = some l → hs.get? l = none
  | _ => True

/-- No rule applies to what is stuck. -/
theorem Stuck.not_redex {e : Expr} (h : Stuck e) : ¬Redex e := by
  intro redex
  -- What a rule asks of the parts is in each case what being stuck denies.
  cases redex with
  | letIn | annot | embed => exact h
  | beta x domain body a => exact h.1 x domain body rfl
  | builtin spine reduces => exact reduces (h.2 _ _ spine _)
  | condition b yes no => exact nomatch h.1
  | branches c => exact h.2.1 ⟨rfl, rfl⟩
  | sameBranches same => exact nomatch h.2.2.symm.trans same
  | @logic o x y b logical known =>
    have unknown : x.bool? = none ∧ y.bool? = none := by
      rcases List.mem_pair.mp logical with rfl | rfl <;> exact ⟨h.1, h.2.1⟩
    rcases List.mem_pair.mp known with rfl | rfl
    · cases unknown.1
    · cases unknown.2
  | equalTrue known =>
    rcases List.mem_pair.mp known with rfl | rfl
    · exact h.1 rfl
    · exact h.2.1 rfl
  | notEqualFalse known =>
    rcases List.mem_pair.mp known with rfl | rfl
    · exact h.1 rfl
    · exact h.2.1 rfl
  | comparison compares a b =>
    rcases List.mem_pair.mp compares with rfl | rfl <;>
      rcases h.2.2.1 with unknown | unknown <;> cases unknown
  | sameOperands idempotent same =>
    simp only [List.mem_cons, List.not_mem_nil, or_false] at idempotent
    rcases idempotent with rfl | rfl | rfl | rfl | rfl
    · exact nomatch h.2.2.symm.trans same
    · exact nomatch h.2.2.symm.trans same
    · exact nomatch h.2.2.2.symm.trans same
    · exact nomatch h.2.2.2.symm.trans same
    · exact nomatch h.2.2.2.symm.trans same
  | plusZero known =>
    rcases List.mem_pair.mp known with rfl | rfl
    · exact h.1 rfl
    · exact h.2.1 rfl
  | timesZeroOne unit known =>
    rcases unit with rfl | rfl <;> rcases List.mem_pair.mp known with rfl | rfl
    · exact h.1 rfl
    · exact h.2.1 rfl
    · exact h.2.2.1 rfl
    · exact h.2.2.2.1 rfl
  | plus fits => exact h.2.2 _ _ rfl rfl fits
  | times fits => exact h.2.2.2.2 _ _ rfl rfl fits
  | textAppend => exact h
  | splice inside => exact h.1 _ inside
  | lone e => exact h.2 e rfl
  | appendEmpty known =>
    rcases List.mem_pair.mp known with rfl | rfl
    · exact h.1 _ rfl
    · exact h.2.1 _ rfl
  | append xs ys => exact h.2.2 xs ys rfl rfl
  | mergeEmpty merges known =>
    rcases List.mem_pair.mp merges with rfl | rfl <;>
      rcases List.mem_pair.mp known with rfl | rfl <;>
      first | exact h.1 rfl | exact h.2.1 rfl
  | mergeRecords merges xs ys =>
    rcases List.mem_pair.mp merges with rfl | rfl
    · rcases h.2.2.1 with unknown | unknown <;> cases unknown
    · rcases h.2.2 with unknown | unknown <;> cases unknown
  | mergeRecordTypes xs ys => rcases h with unknown | unknown <;> cases unknown
  | field has => exact nomatch has.symm.trans h
  | fieldProject | fieldProjectType => exact h
  | fieldPrefer => exact nomatch h.1
  | fieldMerge merges known more =>
    rcases List.mem_pair.mp merges with rfl | rfl <;>
      rcases List.mem_pair.mp known with rfl | rfl
    · obtain ⟨value, only⟩ := h.2 _ rfl
      exact more value only
    · exact nomatch h.1
    · obtain ⟨value, only⟩ := h.1 _ rfl
      exact more value only
    · obtain ⟨value, only⟩ := h.2 _ rfl
      exact more value only
  | projectNone => exact h.1 rfl
  | project => exact h.2
  | projectProject => exact h.2
  | projectPrefer => exact nomatch h.2
  | projectType => cases h
  | toMapEmpty type => exact nomatch (h _ rfl).2
  | toMap type entries => exact entries (h _ rfl).1
  | merge type known handled => exact nomatch handled.symm.trans (h _ _ rfl known)

end Expr

/-! ### Sums and products -/

namespace Operator

/-- A sum is an operand beside zero, or the sum of two numbers if that fits, or it is kept. -/
theorem reducePlus_cases (x y : Expr) :
    x = natural 0 ∧ reducePlus x y = y ∨
    y = natural 0 ∧ reducePlus x y = x ∨
    (∃ m n : UInt64, x = natural m ∧ y = natural n ∧ m.toNat + n.toNat < UInt64.size ∧
      reducePlus x y = natural (m + n)) ∨
    plus.Stuck x y ∧ reducePlus x y = op .plus x y := by
  unfold reducePlus
  split
  · next zero => exact .inl ⟨natural?_eq_some.mp zero, rfl⟩
  · next left =>
    split
    · next zero => exact .inr (.inl ⟨natural?_eq_some.mp zero, rfl⟩)
    · next right =>
      -- No operand is zero, so the sum is known only if both are numbers and it fits.
      refine .inr (.inr ?_)
      split
      · next m n first second =>
        split
        · next fits =>
          exact .inl ⟨m, n, natural?_eq_some.mp first, natural?_eq_some.mp second, fits, rfl⟩
        · next large =>
          refine .inr ⟨⟨left, right, fun m' n' isM isN => ?_⟩, rfl⟩
          cases first.symm.trans isM
          cases second.symm.trans isN
          exact large
      · next unknown =>
        exact .inr ⟨⟨left, right, fun m n isM isN => (unknown m n isM isN).elim⟩, rfl⟩

/-- A product is zero beside zero, an operand beside one, or the product of two numbers if that
fits, or it is kept. -/
theorem reduceTimes_cases (x y : Expr) :
    (x = natural 0 ∨ y = natural 0) ∧ reduceTimes x y = natural 0 ∨
    x = natural 1 ∧ reduceTimes x y = y ∨
    y = natural 1 ∧ reduceTimes x y = x ∨
    (∃ m n : UInt64, x = natural m ∧ y = natural n ∧ m.toNat * n.toNat < UInt64.size ∧
      reduceTimes x y = natural (m * n)) ∨
    times.Stuck x y ∧ reduceTimes x y = op .times x y := by
  unfold reduceTimes
  split
  · next zero => exact .inl ⟨zero.imp natural?_eq_some.mp natural?_eq_some.mp, rfl⟩
  · next zero =>
    obtain ⟨zeroLeft, zeroRight⟩ := not_or.mp zero
    refine .inr ?_
    split
    · next one => exact .inl ⟨natural?_eq_some.mp one, rfl⟩
    · next oneLeft =>
      refine .inr ?_
      split
      · next one => exact .inl ⟨natural?_eq_some.mp one, rfl⟩
      · next oneRight =>
        -- No operand is zero or one, so the product is known only if both are numbers and it fits.
        refine .inr ?_
        split
        · next m n first second =>
          split
          · next fits =>
            exact .inl ⟨m, n, natural?_eq_some.mp first, natural?_eq_some.mp second, fits, rfl⟩
          · next large =>
            refine .inr ⟨⟨zeroLeft, zeroRight, oneLeft, oneRight, fun m' n' isM isN => ?_⟩, rfl⟩
            cases first.symm.trans isM
            cases second.symm.trans isN
            exact large
        · next unknown =>
          exact .inr ⟨⟨zeroLeft, zeroRight, oneLeft, oneRight,
            fun m n isM isN => (unknown m n isM isN).elim⟩, rfl⟩

end Operator

end Dhall
