/-
# Rules without binders

The rules of built-in functions and of sums and products, on terms. A rule of this kind looks
at the outermost constructs of some parts and puts the other parts together anew; it never
compares two parts, and never looks for a function inside another one. So a rule that applies
still applies after a change to the parts that keeps their outermost constructs, if these are
values, and the results have changed in the same way.

Comparisons, joined lists and texts, and the builds, which look for folds, are left out.

## Main definitions

* `Term.flat` — a construct that opens no binders
* `Builtin.Contracts`, `Operator.Contracts` — the rules
* `Term.Compatible` — relations that rules cannot tell from equality

## Main results

* `Builtin.Contracts.compatible`, `Operator.Contracts.compatible` — related parts have related
  results
* `Builtin.Contracts.unique`, `Operator.Contracts.unique` — rules do not overlap
-/

import Dhall.LabelMap.Related
import Dhall.Proofs.Term
import Dhall.Reduction.Builtin
import Mathlib.Data.List.Forall2
import Mathlib.Logic.Function.Iterate

namespace Dhall

namespace Node

variable {α : Type}

/-- Literals. -/
def isLeaf : Node α → Bool
  | bool _ | natural _ | integer _ | double _ => true
  | text t => t.values.isEmpty
  | _ => false

/-- Literals and lists, and optional values that are there. -/
def isValue : Node α → Bool
  | emptyList _ | list _ | present _ => true
  | n => n.isLeaf

/-- Constructs without rules, or with rules that look at each part on its own. -/
def isLinear : Node α → Bool
  | builtin b => b ∉ [Builtin.naturalBuild, .listBuild, .optionalBuild, .naturalSubtract]
  | op o _ _ => o ∈ [Operator.plus, .times, .equivalent, .alternative]
  | text t => t.values.isEmpty
  | ifThenElse .. | merge .. | toMap .. | field .. | project .. | projectType .. | embed _ => false
  | _ => true

variable {n : Node α}

theorem isLeaf_shape (n : Node α) : n.shape.isLeaf = n.isLeaf := by
  cases n with
  | text t =>
    obtain ⟨head, tail⟩ := t
    cases tail <;> rfl
  | _ => rfl

theorem children_eq_nil (h : n.isLeaf) : n.children = [] := by
  cases n with
  | text t => simpa [isLeaf, children, scopedChildren] using h
  | _ => first | rfl | exact absurd h Bool.false_ne_true

/-- Literals are determined by their shape. -/
theorem eq_of_leaf {n' : Node α} (h : n.isLeaf) (h' : n'.isLeaf) (same : n.shape = n'.shape) :
    n = n' :=
  eq_of_shape same ((children_eq_nil h).trans (children_eq_nil h').symm)

theorem isValue_of_isLeaf (h : n.isLeaf) : n.isValue := by
  cases n <;> first | exact h | exact absurd h Bool.false_ne_true

theorem isLinear_of_isLeaf (h : n.isLeaf) : n.isLinear := by
  cases n <;> first | rfl | exact h | exact absurd h Bool.false_ne_true

end Node

namespace Term

/-- A construct that opens no binders. -/
def flat (shape : Node Unit) (parts : List Term) : Term :=
  construct shape (parts.map (0, ·))

/-- `f a` -/
def app (f a : Term) : Term :=
  flat (.app () ()) [f, a]

/-- A function applied to several arguments, one after the other. -/
def apply (f : Term) (args : List Term) : Term :=
  args.foldl app f

/-- A built-in type or function. -/
def builtin (b : Builtin) : Term :=
  flat (.builtin b) []

/-- A natural number. -/
def natural (n : UInt64) : Term :=
  flat (.natural n) []

/-- `Some t` -/
def present (t : Term) : Term :=
  flat (.present ()) [t]

/-- `[] : type` -/
def emptyList (type : Term) : Term :=
  flat (.emptyList ()) [type]

/-- A list of one item or more. -/
def list (items : List Term) : Term :=
  flat (.list (items.map fun _ => ())) items

/-- `None type` -/
def noneOf (type : Term) : Term :=
  app (builtin .optionalNone) type

/-- A record with the given fields. -/
def record (fields : LabelMap Term) : Term :=
  flat (.record (fields.map fun _ => ())) fields.values

/-- A record type with the given fields. -/
def recordType (fields : LabelMap Term) : Term :=
  flat (.recordType (fields.map fun _ => ())) fields.values

/-- `{ index = i, value = t }` -/
def indexedItem (i : Nat) (t : Term) : Term :=
  record (.ofList [("index", natural (UInt64.ofNat i)), ("value", t)])

/-- `{ index : Natural, value : type }` -/
def indexedType (type : Term) : Term :=
  recordType (.ofList [("index", builtin .natural), ("value", type)])

/-- `None`, applied to any arguments. -/
def IsNone (t : Term) : Prop :=
  ∃ args, t = apply (builtin .optionalNone) args

variable {shape shape' : Node Unit} {parts parts' items items' args : List Term}
  {f a t t' : Term} {m n : UInt64}

@[simp] theorem flat_inj :
    flat shape parts = flat shape' parts' ↔ shape = shape' ∧ parts = parts' := by
  have injective : Function.Injective fun t : Term => (0, t) := fun _ _ same => (Prod.mk.inj same).2
  rw [flat, flat, construct.injEq, (List.map_injective_iff.mpr injective).eq_iff]

@[simp] theorem app_inj {f' a' : Term} : app f a = app f' a' ↔ f = f' ∧ a = a' := by
  simp [app]

@[simp] theorem natural_inj : natural m = natural n ↔ m = n := by
  simp [natural]

@[simp] theorem present_inj : present t = present t' ↔ t = t' := by
  simp [present]

@[simp] theorem emptyList_inj : emptyList t = emptyList t' ↔ t = t' := by
  simp [emptyList]

@[simp] theorem list_inj : list items = list items' ↔ items = items' := by
  rw [list, list, flat_inj]
  exact ⟨And.right, fun same => ⟨same ▸ rfl, same⟩⟩

theorem list_ne_emptyList : list items ≠ emptyList t := by
  simp [list, emptyList]

theorem apply_concat (f : Term) (args : List Term) (a : Term) :
    f.apply (args ++ [a]) = app (f.apply args) a :=
  List.foldl_concat ..

theorem not_isNone_present : ¬(present t).IsNone := by
  rintro ⟨args, same⟩
  rcases List.eq_nil_or_concat' args with rfl | ⟨init, last, rfl⟩
  · simp [present, apply, builtin] at same
  · rw [apply_concat] at same
    simp [present, app] at same

end Term

open Term

namespace Builtin

/-- Functions on an empty list, where `type` is the type of the items. -/
def contractEmpty (type listType : Term) : Builtin → Option Term
  | .listLength => some (.natural 0)
  | .listHead | .listLast => some (noneOf type)
  | .listReverse => some (.emptyList listType)
  | .listIndexed => some (.emptyList (app (.builtin .list) (indexedType type)))
  | _ => none

/-- Functions on the items of a list, where `type` is their type. -/
def contractItems (type : Term) (items : List Term) : Builtin → Option Term
  | .listLength => some (.natural (UInt64.ofNat items.length))
  | .listHead => some ((items.head?.map present).getD (noneOf type))
  | .listLast => some ((items.getLast?.map present).getD (noneOf type))
  | .listReverse => some (.list items.reverse)
  | .listIndexed => some (.list (items.mapIdx indexedItem))
  | _ => none

/-- The number of arguments that a built-in function needs, if it has rules. -/
def arity : Builtin → Nat
  | .naturalIsZero | .naturalEven | .naturalOdd | .naturalToInteger | .naturalShow | .integerShow
  | .integerToDouble | .integerNegate | .integerClamp | .doubleShow | .textShow => 1
  | .listLength | .listHead | .listLast | .listReverse | .listIndexed => 2
  | .naturalFold => 4
  | .listFold | .optionalFold => 5
  | _ => 0

/-- A built-in function with the arguments that it needs, and what it makes of them. -/
inductive Contracts : Builtin → List Term → Term → Prop
  /-- Functions of one literal. -/
  | leaf {b : Builtin} {n m : Node Expr} (operand : n.isLeaf) (result : m.isLeaf)
      (h : b.reduceLiteral [.mk n] = some (.mk m)) :
      Contracts b [flat n.shape []] (flat m.shape [])
  | emptyList {b : Builtin} {type listType t : Term} (h : b.contractEmpty type listType = some t) :
      Contracts b [type, .emptyList listType] t
  | list {b : Builtin} {type t : Term} {items : List Term}
      (h : b.contractItems type items = some t) : Contracts b [type, .list items] t
  | naturalFold (n : UInt64) (type succ zero : Term) :
      Contracts .naturalFold [.natural n, type, succ, zero] ((app succ)^[n.toNat] zero)
  | listFoldEmpty (type listType result cons nil : Term) :
      Contracts .listFold [type, .emptyList listType, result, cons, nil] nil
  | listFold (type result cons nil : Term) (items : List Term) :
      Contracts .listFold [type, .list items, result, cons, nil]
        (items.foldr (fun item t => app (app cons item) t) nil)
  | optionalFold (type t result full empty : Term) :
      Contracts .optionalFold [type, .present t, result, full, empty] (app full t)
  | optionalFoldNone {o : Term} (absent : o.IsNone) (type result full empty : Term) :
      Contracts .optionalFold [type, o, result, full, empty] empty

end Builtin

/-- The rules of sums and products. -/
inductive Operator.Contracts : Operator → Term → Term → Term → Prop
  | zeroPlus (t : Term) : Contracts .plus (.natural 0) t t
  | plusZero (t : Term) : Contracts .plus t (.natural 0) t
  | plus {m n : UInt64} (fits : m.toNat + n.toNat < UInt64.size) :
      Contracts .plus (.natural m) (.natural n) (.natural (m + n))
  | zeroTimes (t : Term) : Contracts .times (.natural 0) t (.natural 0)
  | timesZero (t : Term) : Contracts .times t (.natural 0) (.natural 0)
  | oneTimes (t : Term) : Contracts .times (.natural 1) t t
  | timesOne (t : Term) : Contracts .times t (.natural 1) t
  | times {m n : UInt64} (fits : m.toNat * n.toNat < UInt64.size) :
      Contracts .times (.natural m) (.natural n) (.natural (m * n))

/-! ### Related parts -/

/-- A relation that keeps the outermost constructs of values, and that constructs keep. -/
structure Term.Compatible (R : Term → Term → Prop) : Prop where
  /-- Values are related to values of the same shape only. -/
  value {shape : Node Unit} {parts : List Term} {t : Term} (isValue : shape.isValue)
    (h : R (flat shape parts) t) : ∃ parts', t = flat shape parts' ∧ List.Forall₂ R parts parts'
  /-- What stands for no value is related to such terms only. -/
  none {t t' : Term} (absent : t.IsNone) (h : R t t') : t'.IsNone
  /-- Constructs with related parts are related. -/
  congr {shape : Node Unit} {parts parts' : List Term} (linear : shape.isLinear)
    (h : List.Forall₂ R parts parts') : R (flat shape parts) (flat shape parts')

namespace Term.Compatible

variable {R : Term → Term → Prop} (K : Compatible R) {f f' t t' : Term} {items items' : List Term}

include K

theorem app (hf : R f f') (h : R t t') : R (f.app t) (f'.app t') :=
  K.congr rfl (.cons hf (.cons h .nil))

theorem builtin {b : Builtin} (linear : (Node.builtin b : Node Unit).isLinear) :
    R (.builtin b) (.builtin b) :=
  K.congr linear .nil

theorem present (h : R t t') : R t.present t'.present :=
  K.congr rfl (.cons h .nil)

theorem noneOf (h : R t t') : R t.noneOf t'.noneOf :=
  K.app (K.builtin rfl) h

theorem list (h : List.Forall₂ R items items') : R (.list items) (.list items') := by
  have shapes : items'.map (fun _ => ()) = items.map fun _ => () := by
    rw [List.map_const', List.map_const', h.length_eq]
  rw [Term.list, Term.list, shapes]
  exact K.congr rfl h

theorem unary_inv {shape : Node Unit} (isValue : shape.isValue) (h : R (flat shape [t]) t') :
    ∃ u, t' = flat shape [u] ∧ R t u := by
  obtain ⟨_, rfl, _ | ⟨here, ⟨⟩⟩⟩ := K.value isValue h
  exact ⟨_, rfl, here⟩

theorem list_inv {t : Term} (h : R (.list items) t) :
    ∃ items', t = .list items' ∧ List.Forall₂ R items items' := by
  obtain ⟨items', rfl, related⟩ := K.value rfl h
  refine ⟨items', ?_, related⟩
  rw [Term.list, List.map_const', List.map_const', related.length_eq]

theorem iterate (hf : R f f') (h : R t t') (n : Nat) : R (f.app^[n] t) (f'.app^[n] t') := by
  induction n generalizing t t' with
  | zero => exact h
  | succ n ih => exact ih (K.app hf h)

theorem foldr (hf : R f f') (h : R t t') (related : List.Forall₂ R items items') :
    R (items.foldr (fun item t => (f.app item).app t) t)
      (items'.foldr (fun item t => (f'.app item).app t) t') := by
  induction related with
  | nil => exact h
  | cons here _ ih => exact K.app (K.app hf here) ih

theorem record {fields fields' : LabelMap Term} (h : fields.Related R fields') :
    R (.record fields) (.record fields') := by
  obtain ⟨shapes, values⟩ := Entries.related_iff_values.mp h
  rw [Term.record, Term.record, shapes]
  exact K.congr rfl values

theorem recordType {fields fields' : LabelMap Term} (h : fields.Related R fields') :
    R (.recordType fields) (.recordType fields') := by
  obtain ⟨shapes, values⟩ := Entries.related_iff_values.mp h
  rw [Term.recordType, Term.recordType, shapes]
  exact K.congr rfl values

theorem indexedItem (h : R t t') (i : Nat) : R (t.indexedItem i) (t'.indexedItem i) := by
  have index : R (.natural (UInt64.ofNat i)) (.natural (UInt64.ofNat i)) := K.congr rfl .nil
  exact K.record (LabelMap.related_ofList (.cons ⟨rfl, index⟩ (.cons ⟨rfl, h⟩ .nil)))

theorem indexedType (h : R t t') : R t.indexedType t'.indexedType := by
  have index : R (.builtin .natural) (.builtin .natural) := K.builtin rfl
  exact K.recordType (LabelMap.related_ofList (.cons ⟨rfl, index⟩ (.cons ⟨rfl, h⟩ .nil)))

end Term.Compatible

namespace Builtin

variable {R : Term → Term → Prop} {b : Builtin} {args args' items items' : List Term}
  {type type' t : Term}

private theorem contractEmpty_compatible {listType listType' : Term} (K : Compatible R)
    (ht : R type type') (hl : R listType listType') (h : b.contractEmpty type listType = some t) :
    ∃ t', b.contractEmpty type' listType' = some t' ∧ R t t' := by
  cases b <;> cases h
  case listLength => exact ⟨_, rfl, K.congr rfl .nil⟩
  case listHead | listLast => exact ⟨_, rfl, K.noneOf ht⟩
  case listReverse => exact ⟨_, rfl, K.congr rfl (.cons hl .nil)⟩
  case listIndexed =>
    exact ⟨_, rfl, K.congr rfl (.cons (K.app (K.builtin rfl) (K.indexedType ht)) .nil)⟩

private theorem contractItems_compatible (K : Compatible R) (ht : R type type')
    (h : List.Forall₂ R items items') (contracts : b.contractItems type items = some t) :
    ∃ t', b.contractItems type' items' = some t' ∧ R t t' := by
  have first {l l' : List Term} (h : List.Forall₂ R l l') :
      R ((l.head?.map present).getD (noneOf type))
        ((l'.head?.map present).getD (noneOf type')) := by
    cases h with
    | nil => exact K.noneOf ht
    | cons here _ => exact K.present here
  -- The items after the first one are numbered from a later number on.
  have numbered (start : Nat) : List.Forall₂ R (items.mapIdx fun i => indexedItem (i + start))
      (items'.mapIdx fun i => indexedItem (i + start)) := by
    clear contracts
    induction h generalizing start with
    | nil => exact .nil
    | cons here _ ih =>
      rw [List.mapIdx_cons, List.mapIdx_cons]
      refine .cons (K.indexedItem here _) ?_
      simpa only [Nat.add_right_comm _ 1 start, Nat.add_assoc] using ih (start + 1)
  cases b <;> cases contracts
  case listLength => exact ⟨_, rfl, h.length_eq ▸ K.congr rfl .nil⟩
  case listHead => exact ⟨_, rfl, first h⟩
  case listLast =>
    refine ⟨_, rfl, ?_⟩
    rw [List.getLast?_eq_head?_reverse, List.getLast?_eq_head?_reverse]
    exact first (List.rel_reverse h)
  case listReverse => exact ⟨_, rfl, K.list (List.rel_reverse h)⟩
  case listIndexed => exact ⟨_, rfl, K.list (numbered 0)⟩

/-- A rule that applies to some arguments applies to related ones, with related results. -/
theorem Contracts.compatible (K : Compatible R) (h : b.Contracts args t)
    (related : List.Forall₂ R args args') : ∃ t', b.Contracts args' t' ∧ R t t' := by
  cases h with
  | @leaf _ n m operand result h =>
    obtain _ | ⟨here, ⟨⟩⟩ := related
    obtain ⟨_, rfl, ⟨⟩⟩ := K.value (Node.isValue_of_isLeaf (n.isLeaf_shape.trans operand)) here
    exact ⟨_, .leaf operand result h,
      K.congr (Node.isLinear_of_isLeaf (m.isLeaf_shape.trans result)) .nil⟩
  | emptyList h =>
    obtain _ | ⟨typed, _ | ⟨here, ⟨⟩⟩⟩ := related
    obtain ⟨listType, rfl, listTyped⟩ := K.unary_inv rfl here
    obtain ⟨t', contracts, result⟩ := contractEmpty_compatible K typed listTyped h
    exact ⟨t', .emptyList contracts, result⟩
  | list h =>
    obtain _ | ⟨typed, _ | ⟨here, ⟨⟩⟩⟩ := related
    obtain ⟨items', rfl, items⟩ := K.list_inv here
    obtain ⟨t', contracts, result⟩ := contractItems_compatible K typed items h
    exact ⟨t', .list contracts, result⟩
  | naturalFold n type succ zero =>
    obtain _ | ⟨number, _ | ⟨typed, _ | ⟨hs, _ | ⟨hz, ⟨⟩⟩⟩⟩⟩ := related
    obtain ⟨_, rfl, ⟨⟩⟩ := K.value rfl number
    exact ⟨_, .naturalFold .., K.iterate hs hz _⟩
  | listFoldEmpty =>
    obtain _ | ⟨typed, _ | ⟨list, _ | ⟨result, _ | ⟨hc, _ | ⟨hn, ⟨⟩⟩⟩⟩⟩⟩ := related
    obtain ⟨listType, rfl, listTyped⟩ := K.unary_inv rfl list
    exact ⟨_, .listFoldEmpty .., hn⟩
  | listFold =>
    obtain _ | ⟨typed, _ | ⟨list, _ | ⟨result, _ | ⟨hc, _ | ⟨hn, ⟨⟩⟩⟩⟩⟩⟩ := related
    obtain ⟨items', rfl, items⟩ := K.list_inv list
    exact ⟨_, .listFold .., K.foldr hc hn items⟩
  | optionalFold =>
    obtain _ | ⟨typed, _ | ⟨value, _ | ⟨result, _ | ⟨hf, _ | ⟨he, ⟨⟩⟩⟩⟩⟩⟩ := related
    obtain ⟨t', rfl, here⟩ := K.unary_inv rfl value
    exact ⟨_, .optionalFold .., K.app hf here⟩
  | optionalFoldNone absent =>
    obtain _ | ⟨typed, _ | ⟨value, _ | ⟨result, _ | ⟨hf, _ | ⟨he, ⟨⟩⟩⟩⟩⟩⟩ := related
    exact ⟨_, .optionalFoldNone (K.none absent value) .., he⟩

private theorem arity_of_reduceLiteral {n m : Node Expr} (leaf : n.isLeaf)
    (h : b.reduceLiteral [.mk n] = some (.mk m)) : b.arity = 1 := by
  have one (c : Builtin) (same : b = c) (unary : c.arity = 1) : b.arity = 1 := same ▸ unary
  cases n <;> try (cases leaf; done)
  case natural n =>
    replace h : b.reduceNatural n = some (.mk m) := h
    unfold reduceNatural at h
    split at h <;> first | rfl | cases h
  case integer i =>
    replace h : b.reduceInteger i = some (.mk m) := h
    unfold reduceInteger at h
    split at h <;> first | rfl | cases h
  case bool c => cases h
  case double d =>
    simp only [reduceLiteral] at h
    split at h
    · next same => exact one _ same rfl
    · cases h
  case text t =>
    simp only [reduceLiteral] at h
    split at h
    · next same => exact one _ same rfl
    · cases h

/-- A rule applies to as many arguments as the function needs. -/
theorem Contracts.length (h : b.Contracts args t) : args.length = b.arity := by
  cases h with
  | leaf operand _ h => exact (arity_of_reduceLiteral operand h).symm
  | emptyList h => cases b <;> first | rfl | cases h
  | list h => cases b <;> first | rfl | cases h
  | _ => rfl

/-- `None` is no function with rules. -/
theorem not_contracts_none : ¬Contracts .optionalNone args t := by
  intro h
  have none := h.length
  cases h <;> cases none

/-- A built-in function has one result. -/
theorem Contracts.unique {t' : Term} (h : b.Contracts args t) (h' : b.Contracts args' t')
    (same : args = args') : t = t' := by
  -- Rules for different numbers of arguments cannot meet. The other pairs are told apart by the
  -- form of the argument that the rule looks at.
  have lengths := congrArg List.length same
  cases h <;> cases h' <;> try (cases lengths; done)
  all_goals
    simp only [List.cons.injEq, and_true, natural_inj, present_inj, emptyList_inj, list_inj,
      list_ne_emptyList, list_ne_emptyList.symm, and_false, false_and] at same
  case leaf.leaf n m operand _ h n' m' operand' _ h' =>
    obtain ⟨shapes, -⟩ := flat_inj.mp same
    obtain rfl := Node.eq_of_leaf operand operand' shapes
    obtain rfl := Expr.mk.inj (Option.some.inj (h.symm.trans h'))
    rfl
  case emptyList.emptyList h _ _ h' =>
    obtain ⟨rfl, rfl⟩ := same
    exact Option.some.inj (h.symm.trans h')
  case list.list h _ _ h' =>
    obtain ⟨rfl, rfl⟩ := same
    exact Option.some.inj (h.symm.trans h')
  case naturalFold.naturalFold =>
    obtain ⟨rfl, rfl, rfl, rfl⟩ := same
    rfl
  case listFoldEmpty.listFoldEmpty => exact same.2.2.2.2
  case listFold.listFold =>
    obtain ⟨rfl, rfl, rfl, rfl, rfl⟩ := same
    rfl
  case optionalFold.optionalFold =>
    obtain ⟨rfl, rfl, rfl, rfl, rfl⟩ := same
    rfl
  case optionalFold.optionalFoldNone absent _ _ _ =>
    rw [← same.2.1] at absent
    exact absurd absent not_isNone_present
  case optionalFoldNone.optionalFold absent _ _ _ _ _ _ _ _ =>
    rw [same.2.1] at absent
    exact absurd absent not_isNone_present
  case optionalFoldNone.optionalFoldNone => exact same.2.2.2.2

end Builtin

namespace Operator

variable {R : Term → Term → Prop} {o : Operator} {x y x' y' t t' : Term}

/-- A rule that applies to some operands applies to related ones, with related results. -/
theorem Contracts.compatible (K : Compatible R) (h : o.Contracts x y t) (hx : R x x')
    (hy : R y y') : ∃ t', o.Contracts x' y' t' ∧ R t t' := by
  have literal {n : UInt64} {t : Term} (h : R (natural n) t) : t = natural n := by
    obtain ⟨_, rfl, ⟨⟩⟩ := K.value rfl h
    rfl
  have number (n : UInt64) : R (natural n) (natural n) := K.congr rfl .nil
  cases h with
  | zeroPlus =>
    obtain rfl := literal hx
    exact ⟨y', .zeroPlus y', hy⟩
  | plusZero =>
    obtain rfl := literal hy
    exact ⟨x', .plusZero x', hx⟩
  | plus fits =>
    obtain rfl := literal hx
    obtain rfl := literal hy
    exact ⟨_, .plus fits, number _⟩
  | zeroTimes =>
    obtain rfl := literal hx
    exact ⟨_, .zeroTimes y', number 0⟩
  | timesZero =>
    obtain rfl := literal hy
    exact ⟨_, .timesZero x', number 0⟩
  | oneTimes =>
    obtain rfl := literal hx
    exact ⟨y', .oneTimes y', hy⟩
  | timesOne =>
    obtain rfl := literal hy
    exact ⟨x', .timesOne x', hx⟩
  | times fits =>
    obtain rfl := literal hx
    obtain rfl := literal hy
    exact ⟨_, .times fits, number _⟩

/-- Where two rules apply, they have one result. -/
theorem Contracts.unique (h : o.Contracts x y t) (h' : o.Contracts x' y' t') (hx : x = x')
    (hy : y = y') : t = t' := by
  cases h <;> cases h' <;> simp_all <;> subst_vars <;> simp

end Operator

end Dhall
