/-
# Evaluation is rewriting

Each rule of evaluation is a rule on terms, or several of them one after the other: a fold
with its arguments is rewritten at once, while evaluation also evaluates every application of
its function. So what a linear expression evaluates to is what its term reduces to. A step
reduces the term if the evaluation of other expressions does.

## Main definitions

* `Expr.ReducesTo` — the terms of two expressions, one of which reduces to the other

## Main results

* `Expr.contracts_of_reduceLiteral`, `Expr.reduces_reduceFold` — built-in functions
* `Expr.reduces_operator` — sums and products
* `Expr.reduces_letIn` — definitions
* `Expr.reduces_step` — one step of evaluation
-/

import Dhall.Proofs.Correspondence.Normalize
import Dhall.Proofs.Idempotence
import Dhall.Proofs.Rewriting.Linear
import Dhall.Proofs.Substitution

namespace Dhall

namespace Expr

variable {e f a r type : Expr} {context : List Label} {n : Node Expr} {b : Builtin}
  {args items : List Expr}

/-! ### Terms of expressions -/

theorem nameless_flat (notVar : ∀ v, n ≠ .var v) (plain : n.isPlain) (context : List Label) :
    (mk n).nameless context = .flat n.shape (n.children.map (·.nameless context)) := by
  have shape : n.shape.unlabelled = n.shape := by
    cases n <;> first | rfl | exact absurd plain Bool.false_ne_true
  rw [nameless_mk notVar, shape, Term.flat, Node.children, List.map_map, List.map_map]
  refine congrArg _ (List.map_congr_left fun p member => ?_)
  rw [Node.binders_of_isPlain plain p member]
  rfl

theorem nameless_list (items : List Expr) (context : List Label) :
    (list items).nameless context = .list (items.map (·.nameless context)) := by
  have children : (Node.list items).children = items := by
    rw [Node.children, Node.scopedChildren, List.map_map]
    exact List.map_id items
  have shape : (Node.list items).shape =
      .list ((items.map (·.nameless context)).map fun _ => ()) := by
    rw [List.map_map]
    rfl
  rw [list, nameless_flat (by rintro _ ⟨⟩) rfl, children, shape]
  rfl

theorem nameless_apply (f : Expr) (args : List Expr) (context : List Label) :
    (f.apply args).nameless context =
      (f.nameless context).apply (args.map (·.nameless context)) := by
  induction args generalizing f with
  | nil => rfl
  | cons a args ih => exact ih (app f a)

private theorem nameless_fields {fields : LabelMap Expr} {fields' : LabelMap Term}
    (h : fields.Related (fun e t => t = e.nameless context) fields') :
    (record fields).nameless context = .record fields' ∧
      (recordType fields).nameless context = .recordType fields' := by
  obtain ⟨shapes, values⟩ := Entries.related_iff_values.mp h
  have parts : fields.values.map (·.nameless context) = fields'.values := by
    rw [← List.forall₂_eq_eq_eq, List.forall₂_map_left_iff]
    exact values.imp fun _ _ here => here.symm
  have children : (Node.record fields).children = fields.values := by
    simp [Node.children, Node.scopedChildren, Function.comp_def]
  have children' : (Node.recordType fields).children = fields.values := by
    simp [Node.children, Node.scopedChildren, Function.comp_def]
  constructor
  · rw [record, nameless_flat (by rintro _ ⟨⟩) rfl, children, parts, Term.record, shapes]
    rfl
  · rw [recordType, nameless_flat (by rintro _ ⟨⟩) rfl, children', parts, Term.recordType,
      shapes]
    rfl

theorem nameless_indexedItem (i : Nat) (e : Expr) (context : List Label) :
    (indexedItem i e).nameless context = .indexedItem i (e.nameless context) := by
  have index : Term.natural (UInt64.ofNat i) = (natural (UInt64.ofNat i)).nameless context := rfl
  exact (nameless_fields (LabelMap.related_ofList (.cons ⟨rfl, index⟩ (.cons ⟨rfl, rfl⟩ .nil)))).1

theorem nameless_indexedType (type : Expr) (context : List Label) :
    (indexedType type).nameless context = .indexedType (type.nameless context) := by
  have index : Term.builtin .natural = (builtin .natural).nameless context := rfl
  exact (nameless_fields (LabelMap.related_ofList (.cons ⟨rfl, index⟩ (.cons ⟨rfl, rfl⟩ .nil)))).2

/-- Literals have no parts. -/
theorem nameless_leaf (leaf : n.isLeaf) (context : List Label) :
    (mk n).nameless context = .flat n.shape [] := by
  have plain : n.isPlain := by
    cases n <;> first | rfl | exact absurd leaf Bool.false_ne_true
  rw [nameless_flat (fun v same => ?_) plain, Node.children_eq_nil leaf, List.map_nil]
  subst same
  cases leaf

/-! ### Rules of built-in functions -/

/-- Functions of one literal return literals. -/
private theorem leaf_of_reduceLiteral {m : Node Expr}
    (h : b.reduceLiteral [mk n] = some (mk m)) : n.isLeaf ∧ m.isLeaf := by
  cases n <;> try cases h
  case natural n =>
    refine ⟨rfl, ?_⟩
    replace h : b.reduceNatural n = some (mk m) := h
    unfold Builtin.reduceNatural at h
    split at h <;> try split at h
    all_goals cases h <;> rfl
  case integer i =>
    refine ⟨rfl, ?_⟩
    replace h : b.reduceInteger i = some (mk m) := h
    unfold Builtin.reduceInteger at h
    split at h <;> try split at h
    all_goals cases h <;> rfl
  case double d =>
    simp only [Builtin.reduceLiteral] at h
    split at h <;> cases h
    exact ⟨rfl, rfl⟩
  case text t =>
    obtain ⟨head, tail⟩ := t
    simp only [Builtin.reduceLiteral, Text.plain?] at h
    cases tail with
    | nil =>
      split at h <;> cases h
      exact ⟨rfl, rfl⟩
    | cons => split at h <;> cases h

private theorem contractEmpty_nameless {listType : Expr}
    (h : b.reduceList type (emptyList listType) = some r) :
    b.contractEmpty (type.nameless context) (listType.nameless context) =
      some (r.nameless context) := by
  cases b <;> cases h
  case listIndexed =>
    have typed := nameless_indexedType type context
    exact congrArg (fun t : Term => some (Term.emptyList (.app (.builtin .list) t))) typed.symm
  all_goals rfl

private theorem contractItems_nameless (h : b.reduceList type (list items) = some r) :
    b.contractItems (type.nameless context) (items.map (·.nameless context)) =
      some (r.nameless context) := by
  have first (items : List Expr) :
      ((items.map (·.nameless context)).head?.map Term.present).getD
          (.noneOf (type.nameless context)) =
        ((items.head?.map present).getD (noneOf type)).nameless context := by
    cases items <;> rfl
  cases b <;> cases h
  case listLength =>
    exact congrArg (fun n => some (Term.natural (UInt64.ofNat n))) (List.length_map ..)
  case listHead => exact congrArg some (first items)
  case listLast =>
    have last := first items.reverse
    rw [List.map_reverse, List.head?_reverse, List.head?_reverse] at last
    exact congrArg some last
  case listReverse =>
    rw [nameless_list, List.map_reverse]
    rfl
  case listIndexed =>
    have indexed : (items.map (·.nameless context)).mapIdx Term.indexedItem =
        (items.mapIdx indexedItem).map (·.nameless context) := by
      refine List.ext_getElem (by simp) fun i _ _ => ?_
      simp [nameless_indexedItem]
    rw [nameless_list, ← indexed]
    rfl

theorem contracts_of_reduceLiteral (h : b.reduceLiteral args = some r) (context : List Label) :
    b.Contracts (args.map (·.nameless context)) (r.nameless context) := by
  rcases args with _ | ⟨e, _ | ⟨e', _ | ⟨_, _⟩⟩⟩
  · cases h
  · obtain ⟨n⟩ := e
    obtain ⟨m⟩ := r
    obtain ⟨operand, result⟩ := leaf_of_reduceLiteral h
    rw [List.map_singleton, nameless_leaf operand, nameless_leaf result]
    exact .leaf operand result h
  · simp only [Builtin.reduceLiteral] at h
    unfold Builtin.reduceList at h
    split at h
    · exact .emptyList (contractEmpty_nameless h)
    · rw [List.map_cons, List.map_singleton, nameless_list]
      exact .list (contractItems_nameless h)
    · cases h
  · simp [Builtin.reduceLiteral] at h

theorem isNone_nameless {o : Expr} (absent : (o.argumentsOf? .optionalNone).isSome)
    (context : List Label) : (o.nameless context).IsNone := by
  unfold argumentsOf? at absent
  split at absent
  · next c args spine =>
    split at absent
    · next same =>
      have applied := apply_spine o
      rw [spine, same] at applied
      exact ⟨_, applied ▸ nameless_apply _ args context⟩
    · cases absent
  · cases absent

/-! ### Evaluation -/

/-- The term reduces to that of the other expression, in every context. -/
def ReducesTo (e r : Expr) : Prop :=
  ∀ context, Term.Reduces (e.nameless context) (r.nameless context)

theorem ReducesTo.refl (e : Expr) : e.ReducesTo e :=
  fun _ => .refl _

theorem ReducesTo.linear (h : e.ReducesTo r) (linear : Linear e) : Linear r :=
  (linear_nameless_iff []).mp ((h []).linear ((linear_nameless_iff []).mpr linear))

theorem linear_app : Linear (app f a) ↔ Linear f ∧ Linear a := by
  rw [app, linear_mk]
  simp [Node.isLinear, Node.children, Node.scopedChildren]

theorem linear_apply : Linear (f.apply args) ↔ Linear f ∧ ∀ a ∈ args, Linear a := by
  induction args generalizing f with
  | nil => simp [apply]
  | cons a args ih =>
    rw [List.forall_mem_cons, ← and_assoc, ← linear_app]
    exact ih

theorem linear_instantiate {x : Label} (hf : Linear f) (ha : Linear a)
    (h : f.instantiate (.nearest x) a = .ok r) : Linear r := by
  rw [← linear_nameless_iff [], nameless_instantiate h]
  exact ((linear_nameless_iff _).mpr hf).instantiate ((linear_nameless_iff _).mpr ha)

/-- Constructs that are kept reduce if their children do. -/
theorem reduces_inert {n' : Node Expr} (h : n.Similar (fun _ => ReducesTo) n') :
    (mk n).ReducesTo (mk n') := by
  by_cases isVar : ∃ v, n = .var v
  · obtain ⟨v, rfl⟩ := isVar
    obtain rfl := (h.imp (S := fun _ c c' => c' = c) fun p member => by cases member).eq
    exact .refl _
  · have notVar := not_exists.mp isVar
    intro context
    rw [nameless_mk notVar, nameless_mk (Node.ne_var_of_shape h.shape_eq notVar), h.shape_eq]
    refine .construct ?_
    rw [List.forall₂_map_left_iff, List.forall₂_map_right_iff]
    refine h.scoped.imp ?_
    rintro p q ⟨scope, reduces⟩
    rw [scope]
    exact ⟨rfl, reduces _⟩

/-! ### Sums and products -/

theorem reducesTo_plus (x y : Expr) : (op .plus x y).ReducesTo (Operator.reducePlus x y) := by
  intro context
  rcases Operator.reducePlus_cases x y with
    ⟨rfl, same⟩ | ⟨rfl, same⟩ | ⟨m, n, rfl, rfl, fits, same⟩ | ⟨-, same⟩
  all_goals rw [same]
  · exact (Term.Contracts.op (.zeroPlus _)).reduces
  · exact (Term.Contracts.op (.plusZero _)).reduces
  · exact (Term.Contracts.op (.plus fits)).reduces
  · exact .refl _

theorem reducesTo_times (x y : Expr) : (op .times x y).ReducesTo (Operator.reduceTimes x y) := by
  intro context
  rcases Operator.reduceTimes_cases x y with
    ⟨rfl | rfl, same⟩ | ⟨rfl, same⟩ | ⟨rfl, same⟩ | ⟨m, n, rfl, rfl, fits, same⟩ | ⟨-, same⟩
  all_goals rw [same]
  · exact (Term.Contracts.op (.zeroTimes _)).reduces
  · exact (Term.Contracts.op (.timesZero _)).reduces
  · exact (Term.Contracts.op (.oneTimes _)).reduces
  · exact (Term.Contracts.op (.timesOne _)).reduces
  · exact (Term.Contracts.op (.times fits)).reduces
  · exact .refl _

/-- What a linear operation evaluates to is what its term reduces to. -/
theorem reduces_operator {o : Operator} {x y : Expr}
    (linear : (Node.op o () () : Node Unit).isLinear) (h : o.reduce x y = .ok r) :
    (op o x y).ReducesTo r := by
  cases o <;> try exact absurd linear Bool.false_ne_true
  case plus => exact Except.ok.inj h ▸ reducesTo_plus x y
  case times => exact Except.ok.inj h ▸ reducesTo_times x y
  case equivalent | alternative => exact Except.ok.inj h ▸ .refl _

/-! ### Definitions -/

/-- Definitions of which none is left are their body. -/
theorem reduces_afterFirst (rest : List (Binding Expr)) (body : Expr) :
    (letIn rest body).ReducesTo (afterFirst rest body) := by
  cases rest with
  | nil => exact fun context => (Term.Contracts.body (body.nameless context)).reduces
  | cons first rest => exact .refl _

theorem reduces_letIn {first : Binding Expr} {rest : List (Binding Expr)} {body value c : Expr}
    (hv : first.value.ReducesTo value)
    (instantiated : (afterFirst rest body).instantiate (.nearest first.label) value = .ok c) :
    (letIn (first :: rest) body).ReducesTo c := by
  intro context
  obtain ⟨bindings, arguments, isLet⟩ : ∃ bindings arguments,
      (letIn rest body).nameless (first.label :: context) =
        .construct (.letIn bindings ()) arguments := ⟨_, _, nameless_mk (by rintro _ ⟨⟩) _⟩
  have rule : Term.Contracts ((letIn (first :: rest) body).nameless context)
      (((letIn rest body).nameless (first.label :: context)).instantiate
        (first.value.nameless context)) := by
    rw [nameless_letIn_cons, isLet]
    exact .define bindings rfl _ arguments
  rw [nameless_instantiate instantiated]
  exact rule.reduces.trans ((reduces_afterFirst rest body _).instantiate (hv context))

section Evaluating

variable {eval : Expr → Eval Expr}
  (evals : ∀ {e r}, Linear e → eval e = pure r → e.ReducesTo r)

include evals

theorem reduces_iterate {succ zero : Expr} {n : Nat} (hs : Linear succ) (hz : Linear zero)
    (h : Eval.iterate (fun e => eval (app succ e)) n zero = pure r) (context : List Label) :
    Term.Reduces ((Term.app (succ.nameless context))^[n] (zero.nameless context))
      (r.nameless context) := by
  induction n generalizing zero with
  | zero =>
    cases h
    exact .refl _
  | succ n ih =>
    obtain ⟨next, evaluated, h⟩ := bind_eq_pure_iff.mp h
    have reduces := evals (linear_app.mpr ⟨hs, hz⟩) evaluated
    have rest := ih (reduces.linear (linear_app.mpr ⟨hs, hz⟩)) h
    exact (Term.compatible_reduces.iterate (.refl _) (reduces context) n).trans rest

theorem reduces_foldr {cons nil : Expr} (hc : Linear cons) (hn : Linear nil)
    (hi : ∀ item ∈ items, Linear item)
    (h : items.foldrM (fun item e => eval (cons.apply [item, e])) nil = pure r) :
    Linear r ∧ ∀ context, Term.Reduces
      ((items.map (·.nameless context)).foldr
        (fun item t => ((cons.nameless context).app item).app t) (nil.nameless context))
      (r.nameless context) := by
  induction items generalizing r with
  | nil =>
    cases h
    exact ⟨hn, fun _ => .refl _⟩
  | cons item items ih =>
    obtain ⟨here, below⟩ := List.forall_mem_cons.mp hi
    rw [List.foldrM_cons] at h
    obtain ⟨rest, folded, evaluated⟩ := bind_eq_pure_iff.mp h
    obtain ⟨linear, reduces⟩ := ih below folded
    have applied : Linear (cons.apply [item, rest]) :=
      linear_app.mpr ⟨linear_app.mpr ⟨hc, here⟩, linear⟩
    have last := evals applied evaluated
    refine ⟨last.linear applied, fun context => ?_⟩
    exact (Term.compatible_reduces.app (.refl _) (reduces context)).trans (last context)

theorem reduces_reduceFold (hargs : ∀ a ∈ args, Linear a)
    (h : b.reduceFold eval args = pure (some r)) (context : List Label) :
    ∃ t, b.Contracts (args.map (·.nameless context)) t ∧ Term.Reduces t (r.nameless context) := by
  -- Each fold unfolds to an iteration or to an application, and then evaluates it.
  unfold Builtin.reduceFold at h
  split at h
  · next n type succ zero =>
    obtain ⟨_, evaluated, ⟨⟩⟩ := map_eq_pure_iff.mp h
    have hs := hargs succ (by simp)
    have hz := hargs zero (by simp)
    exact ⟨_, .naturalFold .., reduces_iterate evals hs hz evaluated context⟩
  · cases h
    exact ⟨_, .listFoldEmpty .., .refl _⟩
  · next items result cons nil =>
    obtain ⟨_, evaluated, ⟨⟩⟩ := map_eq_pure_iff.mp h
    have hi : ∀ item ∈ items, Linear item := by
      have whole := (linear_mk.mp (hargs (list items) (by simp))).2
      simpa [Node.children, Node.scopedChildren] using whole
    have hc := hargs cons (by simp)
    have hn := hargs nil (by simp)
    simp only [List.map_cons, List.map_nil, nameless_list]
    exact ⟨_, .listFold .., (reduces_foldr evals hc hn hi evaluated).2 context⟩
  · next type e result full empty =>
    obtain ⟨_, evaluated, ⟨⟩⟩ := map_eq_pure_iff.mp h
    have he : Linear e := (linear_mk.mp (hargs (present e) (by simp))).2 e (.head _)
    have hf := hargs full (by simp)
    exact ⟨_, .optionalFold .., evals (linear_app.mpr ⟨hf, he⟩) evaluated context⟩
  · next type o result full empty _ =>
    have h := LawfulReturn.pure_injective h
    split at h
    · next absent =>
      cases h
      exact ⟨_, .optionalFoldNone (isNone_nameless absent context) .., .refl _⟩
    · cases h
  · cases h

/-- What a built-in function evaluates to is what its rule makes of the arguments, reduced. -/
theorem reduces_reduce (linear : (Node.builtin b : Node Unit).isLinear)
    (hargs : ∀ a ∈ args, Linear a) (h : b.reduce eval args = pure (some r))
    (context : List Label) : ∃ t, b.Contracts (args.map (·.nameless context)) t ∧
      Term.Reduces t (r.nameless context) := by
  cases b
  case naturalBuild | listBuild | optionalBuild | naturalSubtract => cases linear
  case naturalFold | listFold | optionalFold => exact reduces_reduceFold evals hargs h context
  all_goals
    have h := LawfulReturn.pure_injective h
    exact ⟨_, contracts_of_reduceLiteral h context, .refl _⟩

/-- What an application evaluates to is what its term reduces to. -/
theorem reduces_applyTo (hf : Linear f) (ha : Linear a) (h : f.applyTo eval a = pure r) :
    (app f a).ReducesTo r := by
  -- A function that is known is applied by the rule of functions, a built-in one by its own rule,
  -- and everything else is kept.
  unfold applyTo at h
  split at h
  · next x domain body =>
    obtain ⟨c, instantiated, evaluated⟩ := bind_eq_pure_iff.mp h
    have instantiated := Eval.lift_eq_pure_iff.mp instantiated
    have hb : Linear body := (linear_mk.mp hf).2 _ (.tail _ (.head _))
    intro context
    have rule : Term.Contracts ((app (lam x domain body) a).nameless context)
        (c.nameless context) := by
      rw [nameless_instantiate instantiated]
      exact .beta ..
    exact rule.reduces.trans (evals (linear_instantiate hb ha instantiated) evaluated context)
  · split at h
    · next b args spine =>
      have isApply : (builtin b).apply args = f := by
        have applied := apply_spine f
        rwa [spine] at applied
      obtain ⟨reduced?, reduced, h⟩ := bind_eq_pure_iff.mp h
      cases reduced? with
      | none =>
        cases h
        exact .refl _
      | some e =>
        cases h
        have arguments := linear_apply.mp (isApply ▸ hf)
        intro context
        obtain ⟨t, contracts, reduces⟩ := reduces_reduce evals (linear_mk.mp arguments.1).1
          (List.forall_mem_append.mpr ⟨arguments.2, List.forall_mem_singleton.mpr ha⟩) reduced
          context
        have function := nameless_apply (builtin b) args context
        have rule : Term.Contracts (.app (f.nameless context) (a.nameless context)) t := by
          rw [List.map_append, List.map_singleton] at contracts
          rw [← isApply, function]
          exact .builtin contracts
        exact rule.reduces.trans reduces
    · cases h
      exact .refl _

/-- One step of evaluation reduces the term. -/
theorem reduces_step (linear : Linear e) (h : e.step eval = pure r) : e.ReducesTo r := by
  obtain ⟨n⟩ := e
  obtain ⟨here, below⟩ := linear_mk.mp linear
  -- Inert constructs are evaluated child by child, and the others have a rule.
  by_cases inert : n.isInert
  · rw [step_inert inert] at h
    obtain ⟨n', traversed, rfl⟩ := map_eq_pure_iff.mp h
    refine reduces_inert ((Node.traverse_eq_pure_iff.mp traversed).imp fun p member c' => ?_)
    exact evals (below p.2 (List.mem_map_of_mem member))
  · cases n with
    | app f a =>
      obtain ⟨f', function, h⟩ := bind_eq_pure_iff.mp h
      obtain ⟨a', argument, h⟩ := bind_eq_pure_iff.mp h
      have hf := below f (.head _)
      have ha := below a (.tail _ (.head _))
      have functions := evals hf function
      have arguments := evals ha argument
      have applied := reduces_applyTo evals (functions.linear hf) (arguments.linear ha) h
      intro context
      exact (Term.compatible_reduces.app (functions context) (arguments context)).trans
        (applied context)
    | letIn bindings body =>
      cases bindings with
      | nil => cases h
      | cons first rest =>
        obtain ⟨value, evaluated, h⟩ := bind_eq_pure_iff.mp h
        obtain ⟨c, instantiated, h⟩ := bind_eq_pure_iff.mp h
        have instantiated := Eval.lift_eq_pure_iff.mp instantiated
        rw [Node.children_letIn_cons] at below
        obtain ⟨front, inner⟩ := List.forall_mem_append.mp below
        have hv : Linear first.value := front first.value (List.mem_append_right _ (.head _))
        have after := (reduces_afterFirst rest body).linear (linear_mk.mpr ⟨rfl, inner⟩)
        have values := evals hv evaluated
        have result := evals (linear_instantiate after (values.linear hv) instantiated) h
        exact fun context => (reduces_letIn values instantiated context).trans (result context)
    | annot e type =>
      have reduces := evals (below e (.head _)) h
      exact fun context => (Term.Contracts.annot _ _).reduces.trans (reduces context)
    | text t =>
      obtain ⟨head, tail⟩ := t
      cases tail with
      | cons p tail => exact absurd here Bool.false_ne_true
      | nil =>
        have stuck : Stuck (text ⟨head, []⟩) := ⟨fun u => by nofun, fun e => by nofun⟩
        have fixed : step eval (text ⟨head, []⟩) = pure (text ⟨head, []⟩) :=
          step_of_stuck stuck nofun (List.forall_mem_nil _)
        obtain rfl := LawfulReturn.pure_injective (h.symm.trans fixed)
        exact .refl _
    | op o x y =>
      obtain ⟨x', left, h⟩ := bind_eq_pure_iff.mp h
      obtain ⟨y', right, h⟩ := bind_eq_pure_iff.mp h
      have lefts := evals (below x (.head _)) left
      have rights := evals (below y (.tail _ (.head _))) right
      have applied := reduces_operator here (Eval.lift_eq_pure_iff.mp h)
      intro context
      exact (Term.Reduces.flat (.cons (lefts context) (.cons (rights context) .nil))).trans
        (applied context)
    | _ => first | exact absurd rfl inert | exact absurd here Bool.false_ne_true

end Evaluating

end Expr

end Dhall
