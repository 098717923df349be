/-
# Builds of folds

A build passes constructors to its argument, and a fold puts what it is given in the place of
the constructors of a value. So a build of the fold of a value is the value, and evaluation has a
rule that says so. Without the rule, the fold would run on the constructors, and this module shows
that it gives the same value: the fold of a number counts up to it, the fold of a list puts its
items in front of each other from the last one on, and the fold of an optional value wraps what is
inside.

The constructor of lists binds names, so types and items are moved under its binders on their
way. An index can overflow there, and then evaluation stops. Nothing else can go wrong: whatever
the free variables are called, what is moved under a binder and then out of it is as before.

## Main definitions

* `Expr.listLiteral` — the literal of a list of items
* `Expr.NormalUnder` — an expression that is normal when it is seen from under a binder

## Main results

* `Expr.apply_successor` — the step from a number to the next one
* `Expr.apply_prepend` — the step from a list to the list with one more item
* `Expr.fold_constructors` — folds of constructors agree with the rule for builds of folds
-/

import Dhall.Proofs.Application
import Dhall.Proofs.Arithmetic.Evaluation
import Dhall.Proofs.Idempotence
import Dhall.Proofs.Overflow.Evaluation

namespace Dhall

namespace Expr

open Eval

variable {e e' r type type' item item' l cons : Expr} {items : List Expr} {x : Label}

/-! ### Constructs that are kept -/

/-- A stuck expression is normal if its parts are. -/
theorem Stuck.normalizes_self {n : Node Expr} (h : Stuck (mk n)) (filled : ¬EmptyMerge (mk n))
    (fixed : ∀ c ∈ n.children, c.Normalizes c) : (mk n).Normalizes (mk n) := by
  have enough (cs : List Expr) (fixed : ∀ c ∈ cs, c.Normalizes c) :
      ∃ fuel, ∀ c ∈ cs, c.normalize fuel = pure c := by
    induction cs with
    | nil => exact ⟨0, nofun⟩
    | cons c cs ih =>
      obtain ⟨here, below⟩ := List.forall_mem_cons.mp fixed
      obtain ⟨first, returned⟩ := here.returns
      obtain ⟨second, returned'⟩ := ih below
      refine ⟨max first second, List.forall_mem_cons.mpr ⟨returned _ (by omega), ?_⟩⟩
      intro c member
      exact (approximates_normalize (Nat.le_max_right first second) c).outcome
        (congrArg outcome? (returned' c member))
  obtain ⟨fuel, returned⟩ := enough n.children fixed
  exact normalizes_iff_step.mpr ⟨fuel, step_of_stuck h filled returned⟩

/-- Applied names of types and of constructors are kept. -/
theorem normalizes_constructor {c : Builtin} (constructs : c ∈ [.list, .optional, .optionalNone])
    (h : type.Normalizes type) : (app (builtin c) type).Normalizes (app (builtin c) type) :=
  (Builtin.settled_constructor constructs (settled_of_normalizes h)).stuck.normalizes_self nofun
    (List.forall_mem_cons.mpr ⟨normalizes_builtin c, List.forall_mem_singleton.mpr h⟩)

theorem normalizes_listOf (h : type.Normalizes type) : (listOf type).Normalizes (listOf type) :=
  normalizes_constructor (by simp) h

theorem normalizes_optionalOf (h : type.Normalizes type) :
    (optionalOf type).Normalizes (optionalOf type) :=
  normalizes_constructor (by simp) h

theorem normalizes_noneOf (h : type.Normalizes type) : (noneOf type).Normalizes (noneOf type) :=
  normalizes_constructor (by simp) h

/-- The folds of lists and of optional values wait for five arguments. -/
theorem reduce_partial_fold {c : Builtin} {args : List Expr}
    (fold : c = .listFold ∨ c = .optionalFold) (few : args.length < 5) (eval : Expr → Eval Expr) :
    c.reduce eval args = pure none := by
  have waits : c.reduceFold eval args = pure none := by
    unfold Builtin.reduceFold
    split
    · rcases fold with fold | fold <;> cases fold
    · exact absurd few (Nat.lt_irrefl 5)
    · exact absurd few (Nat.lt_irrefl 5)
    · exact absurd few (Nat.lt_irrefl 5)
    · exact absurd few (Nat.lt_irrefl 5)
    · rfl
  rcases fold with rfl | rfl <;> exact waits

/-- So a fold with fewer arguments is normal. -/
theorem normalizes_partial_fold {c : Builtin} (fold : c = .listFold ∨ c = .optionalFold)
    (args : List Expr) (few : args.length < 5) (fixed : ∀ a ∈ args, a.Normalizes a) :
    ((builtin c).apply args).Normalizes ((builtin c).apply args) := by
  have waits (eval : Expr → Eval Expr) (l : List Expr) (fewer : l.length ≤ args.length) :
      c.reduce eval l = pure none :=
    reduce_partial_fold fold (Nat.lt_of_le_of_lt fewer few) eval
  exact (normalizes_waiting_iff waits).mpr ⟨args, List.forall₂_same.mpr fixed, rfl⟩

/-! ### Numbers -/

/-- The successor of a number that has one. -/
theorem apply_successor {m : UInt64} (fits : m.toNat + 1 < UInt64.size) :
    (app successor (natural m)).Normalizes (natural (m + 1)) := by
  have function : successor.Normalizes successor := ⟨3, rfl⟩
  have added : Operator.plus.reduce (natural m) (natural 1) = .ok (natural (m + 1)) :=
    congrArg Except.ok (Arithmetic.reducePlus_natural fits)
  have sum := (normalizes_natural m).op (normalizes_natural 1) added
  exact function.apply (normalizes_natural m) rfl sum

/-- Taking successors counts up, as long as there are any. -/
theorem returns_successors {m : UInt64} {k : Nat} (fits : m.toNat + k < UInt64.size) :
    Returns (fun fuel => iterate (fun e => normalize fuel (app successor e)) k (natural m))
      (natural (m + .ofNat k)) := by
  induction k generalizing m with
  | zero =>
    have same : m + UInt64.ofNat 0 = m := UInt64.add_zero m
    rw [same]
    exact .pure _
  | succ k ih =>
    have next : m.toNat + 1 < UInt64.size := by omega
    have toNat : (m + 1).toNat = m.toNat + 1 := by
      rw [UInt64.toNat_add]
      exact Nat.mod_eq_of_lt next
    have sum : m + UInt64.ofNat (k + 1) = m + 1 + UInt64.ofNat k := by
      rw [UInt64.ofNat_add, UInt64.add_assoc, UInt64.add_comm (UInt64.ofNat k)]
      rfl
    rw [sum]
    exact (apply_successor next).returns.bind (ih (by omega))

/-- The fold of a number on the constructors of numbers. -/
theorem normalizes_naturalFold (n : UInt64) :
    ((builtin .naturalFold).apply [natural n, builtin .natural, successor, natural 0]).Normalizes
      (natural n) := by
  have counted := returns_successors (m := 0) (k := n.toNat) (by
    rw [UInt64.toNat_zero, Nat.zero_add]
    exact n.toNat_lt)
  rw [UInt64.zero_add, UInt64.ofNat_toNat] at counted
  have function : successor.Normalizes successor := ⟨3, rfl⟩
  have one := (normalizes_builtin .naturalFold).builtin (normalizes_natural n) rfl (.pure none)
  have two := one.builtin (normalizes_builtin .natural) rfl (.pure none)
  have three := two.builtin function rfl (.pure none)
  exact three.builtin (normalizes_natural 0) rfl (counted.map some)

/-! ### Lists -/

/-- The expression is normal when it is seen from under a binder. -/
def NormalUnder (x : Label) (e : Expr) : Prop :=
  ∃ e', e.under x = .ok e' ∧ e'.Normalizes e'

/-- The literal with the given items. Without items it needs a type. -/
def listLiteral (type : Expr) : List Expr → Expr
  | [] => emptyList (listOf type)
  | item :: items => list (item :: items)

/-- `[item] # rest` -/
def consItem (item rest : Expr) : Expr :=
  op .listAppend (list [item]) rest

/-- `λ(as : List type) → [item] # as` -/
def prependItem (type item : Expr) : Expr :=
  lam "as" (listOf type) (consItem item (var (.nearest "as")))

theorem normalizes_listLiteral (h : type.Normalizes type) (fixed : ∀ e ∈ items, e.Normalizes e) :
    (listLiteral type items).Normalizes (listLiteral type items) := by
  cases items with
  | nil =>
    exact Stuck.normalizes_self (n := .emptyList _) trivial nofun
      (List.forall_mem_singleton.mpr (normalizes_listOf h))
  | cons item items =>
    refine Stuck.normalizes_self (n := .list _) trivial nofun ?_
    simpa [Node.children, Node.scopedChildren, Function.comp_def] using fixed

theorem normalizes_prependItem (ht : type.Normalizes type) (hi : item.Normalizes item) :
    (prependItem type item).Normalizes (prependItem type item) := by
  have single := normalizes_listLiteral ht (List.forall_mem_singleton.mpr hi)
  have body : (consItem item (var (.nearest "as"))).Normalizes
      (consItem item (var (.nearest "as"))) :=
    single.op (normalizes_var _) rfl
  exact (normalizes_listOf ht).lam body

/-- The binder that is removed is the innermost one of the context. -/
theorem resolved_instantiate_nearest (h : e.instantiate (.nearest x) l = .ok r)
    (context : List Label) : r.resolved context =
      (e.resolved (x :: context)).subst (Term.instantiation 0 (l.resolved context)) :=
  resolved_instantiate (Δ := []) (Γ := context) h rfl

/-- What has been moved under a binder is as before when the binder is removed. -/
theorem subst_resolved_under (h : e.under x = .ok e') (context : List Label) (u : Term) :
    (e'.resolved (x :: context)).subst (Term.instantiation 0 u) = e.resolved context := by
  rw [resolved_under h, Term.subst_rename]
  exact Term.subst_id _

theorem resolved_consItem (item rest : Expr) (context : List Label) :
    (consItem item rest).resolved context = .construct (.op .listAppend () ())
      [(0, .construct (.list [()]) [(0, item.resolved context)]), (0, rest.resolved context)] :=
  rfl

theorem resolved_prependItem (type item : Expr) (context : List Label) :
    (prependItem type item).resolved context = .construct (.lam "as" () ())
      [(0, .construct (.app () ())
          [(0, .construct (.builtin .list) []), (0, type.resolved context)]),
        (1, (consItem item (var (.nearest "as"))).resolved ("as" :: context))] :=
  rfl

/-- An item takes the place of the first variable of `prepend`. The type that was moved under the
binder of the variable is then seen from outside again. -/
theorem instantiate_prependItem (moved : type.under "a" = .ok type')
    (below : item.under "as" = .ok item')
    (h : (prependItem type' (var (.nearest "a"))).instantiate (.nearest "a") item = .ok r) :
    r = prependItem type item' := by
  refine resolved_injective [] ?_
  have outside := subst_resolved_under moved [] (item.resolved [])
  have inside : item'.resolved ["as"] = (item.resolved []).rename (· + 1) := resolved_under below
  -- Between the two binders the item is one position away, and the list is not there yet.
  have first : (var (.nearest "a")).resolved ["as", "a"] = .bound 1 := rfl
  have second (context : List Label) :
      (var (.nearest "as")).resolved ("as" :: context) = .bound 0 :=
    rfl
  calc r.resolved []
      = ((prependItem type' (var (.nearest "a"))).resolved ["a"]).subst
          (Term.instantiation 0 (item.resolved [])) := resolved_instantiate_nearest h []
    _ = (prependItem type item').resolved [] := by
        simp only [resolved_prependItem, resolved_consItem, first, second, inside,
          Term.subst_construct, List.map_cons, List.map_nil, Term.subst_bound, Term.liftSubst_zero,
          outside]
        rfl

/-- A list takes the place of the second variable of `prepend`, and the item that was moved under
the binder of the variable is seen from outside again. -/
theorem instantiate_consItem (below : item.under "as" = .ok item')
    (h : (consItem item' (var (.nearest "as"))).instantiate (.nearest "as") l = .ok r) :
    r = consItem item l := by
  refine resolved_injective [] ?_
  have outside := subst_resolved_under below [] (l.resolved [])
  have second : (var (.nearest "as")).resolved ["as"] = .bound 0 := rfl
  calc r.resolved []
      = ((consItem item' (var (.nearest "as"))).resolved ["as"]).subst
          (Term.instantiation 0 (l.resolved [])) := resolved_instantiate_nearest h []
    _ = (consItem item l).resolved [] := by
        rw [resolved_consItem, resolved_consItem, second]
        simp [outside]
        rfl

/-- The constructor of lists is `prependItem` for its own variable. -/
theorem prepend_eq_ok (h : prepend type = .ok cons) : ∃ type', type.under "a" = .ok type' ∧
    cons = lam "a" type (prependItem type' (var (.nearest "a"))) := by
  obtain ⟨type', moved, made⟩ := bind_eq_pure_iff.mp h
  exact ⟨type', moved, (Except.ok.inj made).symm⟩

theorem normalizes_prepend (ht : type.Normalizes type) (below : type.NormalUnder "a")
    (made : prepend type = .ok cons) : cons.Normalizes cons := by
  obtain ⟨type', moved, rfl⟩ := prepend_eq_ok made
  obtain ⟨type'', moved', normal⟩ := below
  cases moved.symm.trans moved'
  exact ht.lam (normalizes_prependItem normal (normalizes_var (.nearest "a")))

/-- The step from a list to the list with one more item. -/
theorem apply_prepend (ht : type.Normalizes type) (moved : type.NormalUnder "a")
    (made : prepend type = .ok cons) (hi : item.Normalizes item) (below : item.NormalUnder "as")
    (fixed : ∀ e ∈ items, e.Normalizes e) :
    (cons.apply [item, listLiteral type items]).NormalizesOrOverflows
      (listLiteral type (item :: items)) := by
  have function := normalizes_prepend ht moved made
  obtain ⟨type', moved, rfl⟩ := prepend_eq_ok made
  obtain ⟨item', below, normal⟩ := below
  -- With the item alone, the constructor is a function that has the item moved under its binder.
  have waits : (app _ item).NormalizesOrOverflows (prependItem type item') :=
    .apply (.inl function) (.inl hi) (fun c => instantiate_prependItem moved below)
      (.inl (normalizes_prependItem ht normal))
  have single := normalizes_listLiteral ht (List.forall_mem_singleton.mpr hi)
  have appended : (consItem item (listLiteral type items)).Normalizes
      (listLiteral type (item :: items)) := by
    refine single.op (normalizes_listLiteral ht fixed) ?_
    cases items <;> rfl
  exact .apply waits (.inl (normalizes_listLiteral ht fixed))
    (fun c => instantiate_consItem below) (.inl appended)

/-- Items are put in front of each other from the last one on. -/
theorem returns_prepends (ht : type.Normalizes type) (moved : type.NormalUnder "a")
    (made : prepend type = .ok cons) (fixed : ∀ e ∈ items, e.Normalizes e ∧ e.NormalUnder "as") :
    ReturnsOrOverflows
      (fun fuel => items.foldrM (fun item e => normalize fuel (cons.apply [item, e]))
      (listLiteral type [])) (listLiteral type items) := by
  induction items with
  | nil => exact .inl (.pure _)
  | cons item items ih =>
    obtain ⟨⟨hi, below⟩, fixed⟩ := List.forall_mem_cons.mp fixed
    have step := apply_prepend ht moved made hi below fun e member => (fixed e member).1
    simp only [List.foldrM_cons]
    exact (ih fixed).bind step.returns

/-- The fold of a list on the constructors of lists. -/
theorem normalizes_listFold (ht : type.Normalizes type) (moved : type.NormalUnder "a")
    (made : prepend type = .ok cons) (fixed : ∀ e ∈ items, e.Normalizes e ∧ e.NormalUnder "as") :
    ((builtin .listFold).apply [type, listLiteral type items, listOf type, cons,
      emptyList (listOf type)]).NormalizesOrOverflows (listLiteral type items) := by
  have normal := normalizes_listLiteral ht fun e member => (fixed e member).1
  have empty : (listLiteral type []).Normalizes (listLiteral type []) :=
    normalizes_listLiteral ht nofun
  have function := normalizes_partial_fold (c := .listFold) (.inl rfl)
    [type, listLiteral type items, listOf type, cons] (by simp)
    (by simp [ht, normal, normalizes_listOf ht, normalizes_prepend ht moved made])
  refine .builtin function empty (spine_apply _ _) ?_
  -- The empty list has a literal of its own, which is folded without the constructor.
  cases items with
  | nil => exact .inl (.pure _)
  | cons item items => exact (returns_prepends ht moved made fixed).map some

/-! ### Optional values -/

theorem normalizes_wrap (ht : type.Normalizes type) : (wrap type).Normalizes (wrap type) :=
  ht.lam ⟨2, rfl⟩

theorem normalizes_present (h : e.Normalizes e) : (present e).Normalizes (present e) :=
  Stuck.normalizes_self (n := .present e) trivial nofun (List.forall_mem_singleton.mpr h)

theorem instantiate_wrapped
    (h : (present (var (.nearest "a"))).instantiate (.nearest "a") e = .ok r) : r = present e := by
  refine resolved_injective [] ?_
  have wrapped (e : Expr) (context : List Label) :
      (present e).resolved context = .construct (.present ()) [(0, e.resolved context)] := rfl
  have first : (var (.nearest "a")).resolved ["a"] = .bound 0 := rfl
  calc r.resolved []
      = ((present (var (.nearest "a"))).resolved ["a"]).subst
          (Term.instantiation 0 (e.resolved [])) := resolved_instantiate_nearest h []
    _ = (present e).resolved [] := by
        rw [wrapped, wrapped, first]
        simp
        rfl

/-- The fold of a value that is there on the constructors of optional values. -/
theorem normalizes_optionalFold_present (ht : type.Normalizes type) (h : e.Normalizes e) :
    ((builtin .optionalFold).apply [type, present e, optionalOf type, wrap type,
      noneOf type]).NormalizesOrOverflows (present e) := by
  have normal := normalizes_present h
  have function := normalizes_partial_fold (c := .optionalFold) (.inr rfl)
    [type, present e, optionalOf type, wrap type] (by simp)
    (by simp [ht, normal, normalizes_optionalOf ht, normalizes_wrap ht])
  have applied : (app (wrap type) e).NormalizesOrOverflows (present e) :=
    .apply (.inl (normalizes_wrap ht)) (.inl h) (fun c => instantiate_wrapped) (.inl normal)
  exact .builtin function (normalizes_noneOf ht) (spine_apply _ _) (applied.returns.map some)

/-- The fold of a missing value on the constructors of optional values. -/
theorem normalizes_optionalFold_none (ht : type.Normalizes type) :
    ((builtin .optionalFold).apply [type, noneOf type, optionalOf type, wrap type,
      noneOf type]).Normalizes (noneOf type) := by
  have normal := normalizes_noneOf ht
  have function := normalizes_partial_fold (c := .optionalFold) (.inr rfl)
    [type, noneOf type, optionalOf type, wrap type] (by simp)
    (by simp [ht, normal, normalizes_optionalOf ht, normalizes_wrap ht])
  exact function.builtin normal (spine_apply _ _) (.pure (some (noneOf type)))

/-! ### All folds -/

/-- A build of the matching fold of a value is the value. -/
theorem normalizes_build_of_fold {build fold : Builtin} {value : Expr}
    (matching : build = .listBuild ∧ fold = .listFold ∨
      build = .optionalBuild ∧ fold = .optionalFold)
    (ht : type.Normalizes type) (h : value.Normalizes value) :
    ((builtin build).apply [type, (builtin fold).apply [type, value]]).Normalizes value := by
  have waits := normalizes_partial_fold (matching.imp And.right And.right)
    [type, value] (by simp) (by simp [ht, h])
  rcases matching with ⟨rfl, rfl⟩ | ⟨rfl, rfl⟩
  · have function := (normalizes_builtin .listBuild).builtin ht rfl (.pure none)
    exact function.builtin waits rfl (.pure (some value))
  · have function := (normalizes_builtin .optionalBuild).builtin ht rfl (.pure none)
    exact function.builtin waits rfl (.pure (some value))

/-- The fold of a value on the constructors of its type evaluates to the value, and so does the
build of the fold, by the rule for builds of folds. -/
theorem fold_constructors :
    (∀ n : UInt64,
      let g := (builtin .naturalFold).apply [natural n]
      (g.apply [builtin .natural, successor, natural 0]).Normalizes (natural n) ∧
        (app (builtin .naturalBuild) g).Normalizes (natural n)) ∧
    (∀ (type cons : Expr) (items : List Expr), type.Normalizes type → type.NormalUnder "a" →
      (∀ e ∈ items, e.Normalizes e ∧ e.NormalUnder "as") → prepend type = .ok cons →
      let l := listLiteral type items
      let g := (builtin .listFold).apply [type, l]
      (g.apply [listOf type, cons, emptyList (listOf type)]).NormalizesOrOverflows l ∧
        ((builtin .listBuild).apply [type, g]).Normalizes l) ∧
    ∀ type : Expr, type.Normalizes type →
      let g (o : Expr) := (builtin .optionalFold).apply [type, o]
      let folded (o : Expr) := (g o).apply [optionalOf type, wrap type, noneOf type]
      let built (o : Expr) := (builtin .optionalBuild).apply [type, g o]
      (∀ e : Expr, e.Normalizes e → (folded (present e)).NormalizesOrOverflows (present e) ∧
        (built (present e)).Normalizes (present e)) ∧
      (folded (noneOf type)).Normalizes (noneOf type) ∧
        (built (noneOf type)).Normalizes (noneOf type) := by
  refine ⟨fun n => ⟨normalizes_naturalFold n, ?_⟩, ?_, fun type ht => ⟨fun e he => ?_, ?_, ?_⟩⟩
  -- The fold has no function to apply yet, so it is normal.
  · have waits := (normalizes_builtin .naturalFold).builtin (normalizes_natural n) rfl (.pure none)
    exact (normalizes_builtin .naturalBuild).builtin waits rfl (.pure (some (natural n)))
  · intro type cons items ht moved fixed made l g
    have normal : l.Normalizes l := normalizes_listLiteral ht fun e member => (fixed e member).1
    exact ⟨normalizes_listFold ht moved made fixed,
      normalizes_build_of_fold (.inl ⟨rfl, rfl⟩) ht normal⟩
  · exact ⟨normalizes_optionalFold_present ht he,
      normalizes_build_of_fold (.inr ⟨rfl, rfl⟩) ht (normalizes_present he)⟩
  · exact normalizes_optionalFold_none ht
  · exact normalizes_build_of_fold (.inr ⟨rfl, rfl⟩) ht (normalizes_noneOf ht)

/-- The type and the items have free variables with the names that the constructor of lists
binds. -/
theorem fold_constructors_captured :
    let type := var ⟨"a", 0⟩
    let items := [app (var ⟨"as", 1⟩) (var ⟨"a", 0⟩), var ⟨"as", 0⟩]
    let g := (builtin .listFold).apply [type, list items]
    type.Normalizes type ∧ type.NormalUnder "a" ∧
      (∀ e ∈ items, e.Normalizes e ∧ e.NormalUnder "as") ∧ ∃ cons, prepend type = .ok cons ∧
        (g.apply [listOf type, cons, emptyList (listOf type)]).NormalizesOrOverflows (list items) ∧
        ((builtin .listBuild).apply [type, g]).Normalizes (list items) := by
  intro type items g
  have typed : type.Normalizes type ∧ type.NormalUnder "a" := ⟨⟨1, rfl⟩, _, rfl, ⟨1, rfl⟩⟩
  have fixed : ∀ e ∈ items, e.Normalizes e ∧ e.NormalUnder "as" := by
    simp only [items, List.forall_mem_cons]
    exact ⟨⟨⟨2, rfl⟩, _, rfl, ⟨2, rfl⟩⟩, ⟨⟨1, rfl⟩, _, rfl, ⟨1, rfl⟩⟩, nofun⟩
  have made : prepend type = .ok (lam "a" type (prependItem (var ⟨"a", 1⟩) (var ⟨"a", 0⟩))) := rfl
  exact ⟨typed.1, typed.2, fixed, _, made,
    fold_constructors.2.1 type _ items typed.1 typed.2 fixed made⟩

end Expr

end Dhall
