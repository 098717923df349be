/-
# Normal forms cannot be rewritten

A rule on terms that applies to the term of an expression is a rule of evaluation that applies
to the expression. Normal forms have no redexes, so their terms reduce to themselves only.
Since reductions of one term can be joined, linear expressions whose terms have a common reduct
have one normal form, whatever the order in which evaluation has got there.

## Main results

* `Expr.Stuck.not_contracts` — no rule applies to the term of a stuck expression
* `Expr.Settled.reduces_eq` — the terms of normal forms reduce to themselves only
* `Expr.reducesTo_of_normalizes` — evaluation reduces terms
* `Expr.nameless_eq_of_reduces` — normal forms of expressions with a common reduct
-/

import Dhall.Proofs.Rewriting.Evaluation

namespace Dhall

namespace Expr

open Term (Contracts Develops DevelopsAll)

variable {e f a r : Expr} {context : List Label} {n : Node Expr} {b : Builtin}
  {args : List Expr} {t : Term} {shape : Node Unit} {arguments : List (Nat × Term)}
  {parts : List Term}

/-! ### Expressions read off their terms -/

/-- An expression whose term is a construct is such a construct. -/
theorem mk_of_nameless (same : (mk n).nameless context = .construct shape arguments) :
    n.shape.unlabelled = shape ∧
      n.scopedChildren.map (fun p => (p.1.length, p.2.nameless (p.1.reverse ++ context))) =
        arguments := by
  by_cases isVar : ∃ v, n = .var v
  · obtain ⟨v, rfl⟩ := isVar
    rw [nameless, resolved_var] at same
    rcases locate_cases context v.label v.index.toNat with ⟨i, atom⟩ | ⟨i, atom⟩ <;>
      rw [atom] at same <;> cases same
  · rw [nameless_mk (not_exists.mp isVar)] at same
    exact Term.construct.inj same

theorem app_of_nameless {f' a' : Term} (same : e.nameless context = .app f' a') :
    ∃ f a, e = app f a ∧ f.nameless context = f' ∧ a.nameless context = a' := by
  obtain ⟨n⟩ := e
  obtain ⟨shapes, parts⟩ := mk_of_nameless same
  cases n <;> cases shapes
  case app f a =>
    cases parts
    exact ⟨f, a, rfl, rfl, rfl⟩

theorem natural_of_nameless {m : UInt64} (same : e.nameless context = .natural m) :
    e = natural m := by
  obtain ⟨n⟩ := e
  obtain ⟨shapes, -⟩ := mk_of_nameless same
  cases n <;> cases shapes
  rfl

theorem lam_of_nameless {x : Label}
    (same : e.nameless context = .construct (.lam x () ()) arguments) :
    ∃ y domain body, e = lam y domain body := by
  obtain ⟨n⟩ := e
  obtain ⟨shapes, -⟩ := mk_of_nameless same
  cases n <;> cases shapes
  exact ⟨_, _, _, rfl⟩

theorem emptyList_of_nameless (same : e.nameless context = .emptyList t) :
    ∃ type, e = emptyList type := by
  obtain ⟨n⟩ := e
  obtain ⟨shapes, -⟩ := mk_of_nameless same
  cases n <;> cases shapes
  exact ⟨_, rfl⟩

theorem present_of_nameless (same : e.nameless context = .present t) : ∃ a, e = present a := by
  obtain ⟨n⟩ := e
  obtain ⟨shapes, -⟩ := mk_of_nameless same
  cases n <;> cases shapes
  exact ⟨_, rfl⟩

theorem list_of_nameless {items : List Term} (same : e.nameless context = .list items) :
    ∃ items, e = list items := by
  obtain ⟨n⟩ := e
  obtain ⟨shapes, -⟩ := mk_of_nameless same
  cases n <;> try cases shapes
  exact ⟨_, rfl⟩

theorem leaf_of_nameless {m : Node Expr} (leaf : m.isLeaf)
    (same : e.nameless context = .flat m.shape []) : e = mk m := by
  obtain ⟨n⟩ := e
  obtain ⟨shapes, -⟩ := mk_of_nameless same
  -- A literal is its own shape, also without labels of binders.
  have plain : m.shape.isPlain := by
    cases m <;> first | rfl | exact absurd leaf Bool.false_ne_true
  have unlabelled : m.shape.unlabelled = m.shape := by
    cases m <;> first | rfl | exact absurd leaf Bool.false_ne_true
  have shapes := Node.eq_of_unlabelled plain (shapes.trans unlabelled.symm)
  have leaf' : n.isLeaf := by rw [← Node.isLeaf_shape, shapes, Node.isLeaf_shape, leaf]
  rw [Node.eq_of_leaf leaf' leaf shapes]

/-- The spine of an expression is that of its term. -/
theorem spine_of_nameless {args' : List Term}
    (same : e.nameless context = Term.apply (.builtin b) args') :
    ∃ args, e.spine = (builtin b, args) ∧ args.map (·.nameless context) = args' := by
  induction args' using List.reverseRecOn generalizing e with
  | nil =>
    obtain ⟨n⟩ := e
    obtain ⟨shapes, -⟩ := mk_of_nameless same
    cases n <;> cases shapes
    exact ⟨[], rfl, rfl⟩
  | append_singleton init last ih =>
    rw [Term.apply_concat] at same
    obtain ⟨f, a, rfl, function, rfl⟩ := app_of_nameless same
    obtain ⟨args, spine, rfl⟩ := ih function
    refine ⟨args ++ [a], ?_, List.map_append ..⟩
    rw [spine_app, spine]

/-! ### Rules that apply -/

/-- Where a rule of a built-in function applies to terms, the function is not stuck. -/
theorem reduce_ne_none (h : b.Contracts (args.map (·.nameless context)) t) :
    b.reduce pure args ≠ pure none := by
  have related : List.Forall₂ (fun e t => e.nameless context = t) args
      (args.map (·.nameless context)) :=
    List.forall₂_map_right_iff.mpr (List.forall₂_same.mpr fun _ _ => rfl)
  generalize args.map (·.nameless context) = terms at h related
  have pure_ne {o : Option Expr} (known : o ≠ none) : (pure o : Eval (Option Expr)) ≠ pure none :=
    fun same => known (LawfulReturn.pure_injective same)
  have map_ne {x : Eval Expr} : some <$> x ≠ pure none := by
    intro none
    obtain ⟨_, _, ⟨⟩⟩ := map_eq_pure_iff.mp none
  have pair {type e : Expr} (binary : b.arity = 2) :
      b.reduce pure [type, e] = pure (b.reduceList type e) := by
    cases b <;> first | (cases binary; done) | simp only [Builtin.reduce, Builtin.reduceLiteral]
  -- In each case the argument that the rule looks at has the form of its term.
  cases h with
  | @leaf _ n m operand result h =>
    obtain _ | ⟨here, ⟨⟩⟩ := related
    obtain rfl := leaf_of_nameless operand here
    have reduces : b.reduce pure [mk n] = pure (b.reduceLiteral [mk n]) := by
      have unary := (Builtin.Contracts.leaf operand result h).length
      cases b <;> first | rfl | cases unary
    rw [reduces, h]
    exact pure_ne (Option.some_ne_none _)
  | @emptyList _ type listType t h =>
    obtain _ | ⟨-, _ | ⟨here, ⟨⟩⟩⟩ := related
    obtain ⟨listType, rfl⟩ := emptyList_of_nameless here
    rw [pair (Builtin.Contracts.emptyList h).length.symm]
    cases b <;> first | (cases h; done) | exact pure_ne (Option.some_ne_none _)
  | @list _ type t items h =>
    obtain _ | ⟨-, _ | ⟨here, ⟨⟩⟩⟩ := related
    obtain ⟨items, rfl⟩ := list_of_nameless here
    rw [pair (Builtin.Contracts.list h).length.symm]
    cases b <;> first | (cases h; done) | exact pure_ne (Option.some_ne_none _)
  | naturalFold =>
    obtain _ | ⟨number, _ | ⟨-, _ | ⟨-, _ | ⟨-, ⟨⟩⟩⟩⟩⟩ := related
    obtain rfl := natural_of_nameless number
    exact map_ne
  | listFoldEmpty =>
    obtain _ | ⟨-, _ | ⟨here, _ | ⟨-, _ | ⟨-, _ | ⟨-, ⟨⟩⟩⟩⟩⟩⟩ := related
    obtain ⟨listType, rfl⟩ := emptyList_of_nameless here
    exact pure_ne (Option.some_ne_none _)
  | listFold =>
    obtain _ | ⟨-, _ | ⟨here, _ | ⟨-, _ | ⟨-, _ | ⟨-, ⟨⟩⟩⟩⟩⟩⟩ := related
    obtain ⟨items, rfl⟩ := list_of_nameless here
    exact map_ne
  | optionalFold =>
    obtain _ | ⟨-, _ | ⟨here, _ | ⟨-, _ | ⟨-, _ | ⟨-, ⟨⟩⟩⟩⟩⟩⟩ := related
    obtain ⟨e, rfl⟩ := present_of_nameless here
    exact map_ne
  | optionalFoldNone absent =>
    obtain _ | ⟨-, _ | ⟨here, _ | ⟨-, _ | ⟨-, _ | ⟨-, ⟨⟩⟩⟩⟩⟩⟩ := related
    obtain ⟨terms, isNone⟩ := absent
    obtain ⟨arguments, spine, -⟩ := spine_of_nameless (here.trans isNone)
    simp only [Builtin.reduce, Builtin.reduceFold]
    split
    case h_1 | h_3 | h_4 => exact map_ne
    case h_2 => exact pure_ne (Option.some_ne_none _)
    case h_5 parts =>
      cases parts
      rw [argumentsOf?, spine]
      exact pure_ne (Option.some_ne_none _)
    case h_6 other => exact (other _ _ _ _ _ rfl rfl).elim

/-- Where a rule of an operator applies to terms, the operation is not stuck. -/
private theorem operator_stuck {o : Operator} {x y : Expr} {context' : List Label}
    (h : o.Stuck x y) : ¬o.Contracts (x.nameless context) (y.nameless context') t := by
  intro rule
  generalize left : x.nameless context = x' at rule
  generalize right : y.nameless context' = y' at rule
  -- Each rule asks for a literal among the operands, which the expression then has as well.
  cases rule with
  | zeroPlus =>
    obtain rfl := natural_of_nameless left
    exact h.1 rfl
  | plusZero =>
    obtain rfl := natural_of_nameless right
    exact h.2.1 rfl
  | plus fits =>
    obtain rfl := natural_of_nameless left
    obtain rfl := natural_of_nameless right
    exact h.2.2 _ _ rfl rfl fits
  | zeroTimes =>
    obtain rfl := natural_of_nameless left
    exact h.1 rfl
  | timesZero =>
    obtain rfl := natural_of_nameless right
    exact h.2.1 rfl
  | oneTimes =>
    obtain rfl := natural_of_nameless left
    exact h.2.2.1 rfl
  | timesOne =>
    obtain rfl := natural_of_nameless right
    exact h.2.2.2.1 rfl
  | times fits =>
    obtain rfl := natural_of_nameless left
    obtain rfl := natural_of_nameless right
    exact h.2.2.2.2 _ _ rfl rfl fits

/-- No rule applies to the term of a stuck expression. -/
theorem Stuck.not_contracts (h : Stuck e) : ¬Contracts (e.nameless context) t := by
  intro rule
  generalize same : e.nameless context = whole at rule
  cases rule with
  | beta x domain body a =>
    obtain ⟨f, a, rfl, function, -⟩ := app_of_nameless same
    obtain ⟨y, domain', body', rfl⟩ := lam_of_nameless function
    exact h.1 _ _ _ rfl
  | define | body | annot =>
    -- Definitions and annotations are never stuck.
    obtain ⟨n⟩ := e
    obtain ⟨shapes, -⟩ := mk_of_nameless same
    cases n <;> try cases shapes
    exact h
  | @builtin b args a u rule =>
    obtain ⟨f, a, rfl, function, rfl⟩ := app_of_nameless same
    obtain ⟨args, spine, rfl⟩ := spine_of_nameless function
    have rule : b.Contracts ((args ++ [a]).map (·.nameless context)) t := by
      rw [List.map_append]
      exact rule
    exact reduce_ne_none rule (h.2 b args spine pure)
  | op rule =>
    obtain ⟨n⟩ := e
    obtain ⟨shapes, parts⟩ := mk_of_nameless same
    cases n <;> cases shapes
    case op o x y =>
      cases parts
      exact operator_stuck h rule

theorem developsAll_eq {arguments' : List (Nat × Term)} (h : DevelopsAll arguments arguments')
    (fixed : ∀ a ∈ arguments, ∀ t, Develops a.2 t → t = a.2) : arguments' = arguments := by
  induction arguments generalizing arguments' with
  | nil =>
    cases h
    rfl
  | cons a rest ih =>
    obtain ⟨first, others⟩ := List.forall_mem_cons.mp fixed
    cases h with
    | cons k here below => rw [first _ here, ih below others]

/-- The term of a settled expression develops to itself only. -/
theorem Settled.develops_eq (settled : Settled e) (h : Develops (e.nameless context) t) :
    t = e.nameless context := by
  induction e using variableInduction generalizing context t with
  | var v =>
    rw [nameless, resolved_var] at h ⊢
    rcases locate_cases context v.label v.index.toNat with ⟨i, atom⟩ | ⟨i, atom⟩ <;>
      rw [atom] at h ⊢ <;> cases h <;> rfl
  | node n notVar ih =>
    have stuck : ¬Contracts ((mk n).nameless context) t := settled.stuck.not_contracts
    rw [nameless_mk notVar] at h stuck ⊢
    have fixed : ∀ a ∈ n.scopedChildren.map
        (fun p => (p.1.length, p.2.nameless (p.1.reverse ++ context))),
        ∀ u, Develops a.2 u → u = a.2 :=
      List.forall_mem_map.mpr fun p member u develops =>
        ih p member (settled.child (List.mem_map_of_mem member)) develops
    have kept {arguments' : List (Nat × Term)} (parts : DevelopsAll _ arguments') :=
      developsAll_eq parts fixed
    cases h with
    | congr _ parts => rw [kept parts]
    | contract parts rule =>
      rw [kept parts] at rule
      exact absurd rule stuck

/-- The term of a settled expression reduces to itself only. -/
theorem Settled.reduces_eq (settled : Settled e) (h : Term.Reduces (e.nameless context) t) :
    t = e.nameless context := by
  induction h with
  | refl => rfl
  | tail _ step ih => exact settled.develops_eq (ih ▸ step)

/-- Evaluation reduces the term of a linear expression. -/
theorem reducesTo_of_normalizes (linear : Linear e) (h : e.Normalizes r) : e.ReducesTo r := by
  obtain ⟨fuel, h⟩ := h
  induction fuel generalizing e r with
  | zero => cases h
  | succ fuel ih => exact reduces_step (fun linear returned => ih linear returned) linear h

/-- Linear expressions whose terms have a common reduct have one normal form. -/
theorem nameless_eq_of_reduces {e' r' : Expr} (linear : Linear e) (linear' : Linear e')
    (h : e.Normalizes r) (h' : e'.Normalizes r') (common : Term.Reduces (e.nameless context) t)
    (common' : Term.Reduces (e'.nameless context) t) :
    r.nameless context = r'.nameless context := by
  obtain ⟨u, up, down⟩ := (reducesTo_of_normalizes linear h context).join common
  obtain ⟨u', up', down'⟩ := (reducesTo_of_normalizes linear' h' context).join common'
  obtain rfl := (settled_of_normalizes h).reduces_eq up
  obtain rfl := (settled_of_normalizes h').reduces_eq up'
  obtain ⟨w, left, right⟩ := down.join down'
  rw [← (settled_of_normalizes h).reduces_eq left, ← (settled_of_normalizes h').reduces_eq right]

end Expr

end Dhall
