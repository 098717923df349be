/-
# Rewriting of terms

A term is rewritten by contracting redexes: a function is applied, a definition takes the place
of its variable, an annotation is dropped, or a rule of a built-in function, a sum or a product
applies. A development contracts any number of redexes at once, from the inside out, also those
that the contraction of inner ones has brought about.

Two developments of one term have a common development. The proof follows the term: the parts
have common developments, and a rule that applied to parts of one side still applies to these.

## Main definitions

* `Term.Contracts` — a rule applies at the outermost construct
* `Term.Develops` — any number of rules are applied, from the inside out
* `Term.Reduces` — developments one after the other

## Main results

* `Term.Contracts.subst`, `Term.Contracts.parts` — rules apply after substitution, and after
  developments of the parts
* `Term.Develops.subst` — a development after a development of what is substituted
* `Term.Develops.diamond` — two developments have a common development
* `Term.Reduces.join` — terms that a term reduces to reduce to a common term
-/

import Dhall.Proofs.Rewriting.Rule
import Mathlib.Data.List.Induction
import Mathlib.Logic.Relation

namespace Dhall

namespace Term

/-- A rule applies at the outermost construct. -/
inductive Contracts : Term → Term → Prop
  /-- A function is applied. -/
  | beta (x : Label) (domain body a : Term) :
      Contracts (app (construct (.lam x () ()) [(0, domain), (1, body)]) a) (body.instantiate a)
  /-- The first definition takes the place of its variable. -/
  | define {first : Binding Unit} (bindings : List (Binding Unit)) {type : Option Term}
      (annotated : first.annotation = type.map fun _ => ()) (value : Term)
      (arguments : List (Nat × Term)) :
      Contracts (construct (.letIn (first :: bindings) ())
          ((type.toList ++ [value]).map (0, ·) ++ arguments.map fun p => (p.1 + 1, p.2)))
        ((construct (.letIn bindings ()) arguments).instantiate value)
  /-- No definition is left. -/
  | body (t : Term) : Contracts (flat (.letIn [] ()) [t]) t
  /-- An annotation is dropped. -/
  | annot (t type : Term) : Contracts (flat (.annot () ()) [t, type]) t
  /-- A built-in function has its arguments. -/
  | builtin {b : Builtin} {args : List Term} {a t : Term} (h : b.Contracts (args ++ [a]) t) :
      Contracts (app (apply (builtin b) args) a) t
  /-- The operands of a sum or a product are known. -/
  | op {o : Operator} {x y t : Term} (h : o.Contracts x y t) :
      Contracts (flat (.op o () ()) [x, y]) t

mutual

/-- Any number of rules are applied, from the inside out. -/
inductive Develops : Term → Term → Prop
  | bound (i : Nat) : Develops (bound i) (bound i)
  | free (x : Label) (i : Nat) : Develops (free x i) (free x i)
  /-- The parts are developed. -/
  | congr (shape : Node Unit) {arguments arguments' : List (Nat × Term)}
      (parts : DevelopsAll arguments arguments') :
      Develops (construct shape arguments) (construct shape arguments')
  /-- The parts are developed, then a rule is applied. -/
  | contract {shape : Node Unit} {arguments arguments' : List (Nat × Term)} {t : Term}
      (parts : DevelopsAll arguments arguments') (rule : Contracts (construct shape arguments') t) :
      Develops (construct shape arguments) t

/-- Arguments under the same binders are developed. -/
inductive DevelopsAll : List (Nat × Term) → List (Nat × Term) → Prop
  | nil : DevelopsAll [] []
  | cons (k : Nat) {t t' : Term} {rest rest' : List (Nat × Term)} (here : Develops t t')
      (below : DevelopsAll rest rest') : DevelopsAll ((k, t) :: rest) ((k, t') :: rest')

end

variable {t t' u v : Term} {σ σ' : Nat → Term} {arguments arguments' : List (Nat × Term)}

theorem subst_flat (shape : Node Unit) (parts : List Term) (σ : Nat → Term) :
    (flat shape parts).subst σ = flat shape (parts.map (·.subst σ)) := by
  rw [flat, flat, subst_construct, List.map_map, List.map_map]
  exact congrArg _ (List.map_congr_left fun t _ => by simp)

theorem subst_app (f a : Term) (σ : Nat → Term) :
    (app f a).subst σ = app (f.subst σ) (a.subst σ) :=
  subst_flat _ _ σ

theorem subst_apply (f : Term) (args : List Term) (σ : Nat → Term) :
    (f.apply args).subst σ = (f.subst σ).apply (args.map (·.subst σ)) := by
  induction args generalizing f with
  | nil => rfl
  | cons a args ih => exact (ih (app f a)).trans (congrArg (apply · _) (subst_app f a σ))

/-! ### Rules after substitution -/

private theorem forall₂_map_iff {α β : Type} {f : α → β} {l : List α} {l' : List β} :
    List.Forall₂ (fun a b => b = f a) l l' ↔ l' = l.map f := by
  constructor
  · intro h
    induction h with
    | nil => rfl
    | cons here _ ih => rw [here, ih, List.map_cons]
  · rintro rfl
    exact List.forall₂_map_right_iff.mpr (List.forall₂_same.mpr fun _ _ => rfl)

theorem compatible_subst (σ : Nat → Term) : Compatible fun t t' => t' = t.subst σ where
  value {shape parts t} _ h :=
    ⟨parts.map (·.subst σ), h.trans (subst_flat shape parts σ), forall₂_map_iff.mpr rfl⟩
  none {t t'} absent h := by
    obtain ⟨args, rfl⟩ := absent
    exact ⟨args.map (·.subst σ), h.trans (subst_apply _ args σ)⟩
  congr {shape parts parts'} _ h := by
    rw [subst_flat, forall₂_map_iff.mp h]

/-- A rule that applies still applies after a substitution. -/
theorem Contracts.subst (h : Contracts t u) (σ : Nat → Term) :
    Contracts (t.subst σ) (u.subst σ) := by
  cases h with
  | beta x domain body a =>
    rw [subst_instantiate, subst_app, subst_construct]
    simp only [List.map_cons, List.map_nil, liftSubst_zero]
    exact .beta ..
  | @define first bindings type annotated value arguments =>
    rw [subst_instantiate, subst_construct, subst_construct]
    -- The binder of the definition is around all arguments that come after it.
    have rest : (arguments.map fun p => (p.1 + 1, p.2)).map
        (fun p => (p.1, p.2.subst (liftSubst p.1 σ))) =
          (arguments.map fun p => (p.1, p.2.subst (liftSubst p.1 (liftSubst 1 σ)))).map
            fun p => (p.1 + 1, p.2) := by
      simp only [List.map_map]
      refine List.map_congr_left fun p _ => ?_
      simp only [Function.comp_apply, liftSubst_liftSubst, Nat.add_comm 1]
    have front : ((type.toList ++ [value]).map (0, ·)).map
        (fun p : Nat × Term => (p.1, p.2.subst (liftSubst p.1 σ))) =
          ((type.map (·.subst σ)).toList ++ [value.subst σ]).map (0, ·) := by
      cases type <;> simp
    rw [List.map_append, front, rest]
    refine .define bindings ?_ _ _
    rw [annotated, Option.map_map]
  | body t =>
    rw [subst_flat]
    exact .body _
  | annot t type =>
    rw [subst_flat]
    exact .annot ..
  | @builtin b args a t h =>
    have related : List.Forall₂ (fun t t' => t' = t.subst σ) (args ++ [a])
        (args.map (·.subst σ) ++ [a.subst σ]) :=
      forall₂_map_iff.mpr (by rw [List.map_append, List.map_singleton])
    obtain ⟨_, contracts, rfl⟩ := h.compatible (compatible_subst σ) related
    rw [subst_app, subst_apply]
    exact .builtin contracts
  | op h =>
    obtain ⟨_, contracts, rfl⟩ := h.compatible (compatible_subst σ) rfl rfl
    rw [subst_flat]
    exact .op contracts

/-! ### Developments of the parts -/

theorem developsAll_iff : DevelopsAll arguments arguments' ↔
    List.Forall₂ (fun a a' => a'.1 = a.1 ∧ Develops a.2 a'.2) arguments arguments' := by
  constructor
  · intro h
    induction arguments generalizing arguments' with
    | nil =>
      cases h
      exact .nil
    | cons a rest ih =>
      cases h with
      | cons k here below => exact .cons ⟨rfl, here⟩ (ih below)
  · intro h
    induction h with
    | nil => exact .nil
    | @cons a a' _ _ here _ ih =>
      obtain ⟨k, t⟩ := a
      obtain ⟨k', t'⟩ := a'
      obtain ⟨rfl, develops⟩ := here
      exact .cons _ develops ih

theorem developsAll_flat {parts : List Term} :
    DevelopsAll (parts.map (0, ·)) arguments ↔
      ∃ parts', arguments = parts'.map (0, ·) ∧ List.Forall₂ Develops parts parts' := by
  constructor
  · intro h
    induction parts generalizing arguments with
    | nil =>
      cases h
      exact ⟨[], rfl, .nil⟩
    | cons t rest ih =>
      cases h with
      | cons _ here below =>
        obtain ⟨rest', rfl, developed⟩ := ih below
        exact ⟨_ :: rest', rfl, .cons here developed⟩
  · rintro ⟨parts', rfl, developed⟩
    induction developed with
    | nil => exact .nil
    | cons here _ ih => exact .cons 0 here ih

theorem Develops.refl (t : Term) : Develops t t := by
  induction t with
  | bound i => exact .bound i
  | free x i => exact .free x i
  | construct shape arguments ih =>
    exact .congr shape
      (developsAll_iff.mpr (List.forall₂_same.mpr fun a member => ⟨rfl, ih a member⟩))

theorem DevelopsAll.refl (arguments : List (Nat × Term)) : DevelopsAll arguments arguments :=
  developsAll_iff.mpr (List.forall₂_same.mpr fun a _ => ⟨rfl, .refl a.2⟩)

theorem develops_flat_iff {shape : Node Unit} {parts : List Term} :
    Develops (flat shape parts) t ↔ ∃ parts', List.Forall₂ Develops parts parts' ∧
      (t = flat shape parts' ∨ Contracts (flat shape parts') t) := by
  constructor
  · intro h
    cases h with
    | congr _ parts =>
      obtain ⟨parts', rfl, developed⟩ := developsAll_flat.mp parts
      exact ⟨parts', developed, .inl rfl⟩
    | contract parts rule =>
      obtain ⟨parts', rfl, developed⟩ := developsAll_flat.mp parts
      exact ⟨parts', developed, .inr rule⟩
  · rintro ⟨parts', developed, rfl | rule⟩
    · exact .congr shape (developsAll_flat.mpr ⟨parts', rfl, developed⟩)
    · exact .contract (developsAll_flat.mpr ⟨parts', rfl, developed⟩) rule

theorem contracts_app_iff {f a : Term} : Contracts (app f a) t ↔
    (∃ x domain body, f = construct (.lam x () ()) [(0, domain), (1, body)] ∧
      t = body.instantiate a) ∨
    ∃ b args, f = apply (.builtin b) args ∧ b.Contracts (args ++ [a]) t := by
  constructor
  · intro h
    generalize same : app f a = whole at h
    cases h with
    | beta x domain body a =>
      obtain ⟨rfl, rfl⟩ := app_inj.mp same
      exact .inl ⟨x, domain, body, rfl, rfl⟩
    | builtin h =>
      obtain ⟨rfl, rfl⟩ := app_inj.mp same
      exact .inr ⟨_, _, rfl, h⟩
    | define => cases same
    | body => cases same
    | annot => cases same
    | op => cases same
  · rintro (⟨x, domain, body, rfl, rfl⟩ | ⟨b, args, rfl, h⟩)
    · exact .beta ..
    · exact .builtin h

/-- A built-in function that is applied is no other one, and its arguments can be told. -/
theorem apply_builtin_inj {b b' : Builtin} {args args' : List Term}
    (same : apply (.builtin b) args = apply (.builtin b') args') : b = b' ∧ args = args' := by
  induction args using List.reverseRecOn generalizing args' with
  | nil =>
    rcases List.eq_nil_or_concat' args' with rfl | ⟨init', last', rfl⟩
    · exact ⟨by simpa [apply, Term.builtin] using same, rfl⟩
    · rw [apply_concat] at same
      cases same
  | append_singleton init last ih =>
    rcases List.eq_nil_or_concat' args' with rfl | ⟨init', last', rfl⟩
    · rw [apply_concat] at same
      cases same
    · rw [apply_concat, apply_concat, app_inj] at same
      obtain ⟨rfl, rfl⟩ := ih same.1
      exact ⟨rfl, congrArg (_ ++ [·]) same.2⟩

theorem apply_builtin_ne_lam {b : Builtin} {args : List Term} {x : Label} :
    apply (.builtin b) args ≠ construct (.lam x () ()) arguments := by
  rcases List.eq_nil_or_concat' args with rfl | ⟨init, last, rfl⟩
  · exact nofun
  · rw [apply_concat]
    exact nofun

/-- A built-in function that has too few arguments keeps them, developed. -/
theorem Develops.apply {b : Builtin} {args : List Term} (h : Develops (apply (.builtin b) args) t)
    (stuck : ∀ args' u, args'.length ≤ args.length → ¬b.Contracts args' u) :
    ∃ args', t = apply (.builtin b) args' ∧ List.Forall₂ Develops args args' := by
  induction args using List.reverseRecOn generalizing t with
  | nil =>
    obtain ⟨_, ⟨⟩, rfl | rule⟩ := develops_flat_iff.mp h
    · exact ⟨[], rfl, .nil⟩
    · cases rule
  | append_singleton init last ih =>
    rw [apply_concat] at h
    obtain ⟨_, _ | ⟨function, _ | ⟨argument, ⟨⟩⟩⟩, outcome⟩ := develops_flat_iff.mp h
    obtain ⟨init', rfl, developed⟩ := ih function fun args' u short =>
      stuck args' u (by rw [List.length_append]; omega)
    rcases outcome with rfl | rule
    · exact ⟨init' ++ [_], (apply_concat ..).symm, List.rel_append developed (.cons argument .nil)⟩
    · rcases contracts_app_iff.mp rule with ⟨x, domain, body, same, -⟩ | ⟨b', args', same, rule⟩
      · exact absurd same apply_builtin_ne_lam
      · obtain ⟨rfl, rfl⟩ := apply_builtin_inj same
        refine absurd rule (stuck _ _ ?_)
        simp [developed.length_eq]

/-- No rule applies to a value. -/
theorem not_contracts_value {shape : Node Unit} (isValue : shape.isValue) :
    ¬Contracts (construct shape arguments) t := by
  intro h
  generalize same : construct shape arguments = whole at h
  cases h <;> (obtain ⟨rfl, -⟩ := construct.inj same; cases isValue)

theorem compatible_develops : Compatible Develops where
  value {shape parts t} isValue h := by
    obtain ⟨parts', developed, rfl | rule⟩ := develops_flat_iff.mp h
    · exact ⟨parts', rfl, developed⟩
    · exact absurd rule (not_contracts_value isValue)
  none {t t'} absent h := by
    obtain ⟨args, rfl⟩ := absent
    obtain ⟨args', rfl, -⟩ := h.apply fun _ _ _ => Builtin.not_contracts_none
    exact ⟨args', rfl⟩
  congr _ h := develops_flat_iff.mpr ⟨_, h, .inl rfl⟩

/-- A function develops to a function. -/
theorem Develops.lam {x : Label} {domain body : Term}
    (h : Develops (construct (.lam x () ()) [(0, domain), (1, body)]) t) :
    ∃ domain' body', t = construct (.lam x () ()) [(0, domain'), (1, body')] ∧
      Develops body body' := by
  cases h with
  | congr _ parts =>
    obtain _ | ⟨_, domains, _ | ⟨_, bodies, ⟨⟩⟩⟩ := parts
    exact ⟨_, _, rfl, bodies⟩
  | contract _ rule => cases rule

/-! ### Developments after substitution -/

theorem DevelopsAll.map {f g : Nat → Term → Term} (h : DevelopsAll arguments arguments')
    (each : ∀ a ∈ arguments, ∀ t', Develops a.2 t' → Develops (f a.1 a.2) (g a.1 t')) :
    DevelopsAll (arguments.map fun a => (a.1, f a.1 a.2))
      (arguments'.map fun a => (a.1, g a.1 a.2)) := by
  induction arguments generalizing arguments' with
  | nil =>
    cases h
    exact .nil
  | cons a rest ih =>
    cases h with
    | cons k here below =>
      obtain ⟨first, others⟩ := List.forall_mem_cons.mp each
      exact .cons k (first _ here) (ih below others)

/-- A development after developments of what is substituted, under all numbers of binders. -/
private theorem Develops.subst_of_lifts (h : Develops t t')
    (developed : ∀ k i, Develops (liftSubst k σ i) (liftSubst k σ' i)) :
    Develops (t.subst σ) (t'.subst σ') := by
  induction t generalizing t' σ σ' with
  | bound i =>
    cases h
    simpa using developed 0 i
  | free x i =>
    cases h
    exact .free x i
  | construct shape arguments ih =>
    -- Under the binders of a construct the lifted substitutions are lifted once more, which is
    -- why the assumption is about all lifts.
    have parts {arguments' : List (Nat × Term)} (parts : DevelopsAll arguments arguments') :
        DevelopsAll (arguments.map fun a => (a.1, a.2.subst (liftSubst a.1 σ)))
          (arguments'.map fun a => (a.1, a.2.subst (liftSubst a.1 σ'))) := by
      refine parts.map (f := fun k => Term.subst (liftSubst k σ))
        (g := fun k => Term.subst (liftSubst k σ')) fun a member t' here => ?_
      refine ih a member here fun k i => ?_
      rw [liftSubst_liftSubst, liftSubst_liftSubst]
      exact developed _ i
    rw [subst_construct]
    cases h with
    | congr _ h =>
      rw [subst_construct]
      exact .congr shape (parts h)
    | contract h rule =>
      have rule := rule.subst σ'
      rw [subst_construct] at rule
      exact .contract (parts h) rule

theorem Develops.rename (h : Develops t t') (ρ : Nat → Nat) :
    Develops (t.rename ρ) (t'.rename ρ) := by
  rw [rename_eq_subst, rename_eq_subst]
  exact h.subst_of_lifts fun _ _ => .refl _

/-- A term is developed together with what is substituted into it. -/
theorem Develops.subst (h : Develops t t') (developed : ∀ i, Develops (σ i) (σ' i)) :
    Develops (t.subst σ) (t'.subst σ') := by
  refine h.subst_of_lifts fun k i => ?_
  rcases Nat.lt_or_ge i k with below | above
  · rw [liftSubst_of_lt below, liftSubst_of_lt below]
    exact .bound i
  · obtain ⟨j, rfl⟩ := Nat.exists_eq_add_of_le' above
    rw [liftSubst_add, liftSubst_add]
    exact (developed j).rename _

theorem Develops.instantiate (h : Develops t t') (value : Develops u v) :
    Develops (t.instantiate u) (t'.instantiate v) := by
  refine h.subst fun i => ?_
  cases i with
  | zero => exact value
  | succ i => exact .refl _

/-! ### Rules after developments -/

theorem developsAll_append {front back : List (Nat × Term)}
    (h : DevelopsAll (front ++ back) arguments) : ∃ front' back',
      arguments = front' ++ back' ∧ DevelopsAll front front' ∧ DevelopsAll back back' := by
  induction front generalizing arguments with
  | nil => exact ⟨[], arguments, rfl, .nil, h⟩
  | cons a rest ih =>
    cases h with
    | cons k here below =>
      obtain ⟨front', back', rfl, developed, after⟩ := ih below
      exact ⟨_ :: front', back', rfl, .cons k here developed, after⟩

theorem developsAll_under (h : DevelopsAll (arguments.map fun p => (p.1 + 1, p.2)) arguments') :
    ∃ inner, arguments' = inner.map (fun p => (p.1 + 1, p.2)) ∧ DevelopsAll arguments inner := by
  induction arguments generalizing arguments' with
  | nil =>
    cases h
    exact ⟨[], rfl, .nil⟩
  | cons a rest ih =>
    cases h with
    | cons _ here below =>
      obtain ⟨inner, rfl, developed⟩ := ih below
      exact ⟨(a.1, _) :: inner, rfl, .cons a.1 here developed⟩

/-- A rule that applies still applies after the parts have been developed. -/
theorem Contracts.parts {shape : Node Unit} (h : Contracts t u)
    (same : t = construct shape arguments) (parts : DevelopsAll arguments arguments') :
    ∃ u', Contracts (construct shape arguments') u' ∧ Develops u u' := by
  cases h with
  | beta x domain body a =>
    obtain ⟨rfl, rfl⟩ := construct.inj same
    obtain ⟨_, rfl, _ | ⟨function, _ | ⟨argument, ⟨⟩⟩⟩⟩ := developsAll_flat.mp parts
    obtain ⟨domain', body', rfl, developed⟩ := function.lam
    exact ⟨_, .beta x domain' body' _, developed.instantiate argument⟩
  | @define first bindings type annotated value rest =>
    obtain ⟨rfl, rfl⟩ := construct.inj same
    obtain ⟨front, _, rfl, head, tail⟩ := developsAll_append parts
    obtain ⟨rest', rfl, developed⟩ := developsAll_under tail
    obtain ⟨_, rfl, first⟩ := developsAll_flat.mp head
    have here := Develops.congr (.letIn bindings ()) developed
    cases type with
    | none =>
      obtain _ | ⟨value, ⟨⟩⟩ := first
      exact ⟨_, .define bindings annotated _ rest', here.instantiate value⟩
    | some type =>
      obtain _ | @⟨_, type', _, _, _, _ | ⟨value, ⟨⟩⟩⟩ := first
      have annotated : _ = (some type').map fun _ => () := annotated
      exact ⟨_, .define bindings annotated _ rest', here.instantiate value⟩
  | body t =>
    obtain ⟨rfl, rfl⟩ := construct.inj same
    obtain ⟨_, rfl, _ | ⟨here, ⟨⟩⟩⟩ := developsAll_flat.mp parts
    exact ⟨_, .body _, here⟩
  | annot t type =>
    obtain ⟨rfl, rfl⟩ := construct.inj same
    obtain ⟨_, rfl, _ | ⟨here, _ | ⟨_, ⟨⟩⟩⟩⟩ := developsAll_flat.mp parts
    exact ⟨_, .annot .., here⟩
  | @builtin b args a u h =>
    obtain ⟨rfl, rfl⟩ := construct.inj same
    obtain ⟨_, rfl, _ | ⟨function, _ | ⟨argument, ⟨⟩⟩⟩⟩ := developsAll_flat.mp parts
    -- With one argument less, the function is kept.
    obtain ⟨args', rfl, developed⟩ := function.apply fun args' u short rule => by
      have enough := rule.length.trans h.length.symm
      rw [List.length_append, List.length_singleton] at enough
      omega
    obtain ⟨u', rule, result⟩ :=
      h.compatible compatible_develops (List.rel_append developed (.cons argument .nil))
    exact ⟨u', .builtin rule, result⟩
  | op h =>
    obtain ⟨rfl, rfl⟩ := construct.inj same
    obtain ⟨_, rfl, _ | ⟨left, _ | ⟨right, ⟨⟩⟩⟩⟩ := developsAll_flat.mp parts
    obtain ⟨u', rule, result⟩ := h.compatible compatible_develops left right
    exact ⟨u', .op rule, result⟩

/-- At most one rule applies, with one result. -/
theorem Contracts.unique (h : Contracts t u) (h' : Contracts t v) : u = v := by
  -- The term determines its outermost construct, so the other rule is of the same kind, and then
  -- the parts agree.
  cases h with
  | beta x domain body a =>
    rcases contracts_app_iff.mp h' with ⟨x', domain', body', same, rfl⟩ | ⟨b, args, same, -⟩
    · cases same
      rfl
    · exact absurd same.symm apply_builtin_ne_lam
  | @define first bindings type annotated value rest =>
    generalize same : construct _ _ = whole at h'
    cases h' with
    | @define first' bindings' type' annotated' value' rest' =>
      obtain ⟨shapes, lists⟩ := construct.inj same
      cases shapes
      have under : Function.Injective fun p : Nat × Term => (p.1 + 1, p.2) := by
        rintro ⟨k, t⟩ ⟨k', t'⟩ same
        simpa using same
      -- Definitions with and without an annotation have different shapes.
      cases type <;> cases type' <;> try (cases annotated.symm.trans annotated'; done)
      all_goals
        simp only [Option.toList, List.nil_append, List.cons_append, List.map_cons, List.map_nil,
          List.cons.injEq, Prod.mk.injEq, true_and] at lists
      · obtain ⟨rfl, rests⟩ := lists
        rw [List.map_injective_iff.mpr under rests]
      · obtain ⟨-, rfl, rests⟩ := lists
        rw [List.map_injective_iff.mpr under rests]
    | _ => cases same
  | body t =>
    generalize same : flat _ _ = whole at h'
    cases h' with
    | body t' => exact List.head_eq_of_cons_eq (flat_inj.mp same).2
    | _ => cases same
  | annot t type =>
    generalize same : flat _ _ = whole at h'
    cases h' with
    | annot t' type' => exact List.head_eq_of_cons_eq (flat_inj.mp same).2
    | _ => cases same
  | @builtin b args a u h =>
    rcases contracts_app_iff.mp h' with ⟨x', domain', body', same, rfl⟩ | ⟨b', args', same, h'⟩
    · exact absurd same apply_builtin_ne_lam
    · obtain ⟨rfl, rfl⟩ := apply_builtin_inj same
      exact h.unique h' rfl
  | op h =>
    generalize same : flat _ _ = whole at h'
    cases h' with
    | op h' =>
      obtain ⟨shapes, operands⟩ := flat_inj.mp same
      cases shapes
      cases operands
      exact h.unique h' rfl rfl
    | _ => cases same

/-! ### Common developments -/

theorem developsAll_diamond {left right : List (Nat × Term)}
    (each : ∀ a ∈ arguments, ∀ u v, Develops a.2 u → Develops a.2 v →
      ∃ w, Develops u w ∧ Develops v w)
    (h : DevelopsAll arguments left) (h' : DevelopsAll arguments right) :
    ∃ common, DevelopsAll left common ∧ DevelopsAll right common := by
  induction arguments generalizing left right with
  | nil =>
    cases h
    cases h'
    exact ⟨[], .nil, .nil⟩
  | cons a rest ih =>
    obtain ⟨first, others⟩ := List.forall_mem_cons.mp each
    cases h with
    | cons k here below =>
      cases h' with
      | cons _ here' below' =>
        obtain ⟨w, up, down⟩ := first _ _ here here'
        obtain ⟨common, ups, downs⟩ := ih others below below'
        exact ⟨(k, w) :: common, .cons k up ups, .cons k down downs⟩

/-- Two developments of a term have a common development. -/
theorem Develops.diamond (h : Develops t u) (h' : Develops t v) :
    ∃ w, Develops u w ∧ Develops v w := by
  induction t generalizing u v with
  | bound i =>
    cases h
    exact ⟨v, h', .refl v⟩
  | free x i =>
    cases h
    exact ⟨v, h', .refl v⟩
  | construct shape arguments ih =>
    have common {left right : List (Nat × Term)} (h : DevelopsAll arguments left)
        (h' : DevelopsAll arguments right) :=
      developsAll_diamond (fun a member u v h h' => ih a member h h') h h'
    -- A rule that applied on one side applies to the common developments of the parts.
    cases h with
    | congr _ parts =>
      cases h' with
      | congr _ parts' =>
        obtain ⟨arguments'', up, down⟩ := common parts parts'
        exact ⟨_, .congr shape up, .congr shape down⟩
      | contract parts' rule =>
        obtain ⟨arguments'', up, down⟩ := common parts parts'
        obtain ⟨w, rule, result⟩ := rule.parts rfl down
        exact ⟨w, .contract up rule, result⟩
    | contract parts rule =>
      cases h' with
      | congr _ parts' =>
        obtain ⟨arguments'', up, down⟩ := common parts parts'
        obtain ⟨w, rule, result⟩ := rule.parts rfl up
        exact ⟨w, result, .contract down rule⟩
      | contract parts' rule' =>
        obtain ⟨arguments'', up, down⟩ := common parts parts'
        obtain ⟨w, rule, result⟩ := rule.parts rfl up
        obtain ⟨w', rule', result'⟩ := rule'.parts rfl down
        obtain rfl := rule.unique rule'
        exact ⟨w, result, result'⟩

/-! ### Developments one after the other -/

/-- Any number of developments, one after the other. -/
def Reduces : Term → Term → Prop :=
  Relation.ReflTransGen Develops

theorem Reduces.refl (t : Term) : Reduces t t :=
  Relation.ReflTransGen.refl

theorem Reduces.trans (h : Reduces t u) (h' : Reduces u v) : Reduces t v :=
  Relation.ReflTransGen.trans h h'

theorem Contracts.reduces (h : Contracts t u) : Reduces t u := by
  cases t with
  | bound i => cases h
  | free x i => cases h
  | construct shape arguments => exact .single (.contract (.refl arguments) h)

/-- Terms that a term reduces to reduce to a common term. -/
theorem Reduces.join (h : Reduces t u) (h' : Reduces t v) : ∃ w, Reduces u w ∧ Reduces v w := by
  refine Relation.church_rosser (fun a b c first second => ?_) h h'
  obtain ⟨d, up, down⟩ := first.diamond second
  exact ⟨d, .single up, .single down⟩

/-- The parts of a construct can be reduced one after the other. -/
theorem Reduces.construct {shape : Node Unit}
    (h : List.Forall₂ (fun a a' => a'.1 = a.1 ∧ Reduces a.2 a'.2) arguments arguments') :
    Reduces (.construct shape arguments) (.construct shape arguments') := by
  have all : Relation.ReflTransGen DevelopsAll arguments arguments' := by
    induction h with
    | nil => exact .refl
    | @cons a a' rest rest' here _ ih =>
      obtain ⟨k, t⟩ := a
      obtain ⟨k', t'⟩ := a'
      obtain ⟨rfl, reduces⟩ := here
      have first := Relation.ReflTransGen.lift (fun t => (k', t) :: rest)
        (fun _ _ develops => DevelopsAll.cons k' develops (.refl rest)) _ _ reduces
      have others := Relation.ReflTransGen.lift (fun rest => (k', t') :: rest)
        (fun _ _ develops => DevelopsAll.cons k' (.refl t') develops) _ _ ih
      exact first.trans others
  exact Relation.ReflTransGen.lift (Term.construct shape)
    (fun _ _ develops => Develops.congr shape develops) _ _ all

theorem Reduces.flat {shape : Node Unit} {parts parts' : List Term}
    (h : List.Forall₂ Reduces parts parts') : Reduces (flat shape parts) (flat shape parts') := by
  refine .construct ?_
  rw [List.forall₂_map_left_iff, List.forall₂_map_right_iff]
  exact h.imp fun _ _ reduces => ⟨rfl, reduces⟩

theorem Reduces.instantiate (h : Reduces t t') (hu : Reduces u v) :
    Reduces (t.instantiate u) (t'.instantiate v) := by
  have body := Relation.ReflTransGen.lift (Term.instantiate · u)
    (fun _ _ develops => Develops.instantiate develops (.refl u)) _ _ h
  have value := Relation.ReflTransGen.lift (Term.instantiate t')
    (fun _ _ develops => (Develops.refl t').instantiate develops) _ _ hu
  exact body.trans value

private theorem forall₂_tail {parts parts' parts'' : List Term}
    (h : List.Forall₂ Reduces parts parts') (h' : List.Forall₂ Develops parts' parts'') :
    List.Forall₂ Reduces parts parts'' := by
  induction h generalizing parts'' with
  | nil =>
    cases h'
    exact .nil
  | cons here _ ih =>
    cases h' with
    | cons step below => exact .cons (.tail here step) (ih below)

theorem compatible_reduces : Compatible Reduces where
  value {shape parts t} isValue h := by
    induction h with
    | refl => exact ⟨parts, rfl, List.forall₂_same.mpr fun t _ => .refl t⟩
    | tail _ step ih =>
      obtain ⟨parts', rfl, reduced⟩ := ih
      obtain ⟨parts'', rfl, developed⟩ := compatible_develops.value isValue step
      exact ⟨parts'', rfl, forall₂_tail reduced developed⟩
  none absent h := by
    induction h with
    | refl => exact absent
    | tail _ step ih => exact compatible_develops.none ih step
  congr _ h := .flat h

end Term

end Dhall
