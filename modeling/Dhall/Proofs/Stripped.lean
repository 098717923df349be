/-
# Expressions without annotations

An annotation `e : T` says nothing about the value of `e`, and neither does the type of a
definition. Definitions that follow each other in one `let` mean the same as definitions of a
`let` each, one inside the other. Stripping an expression removes annotations everywhere and
takes definitions apart.

Shifts and substitutions go down an expression in one way: they pass to the children of each
construct what they carry, moved under the binders of the construct. The binders of several
definitions are collected while the definitions are visited one after the other, and this moves
what is carried just as one `let` inside the other does. So everything that goes down in this way
strips what it returns if it is given the stripped expression.

## Main definitions

* `Expr.stripped` — the expression without annotations, with its definitions one by one
* `Descends` — a function that passes what it carries to the children of each construct

## Main results

* `Expr.stripped_letIn_cons` — the first definition stands in front of what follows it
* `Descends.stripped` — what goes down an expression commutes with stripping
* `Expr.stripped_instantiate` — removing a binder commutes with stripping
-/

import Dhall.Proofs.Renaming

namespace Dhall

/-! ### Traversals -/

/-- Definitions are visited inside of the binders that are around all of them. -/
theorem Binding.traverseAll_append {α β : Type} {m : Type → Type} [Monad m] [LawfulMonad m]
    (f : List Label → α → m β) (outer inner : List Label) (bs : List (Binding α)) :
    traverseAll f (outer ++ inner) bs = traverseAll (fun scope => f (outer ++ scope)) inner bs := by
  induction bs generalizing inner with
  | nil => rfl
  | cons b bs ih =>
    rw [traverseAll, traverseAll, List.append_assoc, ih]

/-- A function applied to the children of the second of two similar nodes. -/
theorem Node.Similar.map {α β γ : Type} {R : List Label → α → β → Prop}
    {S : List Label → α → γ → Prop} {n : Node α} {n' : Node β} (h : n.Similar R n') (g : β → γ)
    (image : ∀ p ∈ n.scopedChildren, ∀ c', R p.1 p.2 c' → S p.1 p.2 (g c')) :
    n.Similar S (n'.map g) := by
  refine ⟨(Node.shape_map g n').trans h.shape_eq, ?_⟩
  rw [Node.children_map, List.forall₂_map_right_iff]
  exact (h.imp (S := fun inner c c' => S inner c (g c')) image).2

namespace Node

variable {α β : Type}

theorem letIn_ne_var (bindings : List (Binding α)) (body : α) (v : Variable) :
    letIn bindings body ≠ .var v := by
  intro same
  cases same

/-- Whether stripping keeps the construct, so that it only strips the children. -/
def isKept : Node α → Bool
  | annot .. | letIn (_ :: _) _ => false
  | _ => true

theorem isKept_shape (n : Node α) : n.shape.isKept = n.isKept := by
  cases n with
  | letIn bindings body => cases bindings <;> rfl
  | _ => rfl

end Node

namespace Expr

variable {e r value : Expr} {first : Binding Expr} {rest : List (Binding Expr)} {body : Expr}
  {n : Node Expr} {x cutoff : Variable} {delta : Int64}

/-- Definitions of a `let` each, without their types, one inside the other. -/
def nested (bindings : List (Binding Expr)) (body : Expr) : Expr :=
  bindings.foldr (fun b after => letIn [⟨b.label, none, b.value⟩] after) body

/-- The expression without annotations and without types of definitions, with every `let` of
several definitions replaced by a `let` for each of them. -/
def stripped : Expr → Expr :=
  fold fun n =>
    match n with
    | .annot e _ => e
    | .letIn (first :: rest) body => nested (first :: rest) body
    | n => mk n

@[simp] theorem stripped_annot (e type : Expr) : (annot e type).stripped = e.stripped := rfl

@[simp] theorem stripped_var (v : Variable) : (var v).stripped = var v := rfl

/-- The first definition loses its type and stands in front of what follows it. -/
theorem stripped_letIn_cons : (letIn (first :: rest) body).stripped =
    letIn [⟨first.label, none, first.value.stripped⟩] (afterFirst rest body).stripped := by
  cases rest with
  | nil => simp [stripped, fold_mk, Node.map, Binding.map, nested, afterFirst]
  | cons second rest => simp [stripped, fold_mk, Node.map, Binding.map, nested, afterFirst]

/-- Every other construct is kept around its stripped children. -/
theorem stripped_mk (kept : n.isKept) : (mk n).stripped = mk (n.map stripped) := by
  cases n with
  | annot e type => cases kept
  | letIn bindings body =>
    cases bindings with
    | nil => rfl
    | cons first rest => cases kept
  | _ => exact fold_mk _ _

/-- Induction that meets definitions one by one. -/
@[elab_as_elim]
theorem stripped_induction {motive : Expr → Prop}
    (annot : ∀ e type, motive e → motive (annot e type))
    (letIn : ∀ (first : Binding Expr) rest body, motive first.value →
      motive (afterFirst rest body) → motive (letIn (first :: rest) body))
    (node : ∀ n : Node Expr, n.isKept → (∀ p ∈ n.scopedChildren, motive p.2) → motive (mk n))
    (e : Expr) : motive e := by
  -- What follows a definition is no child of it, so the induction is on the number of nodes.
  induction bound : e.size using Nat.strongRecOn generalizing e with
  | _ size ih =>
    subst bound
    obtain ⟨n⟩ := e
    have child {c : Expr} (member : c ∈ n.children) : motive c := ih _ (size_lt_of_mem member) c rfl
    by_cases kept : n.isKept
    · exact node n kept fun p member => child (List.mem_map_of_mem member)
    · cases n with
      | annot e type => exact annot e type (child (.head _))
      | letIn bindings body =>
        cases bindings with
        | nil => exact absurd rfl kept
        | cons first rest =>
          refine letIn first rest body (child ?_) (ih _ (size_afterFirst_lt first rest body) _ rfl)
          rw [Node.children_letIn_cons]
          exact List.mem_append_left _ (by simp [Binding.children])
      | _ => exact absurd rfl kept

end Expr

/-! ### Going down an expression -/

/-- The function passes what it carries to the children of every construct that is no variable,
moved under the binders around each child. -/
def Descends {σ : Type} (under : σ → Label → Except Violation σ)
    (act : Expr → σ → Except Violation Expr) : Prop :=
  ∀ n : Node Expr, (∀ v, n ≠ .var v) → ∀ s, act (.mk n) s =
    Expr.mk <$> n.traverse fun inner c => do act c (← inner.foldlM under s)

namespace Descends

open Dhall.Expr

variable {σ : Type} {under : σ → Label → Except Violation σ}
  {act : Expr → σ → Except Violation Expr} {s s' : σ} {first : Binding Expr}
  {rest : List (Binding Expr)} {e r body value value' after after' : Expr} {x : Label}

/-- What is carried reaches the first definition as it is, and what follows this definition moved
under its binder. -/
theorem letIn_cons (h : Descends under act)
    (returned : act (letIn (first :: rest) body) s = .ok r) :
    ∃ first' rest' body' s', r = letIn (first' :: rest') body' ∧ first'.label = first.label ∧
      act first.value s = .ok first'.value ∧ under s first.label = .ok s' ∧
        act (afterFirst rest body) s' = .ok (afterFirst rest' body') := by
  rw [h _ (Node.letIn_ne_var (first :: rest) body)] at returned
  obtain ⟨n, traversed, rfl⟩ := map_eq_pure_iff.mp returned
  rw [Node.traverse] at traversed
  obtain ⟨bindings, definitions, traversed⟩ := bind_eq_pure_iff.mp traversed
  obtain ⟨body', bodies, traversed⟩ := bind_eq_pure_iff.mp traversed
  obtain ⟨first', here, definitions⟩ := bind_eq_pure_iff.mp definitions
  obtain ⟨rest', others, definitions⟩ := bind_eq_pure_iff.mp definitions
  obtain ⟨type, -, here⟩ := bind_eq_pure_iff.mp here
  obtain ⟨value, defined, here⟩ := bind_eq_pure_iff.mp here
  cases traversed
  cases definitions
  cases here
  -- The body is inside of all definitions, so it has been reached under the first one.
  obtain ⟨t, binders, reached⟩ := bind_eq_pure_iff.mp bodies
  obtain ⟨s', moved, binders⟩ := bind_eq_pure_iff.mp binders
  refine ⟨_, rest', body', s', rfl, rfl, defined, moved, ?_⟩
  have scopes (inner : List Label) (c : Expr) :
      (do act c (← ([first.label] ++ inner).foldlM under s)) =
        (do act c (← inner.foldlM under s')) := by
    rw [List.singleton_append, List.foldlM_cons, moved]
    rfl
  rw [List.nil_append, ← List.append_nil [first.label], Binding.traverseAll_append] at others
  simp only [scopes] at others
  have rests := bind_eq_pure_iff.mpr ⟨t, binders, reached⟩
  cases rest with
  | nil =>
    cases others
    cases binders
    exact reached
  | cons second rest =>
    obtain ⟨second', -, more⟩ := bind_eq_pure_iff.mp others
    obtain ⟨rest'', -, more⟩ := bind_eq_pure_iff.mp more
    cases more
    have descended := h _ (Node.letIn_ne_var (second :: rest) body) s'
    refine descended.trans (map_eq_pure_iff.mpr ⟨_, ?_, rfl⟩)
    exact bind_eq_pure_iff.mpr ⟨_, others, bind_eq_pure_iff.mpr ⟨_, rests, rfl⟩⟩

/-- A definition of its own without a type, and what follows it. -/
theorem letIn_single (h : Descends under act) (defined : act value s = .ok value')
    (moved : under s x = .ok s') (follows : act after s' = .ok after') :
    act (letIn [⟨x, none, value⟩] after) s = .ok (letIn [⟨x, none, value'⟩] after') := by
  rw [h _ (Node.letIn_ne_var [⟨x, none, value⟩] after)]
  have binders : [x].foldlM under s = .ok s' := by
    rw [List.foldlM_cons, moved]
    rfl
  have here : [].foldlM under s = .ok s := rfl
  simp only [Node.traverse, Binding.traverseAll, Binding.traverse, here, binders, List.map_cons,
    List.map_nil, Option.mapM_none]
  exact map_eq_pure_iff.mpr ⟨_, bind_eq_pure_iff.mpr ⟨_, bind_eq_pure_iff.mpr ⟨_,
    bind_eq_pure_iff.mpr ⟨_, rfl, bind_eq_pure_iff.mpr ⟨_, defined, rfl⟩⟩, rfl⟩,
      bind_eq_pure_iff.mpr ⟨_, follows, rfl⟩⟩, rfl⟩

/-- What goes down an expression strips what it returns if the expression is stripped, provided
that it replaces variables by what is stripped already. -/
theorem stripped (h : Descends under act) (Carries : σ → Prop)
    (keeps : ∀ {s s' x}, Carries s → under s x = .ok s' → Carries s')
    (vars : ∀ {s v r}, Carries s → act (var v) s = .ok r → r.stripped = r)
    (carries : Carries s) (returned : act e s = .ok r) : act e.stripped s = .ok r.stripped := by
  induction e using stripped_induction generalizing s r with
  | annot e type ih =>
    rw [h (.annot e type) nofun] at returned
    obtain ⟨n, traversed, rfl⟩ := map_eq_pure_iff.mp returned
    obtain ⟨e', here, traversed⟩ := bind_eq_pure_iff.mp traversed
    obtain ⟨type', -, traversed⟩ := bind_eq_pure_iff.mp traversed
    cases traversed
    exact ih (r := e') carries here
  | letIn first rest body defined follows =>
    obtain ⟨first', rest', body', s', rfl, label, value, moved, after⟩ := h.letIn_cons returned
    rw [stripped_letIn_cons, stripped_letIn_cons, label]
    exact h.letIn_single (defined carries value) moved (follows (keeps carries moved) after)
  | node n kept ih =>
    -- Variables may be replaced, and what replaces them is stripped already.
    by_cases isVar : ∃ v, n = .var v
    · obtain ⟨v, rfl⟩ := isVar
      rw [vars carries returned]
      exact returned
    · have notVar := not_exists.mp isVar
      rw [h n notVar] at returned
      obtain ⟨n', traversed, rfl⟩ := map_eq_pure_iff.mp returned
      have similar := Node.traverse_eq_pure_iff.mp traversed
      have kept' : n'.isKept := by
        rw [← Node.isKept_shape, similar.shape_eq, Node.isKept_shape, kept]
      -- What is carried down survives all binders above a child.
      have carriesAll {inner : List Label} {s s' : σ} (carries : Carries s)
          (moved : inner.foldlM under s = .ok s') : Carries s' := by
        induction inner generalizing s with
        | nil =>
          cases moved
          exact carries
        | cons x inner below =>
          obtain ⟨t, first, moved⟩ := bind_eq_pure_iff.mp moved
          exact below (keeps carries first) moved
      have notVar' : ∀ v, n.map Expr.stripped ≠ .var v :=
        Node.ne_var_of_shape (Node.shape_map _ _) notVar
      rw [stripped_mk kept, stripped_mk kept', h _ notVar', Node.traverse_map]
      refine map_eq_pure_iff.mpr ⟨n'.map Expr.stripped, ?_, rfl⟩
      refine Node.traverse_eq_pure_iff.mpr (similar.map _ fun p member c' returned => ?_)
      obtain ⟨s', moved, returned⟩ := bind_eq_pure_iff.mp returned
      exact bind_eq_pure_iff.mpr ⟨s', moved, ih p member (carriesAll carries moved) returned⟩

end Descends

namespace Expr

variable {e r value value' : Expr} {x cutoff : Variable} {delta : Int64}

theorem descends_shift (delta : Int64) :
    Descends Variable.under fun e cutoff => e.shift delta cutoff :=
  fun _ notVar cutoff => shift_mk notVar delta cutoff

theorem descends_subst : Descends
    (fun (s : Variable × Expr) b => do pure (← s.1.under b, ← s.2.under b))
    fun e s => e.subst s.1 s.2 :=
  fun _ notVar s => subst_mk notVar s.1 s.2

/-- A shift of a stripped expression is stripped. -/
theorem stripped_shift (h : e.shift delta cutoff = .ok r) :
    e.stripped.shift delta cutoff = .ok r.stripped := by
  refine (descends_shift delta).stripped (fun _ => True) (fun _ _ => .intro) ?_ .intro h
  intro cutoff v r _ shifted
  rw [shift_var] at shifted
  obtain ⟨v', -, rfl⟩ := map_eq_pure_iff.mp shifted
  rfl

/-- What is stripped stays so when it is moved. -/
theorem stripped_of_shift (fixed : value.stripped = value)
    (h : value.shift delta cutoff = .ok value') : value'.stripped = value' := by
  have moved := stripped_shift h
  rw [fixed] at moved
  exact Except.ok.inj (moved.symm.trans h)

/-- Putting a stripped value into a stripped expression. -/
theorem stripped_subst (fixed : value.stripped = value) (h : e.subst x value = .ok r) :
    e.stripped.subst x value = .ok r.stripped := by
  refine descends_subst.stripped (fun s => s.2.stripped = s.2) (s := (x, value)) ?_ ?_
    fixed h
  · intro s s' b fixed moved
    obtain ⟨x', -, moved⟩ := bind_eq_pure_iff.mp moved
    obtain ⟨value', shifted, moved⟩ := bind_eq_pure_iff.mp moved
    cases moved
    exact stripped_of_shift fixed shifted
  · intro s v r fixed replaced
    rw [subst_var] at replaced
    cases replaced
    split
    · exact fixed
    · rfl

/-- Removing a binder whose variable gets a stripped value. -/
theorem stripped_instantiate (fixed : value.stripped = value)
    (h : e.instantiate x value = .ok r) : e.stripped.instantiate x value = .ok r.stripped := by
  obtain ⟨value', shifted, h⟩ := bind_eq_pure_iff.mp h
  obtain ⟨replaced, substituted, removed⟩ := bind_eq_pure_iff.mp h
  exact bind_eq_pure_iff.mpr ⟨value', shifted, bind_eq_pure_iff.mpr
    ⟨_, stripped_subst (stripped_of_shift fixed shifted) substituted, stripped_shift removed⟩⟩

end Expr

end Dhall
