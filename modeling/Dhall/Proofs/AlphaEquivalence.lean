/-
# Equality up to names of bound variables

Two expressions differ only in names of bound variables if they have the same de Bruijn
term. An expression and its alpha normal form have the same term in every context, and all
binders of an alpha normal form are labelled `_`, so nothing of it is lost in the term. This
makes alpha normal forms a decision procedure for this equality.

## Main definitions

* `Expr.Anonymous` — expressions whose binders are all labelled `_`
* `Term.define` — a term with one more definition in front

## Main results

* `Expr.nameless_alphaNormal` — renaming bound variables keeps the de Bruijn term
* `Expr.anonymous_alphaNormal` — renaming reaches every binder
* `Expr.alphaNormal_decides` — alpha normal forms are equal exactly if terms are
* `Expr.alphaEquivalent_eq_ok` — what a comparison that returns has found out
-/

import Dhall.Proofs.Renaming
import Dhall.Proofs.Subterm

namespace Dhall

/-- The labels of binders belong to the shape. -/
theorem Node.binders_shape {α : Type} (n : Node α) : n.shape.binders = n.binders := by
  cases n with
  | letIn bindings body => exact List.map_map
  | _ => rfl

namespace Term

/-- A term of definitions with one more definition in front, whose binder is around all of
the others and around the body. -/
def define (t : Term) (type : Option Term) (value : Term) : Term :=
  match t with
  | construct (.letIn bindings ()) arguments =>
    construct (.letIn (⟨.placeholder, type.map fun _ => (), ()⟩ :: bindings) ())
      ((type.toList ++ [value]).map (0, ·) ++ arguments.map fun p => (p.1 + 1, p.2))
  | t => t

end Term

namespace Expr

variable {e e' body body' after : Expr} {x y : Label} {n n' : Node Expr} {context : List Label}

/-! ### The de Bruijn terms of constructs -/

theorem nameless_mk (notVar : ∀ v, n ≠ .var v) (context : List Label) :
    (mk n).nameless context = .construct n.shape.unlabelled
      (n.scopedChildren.map fun p => (p.1.length, p.2.nameless (p.1.reverse ++ context))) := by
  rw [nameless, resolved_mk notVar, Term.erased_construct, List.map_map]
  rfl

/-- Children with the same term in every context may be exchanged. -/
theorem nameless_congr (h : n.Similar (fun _ c c' => c'.nameless = c.nameless) n') :
    (mk n').nameless = (mk n).nameless := by
  funext context
  by_cases isVar : ∃ v, n = .var v
  · obtain ⟨v, rfl⟩ := isVar
    cases n' with
    | var v' =>
      cases h.shape_eq
      rfl
    | _ => cases h.shape_eq
  · have notVar := not_exists.mp isVar
    rw [nameless_mk notVar, nameless_mk (Node.ne_var_of_shape h.shape_eq notVar), h.shape_eq]
    refine congrArg _ ?_
    rw [← List.forall₂_eq_eq_eq, List.forall₂_map_left_iff, List.forall₂_map_right_iff]
    refine h.scoped.flip.imp ?_
    rintro q p ⟨scope, same⟩
    rw [scope, same]

/-- The body of a function or of a function type is in the scope of its label. -/
theorem nameless_binder {bind : Label → Expr → Expr → Expr} (h : bind ∈ [lam, pi]) :
    ∃ shape : Node Unit, ∀ x domain body context, (bind x domain body).nameless context =
      .construct shape [(0, domain.nameless context), (1, body.nameless (x :: context))] := by
  rcases List.mem_pair.mp h with rfl | rfl
  · exact ⟨.lam .placeholder () (), fun _ _ _ _ => rfl⟩
  · exact ⟨.pi .placeholder () (), fun _ _ _ _ => rfl⟩

/-- Definitions are those after the first one, in its scope, with the first one in front. -/
theorem nameless_letIn_cons (first : Binding Expr) (rest : List (Binding Expr)) (body : Expr)
    (context : List Label) :
    (letIn (first :: rest) body).nameless context =
      ((letIn rest body).nameless (first.label :: context)).define
        (first.annotation.map (·.nameless context)) (first.value.nameless context) := by
  have ne (bindings : List (Binding Expr)) (v : Variable) : Node.letIn bindings body ≠ .var v :=
    nofun
  rw [nameless_mk (ne _), nameless_mk (ne _), Node.scopedChildren_letIn_cons, List.map_append,
    List.map_map, List.map_map, Binding.children]
  refine congrArg₂ Term.construct ?_ (congrArg₂ (· ++ ·) ?_ ?_)
  · cases first with
    | mk label annotation value => cases annotation <;> rfl
  · cases first with
    | mk label annotation value => cases annotation <;> rfl
  · rw [List.map_map]
    refine List.map_congr_left fun p _ => ?_
    simp only [Function.comp_apply, List.length_cons, List.reverse_cons, List.append_assoc,
      List.singleton_append]

/-- The shape of a construct can be read off its term, up to labels of binders. -/
theorem shape_of_nameless {context' : List Label} (notVar : ∀ v, n ≠ .var v)
    (h : (mk n').nameless context' = (mk n).nameless context) :
    n'.shape.unlabelled = n.shape.unlabelled := by
  rw [nameless_mk notVar] at h
  by_cases isVar : ∃ v, n' = .var v
  · obtain ⟨v, rfl⟩ := isVar
    rcases locate_cases context' v.label v.index.toNat with ⟨i, atom⟩ | ⟨i, atom⟩ <;>
      rw [nameless, resolved_var, atom] at h <;> cases h
  · rw [nameless_mk (not_exists.mp isVar)] at h
    exact (Term.construct.inj h).1

/-- Only definitions have the term of definitions. -/
theorem eq_letIn_of_nameless {bindings : List (Binding Expr)} {context' : List Label}
    (h : e.nameless context' = (letIn bindings body).nameless context) :
    ∃ more body', e = letIn more body' := by
  obtain ⟨n⟩ := e
  have shapes := shape_of_nameless (fun _ => by nofun) h
  cases n with
  | letIn more body' => exact ⟨more, body', rfl⟩
  | _ => cases shapes

/-- Only records have the term of a record. -/
theorem eq_record_of_nameless {fields : LabelMap Expr} {context' : List Label}
    (h : e.nameless context' = (record fields).nameless context) :
    ∃ fields', e = record fields' := by
  obtain ⟨n⟩ := e
  have shapes := shape_of_nameless (fun _ => by nofun) h
  cases n with
  | record fields' => exact ⟨fields', rfl⟩
  | _ => cases shapes

/-- Only record types have the term of a record type. -/
theorem eq_recordType_of_nameless {fields : LabelMap Expr} {context' : List Label}
    (h : e.nameless context' = (recordType fields).nameless context) :
    ∃ fields', e = recordType fields' := by
  obtain ⟨n⟩ := e
  have shapes := shape_of_nameless (fun _ => by nofun) h
  cases n with
  | recordType fields' => exact ⟨fields', rfl⟩
  | _ => cases shapes

/-- Definitions put back in front of a renamed scope have the term of those they stand for. -/
theorem nameless_withFirst {first first' : Binding Expr} {rest : List (Binding Expr)}
    (types : first'.annotation.map (·.nameless context) =
      first.annotation.map (·.nameless context))
    (values : first'.value.nameless context = first.value.nameless context)
    (scopes : after.nameless (first'.label :: context) =
      (afterFirst rest body).nameless (first.label :: context)) :
    (withFirst first' rest after).nameless context =
      (letIn (first :: rest) body).nameless context := by
  -- After the last definition comes a body; other definitions have stayed definitions.
  have joined : ∃ more body', withFirst first' rest after = letIn (first' :: more) body' ∧
      (letIn more body').nameless (first'.label :: context) =
        (letIn rest body).nameless (first.label :: context) := by
    cases rest with
    | nil =>
      refine ⟨[], after, rfl, ?_⟩
      exact congrArg (fun t => Term.construct (.letIn [] ()) [(0, t)]) scopes
    | cons second rest =>
      obtain ⟨more, body', rfl⟩ := eq_letIn_of_nameless scopes
      exact ⟨more, body', rfl, scopes⟩
  obtain ⟨more, body', isLet, inner⟩ := joined
  rw [isLet, nameless_letIn_cons, nameless_letIn_cons, inner, types, values]

/-! ### Renaming keeps the term -/

theorem nameless_renameBound (h : body.renameBound x = .ok body') (context : List Label) :
    body'.nameless (.placeholder :: context) = body.nameless (x :: context) :=
  congrArg Term.erased (resolved_renameBound h context)

/-- An expression and its alpha normal form have the same de Bruijn term in every context. -/
theorem nameless_alphaNormal (h : e.alphaNormal = .ok e') : e'.nameless = e.nameless := by
  refine alphaNormal_induction (motive := fun e e' => e'.nameless = e.nameless)
    ?plain ?binder ?letIn h
  case plain =>
    intro n n' _ similar
    exact nameless_congr similar
  case binder =>
    intro bind binds x domain body domain' renamed body' domains renames bodies
    obtain ⟨shape, construct⟩ := nameless_binder binds
    funext context
    rw [construct, construct, domains, bodies, nameless_renameBound renames]
  case letIn =>
    intro first rest body type value renamed after types values renames afters
    funext context
    refine nameless_withFirst ?_ (congrFun values context) ?_
    · obtain ⟨label, annotation, definition⟩ := first
      cases types with
      | none => rfl
      | some same => exact congrArg some (congrFun same context)
    · rw [afters, nameless_renameBound renames]

/-! ### Renaming reaches every binder -/

/-- Every binder in an expression is labelled `_`. -/
def Anonymous (e : Expr) : Prop :=
  Everywhere (fun s => ∀ x ∈ s.node.binders, x = .placeholder) e

theorem anonymous_mk :
    Anonymous (mk n) ↔ (∀ x ∈ n.binders, x = .placeholder) ∧ ∀ c ∈ n.children, Anonymous c :=
  everywhere_mk

theorem anonymous_letIn_cons {first : Binding Expr} {rest : List (Binding Expr)} :
    Anonymous (letIn (first :: rest) body) ↔
      first.label = .placeholder ∧ (∀ c ∈ first.children, Anonymous c) ∧
        Anonymous (letIn rest body) := by
  simp only [anonymous_mk, Node.binders, Node.children_letIn_cons, List.map_cons,
    List.forall_mem_cons, List.forall_mem_append]
  tauto

theorem anonymous_withFirst {first : Binding Expr} {rest : List (Binding Expr)}
    (label : first.label = .placeholder) (parts : ∀ c ∈ first.children, Anonymous c)
    (h : Anonymous after) : Anonymous (withFirst first rest after) := by
  unfold withFirst
  split
  · exact anonymous_letIn_cons.mpr ⟨label, parts, h⟩
  · refine anonymous_letIn_cons.mpr ⟨label, parts, anonymous_mk.mpr ⟨nofun, ?_⟩⟩
    intro c member
    obtain rfl := List.mem_singleton.mp member
    exact h

/-- In an alpha normal form every binder is labelled `_`. -/
theorem anonymous_alphaNormal (h : e.alphaNormal = .ok e') : Anonymous e' := by
  refine alphaNormal_induction (motive := fun _ e' => Anonymous e') ?plain ?binder ?letIn h
  case plain =>
    intro n n' isPlain similar
    refine anonymous_mk.mpr ⟨?_, ?_⟩
    · rw [← Node.binders_shape, similar.shape_eq, Node.binders_shape]
      cases n <;> first | exact List.forall_mem_nil _ | exact absurd isPlain Bool.false_ne_true
    · intro c' member
      obtain ⟨_, _, image⟩ := similar.exists_of_mem member
      exact image
  case binder =>
    intro bind binds x domain body domain' renamed body' domains renames bodies
    have parts : ∀ c ∈ [domain', body'], Anonymous c :=
      List.forall_mem_cons.mpr ⟨domains, List.forall_mem_singleton.mpr bodies⟩
    rcases List.mem_pair.mp binds with rfl | rfl
    · exact anonymous_mk.mpr ⟨List.forall_mem_singleton.mpr rfl, parts⟩
    · exact anonymous_mk.mpr ⟨List.forall_mem_singleton.mpr rfl, parts⟩
  case letIn =>
    intro first rest body type value renamed after types values renames afters
    refine anonymous_withFirst rfl ?_ afters
    obtain ⟨label, annotation, definition⟩ := first
    cases types with
    | none => exact List.forall_mem_singleton.mpr values
    | some h => exact List.forall_mem_cons.mpr ⟨h, List.forall_mem_singleton.mpr values⟩

/-- Without labels of binders, the term says everything about an expression. -/
theorem nameless_eq_resolved (h : Anonymous e) (context : List Label) :
    e.nameless context = e.resolved context := by
  induction e using variableInduction generalizing context with
  | var v =>
    rw [nameless, resolved_var]
    rcases locate_cases context v.label v.index.toNat with ⟨i, atom⟩ | ⟨i, atom⟩ <;>
      rw [atom] <;> rfl
  | node n notVar ih =>
    obtain ⟨binders, below⟩ := anonymous_mk.mp h
    -- Without labels a shape is the same, since all of them are `_` already.
    rw [← Node.binders_shape] at binders
    rw [nameless_mk notVar, resolved_mk notVar, Node.unlabelled_eq_self binders]
    refine congrArg _ (List.map_congr_left fun p member => ?_)
    rw [ih p member (below _ (List.mem_map_of_mem member))]

/-! ### Deciding equality up to names -/

/-- Without labels of binders, expressions are equal if their terms are. -/
theorem Anonymous.eq_iff {a b : Expr} (ha : Anonymous a) (hb : Anonymous b)
    (context : List Label) : a = b ↔ a.nameless context = b.nameless context := by
  rw [nameless_eq_resolved ha, nameless_eq_resolved hb]
  exact (resolved_injective context).eq_iff.symm

/-- Alpha normal forms have the de Bruijn terms of the expressions, have only binders that are
labelled `_`, and are equal exactly if the terms are. -/
theorem alphaNormal_decides {a b a' b' : Expr} (ha : a.alphaNormal = .ok a')
    (hb : b.alphaNormal = .ok b') (context : List Label) :
    a'.nameless context = a.nameless context ∧ Anonymous a' ∧
      (a' = b' ↔ a.nameless context = b.nameless context) := by
  have same := (anonymous_alphaNormal ha).eq_iff (anonymous_alphaNormal hb) context
  rw [nameless_alphaNormal ha, nameless_alphaNormal hb] at same
  exact ⟨congrFun (nameless_alphaNormal ha) context, anonymous_alphaNormal ha, same⟩

/-- Two functions that differ in names only, one of them with a label that shadows. -/
theorem alphaNormal_decides_shadowed :
    let a := lam "x" (var ⟨"x", 0⟩) (lam "_" (var ⟨"x", 1⟩) (var ⟨"x", 0⟩))
    let b := lam "y" (var ⟨"x", 0⟩) (lam "y" (var ⟨"x", 0⟩) (var ⟨"y", 1⟩))
    let n := lam "_" (var ⟨"x", 0⟩) (lam "_" (var ⟨"x", 0⟩) (var ⟨"_", 1⟩))
    a.alphaNormal = .ok n ∧ b.alphaNormal = .ok n ∧ a.nameless ["x"] = b.nameless ["x"] :=
  ⟨rfl, rfl, (alphaNormal_decides rfl rfl ["x"]).2.2.mp rfl⟩

/-- A comparison that returns has found out whether the terms are equal. -/
theorem alphaEquivalent_eq_ok {a b : Expr} {same : Bool} (h : a.alphaEquivalent b = .ok same)
    (context : List Label) : same = true ↔ a.nameless context = b.nameless context := by
  unfold alphaEquivalent at h
  split at h
  · next equal =>
    cases h
    exact iff_of_true rfl (congrArg (nameless · context) equal)
  · obtain ⟨a', ha, h⟩ := bind_eq_pure_iff.mp h
    obtain ⟨b', hb, h⟩ := bind_eq_pure_iff.mp h
    cases h
    have equal := (anonymous_alphaNormal ha).eq_iff (anonymous_alphaNormal hb) context
    rw [nameless_alphaNormal ha, nameless_alphaNormal hb] at equal
    exact decide_eq_true_iff.trans equal

end Expr

end Dhall
