/-
# Corresponding expressions

Two expressions under two contexts correspond along a renaming of positions if the term of
the second one is the renamed term of the first one. Whether labels of binders have to be
the same is part of the correspondence. Without labels, and with the positions left alone,
this is equality up to names of bound variables; with labels, and with a renaming that makes
room in the context, it is what a shift does.

Both are instances of one relation because binders extend a correspondence on both sides. So
whatever is proved here for all correspondences, by looking at one construct at a time, holds
of renamed expressions and of shifted ones alike.

## Main definitions

* `Correspondence` — two contexts and a renaming of the positions of the first one
* `Correspondence.Relates` — corresponding expressions
* `Correspondence.Alike` — one construct on both sides, with corresponding parts

## Main results

* `Correspondence.Relates.alike`, `Correspondence.Alike.relates` — constructs correspond exactly if
  their parts do
* `Correspondence.agree_instantiate`, `Correspondence.agree_under` — substitution keeps
  correspondences, and so does moving under a binder
* `Correspondence.agree_alphaEquivalent` — comparisons on both sides have one answer
-/

import Dhall.Expr.View
import Dhall.LabelMap.Related
import Dhall.Proofs.Agreement
import Dhall.Proofs.AlphaEquivalence

namespace Dhall

namespace Node

variable {α : Type}

theorem unlabelled_unlabelled (n : Node α) : n.unlabelled.unlabelled = n.unlabelled := by
  cases n with
  | letIn bindings body => simp [unlabelled]
  | _ => rfl

/-- The construct as it is, or with all its binders labelled `_`. -/
def seen (labels : Bool) (n : Node α) : Node α :=
  if labels then n else n.unlabelled

theorem seen_eq_iff {labels : Bool} {n n' : Node α} :
    n.seen labels = n'.seen labels ↔
      n.unlabelled = n'.unlabelled ∧ (labels = true → n = n') := by
  cases labels with
  | false => exact ⟨fun same => ⟨same, nofun⟩, fun same => same.1⟩
  | true => exact ⟨fun same => ⟨congrArg unlabelled same, fun _ => same⟩, fun same => same.2 rfl⟩

end Node

namespace Term

/-- The term as it is, or without labels of binders. -/
def seen (labels : Bool) (t : Term) : Term :=
  if labels then t else t.erased

variable {labels : Bool}

@[simp] theorem seen_bound (i : Nat) : (bound i).seen labels = bound i := by
  cases labels <;> rfl

@[simp] theorem seen_free (x : Label) (i : Nat) : (free x i).seen labels = free x i := by
  cases labels <;> rfl

@[simp] theorem seen_construct (shape : Node Unit) (arguments : List (Nat × Term)) :
    (construct shape arguments).seen labels =
      construct (shape.seen labels) (arguments.map fun a => (a.1, a.2.seen labels)) := by
  cases labels with
  | false => exact erased_construct
  | true => exact congrArg (construct shape) (List.map_id arguments).symm

theorem seen_rename (ρ : Nat → Nat) (t : Term) :
    (t.rename ρ).seen labels = (t.seen labels).rename ρ := by
  cases labels with
  | false => exact erased_rename ρ t
  | true => rfl

theorem seen_instantiate (t u : Term) :
    (t.instantiate u).seen labels = (t.seen labels).instantiate (u.seen labels) := by
  cases labels with
  | false => exact erased_instantiate t u
  | true => rfl

theorem erased_erased (t : Term) : t.erased.erased = t.erased := by
  induction t with
  | bound i => rfl
  | free x i => rfl
  | construct shape arguments ih =>
    simp only [erased_construct, List.map_map, Node.unlabelled_unlabelled]
    refine congrArg _ (List.map_congr_left fun a member => ?_)
    simp only [Function.comp_apply]
    rw [ih a member]

theorem erased_seen (t : Term) : (t.seen labels).erased = t.erased := by
  cases labels with
  | false => exact erased_erased t
  | true => rfl

/-- Renaming a term into whose innermost variable another term has been put. -/
theorem rename_instantiate (ρ : Nat → Nat) (t u : Term) :
    (t.instantiate u).rename ρ = (t.rename (lift 1 ρ)).instantiate (u.rename ρ) := by
  rw [instantiate, instantiate, rename_subst, subst_rename]
  congr 1
  funext i
  cases i with
  | zero => rfl
  | succ i => exact congrArg bound (congrArg (· - 1) (lift_add 1 i)).symm

end Term

/-- Two contexts, and for each position of the first one a position of the second one. -/
structure Correspondence where
  /-- Whether corresponding binders have the same label. -/
  labels : Bool
  /-- The labels around the first expression, the innermost first. -/
  source : List Label
  /-- The labels around the second expression, the innermost first. -/
  target : List Label
  /-- The position in the second context. -/
  move : Nat → Nat
  /-- Different positions stay different. -/
  injective : Function.Injective move

namespace Correspondence

open Dhall.Expr

variable {K : Correspondence} {e e' f f' : Expr} {x y : Label} {n n' : Node Expr}

/-- The correspondence under binders on both sides, whose positions are left alone. -/
def underAll (K : Correspondence) (inner inner' : List Label) : Correspondence where
  labels := K.labels
  source := inner.reverse ++ K.source
  target := inner'.reverse ++ K.target
  move := Term.lift inner.length K.move
  injective := Term.lift_injective inner.length K.injective

/-- The correspondence under one binder on both sides. -/
def under (K : Correspondence) (x y : Label) : Correspondence :=
  K.underAll [x] [y]

@[simp] theorem underAll_nil (K : Correspondence) : K.underAll [] [] = K := by
  cases K with
  | mk labels source target move injective =>
    simp only [underAll, List.reverse_nil, List.nil_append, List.length_nil, Term.lift_zero]

/-- Binders can be passed one after the other. -/
theorem underAll_cons (K : Correspondence) (x y : Label) (inner inner' : List Label) :
    K.underAll (x :: inner) (y :: inner') = (K.under x y).underAll inner inner' := by
  simp only [underAll, under, List.reverse_cons, List.append_assoc, List.length_cons,
    Term.lift_lift, List.reverse_nil, List.nil_append, List.length_nil, Nat.zero_add,
    Nat.add_comm 1]

/-- The term of the second expression is the renamed term of the first one. -/
def Relates (K : Correspondence) (e e' : Expr) : Prop :=
  (e'.resolved K.target).seen K.labels = ((e.resolved K.source).seen K.labels).rename K.move

theorem Relates.eq (h : K.Relates e e') :
    (e'.resolved K.target).seen K.labels = ((e.resolved K.source).seen K.labels).rename K.move :=
  h

/-! ### Constructs -/

/-- Constructs correspond if their shapes agree, with or without labels, and if their children
correspond under the binders around them. -/
theorem relates_mk (notVar : ∀ v, n ≠ .var v) (notVar' : ∀ v, n' ≠ .var v) :
    K.Relates (.mk n) (.mk n') ↔ n'.shape.seen K.labels = n.shape.seen K.labels ∧
      List.Forall₂ (fun p q => q.1.length = p.1.length ∧ (K.underAll p.1 q.1).Relates p.2 q.2)
        n.scopedChildren n'.scopedChildren := by
  rw [Relates, resolved_mk notVar, resolved_mk notVar', Term.seen_construct, Term.seen_construct,
    Term.rename_construct, Term.construct.injEq, List.map_map, List.map_map, List.map_map,
    ← List.forall₂_eq_eq_eq, List.forall₂_map_left_iff, List.forall₂_map_right_iff]
  refine and_congr_right fun _ => ⟨fun same => ?_, fun related => ?_⟩
  · refine same.flip.imp ?_
    rintro p q image
    exact Prod.mk.inj image
  · refine related.flip.imp ?_
    rintro q p ⟨binders, image⟩
    exact Prod.ext binders image

/-- A variable corresponds to a variable only. -/
theorem not_relates_var {v : Variable} (notVar : ∀ v, n ≠ .var v) :
    ¬K.Relates (var v) (.mk n) ∧ ¬K.Relates (.mk n) (var v) := by
  rw [Relates, Relates, resolved_mk notVar, resolved_mk notVar, Term.seen_construct,
    Term.seen_construct, Term.rename_construct, resolved_var, resolved_var]
  constructor
  · intro same
    rcases locate_cases K.source v.label v.index.toNat with ⟨i, atom⟩ | ⟨i, atom⟩ <;>
      simp [atom] at same
  · intro same
    rcases locate_cases K.target v.label v.index.toNat with ⟨i, atom⟩ | ⟨i, atom⟩ <;>
      simp [atom] at same

/-- One construct on both sides with corresponding parts. -/
inductive Alike (K : Correspondence) : Expr → Expr → Prop
  | const (c : Const) : Alike K (const c) (const c)
  | var {v v' : Variable} (h : K.Relates (var v) (var v')) : Alike K (var v) (var v')
  | lam {x y : Label} {domain domain' body body' : Expr} (label : K.labels = true → y = x)
      (here : K.Relates domain domain') (inside : (K.under x y).Relates body body') :
      Alike K (lam x domain body) (lam y domain' body')
  | pi {x y : Label} {domain domain' codomain codomain' : Expr} (label : K.labels = true → y = x)
      (here : K.Relates domain domain') (inside : (K.under x y).Relates codomain codomain') :
      Alike K (pi x domain codomain) (pi y domain' codomain')
  | app {f f' a a' : Expr} (function : K.Relates f f') (argument : K.Relates a a') :
      Alike K (app f a) (app f' a')
  | letIn {bindings bindings' : List (Binding Expr)} {body body' : Expr}
      (h : K.Relates (letIn bindings body) (letIn bindings' body')) :
      Alike K (letIn bindings body) (letIn bindings' body')
  | annot {e e' type type' : Expr} (h : K.Relates e e') (typed : K.Relates type type') :
      Alike K (annot e type) (annot e' type')
  | assertion {type type' : Expr} (typed : K.Relates type type') :
      Alike K (assertion type) (assertion type')
  | builtin (b : Builtin) : Alike K (builtin b) (builtin b)
  | op (o : Operator) {x x' y y' : Expr} (left : K.Relates x x') (right : K.Relates y y') :
      Alike K (op o x y) (op o x' y')
  | bool (b : Bool) : Alike K (bool b) (bool b)
  | ifThenElse {condition condition' yes yes' no no' : Expr}
      (decides : K.Relates condition condition') (first : K.Relates yes yes')
      (second : K.Relates no no') :
      Alike K (ifThenElse condition yes no) (ifThenElse condition' yes' no')
  | natural (n : UInt64) : Alike K (natural n) (natural n)
  | integer (i : Int64) : Alike K (integer i) (integer i)
  | double (d : Double) : Alike K (double d) (double d)
  | text (head : String) {tail tail' : List (Expr × String)}
      (h : List.Forall₂ (fun p q => q.2 = p.2 ∧ K.Relates p.1 q.1) tail tail') :
      Alike K (text ⟨head, tail⟩) (text ⟨head, tail'⟩)
  | emptyList {type type' : Expr} (typed : K.Relates type type') :
      Alike K (emptyList type) (emptyList type')
  | list {items items' : List Expr} (h : List.Forall₂ K.Relates items items') :
      Alike K (list items) (list items')
  | present {e e' : Expr} (h : K.Relates e e') : Alike K (present e) (present e')
  | recordType {fields fields' : LabelMap Expr} (h : fields.Related K.Relates fields') :
      Alike K (recordType fields) (recordType fields')
  | record {fields fields' : LabelMap Expr} (h : fields.Related K.Relates fields') :
      Alike K (record fields) (record fields')
  | union {alternatives alternatives' : LabelMap (Option Expr)}
      (h : K.Relates (union alternatives) (union alternatives')) :
      Alike K (union alternatives) (union alternatives')
  | merge {handlers handlers' variant variant' : Expr} {type type' : Option Expr}
      (matcher : K.Relates handlers handlers') (matched : K.Relates variant variant')
      (typed : Option.Rel K.Relates type type') :
      Alike K (merge handlers variant type) (merge handlers' variant' type')
  | toMap {e e' : Expr} {type type' : Option Expr} (h : K.Relates e e')
      (typed : Option.Rel K.Relates type type') : Alike K (toMap e type) (toMap e' type')
  | field {e e' : Expr} (h : K.Relates e e') (l : Label) : Alike K (field e l) (field e' l)
  | project {e e' : Expr} (h : K.Relates e e') (labels : LabelSet) :
      Alike K (project e labels) (project e' labels)
  | projectType {e e' type type' : Expr} (h : K.Relates e e') (typed : K.Relates type type') :
      Alike K (projectType e type) (projectType e' type')
  | embed (i : Import) : Alike K (embed i) (embed i)

/-- An optional part corresponds to one that is there as well. -/
private theorem forall₂_toList_iff {R : Expr → Expr → Prop} {o o' : Option Expr} :
    (o'.map fun _ => ()) = (o.map fun _ => ()) ∧ List.Forall₂ R o.toList o'.toList ↔
      Option.Rel R o o' := by
  cases o <;> cases o' <;> simp

private theorem forall₂_tail_iff {R : Expr → Expr → Prop} {tail tail' : List (Expr × String)} :
    (tail'.map fun p => ((), p.2)) = (tail.map fun p => ((), p.2)) ∧
        List.Forall₂ R (tail.map Prod.fst) (tail'.map Prod.fst) ↔
      List.Forall₂ (fun p q => q.2 = p.2 ∧ R p.1 q.1) tail tail' := by
  rw [← List.forall₂_eq_eq_eq, List.forall₂_map_left_iff, List.forall₂_map_right_iff,
    List.forall₂_map_left_iff, List.forall₂_map_right_iff]
  constructor
  · rintro ⟨texts, values⟩
    refine (forall₂_and texts.flip values).imp ?_
    rintro p q ⟨text, value⟩
    exact ⟨(Prod.mk.inj text).2, value⟩
  · intro h
    exact ⟨(h.imp fun p q h => congrArg (Prod.mk ()) h.1).flip, h.imp fun p q h => h.2⟩

/-- Corresponding expressions are one construct with corresponding parts. -/
theorem Relates.alike (h : K.Relates e e') : K.Alike e e' := by
  obtain ⟨n⟩ := e
  obtain ⟨n'⟩ := e'
  by_cases isVar : ∃ v, n = .var v
  · obtain ⟨v, rfl⟩ := isVar
    by_cases isVar' : ∃ v, n' = .var v
    · obtain ⟨v', rfl⟩ := isVar'
      exact .var h
    · exact absurd h (not_relates_var (not_exists.mp isVar')).1
  have notVar := not_exists.mp isVar
  by_cases isVar' : ∃ v, n' = .var v
  · obtain ⟨v', rfl⟩ := isVar'
    exact absurd h (not_relates_var notVar).2
  have notVar' := not_exists.mp isVar'
  obtain ⟨shapes, parts⟩ := (relates_mk notVar notVar').mp h
  obtain ⟨same, labels⟩ := Node.seen_eq_iff.mp shapes
  -- Different constructs have different shapes, and for equal ones the parts are read off.
  cases n <;> cases n' <;> try (cases same; done)
  all_goals
    simp only [Node.scopedChildren, List.forall₂_cons, List.forall₂_map_left_iff,
      List.forall₂_map_right_iff, underAll_nil, true_and, List.forall₂_nil_left_iff,
      and_true] at parts
  case lam.lam | pi.pi =>
    have label (seen : K.labels = true) := labels seen
    simp only [Node.shape, Node.map, Node.lam.injEq, Node.pi.injEq, and_true] at label
    first | exact .lam label parts.1 parts.2.2 | exact .pi label parts.1 parts.2.2
  case letIn.letIn => exact .letIn h
  case text.text t t' =>
    obtain ⟨head, tail⟩ := t
    obtain ⟨head', tail'⟩ := t'
    obtain ⟨rfl, texts⟩ := Text.mk.inj (Node.text.inj same)
    exact .text head' (forall₂_tail_iff.mp ⟨texts, parts⟩)
  case list.list => exact .list parts
  case recordType.recordType =>
    exact .recordType (Entries.related_iff_values.mpr ⟨Node.recordType.inj same, parts⟩)
  case record.record =>
    exact .record (Entries.related_iff_values.mpr ⟨Node.record.inj same, parts⟩)
  case union.union => exact .union h
  case merge.merge =>
    obtain ⟨handlers, variant, type⟩ := parts
    exact .merge handlers variant (forall₂_toList_iff.mp ⟨(Node.merge.inj same).2.2, type⟩)
  case toMap.toMap =>
    exact .toMap parts.1 (forall₂_toList_iff.mp ⟨(Node.toMap.inj same).2, parts.2⟩)
  case var.var v v' => exact absurd rfl (notVar v)
  case app.app => exact .app parts.1 parts.2
  case annot.annot => exact .annot parts.1 parts.2
  case assertion.assertion => exact .assertion parts
  case ifThenElse.ifThenElse => exact .ifThenElse parts.1 parts.2.1 parts.2.2
  case emptyList.emptyList => exact .emptyList parts
  case present.present => exact .present parts
  case projectType.projectType => exact .projectType parts.1 parts.2
  -- What else a construct holds stands in its shape.
  case op.op =>
    cases same
    exact .op _ parts.1 parts.2
  case field.field =>
    cases same
    exact .field parts _
  case project.project =>
    cases same
    exact .project parts _
  all_goals
    cases same
    constructor

/-- One construct around corresponding parts corresponds. -/
theorem Alike.relates (h : K.Alike e e') : K.Relates e e' := by
  -- For constructs that bind nothing it is enough to compare the children one by one.
  have construct {n n' : Node Expr} (notVar : ∀ v, n ≠ .var v) (shapes : n'.shape = n.shape)
      (parts : List.Forall₂
        (fun p q => q.1.length = p.1.length ∧ (K.underAll p.1 q.1).Relates p.2 q.2)
        n.scopedChildren n'.scopedChildren) : K.Relates (.mk n) (.mk n') :=
    (relates_mk notVar (Node.ne_var_of_shape shapes notVar)).mpr ⟨congrArg _ shapes, parts⟩
  cases h with
  | var h | letIn h | union h => exact h
  | lam label here inside | pi label here inside =>
    refine (relates_mk (by rintro _ ⟨⟩) (by rintro _ ⟨⟩)).mpr ⟨Node.seen_eq_iff.mpr ⟨rfl, ?_⟩, ?_⟩
    · intro seen
      rw [label seen]
      rfl
    · exact .cons ⟨rfl, by rwa [underAll_nil]⟩ (.cons ⟨rfl, inside⟩ .nil)
  | text head h =>
    have parts := forall₂_tail_iff.mpr h
    refine construct (by rintro _ ⟨⟩) (congrArg (fun tail => Node.text ⟨head, tail⟩) parts.1) ?_
    simpa [Node.scopedChildren, Text.values] using parts.2
  | recordType h | record h =>
    have parts := Entries.related_iff_values.mp h
    refine construct (by rintro _ ⟨⟩) ?_ ?_
    · simp only [Node.shape, Node.map, parts.1]
    · simpa [Node.scopedChildren] using parts.2
  | merge matcher matched typed =>
    have parts := forall₂_toList_iff.mpr typed
    refine construct (by rintro _ ⟨⟩) (congrArg (Node.merge () ()) parts.1) ?_
    simpa [Node.scopedChildren, matcher, matched] using parts.2
  | toMap h typed =>
    have parts := forall₂_toList_iff.mpr typed
    refine construct (by rintro _ ⟨⟩) (congrArg (Node.toMap ()) parts.1) ?_
    simpa [Node.scopedChildren, h] using parts.2
  | list h =>
    refine construct (by rintro _ ⟨⟩) ?_ (by simpa [Node.scopedChildren] using h)
    simp [Node.shape, Node.map, h.length_eq]
  | _ =>
    refine construct (by rintro _ ⟨⟩) rfl ?_
    simp [Node.scopedChildren, *]

/-- Corresponding definitions start with corresponding values, and what follows corresponds in
the scope of the first labels. -/
theorem Relates.letIn_cons {first : Binding Expr} {rest : List (Binding Expr)} {body : Expr}
    (h : K.Relates (letIn (first :: rest) body) e') :
    ∃ first' rest' body', e' = letIn (first' :: rest') body' ∧
      K.Relates first.value first'.value ∧
      (K.under first.label first'.label).Relates (afterFirst rest body)
        (afterFirst rest' body') := by
  cases h.alike with
  | @letIn _ bindings' _ body' h =>
    obtain ⟨shapes, parts⟩ := (relates_mk (by rintro _ ⟨⟩) (by rintro _ ⟨⟩)).mp h
    obtain ⟨same, labels⟩ := Node.seen_eq_iff.mp shapes
    cases bindings' with
    | nil => cases same
    | cons first' rest' =>
      obtain ⟨x, type, value⟩ := first
      obtain ⟨y, type', value'⟩ := first'
      simp only [Node.shape, Node.map, Node.unlabelled, List.map_cons, Binding.map,
        Node.letIn.injEq, List.cons.injEq, Binding.mk.injEq, and_true, true_and] at same labels
      rw [Node.scopedChildren_letIn_cons, Node.scopedChildren_letIn_cons] at parts
      -- The types come before the values, and either both definitions have one or none has.
      have split : K.Relates value value' ∧ List.Forall₂
          (fun p q => (y :: q.1).length = (x :: p.1).length ∧
            (K.underAll (x :: p.1) (y :: q.1)).Relates p.2 q.2)
          (Node.letIn rest body).scopedChildren (Node.letIn rest' body').scopedChildren := by
        cases type <;> cases type' <;> simp [Binding.children] at same parts ⊢
        · exact parts
        · exact parts.2
      obtain ⟨values, parts⟩ := split
      have inner : (K.under x y).Relates (.letIn rest body) (.letIn rest' body') := by
        refine (relates_mk (by rintro _ ⟨⟩) (by rintro _ ⟨⟩)).mpr
          ⟨Node.seen_eq_iff.mpr ⟨?_, fun seen => ?_⟩, parts.imp fun p q h => ?_⟩
        · exact congrArg (Node.letIn · ()) same.2
        · exact congrArg (Node.letIn · ()) (labels seen).2
        · rw [underAll_cons] at h
          exact ⟨Nat.succ_inj.mp h.1, h.2⟩
      refine ⟨_, rest', body', rfl, values, ?_⟩
      have lengths := congrArg List.length same.2
      simp only [List.length_map] at lengths
      cases rest with
      | nil =>
        obtain rfl := List.eq_nil_of_length_eq_zero lengths
        have last := ((relates_mk (by rintro _ ⟨⟩) (by rintro _ ⟨⟩)).mp inner).2
        simpa [Node.scopedChildren, Binding.scopedChildren, afterFirst] using last
      | cons second rest =>
        cases rest' with
        | nil => cases lengths
        | cons second' rest' => exact inner

/-! ### Variables, binders and substitution -/

theorem relates_under_iff : (K.under x y).Relates e e' ↔
    (e'.resolved (y :: K.target)).seen K.labels =
      ((e.resolved (x :: K.source)).seen K.labels).rename (Term.lift 1 K.move) :=
  Iff.rfl

/-- The variables of the innermost binders correspond. -/
theorem relates_nearest (x y : Label) :
    (K.under x y).Relates (var (.nearest x)) (var (.nearest y)) := by
  have position (z : Label) (context : List Label) :
      (var (.nearest z)).resolved (z :: context) = .bound 0 := locate_cons_zero
  rw [relates_under_iff, position, position, Term.seen_bound, Term.rename_bound,
    Term.lift_of_lt Nat.one_pos]

/-- Expressions that have moved under a binder on both sides still correspond. -/
theorem Relates.moved (h : K.Relates e e')
    (first : f.resolved (x :: K.source) = (e.resolved K.source).rename (· + 1))
    (second : f'.resolved (y :: K.target) = (e'.resolved K.target).rename (· + 1)) :
    (K.under x y).Relates f f' := by
  have outside : Term.lift 1 K.move ∘ (· + 1) = (· + 1) ∘ K.move :=
    funext fun i => Term.lift_add 1 i
  rw [relates_under_iff, first, second, Term.seen_rename, Term.seen_rename, Term.rename_rename,
    outside, ← Term.rename_rename, ← h.eq]

/-- Variables that other binders bind correspond as they did outside. -/
theorem Relates.outer_var {v v' : Variable} (h : K.Relates (var v) (var v')) (hx : v.label ≠ x)
    (hy : v'.label ≠ y) : (K.under x y).Relates (var v) (var v') :=
  h.moved (locate_cons_of_ne hx) (locate_cons_of_ne hy)

/-- Moving under binders keeps correspondences. -/
theorem agree_under (h : K.Relates e e') (x y : Label) :
    Agree (K.under x y).Relates (e.under x) (e'.under y) :=
  fun _ _ first second => h.moved (resolved_under first) (resolved_under second)

/-- Removing binders keeps correspondences, if the values that take the places of their
variables correspond. -/
theorem agree_instantiate (h : (K.under x y).Relates e e') (values : K.Relates f f') :
    Agree K.Relates (e.instantiate (.nearest x) f) (e'.instantiate (.nearest y) f') := by
  intro r r' first second
  have source := resolved_instantiate (Δ := []) (Γ := K.source) first rfl
  have target := resolved_instantiate (Δ := []) (Γ := K.target) second rfl
  calc (r'.resolved K.target).seen K.labels
      = ((e'.resolved (y :: K.target)).seen K.labels).instantiate
          ((f'.resolved K.target).seen K.labels) :=
        (congrArg _ target).trans (Term.seen_instantiate _ _)
    _ = (((e.resolved (x :: K.source)).seen K.labels).instantiate
          ((f.resolved K.source).seen K.labels)).rename K.move := by
        rw [Term.rename_instantiate, relates_under_iff.mp h, values.eq]
    _ = ((r.resolved K.source).seen K.labels).rename K.move :=
        congrArg _ ((congrArg _ source).trans (Term.seen_instantiate _ _)).symm

/-- Comparisons up to names of bound variables have the same answer on both sides, because the
renaming of positions loses nothing. -/
theorem agree_alphaEquivalent (he : K.Relates e e') (hf : K.Relates f f') :
    Agree Eq (e.alphaEquivalent f) (e'.alphaEquivalent f') := by
  have nameless {e e' : Expr} (h : K.Relates e e') :
      e'.nameless K.target = (e.nameless K.source).rename K.move := by
    have erased := congrArg Term.erased h.eq
    rwa [Term.erased_rename, Term.erased_seen, Term.erased_seen] at erased
  intro same same' first second
  rw [Bool.eq_iff_iff, alphaEquivalent_eq_ok first K.source, alphaEquivalent_eq_ok second K.target,
    nameless he, nameless hf, (Term.rename_injective K.injective).eq_iff]

/-! ### Views -/

theorem Relates.bool?_eq (h : K.Relates e e') : e'.bool? = e.bool? := by
  cases h.alike <;> rfl

theorem Relates.natural?_eq (h : K.Relates e e') : e'.natural? = e.natural? := by
  cases h.alike <;> rfl

theorem Relates.record? (h : K.Relates e e') :
    Option.Rel (Entries.Related K.Relates) e.record? e'.record? := by
  cases h.alike with
  | record fields => exact .some fields
  | _ => exact .none

theorem Relates.recordType? (h : K.Relates e e') :
    Option.Rel (Entries.Related K.Relates) e.recordType? e'.recordType? := by
  cases h.alike with
  | recordType fields => exact .some fields
  | _ => exact .none

/-- Applications correspond if their heads and their arguments do. -/
theorem Relates.spine (h : K.Relates e e') :
    K.Relates e.spine.1 e'.spine.1 ∧ List.Forall₂ K.Relates e.spine.2 e'.spine.2 := by
  induction e using Expr.spine.induct generalizing e' with
  | case1 f a head args spine ih =>
    cases h.alike with
    | app function argument =>
      obtain ⟨heads, arguments⟩ := ih function
      exact ⟨heads, List.rel_append arguments (.cons argument .nil)⟩
  | case2 e noApp =>
    cases h.alike with
    | app function argument => exact absurd rfl (noApp _ _)
    | _ => exact ⟨h, .nil⟩

/-- The same built-in name is applied on both sides, to corresponding arguments. -/
theorem Relates.argumentsOf? (h : K.Relates e e') (b : Builtin) :
    Option.Rel (List.Forall₂ K.Relates) (e.argumentsOf? b) (e'.argumentsOf? b) := by
  obtain ⟨heads, arguments⟩ := h.spine
  unfold Expr.argumentsOf?
  generalize e.spine = s at heads arguments ⊢
  generalize e'.spine = s' at heads arguments ⊢
  obtain ⟨head, args⟩ := s
  obtain ⟨head', args'⟩ := s'
  cases heads.alike with
  | builtin c =>
    dsimp only
    split
    · exact .some arguments
    · exact .none
  | _ => exact .none

end Correspondence

end Dhall
