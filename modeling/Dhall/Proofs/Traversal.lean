/-
# Traversals that return

A traversal may stop before it has visited every child. When it returns, it has
returned at every child, and the node that it returns has the old shape around the
results. Two nodes whose shapes agree and whose children are related place by place
are called similar, so a traversal returns exactly the nodes that are similar to the
old one along its results.

## Main definitions

* `LawfulReturn` — effects in which a sequence returns only if its parts return
* `Node.Similar` — nodes of one shape with related children

## Main results

* `mapM_eq_pure_iff` — what a sequence of effects returns
* `Node.traverse_eq_pure_iff` — what a traversal returns
* `Node.traverse_congr` — a traversal depends on what happens at the children only
-/

import Dhall.Eval
import Dhall.Node.Traversal
import Mathlib.Data.List.Forall2
import Mathlib.Logic.Function.Basic

namespace Dhall

/-- Effects in which a sequence returns only if both of its parts return. -/
class LawfulReturn (m : Type → Type) [Monad m] : Prop where
  /-- What is returned is determined. -/
  pure_injective {α : Type} : Function.Injective (pure : α → m α)
  /-- A sequence that returns has returned in its first part and then in its second. -/
  of_bind_eq_pure {α β : Type} {x : m α} {f : α → m β} {b : β} :
    x >>= f = pure b → ∃ a, x = pure a ∧ f a = pure b

instance : LawfulReturn Id where
  pure_injective same := same
  of_bind_eq_pure {_ _ x _ _} returned := ⟨x, rfl, returned⟩

instance {ε : Type} : LawfulReturn (Except ε) where
  pure_injective same := Except.ok.inj same
  of_bind_eq_pure {_ _ x _ _} returned := by
    cases x with
    | error _ => cases returned
    | ok a => exact ⟨a, rfl, returned⟩

instance : LawfulReturn Eval where
  pure_injective same := Except.ok.inj (Option.some.inj same)
  of_bind_eq_pure {_ _ x _ _} returned := by
    match x with
    | none => cases returned
    | some (.error _) => cases returned
    | some (.ok a) => exact ⟨a, rfl, returned⟩

/-- What has no fuel to run out of returns in an evaluation what it returns alone. -/
theorem Eval.lift_eq_pure_iff {α : Type} {x : Except Violation α} {a : α} :
    (liftM x : Eval α) = pure a ↔ x = .ok a :=
  ⟨Option.some.inj, congrArg _⟩

theorem forall₂_and {α β : Type} {R S : α → β → Prop} {l : List α} {l' : List β}
    (first : List.Forall₂ R l l') (second : List.Forall₂ S l l') :
    List.Forall₂ (fun a b => R a b ∧ S a b) l l' := by
  induction first with
  | nil => exact .nil
  | cons here _ ih =>
    cases second with
    | cons here' below => exact .cons ⟨here, here'⟩ (ih below)

/-- Everything in the second list is related to something in the first one. -/
theorem exists_of_forall₂ {α β : Type} {R : α → β → Prop} {l : List α} {l' : List β}
    (h : List.Forall₂ R l l') {b : β} (member : b ∈ l') : ∃ a ∈ l, R a b := by
  induction h with
  | nil => cases member
  | cons here _ ih =>
    rcases List.mem_cons.mp member with rfl | below
    · exact ⟨_, .head _, here⟩
    · obtain ⟨a, inside, image⟩ := ih below
      exact ⟨a, .tail _ inside, image⟩

theorem mapM_congr {m : Type → Type} [Monad m] [LawfulMonad m] {α β : Type} {f g : α → m β}
    {l : List α} (h : ∀ a ∈ l, f a = g a) : l.mapM f = l.mapM g := by
  induction l with
  | nil => rfl
  | cons a l ih =>
    rw [List.forall_mem_cons] at h
    rw [List.mapM_cons, List.mapM_cons, h.1, ih h.2]

/-- A sequence of effects returns if each of them returns. -/
theorem exists_mapM_eq_pure {m : Type → Type} [Monad m] [LawfulMonad m] {α β : Type}
    {f : α → m β} {l : List α} (h : ∀ a ∈ l, ∃ b, f a = pure b) : ∃ l', l.mapM f = pure l' := by
  induction l with
  | nil => exact ⟨[], List.mapM_nil⟩
  | cons a l ih =>
    rw [List.forall_mem_cons] at h
    obtain ⟨⟨b, first⟩, others⟩ := h
    obtain ⟨l', below⟩ := ih others
    exact ⟨b :: l', by rw [List.mapM_cons, first, below, pure_bind, pure_bind]⟩

theorem exists_map_eq_pure {m : Type → Type} [Monad m] [LawfulMonad m] {α β : Type} {x : m α}
    (f : α → β) (h : ∃ a, x = pure a) : ∃ b, f <$> x = pure b := by
  obtain ⟨a, rfl⟩ := h
  exact ⟨f a, map_pure f a⟩

section Returns

variable {m : Type → Type} [Monad m] [LawfulMonad m] [LawfulReturn m] {α β : Type}

theorem bind_eq_pure_iff {x : m α} {f : α → m β} {b : β} :
    x >>= f = pure b ↔ ∃ a, x = pure a ∧ f a = pure b := by
  refine ⟨LawfulReturn.of_bind_eq_pure, ?_⟩
  rintro ⟨a, rfl, returned⟩
  rwa [pure_bind]

theorem map_eq_pure_iff {x : m α} {f : α → β} {b : β} :
    f <$> x = pure b ↔ ∃ a, x = pure a ∧ f a = b := by
  rw [map_eq_pure_bind, bind_eq_pure_iff]
  exact exists_congr fun a => and_congr_right fun _ => LawfulReturn.pure_injective.eq_iff

/-- A sequence of effects returns the list of what each of them returns. -/
theorem mapM_eq_pure_iff {f : α → m β} {l : List α} {l' : List β} :
    l.mapM f = pure l' ↔ List.Forall₂ (fun a b => f a = pure b) l l' := by
  induction l generalizing l' with
  | nil =>
    rw [List.mapM_nil, LawfulReturn.pure_injective.eq_iff, List.forall₂_nil_left_iff]
    exact eq_comm
  | cons a l ih =>
    simp only [List.mapM_cons, bind_eq_pure_iff, List.forall₂_cons_left_iff, ih,
      LawfulReturn.pure_injective.eq_iff]
    constructor
    · rintro ⟨b, hb, bs, hbs, rfl⟩
      exact ⟨b, bs, hb, hbs, rfl⟩
    · rintro ⟨b, bs, hb, hbs, rfl⟩
      exact ⟨b, hb, bs, hbs, rfl⟩

end Returns

namespace Node

variable {α β γ : Type}

/-- The binders around the children belong to the shape. -/
theorem binders_of_shape {n : Node α} {n' : Node β} (h : n'.shape = n.shape) :
    List.Forall₂ (fun p q => q.1 = p.1) n.scopedChildren n'.scopedChildren := by
  have binders {γ : Type} (n : Node γ) :
      n.shape.scopedChildren.map Prod.fst = n.scopedChildren.map Prod.fst := by
    rw [shape, scopedChildren_map, List.map_map]
    rfl
  have same : n'.scopedChildren.map Prod.fst = n.scopedChildren.map Prod.fst := by
    rw [← binders n', ← binders n, h]
  rw [← List.forall₂_eq_eq_eq, List.forall₂_map_left_iff, List.forall₂_map_right_iff] at same
  exact same.flip

/-- Nodes of one shape whose children are related, place by place. The relation may look
at the binders around the children. -/
def Similar (R : List Label → α → β → Prop) (n : Node α) (n' : Node β) : Prop :=
  n'.shape = n.shape ∧ List.Forall₂ (fun p c' => R p.1 p.2 c') n.scopedChildren n'.children

variable {R S : List Label → α → β → Prop} {n : Node α} {n' : Node β}

theorem Similar.shape_eq (h : n.Similar R n') : n'.shape = n.shape := h.1

/-- The binders around related children are the same. -/
theorem Similar.scoped (h : n.Similar R n') :
    List.Forall₂ (fun p q => q.1 = p.1 ∧ R p.1 p.2 q.2) n.scopedChildren n'.scopedChildren := by
  have related := h.2
  rw [Node.children, List.forall₂_map_right_iff] at related
  exact forall₂_and (binders_of_shape h.1) related

/-- The relation may be weakened at the children that there are. -/
theorem Similar.imp (h : n.Similar R n')
    (weaker : ∀ p ∈ n.scopedChildren, ∀ c', R p.1 p.2 c' → S p.1 p.2 c') : n.Similar S n' := by
  have pairs := (List.forall₂_and_left
    (p := fun p : List Label × α => p ∈ n.scopedChildren) _ _).mpr ⟨fun _ => id, h.2⟩
  exact ⟨h.1, pairs.imp fun p c' related => weaker p related.1 c' related.2⟩

/-- Similarity the other way round. -/
theorem Similar.symm (h : n.Similar R n') : n'.Similar (fun inner c' c => R inner c c') n := by
  refine ⟨h.1.symm, ?_⟩
  rw [Node.children, List.forall₂_map_right_iff]
  exact h.scoped.flip.imp fun q p related => related.1 ▸ related.2

/-- Similarity along one relation and then along another one. -/
theorem Similar.trans {T : List Label → β → γ → Prop} {n'' : Node γ} (h : n.Similar R n')
    (h' : n'.Similar T n'') : n.Similar (fun inner a c => ∃ b, R inner a b ∧ T inner b c) n'' := by
  refine ⟨h'.1.trans h.1, ?_⟩
  have composed (l : List (List Label × α)) (l' : List (List Label × β)) (l'' : List γ)
      (first : List.Forall₂ (fun p q => q.1 = p.1 ∧ R p.1 p.2 q.2) l l')
      (second : List.Forall₂ (fun q c => T q.1 q.2 c) l' l'') :
      List.Forall₂ (fun p c => ∃ b, R p.1 p.2 b ∧ T p.1 b c) l l'' := by
    induction first generalizing l'' with
    | nil =>
      cases second
      exact .nil
    | @cons p q _ _ here _ ih =>
      cases second with
      | cons here' below => exact .cons ⟨q.2, here.2, here.1 ▸ here'⟩ (ih _ below)
  exact composed _ _ _ h.scoped h'.2

/-- A node with the same children in the same places is the same node. -/
theorem Similar.eq {n' : Node α} (h : n.Similar (fun _ c c' => c' = c) n') : n' = n := by
  refine eq_of_shape h.1 ?_
  have same := h.2.flip
  rw [← List.forall₂_eq_eq_eq, Node.children.eq_def n, List.forall₂_map_right_iff]
  exact same

/-- A node is similar to itself along what relates each child to itself. -/
theorem similar_self {R : List Label → α → α → Prop} {n : Node α}
    (h : ∀ p ∈ n.scopedChildren, R p.1 p.2 p.2) : n.Similar R n := by
  refine ⟨rfl, ?_⟩
  rw [Node.children, List.forall₂_map_right_iff, List.forall₂_same]
  exact h

/-- Every child is related to one of the other node. -/
theorem Similar.exists_of_mem (h : n.Similar R n') {c' : β} (member : c' ∈ n'.children) :
    ∃ p ∈ n.scopedChildren, R p.1 p.2 c' :=
  exists_of_forall₂ h.2 member

/-- A traversal is a sequence of effects at the children, followed by a function that puts
the results in their places. -/
theorem traverse_eq_map {m : Type → Type} [Monad m] [LawfulMonad m] (n : Node α) :
    ∃ rebuild : List β → Node β, ∀ f : List Label → α → m β,
      n.traverse f = rebuild <$> n.scopedChildren.mapM fun p => f p.1 p.2 := by
  -- Shape and children determine a node, so a node can be rebuilt from the two.
  have views : Function.Injective fun n' : Node β => (n'.shape, n'.children) :=
    fun _ _ same => eq_of_shape (Prod.mk.inj same).1 (Prod.mk.inj same).2
  have : Nonempty (Node β) := ⟨.bool true⟩
  obtain ⟨rebuild, inverse⟩ := views.hasLeftInverse
  refine ⟨fun cs => rebuild (n.shape, cs), fun f => ?_⟩
  have rebuilt : rebuild <$> ((fun n' => (n'.shape, n'.children)) <$> n.traverse f) =
      n.traverse f := by
    rw [Functor.map_map]
    exact (congrArg (· <$> n.traverse f) (funext inverse)).trans (id_map _)
  rw [← rebuilt, views_traverse, Functor.map_map]

/-- A traversal returns if its effect returns at every child. -/
theorem exists_traverse_eq_pure {m : Type → Type} [Monad m] [LawfulMonad m]
    {f : List Label → α → m β}
    (h : ∀ p ∈ n.scopedChildren, ∃ c', f p.1 p.2 = pure c') : ∃ n', n.traverse f = pure n' := by
  obtain ⟨rebuild, sequence⟩ := traverse_eq_map (m := m) (β := β) n
  obtain ⟨cs, returned⟩ := exists_mapM_eq_pure h
  exact ⟨rebuild cs, by rw [sequence, returned, map_pure]⟩

/-- A traversal is determined by what it does at the children, in order. -/
theorem traverse_congr {m : Type → Type} [Monad m] [LawfulMonad m]
    {f g : List Label → α → m β} {n : Node α}
    (h : ∀ p ∈ n.scopedChildren, f p.1 p.2 = g p.1 p.2) : n.traverse f = n.traverse g := by
  obtain ⟨rebuild, sequence⟩ := traverse_eq_map (m := m) (β := β) n
  rw [sequence, sequence, mapM_congr h]

/-- A traversal returns the node with its results in the places of the children. -/
theorem traverse_eq_pure_iff {m : Type → Type} [Monad m] [LawfulMonad m] [LawfulReturn m]
    {f : List Label → α → m β} :
    n.traverse f = pure n' ↔ n.Similar (fun inner c c' => f inner c = pure c') n' := by
  have views : _ = (n.shape, ·) <$> n.scopedChildren.mapM fun p => f p.1 p.2 :=
    views_traverse f n
  constructor
  · intro returned
    rw [returned, map_pure] at views
    -- The children of what is returned are what the sequence has returned.
    obtain ⟨cs, results, same⟩ := map_eq_pure_iff.mp views.symm
    rw [Prod.mk.injEq] at same
    exact ⟨same.1.symm, same.2 ▸ mapM_eq_pure_iff.mp results⟩
  · rintro ⟨shapes, results⟩
    rw [mapM_eq_pure_iff.mpr results, map_pure] at views
    obtain ⟨n'', returned, same⟩ := map_eq_pure_iff.mp views
    rw [Prod.mk.injEq] at same
    rw [returned, eq_of_shape (same.1.trans shapes.symm) same.2]

end Node

end Dhall
