/-
# Computations that agree

Two computations agree along a relation if, when both of them return, what they return is
related. Nothing is said when one of them stops, so agreement is what can be proved about
two evaluations that need not return together. A sequence agrees when its parts do, and
from this follows agreement for everything that evaluation is made of.

## Main definitions

* `Agree` — returned values are related

## Main results

* `Agree.bind` — sequences agree if their parts do
* `agree_mapM`, `agree_foldrM`, `Eval.agree_iterate` — so do repetitions
* `Node.Similar.agree_traverse` — traversals of similar nodes return similar nodes
-/

import Dhall.Proofs.Fields

namespace Dhall

variable {m : Type → Type} [Monad m] {α β γ δ : Type} {R : α → β → Prop} {S : γ → δ → Prop}

/-- What two computations return is related, if both return. -/
def Agree (R : α → β → Prop) (x : m α) (y : m β) : Prop :=
  ∀ a b, x = pure a → y = pure b → R a b

theorem Agree.pure [LawfulReturn m] {a : α} {b : β} (h : R a b) :
    Agree R (pure a : m α) (pure b) := by
  intro a' b' first second
  rwa [← LawfulReturn.pure_injective first, ← LawfulReturn.pure_injective second]

section Sequences

variable [LawfulMonad m] [LawfulReturn m]

/-- Sequences agree if their first parts do, and if their second parts do on related values. -/
theorem Agree.bind {x : m α} {y : m β} {f : α → m γ} {g : β → m δ} (h : Agree R x y)
    (rest : ∀ a b, R a b → Agree S (f a) (g b)) : Agree S (x >>= f) (y >>= g) := by
  intro c d first second
  obtain ⟨a, fromX, first⟩ := bind_eq_pure_iff.mp first
  obtain ⟨b, fromY, second⟩ := bind_eq_pure_iff.mp second
  exact rest a b (h a b fromX fromY) c d first second

theorem Agree.map {x : m α} {y : m β} {f : α → γ} {g : β → δ} (h : Agree R x y)
    (rest : ∀ a b, R a b → S (f a) (g b)) : Agree S (f <$> x) (g <$> y) := by
  rw [map_eq_pure_bind, map_eq_pure_bind]
  exact h.bind fun a b related => .pure (rest a b related)

theorem agree_mapM {l : List α} {l' : List β} {f : α → m γ} {g : β → m δ}
    (h : List.Forall₂ R l l') (each : ∀ a b, R a b → Agree S (f a) (g b)) :
    Agree (List.Forall₂ S) (l.mapM f) (l'.mapM g) := by
  induction h with
  | nil =>
    rw [List.mapM_nil, List.mapM_nil]
    exact .pure .nil
  | cons here _ ih =>
    rw [List.mapM_cons, List.mapM_cons]
    exact (each _ _ here).bind fun c d first => ih.bind fun cs ds rest => .pure (.cons first rest)

theorem agree_mapM_option {o : Option α} {o' : Option β} {f : α → m γ} {g : β → m δ}
    (h : Option.Rel R o o') (each : ∀ a b, R a b → Agree S (f a) (g b)) :
    Agree (Option.Rel S) (o.mapM f) (o'.mapM g) := by
  cases h with
  | none => exact .pure .none
  | some here =>
    rw [Option.mapM_some, Option.mapM_some]
    exact (each _ _ here).map fun c d related => .some related

theorem agree_foldrM {l : List α} {l' : List β} {f : α → γ → m γ} {g : β → δ → m δ} {c : γ} {d : δ}
    (h : List.Forall₂ R l l') (start : S c d)
    (each : ∀ a b c d, R a b → S c d → Agree S (f a c) (g b d)) :
    Agree S (l.foldrM f c) (l'.foldrM g d) := by
  induction h with
  | nil =>
    rw [List.foldrM_nil, List.foldrM_nil]
    exact .pure start
  | cons here _ ih =>
    rw [List.foldrM_cons, List.foldrM_cons]
    exact ih.bind fun c d related => each _ _ c d here related

end Sequences

namespace Eval

theorem agree_iterate {f : α → Eval α} {g : β → Eval β} (each : ∀ a b, R a b → Agree R (f a) (g b))
    (k : Nat) {a : α} {b : β} (start : R a b) : Agree R (iterate f k a) (iterate g k b) := by
  induction k generalizing a b with
  | zero => exact .pure start
  | succ k ih => exact (each a b start).bind fun a b related => ih related

/-- What agrees without fuel agrees in an evaluation. -/
theorem agree_lift {x : Except Violation α} {y : Except Violation β} (h : Agree R x y) :
    Agree R (liftM x : Eval α) (liftM y) := fun a b first second =>
  h a b (lift_eq_pure_iff.mp first) (lift_eq_pure_iff.mp second)

end Eval

/-- Related maps that are traversed return related maps. -/
theorem Entries.Related.agree_traverse [LawfulMonad m] [LawfulReturn m] {bound : Option Label}
    {xs : Entries α bound} {xs' : Entries β bound} {f : Label → α → m γ} {g : Label → β → m δ}
    (h : xs.Related R xs')
    (each : ∀ l a b, xs.get? l = some a → xs'.get? l = some b → R a b →
      Agree S (f l a) (g l b)) :
    Agree (Entries.Related S) (xs.traverse f) (xs'.traverse g) := by
  induction h with
  | nil => exact .pure .nil
  | cons here _ ih =>
    rw [Entries.traverse, Entries.traverse]
    refine (each _ _ _ (if_pos rfl) (if_pos rfl) here).bind fun c d first => ?_
    refine (ih fun l a b has has' => ?_).bind fun ys ys' rest => .pure (.cons first rest)
    exact each l a b (Entries.get?_cons_of_rest has) (Entries.get?_cons_of_rest has')

namespace Node

/-- Similar nodes that are traversed return similar nodes. -/
theorem Similar.agree_traverse [LawfulMonad m] [LawfulReturn m] {n : Node α} {n' : Node β}
    {R : List Label → α → β → Prop} {S : List Label → γ → δ → Prop} {f : List Label → α → m γ}
    {g : List Label → β → m δ} (h : n.Similar R n')
    (each : ∀ inner a b, R inner a b → Agree (S inner) (f inner a) (g inner b)) :
    Agree (fun r r' => r.Similar S r') (n.traverse f) (n'.traverse g) := by
  intro r r' first second
  have back := (traverse_eq_pure_iff.mp first).symm
  exact (back.trans (h.trans (traverse_eq_pure_iff.mp second))).imp
    fun p _ d ⟨a, result, b, related, result'⟩ => each p.1 a b related p.2 d result result'

end Node

end Dhall
