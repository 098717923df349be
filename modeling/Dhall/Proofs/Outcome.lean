/-
# What an effect may stop at and what it may return

An effect here can end in two ways: it stops at a violation, or it returns a value. A statement
about an effect says both which violations it may stop at and what holds of the value, and
such statements compose along sequences and traversals. Running out of fuel is no end, so
nothing is said about it.

## Main definitions

* `LawfulStop` — effects in which a sequence stops only where one of its parts stops
* `Ensures` — the violations an effect may stop at, and what it may return

## Main results

* `Ensures.bind` — sequences
* `ensures_traverse` — traversals
-/

import Dhall.Proofs.Traversal

namespace Dhall

/-- Effects in which a sequence that stops has stopped in one of its parts, and what has
stopped has not returned. -/
class LawfulStop (m : Type → Type) [Monad m] [MonadExceptOf Violation m] : Prop
    extends LawfulReturn m where
  /-- What has stopped has not returned. -/
  throw_ne_pure {α : Type} (v : Violation) (a : α) : (throw v : m α) ≠ pure a
  /-- What an effect has stopped at is determined. -/
  throw_injective {α : Type} : Function.Injective (throw : Violation → m α)
  /-- A sequence stops in its first part, or in the second one after the first has returned. -/
  of_bind_eq_throw {α β : Type} {x : m α} {f : α → m β} {v : Violation} :
    x >>= f = throw v → x = throw v ∨ ∃ a, x = pure a ∧ f a = throw v

instance : LawfulStop (Except Violation) where
  throw_ne_pure _ _ := nofun
  throw_injective same := Except.error.inj same
  of_bind_eq_throw {_ _ x _ _} stopped := by
    cases x with
    | error w => exact Or.inl (congrArg _ (Except.error.inj stopped))
    | ok a => exact Or.inr ⟨a, rfl, stopped⟩

instance : LawfulStop Eval where
  throw_ne_pure _ _ same := nomatch Option.some.inj same
  throw_injective same := Except.error.inj (Option.some.inj same)
  of_bind_eq_throw {_ _ x _ _} stopped := by
    match x with
    | none => cases stopped
    | some (.error w) =>
      exact Or.inl (congrArg (throw : Violation → Eval _)
        (Except.error.inj (Option.some.inj stopped)))
    | some (.ok a) => exact Or.inr ⟨a, rfl, stopped⟩

/-- An effect stops at violations of one kind only, and returns values of one kind only. -/
structure Ensures {m : Type → Type} [Monad m] [MonadExceptOf Violation m] {α : Type}
    (V : Violation → Prop) (P : α → Prop) (x : m α) : Prop where
  /-- What it stops at. -/
  stopped {v : Violation} : x = throw v → V v
  /-- What it returns. -/
  returned {a : α} : x = pure a → P a

section Rules

variable {m : Type → Type} [Monad m] [MonadExceptOf Violation m] [LawfulStop m]
  {α β : Type} {V W : Violation → Prop} {P R : α → Prop} {Q : β → Prop} {x : m α} {a : α}

theorem ensures_pure (h : P a) : Ensures V P (pure a : m α) where
  stopped same := absurd same.symm (LawfulStop.throw_ne_pure _ _)
  returned same := LawfulReturn.pure_injective same ▸ h

theorem ensures_throw {v : Violation} (h : V v) : Ensures V P (throw v : m α) where
  stopped same := LawfulStop.throw_injective same ▸ h
  returned same := absurd same (LawfulStop.throw_ne_pure _ _)

omit [LawfulStop m] in
/-- What an effect ensures may be weakened for the values that it returns. -/
theorem Ensures.imp (h : Ensures V P x) (stops : ∀ v, V v → W v)
    (returns : ∀ a, x = pure a → P a → R a) : Ensures W R x where
  stopped same := stops _ (h.stopped same)
  returned same := returns _ same (h.returned same)

omit [LawfulStop m] in
/-- The violations that an effect may stop at do not depend on what is said of its values. -/
theorem Ensures.of_returned (h : Ensures V (fun _ => True) x) : Ensures V (x = pure ·) x :=
  h.imp (fun _ => id) fun _ same _ => same

omit [LawfulStop m] in
theorem Ensures.trivial (h : Ensures V P x) : Ensures V (fun _ => True) x :=
  h.imp (fun _ => id) fun _ _ _ => .intro

variable [LawfulMonad m]

/-- A sequence ensures what its second part ensures of every value of the first. -/
theorem Ensures.bind {f : α → m β} (h : Ensures V P x) (rest : ∀ a, P a → Ensures V Q (f a)) :
    Ensures V Q (x >>= f) where
  stopped same := by
    rcases LawfulStop.of_bind_eq_throw same with first | ⟨a, first, second⟩
    · exact h.stopped first
    · exact (rest a (h.returned first)).stopped second
  returned same := by
    obtain ⟨a, first, second⟩ := bind_eq_pure_iff.mp same
    exact (rest a (h.returned first)).returned second

theorem Ensures.map {f : α → β} (h : Ensures V P x) (image : ∀ a, P a → Q (f a)) :
    Ensures V Q (f <$> x) := by
  rw [map_eq_pure_bind]
  exact h.bind fun a here => ensures_pure (image a here)

/-- A sequence of effects returns a list of values, each of the kind of its effect. -/
theorem ensures_mapM {f : α → m β} {R : α → β → Prop} {l : List α}
    (h : ∀ a ∈ l, Ensures V (R a) (f a)) : Ensures V (List.Forall₂ R l) (l.mapM f) := by
  induction l with
  | nil =>
    rw [List.mapM_nil]
    exact ensures_pure .nil
  | cons a l ih =>
    obtain ⟨here, below⟩ := List.forall_mem_cons.mp h
    rw [List.mapM_cons]
    refine here.bind fun b first => (ih below).bind fun bs rest => ?_
    exact ensures_pure (.cons first rest)

theorem ensures_mapM_option {f : α → m β} {o : Option α} (h : ∀ a ∈ o, Ensures V Q (f a)) :
    Ensures V (fun o' => ∀ b ∈ o', Q b) (o.mapM f) := by
  cases o with
  | none => exact ensures_pure nofun
  | some a =>
    rw [Option.mapM_some]
    refine (h a rfl).map fun b image => ?_
    rintro _ ⟨⟩
    exact image

theorem ensures_foldrM {f : α → β → m β} {l : List α} {b : β} (start : Q b)
    (h : ∀ a ∈ l, ∀ b, Q b → Ensures V Q (f a b)) : Ensures V Q (l.foldrM f b) := by
  induction l with
  | nil => exact ensures_pure start
  | cons a l ih =>
    obtain ⟨here, below⟩ := List.forall_mem_cons.mp h
    rw [List.foldrM_cons]
    exact (ih below).bind here

/-- The values of a map that a traversal returns are of the kind that its effect returns. -/
theorem ensures_traverse_entries {bound : Option Label} {f : Label → α → m β}
    {xs : Entries α bound} (h : ∀ l a, xs.get? l = some a → Ensures V Q (f l a)) :
    Ensures V (fun ys => ∀ b ∈ ys.values, Q b) (xs.traverse f) := by
  induction xs with
  | nil => exact ensures_pure nofun
  | cons k above a rest ih =>
    have here : Ensures V Q (f k a) := h k a (if_pos rfl)
    have below : ∀ l a, rest.get? l = some a → Ensures V Q (f l a) := fun l a has =>
      h l a (Entries.get?_cons_of_rest has)
    rw [Entries.traverse]
    refine here.bind fun b first => (ih below).bind fun ys values => ?_
    exact ensures_pure (List.forall_mem_cons.mpr ⟨first, values⟩)

/-- A traversal returns a node that is similar to the old one along what its effects return. -/
theorem ensures_traverse {f : List Label → α → m β} {R : List Label → α → β → Prop} {n : Node α}
    (h : ∀ p ∈ n.scopedChildren, Ensures V (R p.1 p.2) (f p.1 p.2)) :
    Ensures V (n.Similar R) (n.traverse f) where
  stopped same := by
    obtain ⟨rebuild, sequence⟩ := Node.traverse_eq_map (m := m) (β := β) n
    have all := (ensures_mapM h).map (f := rebuild) (Q := fun _ => True) fun _ _ => .intro
    exact all.stopped ((sequence f).symm.trans same)
  returned same := by
    refine (Node.traverse_eq_pure_iff.mp same).imp fun p member c' image => ?_
    exact (h p member).returned image

end Rules

namespace Eval

variable {α : Type} {V : Violation → Prop} {P : α → Prop}

/-- What has no fuel to run out of ensures in an evaluation what it ensures alone. -/
theorem ensures_lift {x : Except Violation α} (h : Ensures V P x) :
    Ensures V P (liftM x : Eval α) where
  stopped same := h.stopped (Option.some.inj same)
  returned same := h.returned (lift_eq_pure_iff.mp same)

theorem ensures_outOfFuel : Ensures V P (outOfFuel : Eval α) where
  stopped same := nomatch same
  returned same := nomatch same

/-- What an evaluation ensures of its results whenever it starts from such a result, it ensures
of the results of repeating it. -/
theorem ensures_iterate {f : α → Eval α} {k : Nat} {a : α} (start : P a)
    (h : ∀ a, P a → Ensures V P (f a)) : Ensures V P (iterate f k a) := by
  induction k generalizing a with
  | zero => exact ensures_pure start
  | succ k ih => exact (h a start).bind fun b image => ih image

end Eval

end Dhall
