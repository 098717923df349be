/-
# Substitution of names and substitution of positions

Shifts and substitutions work on names: the cutoff of a shift rises under some binders and
not under others, and the value of a substitution is shifted under each binder on its way.
Resolved to positions these are the plain operations. A shift up makes room for binders at
one place of the context, a shift down closes such a place if nothing refers to it, and a
substitution replaces one position.

The statements are about a context `Δ ++ Γ`, where `Δ` lists the binders passed so far.
They are proved for every such `Δ` at once, and the index of the cutoff or variable is the
number of binders of its label in `Δ`: this is what stays true on the way down.

## Main results

* `Expr.resolved_shift` — a shift up makes room in the context
* `Expr.resolved_shift_back` — a shift down closes a place that nothing refers to
* `Expr.resolved_subst` — a substitution replaces a position
* `Expr.nameless_instantiate` — removing a binder is de Bruijn instantiation
-/

import Dhall.Proofs.Resolution
import Dhall.Substitution

namespace Dhall.Expr

variable {e e' value result : Expr} {cutoff x : Variable} {Δ Γ context : List Label}

/-- What a shift does at a node that is no variable. -/
theorem shift_mk_eq_ok {n : Node Expr} (notVar : ∀ v, n ≠ .var v) {delta : Int64}
    (h : (mk n).shift delta cutoff = .ok e') :
    ∃ n', e' = mk n' ∧ n.Similar (fun inner c c' => ∃ cutoff',
      cutoff.underAll inner = .ok cutoff' ∧ c.shift delta cutoff' = .ok c') n' := by
  rw [shift_mk notVar] at h
  obtain ⟨n', traversed, rfl⟩ := map_eq_pure_iff.mp h
  refine ⟨n', rfl, (Node.traverse_eq_pure_iff.mp traversed).imp fun p _ c' shifted => ?_⟩
  exact bind_eq_pure_iff.mp shifted

/-- The cutoff that a shift reaches under binders still counts the binders passed. -/
theorem index_underAll {inner : List Label} {cutoff' : Variable}
    (h : cutoff.underAll inner = .ok cutoff')
    (index : cutoff.index.toNat = Δ.count cutoff.label) :
    cutoff'.label = cutoff.label ∧
      cutoff'.index.toNat = (inner.reverse ++ Δ).count cutoff'.label := by
  have under := Variable.underAll_eq_ok h
  rw [List.count_append, List.count_reverse, under.1, under.2, index]
  exact ⟨rfl, Nat.add_comm _ _⟩

/-- A shift up by `d` makes room for `d` binders with the label of the cutoff. -/
theorem resolved_shift {delta : Int64} {d : Nat} (upwards : delta.toInt = d)
    (h : e.shift delta cutoff = .ok e') (index : cutoff.index.toNat = Δ.count cutoff.label) :
    e'.resolved (Δ ++ (List.replicate d cutoff.label ++ Γ)) =
      (e.resolved (Δ ++ Γ)).rename (Term.lift Δ.length (· + d)) := by
  induction e using variableInduction generalizing e' cutoff Δ with
  | var v =>
    rw [shift_var] at h
    obtain ⟨v', shifted, rfl⟩ := map_eq_pure_iff.mp h
    have moved := Variable.shift_eq_ok_iff.mp shifted
    have still := locate_insert Δ Γ cutoff.label v.label v.index.toNat d
    -- The cutoff counts its label in `Δ`, so what is moved is what skips all of `Δ`.
    rw [resolved_var, resolved_var, ← still]
    split at moved
    · next above =>
      rw [Variable.movedAt_iff, index] at above
      rw [upwards] at moved
      rw [if_pos above, moved.2.1, show v'.index.toNat = v.index.toNat + d by omega]
    · next below =>
      rw [Variable.movedAt_iff, index] at below
      rw [if_neg below, moved]
  | node n notVar ih =>
    obtain ⟨n', rfl, similar⟩ := shift_mk_eq_ok notVar h
    rw [resolved_mk notVar, Term.rename_construct, List.map_map]
    refine (resolved_eq_construct_iff notVar).mpr (similar.imp fun p member c' => ?_)
    rintro ⟨cutoff', under, shifted⟩
    obtain ⟨label, index'⟩ := index_underAll under index
    have image := ih p member shifted index'
    rw [label, List.append_assoc, List.append_assoc, List.length_append, List.length_reverse,
      Nat.add_comm, ← Term.lift_lift] at image
    exact image

/-- Seen from under a binder, every position has moved out by one. -/
theorem resolved_under {y : Label} (h : e.under y = .ok e') :
    e'.resolved (y :: context) = (e.resolved context).rename (· + 1) := by
  have image := resolved_shift (Δ := []) (Γ := context) (d := 1) rfl h rfl
  rwa [List.length_nil, Term.lift_zero] at image

/-- A shift down by one closes the place of a binder that nothing refers to. -/
theorem resolved_shift_back (h : e.shift (-1) cutoff = .ok e')
    (index : cutoff.index.toNat = Δ.count cutoff.label)
    (misses : (e.resolved (Δ ++ cutoff.label :: Γ)).Misses Δ.length) :
    e.resolved (Δ ++ cutoff.label :: Γ) =
      (e'.resolved (Δ ++ Γ)).rename (Term.lift Δ.length (· + 1)) := by
  induction e using variableInduction generalizing e' cutoff Δ with
  | var v =>
    rw [shift_var] at h
    obtain ⟨v', shifted, rfl⟩ := map_eq_pure_iff.mp h
    have moved := Variable.shift_eq_ok_iff.mp shifted
    have still := locate_insert Δ Γ cutoff.label v'.label v'.index.toNat 1
    rw [resolved_var, resolved_var, ← still]
    -- An occurrence right at the cutoff would refer to the place that is closed.
    have elsewhere : ¬(v.label = cutoff.label ∧ v.index.toNat = Δ.count cutoff.label) := by
      intro here
      rw [resolved_var, locate_middle.mpr here] at misses
      exact Term.not_misses_bound _ misses
    have down : (-1 : Int64).toInt = -1 := rfl
    split at moved
    · next above =>
      rw [Variable.movedAt_iff, index] at above
      -- The occurrence is beyond the place that is closed, so its index stays above the cutoff.
      have beyond : v'.label = cutoff.label ∧ Δ.count cutoff.label ≤ v'.index.toNat := by
        refine ⟨moved.2.1.trans above.1, ?_⟩
        have notHere : v.index.toNat ≠ Δ.count cutoff.label :=
          fun same => elsewhere ⟨above.1, same⟩
        omega
      rw [if_pos beyond, moved.2.1, show v'.index.toNat + 1 = v.index.toNat by omega]
      rfl
    · next below =>
      rw [Variable.movedAt_iff, index] at below
      rw [moved, if_neg below]
      rfl
  | node n notVar ih =>
    obtain ⟨n', rfl, similar⟩ := shift_mk_eq_ok notVar h
    have notVar' := Node.ne_var_of_shape similar.shape_eq notVar
    rw [resolved_mk notVar] at misses
    rw [resolved_mk notVar', Term.rename_construct, List.map_map]
    refine (resolved_eq_construct_iff notVar').mpr ?_
    refine (similar.imp fun p member c' => ?_).symm
    rintro ⟨cutoff', under, shifted⟩
    obtain ⟨label, index'⟩ := index_underAll under index
    have missed := misses.argument (List.mem_map_of_mem member)
    have image := ih p member shifted index' (by
      rw [label, List.append_assoc, List.length_append, List.length_reverse, Nat.add_comm]
      exact missed)
    rw [label, List.append_assoc, List.append_assoc, List.length_append, List.length_reverse,
      Nat.add_comm, ← Term.lift_lift] at image
    exact image

/-- Seen from under several binders, a variable counts them and a value moves out by as many
positions as there are binders. -/
theorem underAll_eq_ok {inner : List Label} {x' : Variable} {value' : Expr}
    (h : underAll x value inner = .ok (x', value')) (context : List Label) :
    x.underAll inner = .ok x' ∧
      value'.resolved (inner.reverse ++ context) =
        (value.resolved context).rename (· + inner.length) := by
  induction inner generalizing x value context with
  | nil =>
    cases h
    exact ⟨rfl, (Term.rename_id _).symm⟩
  | cons b inner ih =>
    obtain ⟨⟨x₁, value₁⟩, first, rest⟩ := bind_eq_pure_iff.mp h
    obtain ⟨x₂, moved, first⟩ := bind_eq_pure_iff.mp first
    obtain ⟨value₂, shifted, first⟩ := bind_eq_pure_iff.mp first
    cases first
    obtain ⟨underRest, image⟩ := ih rest (b :: context)
    refine ⟨bind_eq_pure_iff.mpr ⟨x₁, moved, underRest⟩, ?_⟩
    rw [List.reverse_cons, List.append_assoc, List.singleton_append, image,
      resolved_under shifted, Term.rename_rename]
    exact congrArg (Term.rename · _) (funext fun i => by
      rw [List.length_cons, Function.comp_apply, Nat.add_right_comm, Nat.add_assoc])

/-- A substitution replaces the position of the binder that the variable refers to. -/
theorem resolved_subst (h : e.subst x value = .ok e')
    (index : x.index.toNat = Δ.count x.label) :
    e'.resolved (Δ ++ x.label :: Γ) = (e.resolved (Δ ++ x.label :: Γ)).subst
      (Function.update Term.bound Δ.length (value.resolved (Δ ++ x.label :: Γ))) := by
  induction e using variableInduction generalizing e' x value Δ with
  | var v =>
    rw [subst_var] at h
    cases h
    -- A variable is the one that is replaced exactly if it refers to the binder after `Δ`.
    have here : v = x ↔ locate (Δ ++ x.label :: Γ) v.label v.index.toNat = .bound Δ.length := by
      rw [locate_middle, ← index, UInt64.toNat_inj]
      obtain ⟨y, i⟩ := v
      obtain ⟨z, j⟩ := x
      exact Variable.mk.injEq y i z j ▸ Iff.rfl
    rw [resolved_var]
    split
    · next same =>
      rw [here.mp same, Term.subst_bound, Function.update_self]
    · next different =>
      rcases locate_cases (Δ ++ x.label :: Γ) v.label v.index.toNat with ⟨i, atom⟩ | ⟨m, atom⟩
      · have elsewhere : i ≠ Δ.length := by
          rintro rfl
          exact different (here.mpr atom)
        rw [resolved_var, atom, Term.subst_bound, Function.update_of_ne elsewhere]
      · rw [resolved_var, atom, Term.subst_free]
  | node n notVar ih =>
    rw [subst_mk notVar] at h
    obtain ⟨n', traversed, rfl⟩ := map_eq_pure_iff.mp h
    have similar := Node.traverse_eq_pure_iff.mp traversed
    rw [resolved_mk notVar, Term.subst_construct, List.map_map]
    refine (resolved_eq_construct_iff notVar).mpr (similar.imp fun p member c' replaced => ?_)
    obtain ⟨⟨x', value'⟩, under, replaced⟩ := bind_eq_pure_iff.mp replaced
    obtain ⟨underAll, moved⟩ := underAll_eq_ok under (Δ ++ x.label :: Γ)
    obtain ⟨label, index'⟩ := index_underAll underAll index
    have image := ih p member replaced index'
    rw [label, List.append_assoc, List.length_append, List.length_reverse, Nat.add_comm, moved,
      ← Term.liftSubst_update] at image
    exact image

/-- Putting a value in the place of the variable of a binder leaves room for the binder, to
which nothing refers any more. -/
theorem resolved_subst_shifted {value' replaced : Expr} (shifted : value.shift 1 x = .ok value')
    (substituted : e.subst x value' = .ok replaced) (index : x.index.toNat = Δ.count x.label) :
    replaced.resolved (Δ ++ x.label :: Γ) = ((e.resolved (Δ ++ x.label :: Γ)).subst
      (Term.instantiation Δ.length (value.resolved (Δ ++ Γ)))).rename
        (Term.lift Δ.length (· + 1)) := by
  have up : value'.resolved (Δ ++ x.label :: Γ) =
      (value.resolved (Δ ++ Γ)).rename (Term.lift Δ.length (· + 1)) :=
    resolved_shift (d := 1) rfl shifted index
  have image := resolved_subst (Γ := Γ) substituted index
  rwa [up, Term.subst_update_misses] at image

/-- Putting a value in the place of a variable and removing its binder is instantiation of
the position of the binder, labels of binders included. -/
theorem resolved_instantiate (h : e.instantiate x value = .ok result)
    (index : x.index.toNat = Δ.count x.label) :
    result.resolved (Δ ++ Γ) = (e.resolved (Δ ++ x.label :: Γ)).subst
      (Term.instantiation Δ.length (value.resolved (Δ ++ Γ))) := by
  obtain ⟨value', shifted, h⟩ := bind_eq_pure_iff.mp h
  obtain ⟨replaced, substituted, removed⟩ := bind_eq_pure_iff.mp h
  -- The value makes room for the binder, takes its place, and then nothing refers to the binder.
  have image := resolved_subst_shifted (Γ := Γ) shifted substituted index
  have down := resolved_shift_back removed index ⟨_, image⟩
  exact Term.rename_injective (Term.lift_injective _ fun _ _ => Nat.add_right_cancel)
    (down.symm.trans image)

/-- Replacing the variable of a binder by a value and removing the binder is de Bruijn
instantiation of the innermost variable, whatever names the body, the value and the context
share. -/
theorem nameless_instantiate {body value result : Expr} {x : Label}
    (h : body.instantiate (.nearest x) value = .ok result) (context : List Label) :
    result.nameless context =
      (body.nameless (x :: context)).instantiate (value.nameless context) := by
  have image := resolved_instantiate (Δ := []) (Γ := context) h rfl
  rw [nameless, nameless, nameless, ← Term.erased_instantiate]
  exact congrArg Term.erased image

/-- A free variable of the value keeps its meaning under a binder of the same label. -/
theorem nameless_instantiate_shadowed :
    let body := lam "y" (builtin .natural) (app (var ⟨"x", 0⟩) (var ⟨"x", 1⟩))
    let value := var ⟨"y", 0⟩
    let result := lam "y" (builtin .natural) (app (var ⟨"y", 1⟩) (var ⟨"x", 0⟩))
    body.instantiate (.nearest "x") value = .ok result ∧
      result.nameless ["y", "x"] = (body.nameless ["x", "y", "x"]).instantiate
        (value.nameless ["y", "x"]) :=
  ⟨rfl, nameless_instantiate rfl ["y", "x"]⟩

end Dhall.Expr
