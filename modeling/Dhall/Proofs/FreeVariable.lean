/-
# Free variables

A variable is free in an expression if it occurs and no binder of the expression binds it.
Its index counts from outside of the expression, so resolved in the empty context the
expression has the variable under its own name. Adding enough binders with its label around
the expression turns the variable into a position, and whether the position occurs is seen by
putting anything else in its place.

## Main definitions

* `Term.HasFree`, `Expr.HasFree` — a variable occurs and no binder binds it

## Main results

* `locate_append` — what a variable refers to in a larger context
* `Expr.subst_eq_self_iff` — replacing the position of a variable changes nothing if it is not free
* `Expr.mentions_eq_ok` — looking for a variable finds out whether it is free
-/

import Dhall.Proofs.Substitution

namespace Dhall

/-- A variable occurs in a term under a name, with an index that counts from outside of all
binders. -/
inductive Term.HasFree (x : Label) (i : Nat) : Term → Prop
  /-- The variable itself. -/
  | here : HasFree x i (.free x i)
  /-- A variable that occurs in an argument occurs in the construct. -/
  | argument {shape : Node Unit} {arguments : List (Nat × Term)} {a : Nat × Term}
      (member : a ∈ arguments) (inside : HasFree x i a.2) :
      HasFree x i (.construct shape arguments)

namespace Term

variable {x y : Label} {i j : Nat} {shape : Node Unit} {arguments : List (Nat × Term)}

theorem hasFree_free : (free y j).HasFree x i ↔ y = x ∧ j = i := by
  constructor
  · rintro ⟨⟩
    exact ⟨rfl, rfl⟩
  · rintro ⟨rfl, rfl⟩
    exact .here

theorem not_hasFree_bound : ¬(bound j).HasFree x i := by
  rintro ⟨⟩

theorem hasFree_construct :
    (construct shape arguments).HasFree x i ↔ ∃ a ∈ arguments, a.2.HasFree x i := by
  constructor
  · rintro ⟨⟩
    exact ⟨_, ‹_›, ‹_›⟩
  · rintro ⟨a, member, inside⟩
    exact .argument member inside

end Term

namespace Expr

variable {e e' n n' : Expr} {x : Label}

/-- A variable occurs in an expression and no binder of the expression binds it. -/
def HasFree (e : Expr) (v : Variable) : Prop :=
  (e.resolved []).HasFree v.label v.index.toNat

end Expr

/-- What a variable refers to in a context it refers to in a larger one, and a variable that is
free continues outwards with the index that is left. -/
theorem locate_append (Δ Γ : List Label) (x : Label) (n : Nat) :
    locate (Δ ++ Γ) x n = match locate Δ x n with
      | .free _ m => (locate Γ x m).rename (· + Δ.length)
      | t => t := by
  induction Δ generalizing n with
  | nil => exact (Term.rename_id _).symm
  | cons y Δ ih =>
    have outside (n : Nat) : (locate (Δ ++ Γ) x n).rename (· + 1) =
        match (locate Δ x n).rename (· + 1) with
        | .free _ m => (locate Γ x m).rename (· + (y :: Δ).length)
        | t => t := by
      rw [ih]
      rcases locate_cases Δ x n with ⟨i, atom⟩ | ⟨m, atom⟩
      · rw [atom]
        rfl
      · rw [atom, Term.rename_free]
        exact Term.rename_rename _ _ _
    rw [List.cons_append]
    by_cases same : x = y
    · subst same
      cases n with
      | zero => rw [locate_cons_zero, locate_cons_zero]
      | succ n => rw [locate_cons_succ, locate_cons_succ, outside]
    · rw [locate_cons_of_ne same, locate_cons_of_ne same, outside]

/-- A variable refers to one of several binders with its label, or it stays free. -/
theorem locate_replicate_cases (x y : Label) (m j : Nat) :
    (y = x ∧ j ≤ m ∧ locate (.replicate (m + 1) x) y j = .bound j) ∨
      ¬(y = x ∧ j ≤ m) ∧ ∃ k, locate (.replicate (m + 1) x) y j = .free y k := by
  by_cases inside : y = x ∧ j ≤ m
  · obtain ⟨rfl, below⟩ := inside
    refine Or.inl ⟨rfl, below, locate_eq_bound_iff.mpr ⟨?_, ?_⟩⟩
    · rw [List.getElem?_replicate, if_pos (Nat.lt_succ_of_le below)]
    · rw [List.take_replicate, List.count_replicate_self, Nat.min_eq_left (by omega)]
  · refine Or.inr ⟨inside, ?_⟩
    rcases locate_cases (.replicate (m + 1) x) y j with ⟨i, atom⟩ | free
    · obtain ⟨label, index⟩ := locate_eq_bound_iff.mp atom
      rw [List.getElem?_replicate] at label
      split at label
      · next below =>
        obtain rfl := Option.some.inj label
        rw [List.take_replicate, List.count_replicate_self, Nat.min_eq_left (by omega)] at index
        exact absurd ⟨rfl, by omega⟩ inside
      · cases label
    · exact free

namespace Expr

variable {e : Expr}

/-- In a context that ends with just enough binders, a term does not refer to the last one if
the variable of this binder is not free without them. A substitution that replaces only this
position shows whether it occurs. -/
theorem subst_eq_self_iff (x : Label) (m : Nat) {σ : Nat → Term} (below : ∀ i < m, σ i = .bound i)
    (replaced : σ m ≠ .bound m) (e : Expr) (Δ : List Label) :
    (e.resolved (Δ ++ .replicate (m + 1) x)).subst (Term.liftSubst Δ.length σ) =
        e.resolved (Δ ++ .replicate (m + 1) x) ↔ ¬(e.resolved Δ).HasFree x m := by
  induction e using variableInduction generalizing Δ with
  | var v =>
    rw [resolved_var, resolved_var, locate_append]
    -- A variable that a binder of the context binds is neither free nor replaced.
    rcases locate_cases Δ v.label v.index.toNat with ⟨i, atom⟩ | ⟨j, atom⟩
    · have inside : i < Δ.length := (List.getElem?_eq_some_iff.mp (locate_eq_bound_iff.mp atom).1).1
      rw [atom]
      refine iff_of_true ?_ Term.not_hasFree_bound
      rw [Term.subst_bound, Term.liftSubst_of_lt inside]
    · rw [atom, Term.hasFree_free]
      dsimp only
      rcases locate_replicate_cases x v.label m j with ⟨label, atMost, image⟩ | ⟨outside, k, image⟩
      · rw [image, Term.rename_bound, Term.subst_bound, Term.liftSubst_add, and_iff_right label,
          ← Term.rename_bound (ρ := (· + Δ.length)),
          (Term.rename_injective fun _ _ => Nat.add_right_cancel).eq_iff]
        rcases Nat.lt_or_eq_of_le atMost with less | rfl
        · exact iff_of_true (below j less) (Nat.ne_of_lt less)
        · exact iff_of_false replaced (not_not_intro rfl)
      · rw [image]
        exact iff_of_true rfl fun h => outside ⟨h.1, Nat.le_of_eq h.2⟩
  | node n notVar ih =>
    -- Under the binders of a construct the statement is the same, with these added in front.
    rw [resolved_mk notVar, resolved_mk notVar, Term.subst_construct, Term.construct.injEq,
      List.map_map, List.map_inj_left, Term.hasFree_construct, not_exists]
    simp only [true_and, not_and, List.forall_mem_map]
    refine forall₂_congr fun p member => ?_
    rw [Function.comp_apply, Prod.mk.injEq, ← List.append_assoc, ← ih p member,
      List.length_append, List.length_reverse, Term.liftSubst_liftSubst, Nat.add_comm Δ.length]
    exact and_iff_right rfl

/-- Looking for a variable finds out whether it is free. -/
theorem mentions_eq_ok {v : Variable} {found : Bool} (h : e.mentions v = .ok found) :
    found = true ↔ e.HasFree v := by
  obtain ⟨r, substituted, h⟩ := bind_eq_pure_iff.mp h
  cases h
  have image := resolved_subst (Δ := .replicate v.index.toNat v.label) (Γ := []) substituted
    List.count_replicate_self.symm
  rw [← List.replicate_succ', List.length_replicate] at image
  -- What takes the place of the variable is no variable.
  have replaced : Function.update Term.bound v.index.toNat
      ((builtin .bool).resolved (.replicate (v.index.toNat + 1) v.label)) v.index.toNat ≠
        .bound v.index.toNat := by
    rw [Function.update_self]
    nofun
  have unchanged := subst_eq_self_iff v.label v.index.toNat
    (fun i below => Function.update_of_ne (Nat.ne_of_lt below) _ _) replaced e []
  rw [List.nil_append, List.length_nil, Term.liftSubst_zero, ← image,
    (resolved_injective _).eq_iff] at unchanged
  rw [decide_eq_true_iff, ne_eq, unchanged, not_not, HasFree]

end Expr

end Dhall
