/-
# Terms with positions for variables

In a term a variable is no name but a position: the number of binders that stand between
the occurrence and the binder it refers to, whatever their labels are. A construct is kept
as its shape, together with its arguments in order and with the number of binders that the
construct opens around each of them. Variables that no binder binds keep their name.

Renaming and substitution are simultaneous: a function says what becomes of each position,
and under binders the positions of these binders are left alone. Labels of binders are no
more than comments here, and a term without them is an ordinary de Bruijn term.

## Main definitions

* `Term` — terms with positions for variables
* `Term.rename`, `Term.subst` — replace positions by positions, or by terms
* `Term.instantiate` — put a term in the place of the innermost variable
* `Term.erased` — the term without labels of binders

## Main results

* `Term.rename_rename`, `Term.subst_rename`, `Term.rename_subst` — compositions
* `Term.rename_injective` — renaming by an injective function loses nothing
* `Term.subst_subst`, `Term.subst_instantiate` — compositions of substitutions
* `Term.subst_update_misses` — making room, replacing and closing the gap instantiate
* `Term.erased_rename`, `Term.erased_subst` — labels of binders play no part
-/

import Dhall.Node.Lemmas
import Mathlib.Logic.Function.Basic

namespace Dhall

namespace Node

variable {α β : Type}

/-- The labels of the binders that a construct opens, the innermost last. -/
def binders : Node α → List Label
  | lam x _ _ | pi x _ _ => [x]
  | letIn bindings _ => bindings.map Binding.label
  | _ => []

/-- The same construct with all its binders labelled `_`. -/
def unlabelled : Node α → Node α
  | lam _ domain body => lam .placeholder domain body
  | pi _ domain codomain => pi .placeholder domain codomain
  | letIn bindings body =>
    letIn (bindings.map fun b => { b with label := .placeholder }) body
  | n => n

/-- Binders that are labelled `_` already stay as they are. -/
theorem unlabelled_eq_self {n : Node α} (h : ∀ x ∈ n.binders, x = .placeholder) :
    n.unlabelled = n := by
  cases n with
  | lam x domain body | pi x domain body =>
    rw [unlabelled, h x (List.mem_singleton_self x)]
  | letIn bindings body =>
    rw [unlabelled, List.map_congr_left (g := id), List.map_id]
    intro b member
    rw [id, ← h b.label (List.mem_map_of_mem member)]
  | _ => rfl

end Node

/-- A term whose bound variables are positions. -/
inductive Term
  /-- The variable that is bound `i` binders outside of the innermost binder. -/
  | bound (i : Nat)
  /-- A variable that no binder binds. -/
  | free (x : Label) (i : Nat)
  /-- A construct with its arguments, each with the number of binders around it. -/
  | construct (shape : Node Unit) (arguments : List (Nat × Term))

namespace Term

/-- A renaming under `k` more binders. -/
def lift (k : Nat) (ρ : Nat → Nat) (i : Nat) : Nat :=
  if i < k then i else ρ (i - k) + k

mutual

/-- Replace every position by a position. -/
def rename (ρ : Nat → Nat) : Term → Term
  | bound i => bound (ρ i)
  | free x i => free x i
  | construct shape arguments => construct shape (renameAll ρ arguments)

/-- Replace every position in arguments under binders. -/
def renameAll (ρ : Nat → Nat) : List (Nat × Term) → List (Nat × Term)
  | [] => []
  | (k, t) :: rest => (k, rename (lift k ρ) t) :: renameAll ρ rest

end

/-- A substitution under `k` more binders. -/
def liftSubst (k : Nat) (σ : Nat → Term) (i : Nat) : Term :=
  if i < k then bound i else (σ (i - k)).rename (· + k)

mutual

/-- Replace every position by a term. -/
def subst (σ : Nat → Term) : Term → Term
  | bound i => σ i
  | free x i => free x i
  | construct shape arguments => construct shape (substAll σ arguments)

/-- Replace every position in arguments under binders. -/
def substAll (σ : Nat → Term) : List (Nat × Term) → List (Nat × Term)
  | [] => []
  | (k, t) :: rest => (k, subst (liftSubst k σ) t) :: substAll σ rest

end

/-- What positions become when a term takes the place of the binder at position `k`: this
position becomes the term, and those outside of it move in. -/
def instantiation (k : Nat) (u : Term) (i : Nat) : Term :=
  if i < k then bound i else if i = k then u else bound (i - 1)

/-- Put a term in the place of the innermost variable and remove its binder. -/
def instantiate (t u : Term) : Term :=
  t.subst (instantiation 0 u)

mutual

/-- The term with every binder labelled `_`. -/
def erased : Term → Term
  | bound i => bound i
  | free x i => free x i
  | construct shape arguments => construct shape.unlabelled (erasedAll arguments)

/-- Arguments with every binder labelled `_`. -/
def erasedAll : List (Nat × Term) → List (Nat × Term)
  | [] => []
  | (k, t) :: rest => (k, erased t) :: erasedAll rest

end

mutual

/-- The number of variables and constructs. -/
def size : Term → Nat
  | bound _ | free _ _ => 1
  | construct _ arguments => sizeAll arguments

/-- The number of variables and constructs of a construct with these arguments. -/
def sizeAll : List (Nat × Term) → Nat
  | [] => 1
  | (_, t) :: rest => size t + sizeAll rest

end

/-! ### Recursion and induction

The functions on arguments are maps, so nobody needs to know them. -/

variable {ρ τ : Nat → Nat} {σ : Nat → Term} {t : Term} {arguments : List (Nat × Term)}
  {shape : Node Unit}

@[simp] theorem rename_construct :
    (construct shape arguments).rename ρ =
      construct shape (arguments.map fun a => (a.1, a.2.rename (lift a.1 ρ))) := by
  have all : renameAll ρ arguments = arguments.map fun a => (a.1, a.2.rename (lift a.1 ρ)) := by
    induction arguments with
    | nil => rfl
    | cons a rest ih => rw [renameAll, ih, List.map_cons]
  rw [rename, all]

@[simp] theorem subst_construct :
    (construct shape arguments).subst σ =
      construct shape (arguments.map fun a => (a.1, a.2.subst (liftSubst a.1 σ))) := by
  have all : substAll σ arguments = arguments.map fun a => (a.1, a.2.subst (liftSubst a.1 σ)) := by
    induction arguments with
    | nil => rfl
    | cons a rest ih => rw [substAll, ih, List.map_cons]
  rw [subst, all]

@[simp] theorem erased_construct :
    (construct shape arguments).erased =
      construct shape.unlabelled (arguments.map fun a => (a.1, a.2.erased)) := by
  have all : erasedAll arguments = arguments.map fun a => (a.1, a.2.erased) := by
    induction arguments with
    | nil => rfl
    | cons a rest ih => rw [erasedAll, ih, List.map_cons]
  rw [erased, all]

@[simp] theorem size_construct :
    (construct shape arguments).size =
      (arguments.map fun a => a.2.size).foldr (· + ·) 1 := by
  have all : sizeAll arguments = (arguments.map fun a => a.2.size).foldr (· + ·) 1 := by
    induction arguments with
    | nil => rfl
    | cons a rest ih => rw [sizeAll, ih, List.map_cons, List.foldr_cons]
  rw [size, all]

@[simp] theorem rename_bound (i : Nat) : (bound i).rename ρ = bound (ρ i) := rfl

@[simp] theorem rename_free (x : Label) (i : Nat) : (free x i).rename ρ = free x i := rfl

@[simp] theorem subst_bound (i : Nat) : (bound i).subst σ = σ i := rfl

@[simp] theorem subst_free (x : Label) (i : Nat) : (free x i).subst σ = free x i := rfl

@[simp] theorem erased_bound (i : Nat) : (bound i).erased = bound i := rfl

@[simp] theorem erased_free (x : Label) (i : Nat) : (free x i).erased = free x i := rfl

/-- Induction that assumes the statement for all arguments of a construct. -/
@[elab_as_elim, induction_eliminator]
theorem induction {motive : Term → Prop} (bound : ∀ i, motive (bound i))
    (free : ∀ x i, motive (free x i))
    (construct : ∀ shape arguments, (∀ a ∈ arguments, motive a.2) →
      motive (construct shape arguments)) (t : Term) : motive t :=
  Term.rec bound free construct nofun
    (fun _ _ here below => List.forall_mem_cons.mpr ⟨here, below⟩) (fun _ _ here => here) t

/-! ### Renaming -/

theorem lift_of_lt {k i : Nat} (h : i < k) : lift k ρ i = i :=
  if_pos h

@[simp] theorem lift_add (k i : Nat) : lift k ρ (i + k) = ρ i + k := by
  rw [lift, if_neg (Nat.not_lt.mpr (Nat.le_add_left k i)), Nat.add_sub_cancel]

/-- A function on positions is known under binders if it is known at the positions of the
binders and at those outside of them. -/
theorem eq_of_lift_cases {β : Type} {f g : Nat → β} (k : Nat) (inner : ∀ i < k, f i = g i)
    (outer : ∀ i, f (i + k) = g (i + k)) : f = g := by
  funext i
  rcases Nat.lt_or_ge i k with below | above
  · exact inner i below
  · obtain ⟨j, rfl⟩ := Nat.exists_eq_add_of_le' above
    exact outer j

@[simp] theorem lift_zero (ρ : Nat → Nat) : lift 0 ρ = ρ :=
  funext fun i => lift_add 0 i

theorem lift_id (k : Nat) : lift k id = id :=
  eq_of_lift_cases k (fun _ below => lift_of_lt below) fun i => lift_add k i

theorem lift_comp (k : Nat) (ρ τ : Nat → Nat) : lift k ρ ∘ lift k τ = lift k (ρ ∘ τ) :=
  eq_of_lift_cases k (fun i below => by simp [lift_of_lt below]) fun i => by simp

/-- Two groups of binders are one group. -/
theorem lift_lift (k l : Nat) (ρ : Nat → Nat) : lift k (lift l ρ) = lift (l + k) ρ := by
  refine eq_of_lift_cases k (fun i below => ?_) fun i => ?_
  · rw [lift_of_lt below, lift_of_lt (Nat.lt_add_left l below)]
  · rw [lift_add]
    rcases Nat.lt_or_ge i l with below | above
    · rw [lift_of_lt below, lift_of_lt (Nat.add_lt_add_right below k)]
    · obtain ⟨j, rfl⟩ := Nat.exists_eq_add_of_le' above
      rw [lift_add, Nat.add_assoc, Nat.add_assoc, lift_add]

theorem lift_injective (k : Nat) (h : Function.Injective ρ) : Function.Injective (lift k ρ) := by
  obtain ⟨back, inverse⟩ := h.hasLeftInverse
  refine Function.LeftInverse.injective (g := lift k back) fun i => ?_
  rw [← Function.comp_apply (f := lift k back), lift_comp, inverse.comp_eq_id, lift_id, id]

theorem rename_id (t : Term) : t.rename id = t := by
  induction t with
  | bound i => rfl
  | free x i => rfl
  | construct shape arguments ih =>
    rw [rename_construct]
    refine congrArg _ ((List.map_congr_left fun a member => ?_).trans (List.map_id arguments))
    rw [lift_id, ih a member, id]

/-- Renaming twice is renaming by the composition. -/
theorem rename_rename (ρ τ : Nat → Nat) (t : Term) :
    (t.rename τ).rename ρ = t.rename (ρ ∘ τ) := by
  induction t generalizing ρ τ with
  | bound i => rfl
  | free x i => rfl
  | construct shape arguments ih =>
    simp only [rename_construct, List.map_map]
    refine congrArg _ (List.map_congr_left fun a member => ?_)
    simp only [Function.comp_apply]
    rw [ih a member, lift_comp]

/-- A renaming that loses no position loses nothing. -/
theorem rename_injective (h : Function.Injective ρ) : Function.Injective (rename ρ) := by
  obtain ⟨back, inverse⟩ := h.hasLeftInverse
  refine Function.LeftInverse.injective (g := rename back) fun t => ?_
  rw [rename_rename, inverse.comp_eq_id, rename_id]

/-! ### Substitution -/

theorem liftSubst_of_lt {k i : Nat} (h : i < k) : liftSubst k σ i = bound i :=
  if_pos h

@[simp] theorem liftSubst_add (k i : Nat) : liftSubst k σ (i + k) = (σ i).rename (· + k) := by
  rw [liftSubst, if_neg (Nat.not_lt.mpr (Nat.le_add_left k i)), Nat.add_sub_cancel]

/-- A substitution after a renaming is one substitution. -/
theorem subst_rename (σ : Nat → Term) (ρ : Nat → Nat) (t : Term) :
    (t.rename ρ).subst σ = t.subst (σ ∘ ρ) := by
  have lifted (k : Nat) (σ : Nat → Term) (ρ : Nat → Nat) :
      liftSubst k σ ∘ lift k ρ = liftSubst k (σ ∘ ρ) :=
    eq_of_lift_cases k (fun i below => by simp [lift_of_lt below, liftSubst_of_lt below])
      fun i => by simp
  -- Both functions go under the binders of an argument, so the statement is about all of them.
  induction t generalizing σ ρ with
  | bound i => rfl
  | free x i => rfl
  | construct shape arguments ih =>
    simp only [rename_construct, subst_construct, List.map_map]
    refine congrArg _ (List.map_congr_left fun a member => ?_)
    simp only [Function.comp_apply]
    rw [ih a member, lifted]

/-- A renaming after a substitution renames what is put in. -/
theorem rename_subst (ρ : Nat → Nat) (σ : Nat → Term) (t : Term) :
    (t.subst σ).rename ρ = t.subst fun i => (σ i).rename ρ := by
  have lifted (k : Nat) (ρ : Nat → Nat) (σ : Nat → Term) :
      (fun i => (liftSubst k σ i).rename (lift k ρ)) = liftSubst k fun i => (σ i).rename ρ := by
    refine eq_of_lift_cases k (fun i below => ?_) fun i => ?_
    · simp [lift_of_lt below, liftSubst_of_lt below]
    -- What is put in is moved out by `k` before it is renamed on the left, after it on the right.
    · simp only [liftSubst_add, rename_rename]
      exact congrArg ((σ i).rename ·) (funext fun j => lift_add k j)
  induction t generalizing ρ σ with
  | bound i => rfl
  | free x i => rfl
  | construct shape arguments ih =>
    simp only [rename_construct, subst_construct, List.map_map]
    refine congrArg _ (List.map_congr_left fun a member => ?_)
    simp only [Function.comp_apply]
    rw [ih a member, lifted]

theorem liftSubst_bound (k : Nat) (ρ : Nat → Nat) : liftSubst k (bound ∘ ρ) = bound ∘ lift k ρ :=
  eq_of_lift_cases k (fun i below => by simp [lift_of_lt below, liftSubst_of_lt below])
    fun i => by simp

/-- A renaming is a substitution of positions. -/
theorem rename_eq_subst (ρ : Nat → Nat) (t : Term) : t.rename ρ = t.subst (bound ∘ ρ) := by
  induction t generalizing ρ with
  | bound i => rfl
  | free x i => rfl
  | construct shape arguments ih =>
    simp only [rename_construct, subst_construct]
    refine congrArg _ (List.map_congr_left fun a member => ?_)
    rw [ih a member, liftSubst_bound]

@[simp] theorem liftSubst_zero (σ : Nat → Term) : liftSubst 0 σ = σ :=
  funext fun i => (liftSubst_add 0 i).trans (rename_id (σ i))

/-- Two groups of binders are one group. -/
theorem liftSubst_liftSubst (k l : Nat) (σ : Nat → Term) :
    liftSubst k (liftSubst l σ) = liftSubst (l + k) σ := by
  refine eq_of_lift_cases k (fun i below => ?_) fun i => ?_
  · rw [liftSubst_of_lt below, liftSubst_of_lt (Nat.lt_add_left l below)]
  · rw [liftSubst_add]
    rcases Nat.lt_or_ge i l with below | above
    · rw [liftSubst_of_lt below, liftSubst_of_lt (Nat.add_lt_add_right below k), rename_bound]
    · obtain ⟨j, rfl⟩ := Nat.exists_eq_add_of_le' above
      rw [liftSubst_add, Nat.add_assoc, liftSubst_add, rename_rename]
      exact congrArg ((σ j).rename ·) (funext fun i => Nat.add_assoc i l k)

/-- Replacing one position is the same under more binders, where the position is moved
and so is the term. -/
theorem liftSubst_update (k m : Nat) (u : Term) :
    liftSubst k (Function.update bound m u) =
      Function.update bound (m + k) (u.rename (· + k)) := by
  refine eq_of_lift_cases k (fun i below => ?_) fun i => ?_
  · rw [liftSubst_of_lt below, Function.update_of_ne (by omega)]
  · rw [liftSubst_add]
    by_cases here : i = m
    · subst here
      rw [Function.update_self, Function.update_self]
    · rw [Function.update_of_ne here, Function.update_of_ne (by omega), rename_bound]

/-- Substituting twice is substituting what has been substituted in. -/
theorem subst_subst (σ τ : Nat → Term) (t : Term) :
    (t.subst τ).subst σ = t.subst fun i => (τ i).subst σ := by
  have lifted (k : Nat) (σ τ : Nat → Term) :
      (fun i => (liftSubst k τ i).subst (liftSubst k σ)) = liftSubst k fun i => (τ i).subst σ := by
    refine eq_of_lift_cases k (fun i below => ?_) fun i => ?_
    · simp [liftSubst_of_lt below]
    · simp only [liftSubst_add, subst_rename, rename_subst]
      exact congrArg ((τ i).subst ·) (funext fun j => liftSubst_add k j)
  induction t generalizing σ τ with
  | bound i => rfl
  | free x i => rfl
  | construct shape arguments ih =>
    simp only [subst_construct, List.map_map]
    refine congrArg _ (List.map_congr_left fun a member => ?_)
    simp only [Function.comp_apply]
    rw [ih a member, lifted]

theorem subst_id (t : Term) : t.subst Term.bound = t :=
  (rename_eq_subst id t).symm.trans (rename_id t)

/-- A substitution after an instantiation. -/
theorem subst_instantiate (σ : Nat → Term) (t u : Term) :
    (t.instantiate u).subst σ = (t.subst (liftSubst 1 σ)).instantiate (u.subst σ) := by
  rw [instantiate, instantiate, subst_subst, subst_subst]
  congr 1
  funext i
  cases i with
  | zero => rfl
  | succ i =>
    -- Outside of the binder nothing is instantiated, once the binder has made room.
    rw [liftSubst_add, subst_rename]
    exact (subst_id (σ i)).symm

/-- An instantiation under a binder instantiates the next position by the term that has moved
there. -/
theorem liftSubst_instantiation (k : Nat) (u : Term) :
    liftSubst 1 (instantiation k u) = instantiation (k + 1) (u.rename (· + 1)) := by
  refine eq_of_lift_cases 1 (fun i below => ?_) fun i => ?_
  · rw [liftSubst_of_lt below, instantiation, if_pos (by omega)]
  · rw [liftSubst_add]
    rcases Nat.lt_trichotomy i k with below | rfl | above
    · rw [instantiation, instantiation, if_pos below, if_pos (by omega), rename_bound]
    · simp only [instantiation, Nat.lt_irrefl, if_false, if_true]
    · rw [instantiation, instantiation, if_neg (by omega), if_neg (by omega), if_neg (by omega),
        if_neg (by omega), rename_bound, Nat.sub_add_cancel (by omega), Nat.add_sub_cancel]

/-- A term in which the position `k` does not occur: all positions have made room for it. -/
def Misses (k : Nat) (t : Term) : Prop :=
  ∃ t₀ : Term, t = t₀.rename (lift k (· + 1))

theorem not_misses_bound (k : Nat) : ¬(bound k).Misses k := by
  rintro ⟨t₀, room⟩
  cases t₀ with
  | bound i =>
    -- Positions below `k` stay below it, and all others are moved past it.
    have moved : k = lift k (· + 1) i := bound.inj room
    simp only [lift] at moved
    split at moved <;> omega
  | free x i => cases room
  | construct shape arguments =>
    rw [rename_construct] at room
    cases room

/-- A position that does not occur does not occur in the arguments either. -/
theorem Misses.argument {k : Nat} (h : (construct shape arguments).Misses k)
    {a : Nat × Term} (member : a ∈ arguments) : a.2.Misses (k + a.1) := by
  obtain ⟨t₀, room⟩ := h
  cases t₀ with
  | bound i => cases room
  | free x i => cases room
  | construct shape' arguments' =>
    rw [rename_construct, construct.injEq] at room
    rw [room.2] at member
    obtain ⟨a₀, -, rfl⟩ := List.mem_map.mp member
    exact ⟨a₀.2, by rw [lift_lift]⟩

/-- Replacing a position by a term that misses it, and then closing the gap, is
instantiation. -/
theorem subst_update_misses (k : Nat) (t u : Term) :
    t.subst (Function.update bound k (u.rename (lift k (· + 1)))) =
      (t.subst (instantiation k u)).rename (lift k (· + 1)) := by
  -- Renamed, an instantiation is a substitution of positions, and it is compared at each of them.
  rw [rename_subst]
  congr 1
  refine eq_of_lift_cases k (fun i below => ?_) fun i => ?_
  · rw [Function.update_of_ne (by omega), instantiation, if_pos below, rename_bound,
      lift_of_lt below]
  · rw [instantiation, if_neg (by omega)]
    cases i with
    | zero => rw [Nat.zero_add, Function.update_self, if_pos rfl]
    | succ i =>
      rw [Function.update_of_ne (by omega), if_neg (by omega), rename_bound,
        show i + 1 + k - 1 = i + k by omega, lift_add, Nat.add_right_comm]

/-! ### Labels of binders -/

/-- Renaming positions leaves labels alone. -/
theorem erased_rename (ρ : Nat → Nat) (t : Term) :
    (t.rename ρ).erased = t.erased.rename ρ := by
  induction t generalizing ρ with
  | bound i => rfl
  | free x i => rfl
  | construct shape arguments ih =>
    simp only [rename_construct, erased_construct, List.map_map]
    refine congrArg _ (List.map_congr_left fun a member => ?_)
    simp only [Function.comp_apply]
    rw [ih a member]

/-- Substitution does not look at labels of binders. -/
theorem erased_subst (σ : Nat → Term) (t : Term) :
    (t.subst σ).erased = t.erased.subst fun i => (σ i).erased := by
  have lifted (k : Nat) (σ : Nat → Term) :
      (fun i => (liftSubst k σ i).erased) = liftSubst k fun i => (σ i).erased :=
    eq_of_lift_cases k (fun i below => by simp [liftSubst_of_lt below])
      fun i => by simp [erased_rename]
  induction t generalizing σ with
  | bound i => rfl
  | free x i => rfl
  | construct shape arguments ih =>
    simp only [subst_construct, erased_construct, List.map_map]
    refine congrArg _ (List.map_congr_left fun a member => ?_)
    simp only [Function.comp_apply]
    rw [ih a member, lifted]

theorem erased_instantiate (t u : Term) :
    (t.instantiate u).erased = t.erased.instantiate u.erased := by
  rw [instantiate, instantiate, erased_subst]
  congr 1
  funext i
  rcases Nat.eq_zero_or_pos i with rfl | positive
  · rfl
  · simp only [instantiation, Nat.not_lt_zero, if_false, Nat.ne_of_gt positive, erased_bound]

end Term

end Dhall
