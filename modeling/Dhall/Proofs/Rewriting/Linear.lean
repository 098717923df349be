/-
# Linear terms

A construct is linear if its rules look at each part on its own: it has no rule that compares
two parts, and none that looks for a function inside another one. Rewriting a linear term
brings in no other constructs.

## Main definitions

* `Term.Linear`, `Expr.Linear` — every construct is linear

## Main results

* `Term.Reduces.linear` — rewriting keeps terms linear
* `Expr.linear_nameless_iff` — an expression is linear if its term is
-/

import Dhall.Proofs.AlphaEquivalence
import Dhall.Proofs.Rewriting.Development

namespace Dhall

namespace Node

variable {α : Type}

theorem isLinear_unlabelled (n : Node α) : n.unlabelled.isLinear = n.isLinear := by
  cases n <;> rfl

theorem isLinear_shape (n : Node α) : n.shape.isLinear = n.isLinear := by
  cases n with
  | text t =>
    obtain ⟨head, tail⟩ := t
    cases tail <;> rfl
  | _ => rfl

end Node

namespace Term

/-- Every construct of the term is linear. -/
inductive Linear : Term → Prop
  | bound (i : Nat) : Linear (bound i)
  | free (x : Label) (i : Nat) : Linear (free x i)
  | construct {shape : Node Unit} {arguments : List (Nat × Term)} (linear : shape.isLinear)
      (parts : ∀ a ∈ arguments, Linear a.2) : Linear (construct shape arguments)

variable {t u : Term} {shape : Node Unit} {parts : List Term} {arguments : List (Nat × Term)}
  {σ : Nat → Term}

theorem linear_construct_iff :
    Linear (.construct shape arguments) ↔ shape.isLinear ∧ ∀ a ∈ arguments, a.2.Linear := by
  constructor
  · intro h
    cases h with
    | construct linear parts => exact ⟨linear, parts⟩
  · exact fun h => .construct h.1 h.2

theorem linear_flat_iff : Linear (flat shape parts) ↔ shape.isLinear ∧ ∀ t ∈ parts, t.Linear := by
  simp [flat, linear_construct_iff]

private theorem Linear.subst_of_lifts (h : t.Linear)
    (linear : ∀ k i, (liftSubst k σ i).Linear) : (t.subst σ).Linear := by
  induction t generalizing σ with
  | bound i => simpa using linear 0 i
  | free x i => exact .free x i
  | construct shape arguments ih =>
    obtain ⟨here, below⟩ := linear_construct_iff.mp h
    rw [subst_construct]
    refine .construct here (List.forall_mem_map.mpr fun a member => ?_)
    refine ih a member (below a member) fun k i => ?_
    rw [liftSubst_liftSubst]
    exact linear _ i

theorem Linear.rename (h : t.Linear) (ρ : Nat → Nat) : (t.rename ρ).Linear := by
  rw [rename_eq_subst]
  refine h.subst_of_lifts fun k i => ?_
  rw [liftSubst_bound]
  exact .bound _

theorem Linear.instantiate (h : t.Linear) (hu : u.Linear) : (t.instantiate u).Linear := by
  refine h.subst_of_lifts fun k i => ?_
  rcases Nat.lt_or_ge i k with below | above
  · rw [liftSubst_of_lt below]
    exact .bound i
  · obtain ⟨j, rfl⟩ := Nat.exists_eq_add_of_le' above
    rw [liftSubst_add]
    cases j with
    | zero => exact hu.rename _
    | succ j => exact .bound _

theorem linear_app_iff {f a : Term} : Linear (app f a) ↔ f.Linear ∧ a.Linear := by
  simp [app, linear_flat_iff, Node.isLinear]

theorem linear_apply_iff {f : Term} {args : List Term} :
    Linear (f.apply args) ↔ f.Linear ∧ ∀ a ∈ args, a.Linear := by
  induction args generalizing f with
  | nil => simp [apply]
  | cons a args ih =>
    rw [List.forall_mem_cons, ← and_assoc, ← linear_app_iff]
    exact ih

theorem compatible_linear : Compatible fun t t' => t' = t ∧ t'.Linear where
  value {shape parts t} _ h := by
    obtain ⟨rfl, linear⟩ := h
    exact ⟨parts, rfl, List.forall₂_same.mpr fun t member =>
      ⟨rfl, (linear_flat_iff.mp linear).2 t member⟩⟩
  none absent h := h.1 ▸ absent
  congr {shape parts parts'} linear h := by
    have same : parts' = parts := by
      rw [← List.forall₂_eq_eq_eq]
      exact h.flip.imp fun _ _ here => here.1
    refine ⟨same ▸ rfl, linear_flat_iff.mpr ⟨linear, fun t member => ?_⟩⟩
    obtain ⟨_, -, -, here⟩ := exists_of_forall₂ h member
    exact here

/-- The rules of linear constructs bring in no others. -/
theorem Contracts.linear (h : Contracts t u) (linear : t.Linear) : u.Linear := by
  have same {t : Term} (linear : t.Linear) : t = t ∧ t.Linear := ⟨rfl, linear⟩
  cases h with
  | beta x domain body a =>
    obtain ⟨function, argument⟩ := linear_app_iff.mp linear
    have parts := (linear_construct_iff.mp function).2
    exact (parts (1, body) (by simp)).instantiate argument
  | @define first bindings type annotated value rest =>
    obtain ⟨front, inner⟩ := List.forall_mem_append.mp (linear_construct_iff.mp linear).2
    have after : Linear (.construct (.letIn bindings ()) rest) :=
      .construct rfl fun p member => inner (p.1 + 1, p.2) (List.mem_map_of_mem member)
    exact after.instantiate (front (0, value) (by simp))
  | body t => exact (linear_flat_iff.mp linear).2 _ (.head _)
  | annot t type => exact (linear_flat_iff.mp linear).2 _ (.head _)
  | @builtin b args a u h =>
    obtain ⟨function, argument⟩ := linear_app_iff.mp linear
    have parts := List.forall_mem_append.mpr
      ⟨(linear_apply_iff.mp function).2, List.forall_mem_singleton.mpr argument⟩
    obtain ⟨_, contracts, -, result⟩ := h.compatible compatible_linear
      (List.forall₂_same.mpr fun a member => same (parts a member))
    exact h.unique contracts rfl ▸ result
  | op h =>
    obtain ⟨-, parts⟩ := linear_flat_iff.mp linear
    obtain ⟨_, contracts, -, result⟩ := h.compatible compatible_linear
      (same (parts _ (.head _))) (same (parts _ (.tail _ (.head _))))
    exact h.unique contracts rfl rfl ▸ result

theorem DevelopsAll.linear {arguments' : List (Nat × Term)} (h : DevelopsAll arguments arguments')
    (each : ∀ a ∈ arguments, ∀ t', Develops a.2 t' → t'.Linear) :
    ∀ a ∈ arguments', a.2.Linear := by
  induction arguments generalizing arguments' with
  | nil =>
    cases h
    exact List.forall_mem_nil _
  | cons a rest ih =>
    cases h with
    | cons k here below =>
      obtain ⟨first, others⟩ := List.forall_mem_cons.mp each
      exact List.forall_mem_cons.mpr ⟨first _ here, ih below others⟩

theorem Develops.linear (h : Develops t u) (linear : t.Linear) : u.Linear := by
  induction t generalizing u with
  | bound i =>
    cases h
    exact linear
  | free x i =>
    cases h
    exact linear
  | construct shape arguments ih =>
    obtain ⟨here, below⟩ := linear_construct_iff.mp linear
    have developed {arguments' : List (Nat × Term)} (parts : DevelopsAll arguments arguments') :
        Linear (.construct shape arguments') :=
      .construct here
        (parts.linear fun a member t' develops => ih a member develops (below a member))
    cases h with
    | congr _ parts => exact developed parts
    | contract parts rule => exact rule.linear (developed parts)

theorem Reduces.linear (h : Reduces t u) (linear : t.Linear) : u.Linear := by
  induction h with
  | refl => exact linear
  | tail _ step ih => exact step.linear ih

end Term

namespace Expr

/-- Every construct in the expression is linear. -/
def Linear (e : Expr) : Prop :=
  Everywhere (fun s => s.node.isLinear) e

variable {e : Expr} {n : Node Expr}

theorem linear_mk : Linear (mk n) ↔ n.isLinear ∧ ∀ c ∈ n.children, Linear c :=
  everywhere_mk

theorem linear_nameless_iff (context : List Label) : (e.nameless context).Linear ↔ Linear e := by
  induction e using variableInduction generalizing context with
  | var v =>
    refine iff_of_true ?_ (linear_mk.mpr ⟨rfl, List.forall_mem_nil _⟩)
    rw [nameless, resolved_var]
    rcases locate_cases context v.label v.index.toNat with ⟨i, atom⟩ | ⟨i, atom⟩ <;> rw [atom]
    · exact .bound i
    · exact .free v.label i
  | node n notVar ih =>
    rw [nameless_mk notVar, Term.linear_construct_iff, linear_mk, Node.isLinear_unlabelled,
      Node.isLinear_shape, Node.children, List.forall_mem_map, List.forall_mem_map]
    exact and_congr_right fun _ => forall₂_congr fun p member => ih p member _

end Expr

end Dhall
