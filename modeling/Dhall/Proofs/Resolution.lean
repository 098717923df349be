/-
# Names resolved to positions

Under a context of binder labels, the innermost first, the variable `x@n` is bound to the
`n + 1`st binder labelled `x` that one meets going outwards. If there are fewer, it is
free, and as many indices have been used up as there are binders labelled `x`.

Resolving the variables of an expression gives a term that still has the labels of its
binders. No two expressions resolve to one term under the same context. Without the labels
of binders the term is the ordinary de Bruijn term of the expression.

## Main definitions

* `locate` — what a variable refers to under a context
* `Expr.resolved` — an expression with its variables resolved
* `Expr.nameless` — the same without labels of binders

## Main results

* `locate_eq_bound_iff`, `locate_eq_free_iff` — which binder it is, and which free variable
* `locate_insert` — more binders in the middle of a context
* `Expr.resolved_injective` — the variables can be read off the positions
-/

import Dhall.Expr.Induction
import Dhall.Proofs.Subterm
import Dhall.Proofs.Term
import Dhall.Proofs.Variable

namespace Dhall

/-- What `x@n` refers to under a context of binder labels, the innermost first. -/
def locate : List Label → Label → Nat → Term
  | [], x, n => .free x n
  | y :: context, x, n =>
    if x = y then
      match n with
      | 0 => .bound 0
      | n + 1 => (locate context x n).rename (· + 1)
    else (locate context x n).rename (· + 1)

section Locate

variable {context : List Label} {x y : Label} {n m : Nat}

theorem locate_cons_zero : locate (x :: context) x 0 = .bound 0 := by
  simp [locate]

theorem locate_cons_succ :
    locate (x :: context) x (n + 1) = (locate context x n).rename (· + 1) := by
  rw [locate, if_pos rfl]

theorem locate_cons_of_ne (h : x ≠ y) :
    locate (y :: context) x n = (locate context x n).rename (· + 1) := by
  rw [locate.eq_def]
  exact if_neg h

/-- A variable refers to a binder, or it is free under its own name. -/
theorem locate_cases (context : List Label) (x : Label) (n : Nat) :
    (∃ i, locate context x n = .bound i) ∨ ∃ m, locate context x n = .free x m := by
  induction context generalizing n with
  | nil => exact Or.inr ⟨n, rfl⟩
  | cons y context ih =>
    -- Past a binder that is not meant, a position moves out and a name stays free.
    have outside (n : Nat) : (∃ i, (locate context x n).rename (· + 1) = .bound i) ∨
        ∃ m, (locate context x n).rename (· + 1) = .free x m := by
      rcases ih n with ⟨i, bound⟩ | ⟨m, free⟩
      · exact Or.inl ⟨i + 1, by rw [bound, Term.rename_bound]⟩
      · exact Or.inr ⟨m, by rw [free, Term.rename_free]⟩
    by_cases same : x = y
    · subst same
      cases n with
      | zero => exact Or.inl ⟨0, locate_cons_zero⟩
      | succ n => exact locate_cons_succ ▸ outside n
    · exact locate_cons_of_ne same ▸ outside n

private theorem rename_succ_eq_bound_iff {t : Term} {i : Nat} :
    t.rename (· + 1) = .bound i ↔ ∃ j, t = .bound j ∧ i = j + 1 := by
  cases t with
  | bound j => simp [eq_comm]
  | free x j => simp
  | construct shape arguments => simp

private theorem rename_succ_eq_free_iff {t : Term} {m : Nat} :
    t.rename (· + 1) = .free y m ↔ t = .free y m := by
  cases t with
  | bound j => simp
  | free x j => simp
  | construct shape arguments => simp

/-- A variable refers to a binder that has its label, and its index counts the binders of
this label on the way there. -/
theorem locate_eq_bound_iff {i : Nat} :
    locate context x n = .bound i ↔ context[i]? = some x ∧ (context.take i).count x = n := by
  induction context generalizing n i with
  | nil => simp [locate]
  | cons y context ih =>
    by_cases same : x = y
    · subst same
      cases n with
      | zero =>
        rw [locate_cons_zero, Term.bound.injEq]
        cases i with
        | zero => simp
        | succ i => simp
      | succ n =>
        rw [locate_cons_succ, rename_succ_eq_bound_iff]
        cases i with
        | zero => simp
        | succ i => simp [ih]
    · rw [locate_cons_of_ne same, rename_succ_eq_bound_iff]
      cases i with
      | zero => simp [Ne.symm same]
      | succ i => simp [ih, Ne.symm same]

/-- A variable is free if its index passes all binders of its label, and then the index
that is left counts from outside of them. -/
theorem locate_eq_free_iff :
    locate context x n = .free y m ↔ y = x ∧ n = context.count x + m := by
  induction context generalizing n with
  | nil => simp [locate, eq_comm]
  | cons z context ih =>
    by_cases same : x = z
    · subst same
      cases n with
      | zero =>
        rw [locate_cons_zero, List.count_cons_self]
        exact ⟨nofun, fun h => by omega⟩
      | succ n =>
        rw [locate_cons_succ, rename_succ_eq_free_iff, ih, List.count_cons_self]
        exact and_congr_right fun _ => by omega
    · rw [locate_cons_of_ne same, rename_succ_eq_free_iff, ih,
        List.count_cons_of_ne (Ne.symm same)]

/-- Under one context, different variables refer to different things. -/
theorem locate_injective (same : locate context x n = locate context y m) : x = y ∧ n = m := by
  rcases locate_cases context x n with ⟨i, bound⟩ | ⟨k, free⟩
  -- The label is that of the binder, and the index counts how often it occurs before.
  · have first := locate_eq_bound_iff.mp bound
    have second := locate_eq_bound_iff.mp (same.symm.trans bound)
    obtain rfl : x = y := Option.some.inj (first.1.symm.trans second.1)
    exact ⟨rfl, first.2.symm.trans second.2⟩
  · have first := locate_eq_free_iff.mp free
    have second := locate_eq_free_iff.mp (same.symm.trans free)
    obtain rfl : x = y := second.1
    exact ⟨rfl, first.2.trans second.2.symm⟩

/-- The binder right after some others is reached by skipping those of its label. -/
theorem locate_middle {Δ Γ : List Label} :
    locate (Δ ++ x :: Γ) y n = .bound Δ.length ↔ y = x ∧ n = Δ.count x := by
  rw [locate_eq_bound_iff, List.getElem?_append_right (Nat.le_refl _), Nat.sub_self,
    List.take_left' rfl, List.getElem?_cons_zero, Option.some_inj]
  constructor
  · rintro ⟨rfl, rfl⟩
    exact ⟨rfl, rfl⟩
  · rintro ⟨rfl, rfl⟩
    exact ⟨rfl, rfl⟩

/-- When `d` binders labelled `x` are put in, the variables labelled `x` must skip `d` more,
and then refer to what they referred to. -/
theorem locate_replicate (d : Nat) (Γ : List Label) (x y : Label) (n : Nat) :
    locate (List.replicate d x ++ Γ) y (if y = x then n + d else n) =
      (locate Γ y n).rename (· + d) := by
  induction d with
  | zero =>
    rw [Nat.add_zero, ite_self]
    exact (Term.rename_id (locate Γ y n)).symm
  | succ d ih =>
    have more := congrArg (Term.rename (· + 1)) ih
    rw [Term.rename_rename] at more
    rw [List.replicate_succ, List.cons_append]
    by_cases same : y = x
    · subst same
      rw [if_pos rfl] at more ⊢
      rw [← Nat.add_assoc, locate_cons_succ, more]
      rfl
    · rw [if_neg same] at more ⊢
      rw [locate_cons_of_ne same, more]
      rfl

/-- When `d` binders labelled `x` are put in after some others, the variables labelled `x`
that skip all of these others must skip `d` more, and then refer to what they referred to. -/
theorem locate_insert (Δ Γ : List Label) (x y : Label) (n d : Nat) :
    locate (Δ ++ (List.replicate d x ++ Γ)) y (if y = x ∧ Δ.count x ≤ n then n + d else n) =
      (locate (Δ ++ Γ) y n).rename (Term.lift Δ.length (· + d)) := by
  induction Δ generalizing n with
  | nil =>
    simp only [List.nil_append, List.count_nil, Nat.zero_le, and_true, List.length_nil,
      Term.lift_zero]
    exact locate_replicate d Γ x y n
  | cons z Δ ih =>
    have outside : (Term.lift (z :: Δ).length (· + d)) ∘ (· + 1) =
        (· + 1) ∘ Term.lift Δ.length (· + d) := by
      rw [List.length_cons, ← Term.lift_lift 1]
      exact funext fun i => Term.lift_add 1 i
    have moved (n : Nat) : (locate (Δ ++ (List.replicate d x ++ Γ)) y
        (if y = x ∧ Δ.count x ≤ n then n + d else n)).rename (· + 1) =
          ((locate (Δ ++ Γ) y n).rename (· + 1)).rename (Term.lift (z :: Δ).length (· + d)) := by
      rw [ih, Term.rename_rename, Term.rename_rename, outside]
    rw [List.cons_append, List.cons_append]
    by_cases same : y = z
    -- The first binder has the label of the variable: it is meant, or it takes one index off.
    · subst same
      cases n with
      | zero =>
        have skipped : ¬(y = x ∧ (y :: Δ).count x ≤ 0) := by
          rintro ⟨rfl, none⟩
          rw [List.count_cons_self] at none
          omega
        rw [if_neg skipped, locate_cons_zero, locate_cons_zero, Term.rename_bound,
          Term.lift_of_lt (by rw [List.length_cons]; exact Nat.succ_pos _)]
      | succ n =>
        have index : (if y = x ∧ (y :: Δ).count x ≤ n + 1 then n + 1 + d else n + 1) =
            (if y = x ∧ Δ.count x ≤ n then n + d else n) + 1 := by
          by_cases label : y = x
          · subst label
            simp only [List.count_cons_self, Nat.add_le_add_iff_right]
            split <;> omega
          · simp [label]
        rw [index, locate_cons_succ, locate_cons_succ, moved]
    -- The first binder has another label: it is passed, and no index counts it.
    · have index : (y = x ∧ (z :: Δ).count x ≤ n) ↔ (y = x ∧ Δ.count x ≤ n) := by
        refine and_congr_right fun label => ?_
        rw [List.count_cons_of_ne fun eq => same (label.trans eq.symm)]
      simp only [index]
      rw [locate_cons_of_ne same, locate_cons_of_ne same, moved]

end Locate

namespace Node

variable {α β : Type}

/-- Which variable a node is, if it is one, belongs to the shape. -/
theorem ne_var_of_shape {n : Node α} {n' : Node β} (h : n'.shape = n.shape)
    (notVar : ∀ v, n ≠ .var v) (v : Variable) : n' ≠ .var v := by
  rintro rfl
  cases n with
  | var u => exact notVar u rfl
  | _ => cases h

end Node

namespace Expr

/-- Induction that sets variables apart from the constructs whose children are visited. -/
@[elab_as_elim]
theorem variableInduction {motive : Expr → Prop} (var : ∀ v, motive (var v))
    (node : ∀ n : Node Expr, (∀ v, n ≠ .var v) → (∀ p ∈ n.scopedChildren, motive p.2) →
      motive (mk n)) (e : Expr) : motive e := by
  induction e using induction with
  | step n ih =>
    by_cases isVar : ∃ v, n = .var v
    · obtain ⟨v, rfl⟩ := isVar
      exact var v
    · exact node n (not_exists.mp isVar) fun p member => ih p.2 (List.mem_map_of_mem member)

/-- The term of an expression under a context of binder labels, the innermost first. -/
def resolved (e : Expr) : List Label → Term :=
  e.fold fun n context =>
    match n with
    | .var v => locate context v.label v.index.toNat
    | n => .construct n.shape
        (n.scopedChildren.map fun p => (p.1.length, p.2 (p.1.reverse ++ context)))

/-- The de Bruijn term of an expression under a context of binder labels. -/
def nameless (e : Expr) (context : List Label) : Term :=
  (e.resolved context).erased

variable {α : Type} {context : List Label} {n : Node Expr}

@[simp] theorem resolved_var (v : Variable) (context : List Label) :
    (var v).resolved context = locate context v.label v.index.toNat := rfl

/-- Children are resolved under the binders around them. -/
theorem resolved_mk (notVar : ∀ v, n ≠ .var v) (context : List Label) :
    (mk n).resolved context = .construct n.shape
      (n.scopedChildren.map fun p => (p.1.length, p.2.resolved (p.1.reverse ++ context))) := by
  rw [resolved, fold_mk]
  split
  · next v image => cases n <;> simp_all [Node.map]
  · rw [Node.shape_map, Node.scopedChildren_map, List.map_map]
    rfl

/-- A variable resolves to no construct. -/
theorem resolved_var_ne_construct {v : Variable} {shape : Node Unit}
    {arguments : List (Nat × Term)} :
    (var v).resolved context ≠ .construct shape arguments := by
  intro same
  rcases locate_cases context v.label v.index.toNat with ⟨i, atom⟩ | ⟨i, atom⟩ <;>
    exact nomatch atom.symm.trans same

/-- An expression resolves to a construct with given arguments if it is such a construct
and its children resolve to the arguments. -/
theorem resolved_eq_construct_iff {n : Node α} (notVar : ∀ v, n ≠ .var v)
    {F : List Label × α → Term} {n' : Node Expr} :
    (mk n').resolved context =
        .construct n.shape (n.scopedChildren.map fun p => (p.1.length, F p)) ↔
      n.Similar (fun inner c c' => c'.resolved (inner.reverse ++ context) = F (inner, c)) n' := by
  constructor
  · intro same
    have notVar' (v : Variable) : n' ≠ .var v := by
      rintro rfl
      exact resolved_var_ne_construct same
    -- Equal constructs have equal shapes, and an equal shape binds the same labels over each
    -- child.
    rw [resolved_mk notVar', Term.construct.injEq, ← List.forall₂_eq_eq_eq,
      List.forall₂_map_left_iff, List.forall₂_map_right_iff] at same
    refine ⟨same.1, ?_⟩
    rw [Node.children, List.forall₂_map_right_iff]
    refine (forall₂_and (Node.binders_of_shape same.1) same.2.flip).imp ?_
    rintro p q ⟨scope, image⟩
    rw [← (Prod.mk.inj image).2, scope]
  · intro similar
    rw [resolved_mk (Node.ne_var_of_shape similar.shape_eq notVar), similar.shape_eq,
      Term.construct.injEq, ← List.forall₂_eq_eq_eq, List.forall₂_map_left_iff,
      List.forall₂_map_right_iff]
    refine ⟨rfl, similar.scoped.flip.imp ?_⟩
    rintro q p ⟨scope, image⟩
    rw [scope, image]

/-- Under one context, expressions that resolve to one term are equal. -/
theorem resolved_injective (context : List Label) :
    Function.Injective fun e : Expr => e.resolved context := by
  intro e e' same
  dsimp only at same
  induction e using variableInduction generalizing context e' with
  | var v =>
    obtain ⟨n'⟩ := e'
    -- Only variables resolve to what is no construct.
    by_cases isVar : ∃ u, n' = .var u
    · obtain ⟨u, rfl⟩ := isVar
      obtain ⟨x, i⟩ := v
      obtain ⟨y, j⟩ := u
      obtain ⟨labels, indices⟩ := locate_injective same
      dsimp only at labels indices
      rw [labels, UInt64.toNat_inj.mp indices]
    · rw [resolved_mk (not_exists.mp isVar)] at same
      exact absurd same resolved_var_ne_construct
  | node n notVar ih =>
    obtain ⟨n'⟩ := e'
    rw [resolved_mk notVar] at same
    have similar := (resolved_eq_construct_iff notVar
      (F := fun p => p.2.resolved (p.1.reverse ++ context))).mp same.symm
    refine congrArg mk (similar.imp fun p member c' equal => ?_).eq.symm
    exact (ih p member _ equal.symm).symm

/-- Resolving variables keeps the number of nodes. -/
theorem size_resolved (e : Expr) (context : List Label) : (e.resolved context).size = e.size := by
  induction e using variableInduction generalizing context with
  | var v =>
    rw [resolved_var]
    rcases locate_cases context v.label v.index.toNat with ⟨i, atom⟩ | ⟨i, atom⟩ <;>
      rw [atom] <;> rfl
  | node n notVar ih =>
    rw [resolved_mk notVar, Term.size_construct, size_mk, Node.children, List.map_map,
      List.map_map]
    exact congrArg (List.foldr _ 1) (List.map_congr_left fun p member => ih p member _)

end Expr

end Dhall
