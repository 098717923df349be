/-
# Renaming bound variables

Renaming one binder to `_` changes no position: the body refers to the same binders under
the new label as it did under the old one. So renaming keeps the number of nodes, and the
depth that bounds the recursion of alpha normal forms is never used up. What is left are
plain recursive equations.

## Main definitions

* `Expr.alphaNormalStep` — the alpha normal form of a construct from those of its parts

## Main results

* `Expr.resolved_renameBound` — a renamed body resolves to the term of the body
* `Expr.alphaNormal_mk` — the alpha normal form of a construct, without a depth
* `Expr.alphaNormal_induction` — what holds of each step holds of expressions and their
  alpha normal forms
-/

import Dhall.AlphaNormal
import Dhall.Proofs.Substitution

namespace Dhall

theorem Except.bind_congr_ok {ε α β : Type} {x : Except ε α} {f g : α → Except ε β}
    (h : ∀ a, x = .ok a → f a = g a) : x >>= f = x >>= g := by
  cases x with
  | error _ => rfl
  | ok a => exact h a rfl

/-- The binders around the children of definitions start with those outside of them. -/
theorem Binding.scopedChildren_append {α : Type} (outer inner : List Label)
    (bs : List (Binding α)) :
    scopedChildren (outer ++ inner) bs =
      (scopedChildren inner bs).map fun p => (outer ++ p.1, p.2) := by
  induction bs generalizing inner with
  | nil => rfl
  | cons b bs ih =>
    rw [scopedChildren, scopedChildren, List.append_assoc, ih, List.map_append, List.map_map]
    rfl

namespace Node

variable {α : Type}

/-- Whether a construct neither opens binders nor is an import. -/
def isPlain : Node α → Bool
  | lam .. | pi .. | letIn .. | embed _ => false
  | _ => true

/-- The children of a `let` are those of its first definition, and those of the rest under
its label. -/
theorem scopedChildren_letIn_cons (first : Binding α) (rest : List (Binding α)) (body : α) :
    (letIn (first :: rest) body).scopedChildren =
      first.children.map ([], ·) ++
        (letIn rest body).scopedChildren.map fun p => (first.label :: p.1, p.2) := by
  have inner := Binding.scopedChildren_append [first.label] [] rest
  rw [List.append_nil] at inner
  simp only [scopedChildren, Binding.scopedChildren, List.nil_append, inner, List.map_append,
    List.append_assoc]
  rfl

theorem children_letIn_cons (first : Binding α) (rest : List (Binding α)) (body : α) :
    (letIn (first :: rest) body).children = first.children ++ (letIn rest body).children := by
  simp only [children, scopedChildren_letIn_cons, List.map_append, List.map_map]
  exact congrArg (· ++ _) (List.map_id first.children)

end Node

namespace Expr

variable {e e' body body' : Expr} {x : Label} {n n' : Node Expr} {context : List Label}

/-- Where the label is not the new one already, the variable of the binder has index zero seen
from under the new binder. -/
theorem index_nearest_of_ne (different : x ≠ .placeholder) :
    (Variable.nearest x).index.toNat = [Label.placeholder].count (Variable.nearest x).label := by
  have none : [Label.placeholder].count x = 0 := by
    rw [List.count_singleton, if_neg (by simpa using Ne.symm different)]
  exact none.symm

/-- When the new binder has taken over the variable of the old one, nothing refers to the old
binder any more. -/
theorem resolved_replaced {body₁ body₂ : Expr} (different : x ≠ .placeholder)
    (shifted : body.shift 1 (.nearest .placeholder) = .ok body₁)
    (substituted : body₁.subst (.nearest x) (var (.nearest .placeholder)) = .ok body₂)
    (context : List Label) :
    body₂.resolved ([.placeholder] ++ x :: context) =
      (body.resolved (x :: context)).rename (Term.lift 1 (· + 1)) := by
  have room : body₁.resolved (.placeholder :: x :: context) =
      (body.resolved (x :: context)).rename (· + 1) := by
    have image := resolved_shift (Δ := []) (Γ := x :: context) (d := 1) rfl shifted rfl
    rwa [List.length_nil, Term.lift_zero] at image
  have replaced : body₂.resolved ([.placeholder] ++ x :: context) =
      (body₁.resolved (.placeholder :: x :: context)).subst
        (Function.update Term.bound 1 (.bound 0)) := by
    have image := resolved_subst (Δ := [.placeholder]) (Γ := context) substituted
      (index_nearest_of_ne different)
    have newest : (var (.nearest .placeholder)).resolved (.placeholder :: x :: context) =
        .bound 0 := (resolved_var _ _).trans locate_cons_zero
    exact image.trans (congrArg (fun t => Term.subst (Function.update Term.bound 1 t) _) newest)
  -- The new binder comes first and the old one second; the second position becomes the first.
  have swapped : Function.update Term.bound 1 (.bound 0) ∘ (· + 1) =
      Term.bound ∘ Term.lift 1 (· + 1) := by
    refine Term.eq_of_lift_cases 1 (fun i below => ?_) fun i => ?_
    · obtain rfl : i = 0 := by omega
      rfl
    · rw [Function.comp_apply, Function.comp_apply, Term.lift_add,
        Function.update_of_ne (by omega)]
  rw [replaced, room, Term.subst_rename, swapped, Term.rename_eq_subst]

/-- Under the new label a renamed body means what the body means under the old one. -/
theorem resolved_renameBound (h : body.renameBound x = .ok body') (context : List Label) :
    body'.resolved (.placeholder :: context) = body.resolved (x :: context) := by
  unfold renameBound at h
  split at h
  · next same =>
    cases h
    rw [same]
  · next different =>
    obtain ⟨body₁, shifted, h⟩ := bind_eq_pure_iff.mp h
    obtain ⟨body₂, substituted, removed⟩ := bind_eq_pure_iff.mp h
    have image := resolved_replaced different shifted substituted context
    -- The place of the old binder is closed.
    have closed := resolved_shift_back (Δ := [.placeholder]) (Γ := context) removed
      (index_nearest_of_ne different) ⟨_, image⟩
    exact Term.rename_injective (Term.lift_injective 1 fun _ _ => Nat.add_right_cancel)
      (closed.symm.trans image)

/-- Renaming a variable keeps the number of nodes. -/
theorem size_renameBound (h : body.renameBound x = .ok body') : body'.size = body.size := by
  rw [← size_resolved body' [.placeholder], resolved_renameBound h, size_resolved]

/-! ### Equations -/

private theorem le_total (sizes : List Nat) (rest : Nat) : rest ≤ sizes.foldr (· + ·) rest := by
  induction sizes with
  | nil => exact Nat.le_refl rest
  | cons s sizes ih => exact Nat.le_add_left_of_le ih

/-- What a definition is in front of has fewer nodes than the `let`. -/
theorem size_afterFirst_lt (first : Binding Expr) (rest : List (Binding Expr)) (body : Expr) :
    (afterFirst rest body).size < (letIn (first :: rest) body).size := by
  unfold afterFirst
  have smaller : (letIn rest body).size < (letIn (first :: rest) body).size := by
    rw [size_mk, size_mk, Node.children_letIn_cons, List.map_append, List.foldr_append,
      Binding.children, List.map_append, List.foldr_append]
    exact Nat.lt_of_lt_of_le (Nat.lt_add_of_pos_left (size_pos first.value)) (le_total _ _)
  split
  · next none =>
    rw [List.isEmpty_iff] at none
    subst none
    exact size_lt_of_mem (by simp [Node.children, Node.scopedChildren, Binding.scopedChildren])
  · exact smaller

/-- One step of renaming bound variables, given the results for smaller expressions. -/
def alphaNormalStep (recur : Expr → Except Violation Expr) : Node Expr → Except Violation Expr
  | .lam x domain body => do
    let domain ← recur domain
    let body ← recur (← body.renameBound x)
    pure (lam .placeholder domain body)
  | .pi x domain codomain => do
    let domain ← recur domain
    let codomain ← recur (← codomain.renameBound x)
    pure (pi .placeholder domain codomain)
  | .letIn [] _ => .error .emptyLet
  | .letIn (first :: rest) body => do
    let after ← (afterFirst rest body).renameBound first.label
    let after ← recur after
    let annotation ← first.annotation.mapM recur
    let value ← recur first.value
    pure (withFirst ⟨.placeholder, annotation, value⟩ rest after)
  | .embed i => .error (.unresolvedImport i)
  | n => mk <$> n.traverse fun _ c => recur c

theorem alphaNormalStep_plain (plain : n.isPlain) (recur : Expr → Except Violation Expr) :
    alphaNormalStep recur n = mk <$> n.traverse fun _ c => recur c := by
  cases n <;> first | rfl | exact absurd plain Bool.false_ne_true

private theorem alphaNormalWithin_succ (depth : Nat) (n : Node Expr) :
    alphaNormalWithin (depth + 1) (mk n) = alphaNormalStep (alphaNormalWithin depth) n := by
  cases n with
  | letIn bindings body => cases bindings <;> rfl
  | _ => rfl

/-- One step looks at smaller expressions only: a renamed body is as large as the body. -/
theorem alphaNormalStep_congr {recur recur' : Expr → Except Violation Expr}
    (h : ∀ c : Expr, c.size < (mk n).size → recur c = recur' c) :
    alphaNormalStep recur n = alphaNormalStep recur' n := by
  have child {c : Expr} (member : c ∈ n.children) : recur c = recur' c :=
    h c (size_lt_of_mem member)
  by_cases plain : n.isPlain
  · rw [alphaNormalStep_plain plain, alphaNormalStep_plain plain]
    exact congrArg (mk <$> ·)
      (Node.traverse_congr fun p member => child (List.mem_map_of_mem member))
  -- A binder is renamed first, and what is renamed is no child.
  · cases n with
    | lam x domain body | pi x domain body =>
      rw [alphaNormalStep, alphaNormalStep, child (.head _)]
      refine bind_congr fun domain' => Except.bind_congr_ok fun body' renamed => ?_
      rw [h]
      rw [size_renameBound renamed]
      exact size_lt_of_mem (.tail _ (.head _))
    | letIn bindings body =>
      cases bindings with
      | nil => rfl
      | cons first rest =>
        have definition {c : Expr} (member : c ∈ first.children) : recur c = recur' c := by
          refine child ?_
          rw [Node.children_letIn_cons]
          exact List.mem_append_left _ member
        have annotation : first.annotation.mapM recur = first.annotation.mapM recur' := by
          rcases type : first.annotation with _ | t
          · rfl
          · simp only [Option.mapM_some]
            rw [definition (by simp [Binding.children, type])]
        rw [alphaNormalStep, alphaNormalStep]
        refine Except.bind_congr_ok fun after renamed => ?_
        rw [h, annotation, definition (c := first.value) (by simp [Binding.children])]
        rw [size_renameBound renamed]
        exact size_afterFirst_lt first rest body
    | embed i => rfl
    | _ => exact absurd rfl plain

/-- All depths that an expression does not exceed give the same result. -/
private theorem alphaNormalWithin_congr {depth depth' : Nat} (h : e.size ≤ depth)
    (h' : e.size ≤ depth') : alphaNormalWithin depth e = alphaNormalWithin depth' e := by
  have positive := size_pos e
  induction depth generalizing e depth' with
  | zero => omega
  | succ depth ih =>
    obtain ⟨n⟩ := e
    obtain ⟨depth', rfl⟩ : ∃ k, depth' = k + 1 := ⟨depth' - 1, by omega⟩
    rw [alphaNormalWithin_succ, alphaNormalWithin_succ]
    exact alphaNormalStep_congr fun c smaller => ih (by omega) (by omega) (size_pos c)

/-- The alpha normal form of a construct is one step away from those of its parts. -/
theorem alphaNormal_mk (n : Node Expr) : (mk n).alphaNormal = alphaNormalStep alphaNormal n := by
  have enough : (mk n).alphaNormal = alphaNormalWithin ((mk n).size + 1) (mk n) :=
    alphaNormalWithin_congr (Nat.le_refl _) (Nat.le_succ _)
  rw [enough, alphaNormalWithin_succ]
  exact alphaNormalStep_congr fun c smaller =>
    alphaNormalWithin_congr (Nat.le_of_lt smaller) (Nat.le_refl _)

/-- What holds of each step of renaming holds of expressions and their alpha normal forms. -/
theorem alphaNormal_induction {motive : Expr → Expr → Prop}
    (plain : ∀ n n' : Node Expr, n.isPlain → n.Similar (fun _ => motive) n' →
      motive (mk n) (mk n'))
    (binder : ∀ bind ∈ [lam, pi], ∀ x domain body domain' renamed body',
      motive domain domain' → body.renameBound x = .ok renamed → motive renamed body' →
      motive (bind x domain body) (bind .placeholder domain' body'))
    (letIn : ∀ (first : Binding Expr) rest body type value renamed after,
      Option.Rel motive first.annotation type → motive first.value value →
      (afterFirst rest body).renameBound first.label = .ok renamed → motive renamed after →
      motive (letIn (first :: rest) body) (withFirst ⟨.placeholder, type, value⟩ rest after))
    (h : e.alphaNormal = .ok e') : motive e e' := by
  -- The induction is on the number of nodes, because a renamed body is no part of the expression.
  induction bound : e.size using Nat.strongRecOn generalizing e e' with
  | _ size ih =>
    subst bound
    obtain ⟨n⟩ := e
    have child {c c' : Expr} (member : c ∈ n.children) (image : c.alphaNormal = .ok c') :
        motive c c' := ih _ (size_lt_of_mem member) image rfl
    rw [alphaNormal_mk] at h
    by_cases isPlain : n.isPlain
    · rw [alphaNormalStep_plain isPlain] at h
      obtain ⟨n', traversed, rfl⟩ := map_eq_pure_iff.mp h
      refine plain n n' isPlain ?_
      exact (Node.traverse_eq_pure_iff.mp traversed).imp fun p member c' image =>
        child (List.mem_map_of_mem member) image
    · cases n with
      | lam x domain body | pi x domain body =>
        obtain ⟨domain', domainImage, h⟩ := bind_eq_pure_iff.mp h
        obtain ⟨renamed, renames, h⟩ := bind_eq_pure_iff.mp h
        obtain ⟨body', image, h⟩ := bind_eq_pure_iff.mp h
        cases h
        have bodyImage : motive renamed body' := by
          refine ih _ ?_ image rfl
          rw [size_renameBound renames]
          exact size_lt_of_mem (.tail _ (.head _))
        have whole (bind : Label → Expr → Expr → Expr) (binds : bind ∈ [lam, pi]) :
            motive (bind x domain body) (bind .placeholder domain' body') :=
          binder bind binds x domain body domain' renamed body' (child (.head _) domainImage)
            renames bodyImage
        first | exact whole lam (.head _) | exact whole pi (.tail _ (.head _))
      | letIn bindings body =>
        cases bindings with
        | nil => cases h
        | cons first rest =>
          obtain ⟨renamed, renames, h⟩ := bind_eq_pure_iff.mp h
          obtain ⟨after, image, h⟩ := bind_eq_pure_iff.mp h
          obtain ⟨type', typeImage, h⟩ := bind_eq_pure_iff.mp h
          obtain ⟨value, valueImage, h⟩ := bind_eq_pure_iff.mp h
          cases h
          have definition {c c' : Expr} (member : c ∈ first.children)
              (image : c.alphaNormal = .ok c') : motive c c' := by
            refine child ?_ image
            rw [Node.children_letIn_cons]
            exact List.mem_append_left _ member
          refine letIn first rest body type' value renamed after ?_
            (definition (by simp [Binding.children]) valueImage) renames (ih _ ?_ image rfl)
          · rcases type : first.annotation with _ | t
            · rw [type] at typeImage
              cases typeImage
              exact .none
            · rw [type, Option.mapM_some] at typeImage
              obtain ⟨t', image, rfl⟩ := map_eq_pure_iff.mp typeImage
              exact .some (definition (by simp [Binding.children, type]) image)
          · rw [size_renameBound renames]
            exact size_afterFirst_lt first rest body
      | embed i => cases h
      | _ => exact absurd rfl isPlain

end Expr

end Dhall
