/-
# Equality of expressions

Two expressions are equal when their outermost constructs have the same shape and
their children are equal in order. Names of bound variables count.
-/

import Dhall.Expr.Induction

namespace Dhall.Expr

/-- Whether two expressions are the same tree. -/
def sameTree : Expr → Expr → Bool :=
  fold fun n e =>
    decide (n.shape = e.node.shape) &&
      (List.zipWith (fun same c => same c) n.children e.node.children).all id

/-- Children are compared pairwise, in order. -/
theorem sameTree_mk (n m : Node Expr) :
    sameTree (mk n) (mk m) =
      (decide (n.shape = m.shape) && (List.zipWith sameTree n.children m.children).all id) := by
  simp [sameTree, fold_mk, node, List.zipWith_map_left]

theorem length_children_of_shape {α β : Type} {n : Node α} {m : Node β} (h : n.shape = m.shape) :
    n.children.length = m.children.length := by
  have lengths := congrArg (fun s => s.children.length) h
  simpa [Node.shape] using lengths

theorem sameTree_iff (e f : Expr) : sameTree e f = true ↔ e = f := by
  induction e using induction generalizing f with
  | step n ih =>
    obtain ⟨m⟩ := f
    -- Lists of children that are equally long agree when they agree at each position.
    have pairwise (cs ds : List Expr) (length : cs.length = ds.length)
        (sub : ∀ c ∈ cs, c ∈ n.children) :
        (List.zipWith sameTree cs ds).all id = true ↔ cs = ds := by
      induction cs generalizing ds with
      | nil => cases ds <;> simp_all
      | cons c cs more =>
        cases ds with
        | nil => simp at length
        | cons d ds =>
          have rest := more ds (by simpa using length) fun c' h => sub c' (by simp [h])
          simp [ih c (sub c (by simp)) d, rest]
    rw [sameTree_mk, Bool.and_eq_true, decide_eq_true_iff]
    constructor
    · rintro ⟨shape, children⟩
      exact congrArg mk (Node.eq_of_shape shape
        ((pairwise _ _ (length_children_of_shape shape) fun _ h => h).mp children))
    · rintro ⟨rfl⟩
      exact ⟨rfl, (pairwise _ _ rfl fun _ h => h).mpr rfl⟩

instance : DecidableEq Expr := fun e f => decidable_of_iff _ (sameTree_iff e f)

end Dhall.Expr
