/-
# Names and scopes play no part in evaluation

Evaluation gives equal results, up to names of bound variables, on expressions that are equal
up to these names. It commutes with moving an expression into a larger scope, and it brings
no variable into an expression that was not free in it. All three say that evaluation keeps a
certain correspondence.

## Main definitions

* `Correspondence.anonymous`, `Correspondence.shifting`, `Correspondence.splitting` — the three
  correspondences

## Main results

* `Expr.alphaNormal_normalizes_congr` — evaluation respects renaming of bound variables
* `Expr.normalizes_shift` — evaluation commutes with shifts up, and introduces no free variable
-/

import Dhall.Proofs.Correspondence.Normalize
import Dhall.Proofs.FreeVariable

namespace Dhall

namespace Correspondence

open Dhall.Expr

/-- Equality up to names of bound variables. -/
def anonymous : Correspondence where
  labels := false
  source := []
  target := []
  move := id
  injective := Function.injective_id

theorem relates_anonymous_iff {e e' : Expr} :
    anonymous.Relates e e' ↔ e.nameless [] = e'.nameless [] := by
  unfold Relates
  exact Eq.congr_right (Term.rename_id _) |>.trans eq_comm

/-- Room for `d` more binders labelled `x`, outside of `c` binders of this label. -/
def shifting (x : Label) (c d : Nat) : Correspondence where
  labels := true
  source := .replicate c x
  target := .replicate c x ++ .replicate d x
  move := Term.lift c (· + d)
  injective := Term.lift_injective c fun _ _ => Nat.add_right_cancel

theorem relates_shifting {e e' : Expr} {delta : Int64} {cutoff : Variable} {d : Nat}
    (upwards : delta.toInt = d) (h : e.shift delta cutoff = .ok e') :
    (shifting cutoff.label cutoff.index.toNat d).Relates e e' := by
  have image := resolved_shift (Δ := .replicate cutoff.index.toNat cutoff.label) (Γ := [])
    upwards h List.count_replicate_self.symm
  rwa [List.append_nil, List.append_nil, List.length_replicate] at image

/-- The positions beyond `m` binders labelled `x` move apart. An expression corresponds to itself
if it does not refer to the next binder, which is the last one. -/
def splitting (x : Label) (m : Nat) : Correspondence where
  labels := true
  source := .replicate (m + 1) x
  target := .replicate (m + 1) x
  move := Term.lift m (· + 1)
  injective := Term.lift_injective m fun _ _ => Nat.add_right_cancel

theorem relates_splitting_iff {e : Expr} {v : Variable} :
    (splitting v.label v.index.toNat).Relates e e ↔ ¬e.HasFree v := by
  have below (i : Nat) (h : i < v.index.toNat) :
      (Term.bound ∘ Term.lift v.index.toNat (· + 1)) i = .bound i :=
    congrArg Term.bound (Term.lift_of_lt h)
  have moved : (Term.bound ∘ Term.lift v.index.toNat (· + 1)) v.index.toNat ≠
      .bound v.index.toNat := by
    rw [Function.comp_apply, Term.lift, if_neg (Nat.lt_irrefl _)]
    exact fun same => by have := Term.bound.inj same; omega
  have unchanged := subst_eq_self_iff v.label v.index.toNat below moved e []
  rw [List.length_nil, Term.liftSubst_zero, ← Term.rename_eq_subst] at unchanged
  exact eq_comm.trans unchanged

end Correspondence

namespace Expr

variable {e n : Expr}

/-- Expressions that are equal up to names of bound variables have normal forms that are equal
up to names of bound variables. -/
theorem alphaNormal_normalizes_congr {a b c na nb a' b' : Expr} (ha : a.alphaNormal = .ok c)
    (hb : b.alphaNormal = .ok c) (first : a.Normalizes na) (second : b.Normalizes nb)
    (ha' : na.alphaNormal = .ok a') (hb' : nb.alphaNormal = .ok b') : a' = b' := by
  have same := (alphaNormal_decides ha hb []).2.2.mp rfl
  have related := Correspondence.relates_of_normalizes
    (Correspondence.relates_anonymous_iff.mpr same) first second
  exact (alphaNormal_decides ha' hb' []).2.2.mpr (Correspondence.relates_anonymous_iff.mp related)

/-- Two functions that build a list of their argument, one of them under a label that the
function inserted by the build also has. -/
theorem alphaNormal_normalizes_congr_build :
    let built (x : Label) := lam x (builtin .natural) (app (app (builtin .listBuild)
      (builtin .natural)) (lam "list" (const .type) (lam "cons" (builtin .natural) (lam "nil"
        (var ⟨"list", 0⟩) (app (app (var ⟨"cons", 0⟩) (var ⟨x, 0⟩)) (var ⟨"nil", 0⟩))))))
    let normal (x : Label) := lam x (builtin .natural) (list [var ⟨x, 0⟩])
    (built "a").Normalizes (normal "a") ∧ (built "y").Normalizes (normal "y") ∧
      ∃ a' b', (normal "a").alphaNormal = .ok a' ∧ (normal "y").alphaNormal = .ok b' ∧ a' = b' := by
  intro built normal
  have first : (built "a").Normalizes (normal "a") := ⟨12, rfl⟩
  have second : (built "y").Normalizes (normal "y") := ⟨12, rfl⟩
  exact ⟨first, second, _, _, rfl, rfl,
    alphaNormal_normalizes_congr (a := built "a") (b := built "y") rfl rfl first second rfl rfl⟩

/-- Evaluation commutes with shifts up, and it introduces no free variable. -/
theorem normalizes_shift (h : e.Normalizes n) :
    (∀ (delta : Int64) (cutoff : Variable) (e' n' s : Expr), 0 ≤ delta.toInt →
      e.shift delta cutoff = .ok e' → e'.Normalizes n' → n.shift delta cutoff = .ok s → n' = s) ∧
    ∀ v, n.HasFree v → e.HasFree v := by
  constructor
  · intro delta cutoff e' n' s upwards before second after
    have amount : delta.toInt = (delta.toInt.toNat : Int) := (Int.toNat_of_nonneg upwards).symm
    have normal := Correspondence.relates_of_normalizes
      (Correspondence.relates_shifting amount before) h second
    have shifted := Correspondence.relates_shifting amount after
    exact resolved_injective _ (normal.eq.trans shifted.eq.symm)
  · intro v
    contrapose
    intro absent
    exact Correspondence.relates_splitting_iff.mp
      (Correspondence.relates_of_normalizes (Correspondence.relates_splitting_iff.mpr absent) h h)

/-- A free variable with the label of a binder that a build inserts. -/
theorem normalizes_shift_build :
    let built (v : Variable) := app (app (builtin .listBuild) (builtin .natural))
      (lam "list" (const .type) (lam "cons" (builtin .natural) (lam "nil"
        (var ⟨"list", 0⟩) (app (app (var ⟨"cons", 0⟩) (var v)) (var ⟨"nil", 0⟩)))))
    (built ⟨"a", 1⟩).Normalizes (list [var ⟨"a", 1⟩]) ∧ (built ⟨"a", 1⟩).HasFree ⟨"a", 1⟩ ∧
      ∃ n' s, (built ⟨"a", 3⟩).Normalizes n' ∧
        (list [var ⟨"a", 1⟩]).shift 2 ⟨"a", 1⟩ = .ok s ∧ n' = s := by
  intro built
  have evaluated (v : Variable) (index : v ∈ [⟨"a", 1⟩, ⟨"a", 3⟩]) :
      (built v).Normalizes (list [var v]) := by
    rcases List.mem_pair.mp index with rfl | rfl
    · exact ⟨12, rfl⟩
    · exact ⟨12, rfl⟩
  have first := evaluated ⟨"a", 1⟩ (by decide)
  have second := evaluated ⟨"a", 3⟩ (by decide)
  have commutes := (normalizes_shift first).1 2 ⟨"a", 1⟩ (built ⟨"a", 3⟩) _ _ (by decide) rfl
    second rfl
  refine ⟨first, (normalizes_shift first).2 _ ?_, _, _, second, rfl, commutes⟩
  exact .argument (.head _) .here

end Expr

end Dhall
