/-
# Shifts that cross

A shift up makes room at one place of the context. Two such shifts make room at two places, and it
does not matter which of them comes first, as long as the cutoff of the outer one of the two
places counts the binders that have been put in before it. A shift up also passes through the
removal of a binder: outside of it, it moves the result; inside of it, it moves the body, whose
cutoff is seen from under the binder, and the value.

That names coincide or differ only decides what the cutoffs count. So the equations are those of
positions, of which there is one for two shifts at different places, whatever their labels are.

## Main results

* `Term.lift_lift_comm` — room at two positions is made in either order
* `Expr.shift_shift_comm` — shifts at two places of the context
* `Expr.shift_commutes` — shifts add up at one cutoff, cross at two, and pass through the removal
  of a binder
-/

import Dhall.Proofs.Correspondence

namespace Dhall

namespace Term

/-- A renaming outside of `l` positions passes over `d` positions that are put in before them. -/
theorem lift_lift_comm (k l d : Nat) (ρ : Nat → Nat) :
    lift k (· + d) ∘ lift (l + k) ρ = lift (l + d + k) ρ ∘ lift k (· + d) := by
  have moved : lift (l + d) ρ ∘ (· + d) = (· + d) ∘ lift l ρ := by
    rw [← lift_lift]
    exact funext fun i => lift_add d i
  rw [← lift_lift, ← lift_lift, lift_comp, lift_comp, moved]

end Term

namespace Expr

variable {e e₁ e₂ r s : Expr} {u v v' : Variable} {Δ Θ : List Label} {delta delta' : Int64}

/-- Room is made after the binders `Δ` and after the binders `Θ` that follow them, in either order.
The second place is counted with the binders that have been put in, where they are there. -/
theorem shift_shift_comm (upwards : 0 ≤ delta.toInt) (upwards' : 0 ≤ delta'.toInt)
    (near : u.index.toNat = Δ.count u.label) (far : v.index.toNat = (Δ ++ Θ).count v.label)
    (label : v'.label = v.label)
    (farther : v'.index.toNat =
      (Δ ++ (.replicate delta.toInt.toNat u.label ++ Θ)).count v'.label)
    (first : e.shift delta' v = .ok e₁) (second : e₁.shift delta u = .ok r)
    (first' : e.shift delta u = .ok e₂) (second' : e₂.shift delta' v' = .ok s) : r = s := by
  -- Both orders resolve to one renaming of the term, and the term determines the expression.
  have amount := (Int.toNat_of_nonneg upwards).symm
  have amount' := (Int.toNat_of_nonneg upwards').symm
  let ins := List.replicate delta.toInt.toNat u.label
  let outs := List.replicate delta'.toInt.toNat v.label
  have outer : e₁.resolved (Δ ++ (Θ ++ outs)) =
      (e.resolved (Δ ++ Θ)).rename (Term.lift (Δ ++ Θ).length (· + delta'.toInt.toNat)) := by
    have image := resolved_shift (Γ := []) amount' first far
    rwa [List.append_nil, List.append_nil, List.append_assoc] at image
  have inner : e₂.resolved (Δ ++ (ins ++ Θ)) =
      (e.resolved (Δ ++ Θ)).rename (Term.lift Δ.length (· + delta.toInt.toNat)) :=
    resolved_shift amount first' near
  have outer' : s.resolved (Δ ++ (ins ++ (Θ ++ outs))) = (e₂.resolved (Δ ++ (ins ++ Θ))).rename
      (Term.lift (Δ ++ (ins ++ Θ)).length (· + delta'.toInt.toNat)) := by
    have image := resolved_shift (Γ := []) amount' second' farther
    rwa [List.append_nil, List.append_nil, label, List.append_assoc, List.append_assoc] at image
  refine resolved_injective (Δ ++ (ins ++ (Θ ++ outs))) ?_
  dsimp only
  rw [resolved_shift amount second near, outer, outer', inner, Term.rename_rename,
    Term.rename_rename]
  refine congrArg (Term.rename · _) ?_
  simp only [ins, List.length_append, List.length_replicate]
  rw [Nat.add_comm Δ.length, Nat.add_comm Δ.length, Nat.add_comm delta.toInt.toNat]
  exact Term.lift_lift_comm _ _ _ _

/-- Two shifts at one cutoff are one shift. -/
theorem shift_shift_add {sum : Int64} (upwards : 0 ≤ delta.toInt) (upwards' : 0 ≤ delta'.toInt)
    (total : sum.toInt = delta.toInt + delta'.toInt) (first : e.shift delta' v = .ok e₁)
    (second : e₁.shift delta v = .ok r) (atOnce : e.shift sum v = .ok s) : r = s := by
  have amount := (Int.toNat_of_nonneg upwards).symm
  have amount' := (Int.toNat_of_nonneg upwards').symm
  have amounts : sum.toInt = (delta.toInt.toNat + delta'.toInt.toNat : Nat) := by omega
  let Δ := List.replicate v.index.toNat v.label
  have index : v.index.toNat = Δ.count v.label := List.count_replicate_self.symm
  have image := resolved_shift (Γ := []) amount' first index
  have image' :=
    resolved_shift (Γ := .replicate delta'.toInt.toNat v.label ++ []) amount second index
  have image'' := resolved_shift (Γ := []) amounts atOnce index
  rw [← List.replicate_append_replicate, List.append_assoc] at image''
  refine resolved_injective _ (image'.trans (Eq.trans ?_ image''.symm))
  rw [image, Term.rename_rename, Term.lift_comp]
  refine congrArg (fun ρ => Term.rename (Term.lift _ ρ) _) (funext fun i => ?_)
  rw [Function.comp_apply, Nat.add_assoc, Nat.add_comm delta'.toInt.toNat]

/-- A shift of the result is a shift of the body, seen from under the binder, and of the value. -/
theorem shift_instantiate {x : Label} {a a' : Expr} (upwards : 0 ≤ delta.toInt)
    (under : v.under x = .ok v') (removed : e.instantiate (.nearest x) a = .ok e₁)
    (outside : e₁.shift delta v = .ok r) (body : e.shift delta v' = .ok e₂)
    (value : a.shift delta v = .ok a') (removed' : e₂.instantiate (.nearest x) a' = .ok s) :
    r = s := by
  have amount := (Int.toNat_of_nonneg upwards).symm
  -- The cutoff is counted in a context with as many binders of its label as its index says.
  let Δ := List.replicate v.index.toNat v.label
  have index : v.index.toNat = Δ.count v.label := List.count_replicate_self.symm
  obtain ⟨label, skips⟩ := Variable.under_eq_ok under
  have index' : v'.index.toNat = (x :: Δ).count v'.label := by
    rw [label, skips, index, Nat.add_comm]
    exact List.count_append.symm
  let wide := Δ ++ (.replicate delta.toInt.toNat v.label ++ [])
  have inner : e₂.resolved (x :: wide) = (e.resolved (x :: Δ ++ [])).rename
      (Term.lift (Δ.length + 1) (· + delta.toInt.toNat)) := by
    have image := resolved_shift (Γ := []) amount body index'
    rwa [label] at image
  have argument : a'.resolved wide = _ := resolved_shift amount value index
  refine resolved_injective wide ?_
  calc r.resolved wide
      = ((e.resolved (x :: Δ ++ [])).instantiate (a.resolved (Δ ++ []))).rename
          (Term.lift Δ.length (· + delta.toInt.toNat)) :=
        (resolved_shift amount outside index).trans
          (congrArg _ (resolved_instantiate (Δ := []) removed rfl))
    _ = (e₂.resolved (x :: wide)).instantiate (a'.resolved wide) := by
        rw [Term.rename_instantiate, Term.lift_lift, inner, argument]
    _ = s.resolved wide := (resolved_instantiate (Δ := []) removed' rfl).symm

/-- Two shifts up at one cutoff add up. Shifts up at cutoffs with different labels are done in
either order, and so are those at cutoffs with one label, if the greater index grows by the amount
of a shift that comes before at the smaller one. A shift up passes through the removal of a
binder. -/
theorem shift_commutes (upwards : 0 ≤ delta.toInt) (upwards' : 0 ≤ delta'.toInt) (e : Expr) :
    (∀ (v : Variable) (sum : Int64) (r s : Expr), sum.toInt = delta.toInt + delta'.toInt →
      (do (← e.shift delta' v).shift delta v) = .ok r → e.shift sum v = .ok s → r = s) ∧
    (∀ (x y : Label) (m n : UInt64) (r s : Expr), x ≠ y →
      (do (← e.shift delta' ⟨y, n⟩).shift delta ⟨x, m⟩) = .ok r →
      (do (← e.shift delta ⟨x, m⟩).shift delta' ⟨y, n⟩) = .ok s → r = s) ∧
    (∀ (x : Label) (m n m' : UInt64) (r s : Expr), n ≤ m →
      (m'.toNat : Int) = m.toNat + delta'.toInt →
      (do (← e.shift delta ⟨x, m⟩).shift delta' ⟨x, n⟩) = .ok r →
      (do (← e.shift delta' ⟨x, n⟩).shift delta ⟨x, m'⟩) = .ok s → r = s) ∧
    ∀ (x : Label) (a : Expr) (v : Variable) (r s : Expr),
      (do (← e.instantiate (.nearest x) a).shift delta v) = .ok r →
      (do (← e.shift delta (← v.under x)).instantiate (.nearest x) (← a.shift delta v)) = .ok s →
      r = s := by
  refine ⟨fun v sum r s total twice atOnce => ?_, fun x y m n r s different one other => ?_,
    fun x m n m' r s order grown one other => ?_, fun x a v r s outside inside => ?_⟩
  · obtain ⟨e₁, first, second⟩ := bind_eq_pure_iff.mp twice
    exact shift_shift_add upwards upwards' total first second atOnce
  · obtain ⟨e₁, first, second⟩ := bind_eq_pure_iff.mp one
    obtain ⟨e₂, first', second'⟩ := bind_eq_pure_iff.mp other
    -- Neither label is counted among the binders with the other one.
    refine shift_shift_comm (Δ := .replicate m.toNat x) (Θ := .replicate n.toNat y) upwards
      upwards' ?_ ?_ rfl ?_ first second first' second'
    all_goals simp [List.count_replicate, different]
  · obtain ⟨e₁, first, second⟩ := bind_eq_pure_iff.mp one
    obtain ⟨e₂, first', second'⟩ := bind_eq_pure_iff.mp other
    rw [UInt64.le_iff_toNat_le] at order
    have label : (⟨x, m'⟩ : Variable).label = (⟨x, m⟩ : Variable).label := rfl
    refine shift_shift_comm (Δ := .replicate n.toNat x)
      (Θ := .replicate (m.toNat - n.toNat) x) upwards' upwards ?_ ?_ label ?_ first second first'
      second'
    all_goals simp only [List.count_append, List.count_replicate_self]
    all_goals omega
  · obtain ⟨e₁, removed, shifted⟩ := bind_eq_pure_iff.mp outside
    obtain ⟨v', under, inside⟩ := bind_eq_pure_iff.mp inside
    obtain ⟨e₂, body, inside⟩ := bind_eq_pure_iff.mp inside
    obtain ⟨a', value, removed'⟩ := bind_eq_pure_iff.mp inside
    exact shift_instantiate upwards under removed shifted body value removed'

/-- A body that binds both labels, occurrences below and above the cutoffs, and a value with the
label of the binder that is removed. -/
theorem shift_commutes_shadowed :
    let x (n : UInt64) := var ⟨"x", n⟩
    let y (n : UInt64) := var ⟨"y", n⟩
    let e := lam "x" (x 1) (pi "y" (x 2) (app (app (x 0) (x 1)) (app (x 3) (app (y 0) (y 1)))))
    let a := app (x 0) (y 0)
    let v : Variable := ⟨"x", 0⟩
    (∃ r s, (do (← e.shift 3 ⟨"x", 1⟩).shift 2 ⟨"x", 1⟩) = .ok r ∧ e.shift 5 ⟨"x", 1⟩ = .ok s ∧
      r = s) ∧
    (∃ r s, (do (← e.shift 3 ⟨"y", 0⟩).shift 2 ⟨"x", 1⟩) = .ok r ∧
      (do (← e.shift 2 ⟨"x", 1⟩).shift 3 ⟨"y", 0⟩) = .ok s ∧ r = s) ∧
    (∃ r s, (do (← e.shift 2 ⟨"x", 2⟩).shift 3 ⟨"x", 1⟩) = .ok r ∧
      (do (← e.shift 3 ⟨"x", 1⟩).shift 2 ⟨"x", 5⟩) = .ok s ∧ r = s) ∧
    ∃ r s, (do (← e.instantiate (.nearest "x") a).shift 2 v) = .ok r ∧
      (do (← e.shift 2 (← v.under "x")).instantiate (.nearest "x") (← a.shift 2 v)) = .ok s ∧
      r = s := by
  intro x y e a v
  obtain ⟨adds, labels, indices, removal⟩ :=
    shift_commutes (by decide : 0 ≤ (2 : Int64).toInt) (by decide : 0 ≤ (3 : Int64).toInt) e
  exact ⟨⟨_, _, rfl, rfl, adds ⟨"x", 1⟩ 5 _ _ (by decide) rfl rfl⟩,
    ⟨_, _, rfl, rfl, labels "x" "y" 1 0 _ _ (by decide) rfl rfl⟩,
    ⟨_, _, rfl, rfl, indices "x" 2 1 5 _ _ (by decide) (by decide) rfl rfl⟩,
    ⟨_, _, rfl, rfl, removal "x" a v _ _ rfl rfl⟩⟩

end Expr

end Dhall
