/-
# Composition of folds

A fold evaluates an application of its function for each item of a list, from the last one on, or
as often as a number says, and passes each value on to the next application. What the function
does with a value is not known, and a value may be stuck. But the run over a list in two parts is
the run over the second part followed by the run over the first one, and the value in between is
all that is passed on. It is evaluated already, so a fold that starts with it starts where the
first fold has ended.

## Main definitions

* `Expr.items?` — the items of a literal of a list, which may be empty
* `Expr.FoldsTo`, `Expr.IteratesTo` — what the function makes of a value, item by item or a number
  of times

## Main results

* `Expr.foldsTo_append`, `Expr.iteratesTo_add` — a run in two parts
* `Expr.fold_composition` — the fold of a concatenation or of a sum is the fold of a fold
-/

import Dhall.Proofs.Fusion

namespace Dhall

/-- A sequence returns with some amount of fuel if each of its parts does with some amount. -/
theorem Eval.exists_bind_eq_pure_iff {α β : Type} {x : Nat → Eval α} {f : Nat → α → Eval β} {b : β}
    (first : ∀ {fuel more}, fuel ≤ more → Approximates (x fuel) (x more))
    (second : ∀ {fuel more}, fuel ≤ more → ∀ a, Approximates (f fuel a) (f more a)) :
    (∃ fuel, x fuel >>= f fuel = pure b) ↔
      ∃ a, (∃ fuel, x fuel = pure a) ∧ ∃ fuel, f fuel a = pure b := by
  constructor
  · rintro ⟨fuel, returned⟩
    obtain ⟨a, here, below⟩ := bind_eq_pure_iff.mp returned
    exact ⟨a, ⟨fuel, here⟩, fuel, below⟩
  · rintro ⟨a, ⟨fuel, here⟩, fuel', below⟩
    refine ⟨max fuel fuel', bind_eq_pure_iff.mpr ⟨a, ?_, ?_⟩⟩
    · exact (first (Nat.le_max_left fuel fuel')).outcome here
    · exact (second (Nat.le_max_right fuel fuel') a).outcome below

namespace Expr

open Eval

variable {c l l' n r s t z : Expr} {args is js : List Expr} {k m : Nat}

/-! ### Runs of folds -/

/-- The items of a literal of a list. -/
def items? : Expr → Option (List Expr)
  | emptyList _ => some []
  | list items => some items
  | _ => none

/-- A function that is applied to each item and to what it has made of the items behind it, the
last of them starting with `z`, makes `n` of all of them. -/
def FoldsTo (c : Expr) (items : List Expr) (z n : Expr) : Prop :=
  ∃ fuel, items.foldrM (fun item e => normalize fuel (c.apply [item, e])) z = pure n

/-- A function that is applied to its own results a number of times makes `n` of `z`. -/
def IteratesTo (s : Expr) (k : Nat) (z n : Expr) : Prop :=
  ∃ fuel, iterate (fun e => normalize fuel (app s e)) k z = pure n

theorem approximates_run_list {fuel fuel' : Nat} (enough : fuel ≤ fuel') (c : Expr)
    (items : List Expr) (z : Expr) :
    Approximates (items.foldrM (fun item e => normalize fuel (c.apply [item, e])) z)
      (items.foldrM (fun item e => normalize fuel' (c.apply [item, e])) z) :=
  approximates_foldrM (fun item e => approximates_normalize enough (c.apply [item, e])) items z

theorem approximates_run_count {fuel fuel' : Nat} (enough : fuel ≤ fuel') (s : Expr) (k : Nat)
    (z : Expr) : Approximates (iterate (fun e => normalize fuel (app s e)) k z)
      (iterate (fun e => normalize fuel' (app s e)) k z) :=
  approximates_iterate (fun e => approximates_normalize enough (app s e)) k z

/-- The items at the end are folded first, and the others go on with what comes out. -/
theorem foldsTo_append : FoldsTo c (is ++ js) z n ↔ ∃ m, FoldsTo c js z m ∧ FoldsTo c is m n := by
  simp only [FoldsTo, List.foldrM_append]
  exact exists_bind_eq_pure_iff (fun enough => approximates_run_list enough c js z)
    fun enough m => approximates_run_list enough c is m

theorem iterate_add {α : Type} (g : α → Eval α) (k m : Nat) (x : α) :
    iterate g (k + m) x = iterate g k x >>= iterate g m := by
  induction k generalizing x with
  | zero => rw [Nat.zero_add, iterate, pure_bind]
  | succ k ih =>
    rw [Nat.succ_add, iterate, iterate, bind_assoc]
    exact bind_congr ih

/-- Some of the applications come first, and the others go on with what comes out. -/
theorem iteratesTo_add :
    IteratesTo s (k + m) z n ↔ ∃ y, IteratesTo s k z y ∧ IteratesTo s m y n := by
  simp only [IteratesTo, iterate_add]
  exact exists_bind_eq_pure_iff (fun enough => approximates_run_count enough s k z)
    fun enough y => approximates_run_count enough s m y

/-! ### Folds -/

/-- With all of its arguments, the fold of a list is reduced to a run over the items. -/
theorem reduce_listFold {eval : Expr → Eval Expr} (literal : l.items? = some is) :
    Builtin.listFold.reduce eval [t, l, r, c, z] =
      some <$> is.foldrM (fun item e => eval (c.apply [item, e])) z := by
  unfold items? at literal
  split at literal
  · cases literal
    rw [List.foldrM_nil, map_pure]
    rfl
  · cases literal
    rfl
  · cases literal

/-- The fold of a list evaluates its arguments and then runs over the items. -/
theorem normalizes_listFold_iff (hl : l.Normalizes l') (literal : l'.items? = some is) :
    ((builtin .listFold).apply [t, l, r, c, z]).Normalizes n ↔ ∃ t' r' c' z', t.Normalizes t' ∧
      r.Normalizes r' ∧ c.Normalizes c' ∧ z.Normalizes z' ∧ FoldsTo c' is z' n := by
  have function (f : Expr) : ((builtin .listFold).apply [t, l, r, c]).Normalizes f ↔ _ :=
    normalizes_waiting_iff fun eval args few =>
      reduce_partial_fold (.inl rfl) (Nat.lt_succ_of_le few) eval
  refine (normalizes_concat_iff function).trans ?_
  constructor
  · rintro ⟨_, z', fuel, reduced, evaluated, hz, returned, rfl⟩
    rcases evaluated with _ | ⟨ht, _ | ⟨hl', _ | ⟨hr, _ | ⟨hc, ⟨⟩⟩⟩⟩⟩
    -- The list has one normal form, so its items are known.
    obtain rfl := hl.unique hl'
    obtain ⟨n, run, rfl⟩ := map_eq_pure_iff.mp ((reduce_listFold literal).symm.trans returned)
    exact ⟨_, _, _, z', ht, hr, hc, hz, fuel, run⟩
  · rintro ⟨t', r', c', z', ht, hr, hc, hz, fuel, run⟩
    exact ⟨_, z', fuel, some n, .cons ht (.cons hl (.cons hr (.cons hc .nil))), hz,
      (reduce_listFold literal).trans (map_eq_pure_iff.mpr ⟨n, run, rfl⟩), rfl⟩

/-- The fold of a number waits for four arguments. -/
theorem reduce_partial_naturalFold (few : args.length < 4) (eval : Expr → Eval Expr) :
    Builtin.naturalFold.reduce eval args = pure none := by
  have waits : Builtin.naturalFold.reduceFold eval args = pure none := by
    unfold Builtin.reduceFold
    split
    · exact absurd few (Nat.lt_irrefl 4)
    · contradiction
    · contradiction
    · contradiction
    · contradiction
    · rfl
  exact waits

/-- The fold of a number evaluates its arguments and then applies the function as often as the
number says. -/
theorem normalizes_naturalFold_iff {i : UInt64} (hl : l.Normalizes (natural i)) :
    ((builtin .naturalFold).apply [l, t, s, z]).Normalizes n ↔ ∃ t' s' z', t.Normalizes t' ∧
      s.Normalizes s' ∧ z.Normalizes z' ∧ IteratesTo s' i.toNat z' n := by
  have function (f : Expr) : ((builtin .naturalFold).apply [l, t, s]).Normalizes f ↔ _ :=
    normalizes_waiting_iff fun eval args few =>
      reduce_partial_naturalFold (Nat.lt_succ_of_le few) eval
  refine (normalizes_concat_iff function).trans ?_
  constructor
  · rintro ⟨_, z', fuel, reduced, evaluated, hz, returned, rfl⟩
    rcases evaluated with _ | ⟨hl', _ | ⟨ht, _ | ⟨hs, ⟨⟩⟩⟩⟩
    obtain rfl := hl.unique hl'
    obtain ⟨n, run, rfl⟩ := map_eq_pure_iff.mp returned
    exact ⟨_, _, z', ht, hs, hz, fuel, run⟩
  · rintro ⟨t', s', z', ht, hs, hz, fuel, run⟩
    exact ⟨_, z', fuel, some n, .cons hl (.cons ht (.cons hs .nil)), hz,
      map_eq_pure_iff.mpr ⟨n, run, rfl⟩, rfl⟩

/-! ### Folds of folds -/

/-- The items of a concatenation are those of the first literal and then those of the second. -/
theorem items?_reduceListAppend (literal : l.items? = some is) (literal' : l'.items? = some js) :
    (Operator.reduceListAppend l l').items? = some (is ++ js) := by
  unfold items? at literal
  split at literal
  · cases literal
    exact literal'
  · cases literal
    unfold items? at literal'
    split at literal'
    · cases literal'
      exact congrArg some (List.append_nil is).symm
    · cases literal'
      rfl
    · cases literal'
  · cases literal

/-- The fold of a concatenation is the fold of the first list that starts with the fold of the
second one. -/
theorem normalizes_listFold_append {xs ys : Expr} (hxs : xs.Normalizes l) (hys : ys.Normalizes l')
    (literal : l.items? = some is) (literal' : l'.items? = some js) :
    ((builtin .listFold).apply [t, op .listAppend xs ys, r, c, z]).Normalizes n ↔
      ((builtin .listFold).apply [t, xs, r, c,
        (builtin .listFold).apply [t, ys, r, c, z]]).Normalizes n := by
  have appended : (op .listAppend xs ys).Normalizes (Operator.reduceListAppend l l') :=
    hxs.op hys rfl
  rw [normalizes_listFold_iff appended (items?_reduceListAppend literal literal'),
    normalizes_listFold_iff hxs literal]
  simp only [normalizes_listFold_iff hys literal', foldsTo_append]
  constructor
  · rintro ⟨t', r', c', z', ht, hr, hc, hz, m, first, second⟩
    exact ⟨t', r', c', m, ht, hr, hc, ⟨t', r', c', z', ht, hr, hc, hz, first⟩, second⟩
  · rintro ⟨t', r', c', m, ht, hr, hc, ⟨_, _, c'', z', -, -, hc', hz, first⟩, second⟩
    -- The function has one normal form, which both folds apply.
    obtain rfl := hc.unique hc'
    exact ⟨t', r', c', z', ht, hr, hc, hz, m, first, second⟩

/-- The fold of a sum is the fold of the first number that starts with the fold of the second
one. -/
theorem normalizes_naturalFold_add {i j : UInt64} (sum : l.Normalizes (natural (i + j)))
    (fits : i.toNat + j.toNat < UInt64.size) :
    ((builtin .naturalFold).apply [l, t, s, z]).Normalizes n ↔
      ((builtin .naturalFold).apply [natural i, t, s,
        (builtin .naturalFold).apply [natural j, t, s, z]]).Normalizes n := by
  have toNat : (i + j).toNat = j.toNat + i.toNat := by
    rw [UInt64.toNat_add, Nat.add_comm j.toNat]
    exact Nat.mod_eq_of_lt fits
  rw [normalizes_naturalFold_iff sum, normalizes_naturalFold_iff (normalizes_natural i), toNat]
  simp only [normalizes_naturalFold_iff (normalizes_natural j), iteratesTo_add]
  constructor
  · rintro ⟨t', s', z', ht, hs, hz, m, first, second⟩
    exact ⟨t', s', m, ht, hs, ⟨t', s', z', ht, hs, hz, first⟩, second⟩
  · rintro ⟨t', s', m, ht, hs, ⟨_, s'', z', -, hs', hz, first⟩, second⟩
    obtain rfl := hs.unique hs'
    exact ⟨t', s', z', ht, hs, hz, m, first, second⟩

/-- The fold of a concatenation of two lists whose normal forms are literals, and the fold of a sum
of two literals that is no greater than the greatest number, have the same normal forms as the
fold of the first operand that starts with the fold of the second one. -/
theorem fold_composition :
    (∀ t r c z xs ys l l' : Expr, xs.Normalizes l → ys.Normalizes l' → l.items?.isSome →
      l'.items?.isSome → ∀ n,
        ((builtin .listFold).apply [t, op .listAppend xs ys, r, c, z]).Normalizes n ↔
          ((builtin .listFold).apply [t, xs, r, c,
            (builtin .listFold).apply [t, ys, r, c, z]]).Normalizes n) ∧
    ∀ (t s z : Expr) (i j : UInt64), i.toNat + j.toNat < UInt64.size → ∀ n,
      let folded := (builtin .naturalFold).apply [natural i, t, s,
        (builtin .naturalFold).apply [natural j, t, s, z]]
      (((builtin .naturalFold).apply [op .plus (natural i) (natural j), t, s, z]).Normalizes n ↔
        folded.Normalizes n) ∧
      (((builtin .naturalFold).apply [natural (i + j), t, s, z]).Normalizes n ↔
        folded.Normalizes n) := by
  refine ⟨fun t r c z xs ys l l' hxs hys literal literal' n => ?_, fun t s z i j fits n => ⟨?_, ?_⟩⟩
  · obtain ⟨is, literal⟩ := Option.isSome_iff_exists.mp literal
    obtain ⟨js, literal'⟩ := Option.isSome_iff_exists.mp literal'
    exact normalizes_listFold_append hxs hys literal literal'
  · have sum : (op .plus (natural i) (natural j)).Normalizes (natural (i + j)) :=
      (normalizes_natural i).op (normalizes_natural j)
        (congrArg Except.ok (Arithmetic.reducePlus_natural fits))
    exact normalizes_naturalFold_add sum fits
  · exact normalizes_naturalFold_add (normalizes_natural (i + j)) fits

/-- The functions are stuck on a free variable, and each application is passed on as it is. One of
the lists is empty once its literal has been put together. -/
theorem fold_composition_stuck :
    let x (l : Label) := var (.nearest l)
    let type := builtin .natural
    let cons := lam "a" type (lam "b" type ((x "f").apply [x "b", x "a"]))
    let xs := op .listAppend (emptyList (listOf type)) (list [x "p", x "q"])
    let ys := op .listAppend (emptyList (listOf type)) (emptyList (listOf type))
    let folded := (x "f").apply [(x "f").apply [x "z", x "q"], x "p"]
    ((builtin .listFold).apply [type, xs, type, cons,
      (builtin .listFold).apply [type, ys, type, cons, x "z"]]).Normalizes folded ∧
    ((builtin .naturalFold).apply [natural 2, type, x "f",
      (builtin .naturalFold).apply [natural 1, type, x "f", x "z"]]).Normalizes
        (app (x "f") (app (x "f") (app (x "f") (x "z")))) := by
  intro x type cons xs ys folded
  have hxs : xs.Normalizes (list [x "p", x "q"]) := ⟨4, rfl⟩
  have hys : ys.Normalizes (emptyList (listOf type)) := ⟨4, rfl⟩
  have whole : ((builtin .listFold).apply
      [type, op .listAppend xs ys, type, cons, x "z"]).Normalizes folded := ⟨10, rfl⟩
  have three : ((builtin .naturalFold).apply
      [op .plus (natural 2) (natural 1), type, x "f", x "z"]).Normalizes
        (app (x "f") (app (x "f") (app (x "f") (x "z")))) := ⟨10, rfl⟩
  exact ⟨(fold_composition.1 type type cons (x "z") xs ys _ _ hxs hys rfl rfl folded).mp whole,
    (fold_composition.2 type (x "f") (x "z") 2 1 (by decide) _).1.mp three⟩

end Expr

end Dhall
