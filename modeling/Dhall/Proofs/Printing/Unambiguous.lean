/-
# Written expressions are unambiguous

Two expressions are written in the same way exactly if one becomes the other by regrouping the
operands of single operators, so parentheses, quotes, separators and escapes are never missing
where they matter. It is enough to show that tidy expressions are told apart in every place.
That is an induction on the number of nodes and of parentheses that the places demand: chains
of the rank of a place have smaller parts, other expressions stand in the next tighter place as
well, and atoms and constructs with a mark of their own have smaller children.

## Main results

* `Reads.of_tidy` — tidy expressions are told apart in every place
* `Expr.render_eq_iff` — texts of legible expressions are equal exactly if the expressions are
  associated
-/

import Dhall.Proofs.Printing.Chain

namespace Dhall

namespace Expr

/-- Twice the number of nodes, and one more for parentheses in a place of the rank. -/
def weight (k : Nat) (e : Expr) : Nat :=
  2 * e.size + if e.node.precedence.rank < k then 1 else 0

variable {b e c : Expr} {n : Node Expr} {j k : Nat}

theorem weight_le (k : Nat) (e : Expr) : e.weight k ≤ 2 * e.size + 1 := by
  unfold weight
  split <;> omega

theorem le_weight (k : Nat) (e : Expr) : 2 * e.size ≤ e.weight k :=
  Nat.le_add_right _ _

theorem weight_zero (e : Expr) : e.weight 0 = 2 * e.size :=
  rfl

theorem weight_of_lt (h : n.precedence.rank < k) : (mk n).weight k = 2 * (mk n).size + 1 :=
  congrArg (2 * (mk n).size + ·) (if_pos h)

theorem weight_of_le (h : k ≤ n.precedence.rank) : (mk n).weight k = 2 * (mk n).size :=
  congrArg (2 * (mk n).size + ·) (if_neg (Nat.not_lt_of_le h))

end Expr

open Dhall.Expr

/-- The order of the induction: first the nodes and parentheses, then how loose the place is. -/
def measureAt (k : Nat) (e e' : Expr) : Nat :=
  18 * (e.weight k + e'.weight k) + (17 - k)

/-- All comparisons that come before in the induction. -/
def Known (k : Nat) (e e' : Expr) : Prop :=
  ∀ j ≤ 17, ∀ a a', Tidy a → Tidy a' → measureAt j a a' < measureAt k e e' → Reads j a a'

variable {k : Nat} {e e' b b' : Expr} {n n' : Node Expr}

theorem Known.smaller {a a' : Expr} (known : Known k e e') (tidy : Tidy a) (tidy' : Tidy a')
    (size : a.size < e.size) (size' : a'.size < e'.size) (j : Nat) (place : j ≤ 17) :
    Reads j a a' := by
  refine known j place a a' tidy tidy' ?_
  have := weight_le j a
  have := weight_le j a'
  have := le_weight k e
  have := le_weight k e'
  unfold measureAt
  omega

/-- What an expression begins with comes no later than the expression. -/
theorem Known.within (known : Known k e e') (inside : b.Within e) (inside' : b'.Within e') :
    Known k b b' := by
  have le {b e : Expr} (inside : b.Within e) : b.weight k ≤ e.weight k := by
    rcases inside.eq_or_size_lt with rfl | smaller
    · exact Nat.le_refl _
    · have := weight_le k b
      have := le_weight k e
      omega
  intro j place a a' tidy tidy' earlier
  refine known j place a a' tidy tidy' ?_
  have := le inside
  have := le inside'
  unfold measureAt at earlier ⊢
  omega

/-- Children are told apart. -/
theorem Known.told (known : Known k (mk n) (mk n')) (tidy : Tidy (mk n)) (tidy' : Tidy (mk n')) :
    n.Told n' := fun _ member _ member' =>
  known.smaller (tidy.child member) (tidy'.child member') (size_lt_of_mem member)
    (size_lt_of_mem member')

/-- Chains of the rank of the place. -/
theorem Reads.of_bases (place : k ≤ 17) (tidy : Tidy e) (tidy' : Tidy e') (known : Known k e e')
    (bases : ∀ b b' : Expr, b.Within e → b'.Within e' → b.Bare k → b'.Bare k →
      Splits (Closes (k + 1)) (b = b') (b.lettersAt k) (b'.lettersAt k)) : Reads k e e' := by
  obtain ⟨b, ss, chain, suffixes, inside, bare⟩ := exists_chain k e
  obtain ⟨b', ss', chain', suffixes', inside', bare'⟩ := exists_chain k e'
  have reads := Suffix.splits_attachAll place (fun s member => (suffixes s member).1)
    (fun s member => (suffixes' s member).1)
    (fun s member => (suffixes s member).2.imp fun x part => tidy.within part)
    (fun s member => (suffixes' s member).2.imp fun x part => tidy'.within part)
    (bases b b' inside inside' bare bare') fun s member s' member' c inside c' inside' => by
      obtain ⟨x, part⟩ := (suffixes s member).2
      obtain ⟨x', part'⟩ := (suffixes' s' member').2
      have child := Suffix.mem_children_attach_of_mem inside x
      have child' := Suffix.mem_children_attach_of_mem inside' x'
      exact known.smaller ((tidy.within part).child child) ((tidy'.within part').child child')
        (Nat.lt_of_lt_of_le (size_lt_of_mem child) (size_le_of_within part))
        (Nat.lt_of_lt_of_le (size_lt_of_mem child') (size_le_of_within part'))
  rwa [← chain, ← chain'] at reads

/-- What binds neither like an operand nor like an argument has the rank of other places. -/
theorem Expr.rank_ne_of_bare (tidy : Tidy b) (loosest : 0 < k) (tightest : k < 17)
    (bare : b.Bare k) :
    b.node.precedence.rank ≠ k := by
  obtain ⟨n⟩ := b
  have legible : n.Legible := tidy.1.here
  change n.precedence.rank ≠ k
  cases Node.form legible with
  | @headed head _ headed =>
    rw [headed.rank_precedence]
    split <;> omega
  | suffixed s x =>
    rw [s.precedence_attach]
    exact bare s x rfl
  | tailed t x =>
    rw [t.precedence_attach]
    exact Nat.ne_of_lt loosest

/-- Places between the loosest and the tightest one. -/
theorem Reads.step (loosest : 0 < k) (tightest : k < 17) (tidy : Tidy e) (tidy' : Tidy e')
    (known : Known k e e') : Reads k e e' := by
  refine .of_bases (Nat.le_of_lt tightest) tidy tidy' known ?_
  intro b b' inside inside' bare bare'
  have rank := rank_ne_of_bare (tidy.within inside) loosest tightest bare
  have rank' := rank_ne_of_bare (tidy'.within inside') loosest tightest bare'
  have le {b e : Expr} (rank : b.node.precedence.rank ≠ k) (inside : b.Within e) :
      b.weight (k + 1) ≤ e.weight k := by
    rcases inside.eq_or_size_lt with rfl | smaller
    · have same : b.node.precedence.rank < k + 1 ↔ b.node.precedence.rank < k := by omega
      simp only [weight, same, Nat.le_refl]
    · have := weight_le (k + 1) b
      have := le_weight k e
      omega
  have next : Reads (k + 1) b b' := by
    refine known (k + 1) tightest b b' (tidy.within inside) (tidy'.within inside') ?_
    have := le rank inside
    have := le rank' inside'
    unfold measureAt
    omega
  rwa [Reads, lettersAt_succ rank, lettersAt_succ rank'] at next

/-- In the tightest place stand parentheses and atoms. -/
theorem Expr.tightest_of_bare (tidy : Tidy (mk n)) (bare : (mk n).Bare 17) :
    n.precedence.rank < 17 ∨
      n.precedence.rank = 17 ∧ ∃ head : Head, head.isAtom ∧ Headed head n := by
  have legible : n.Legible := tidy.1.here
  cases Node.form legible with
  | @headed head _ headed =>
    rw [headed.rank_precedence]
    cases atom : head.isAtom with
    | true => exact Or.inr ⟨rfl, head, atom, headed⟩
    | false => exact Or.inl (by decide)
  | suffixed s x =>
    rw [s.precedence_attach]
    exact Or.inl (Nat.lt_of_le_of_ne s.rank_le (bare s x rfl))
  | tailed t x =>
    rw [t.precedence_attach]
    exact Or.inl (by decide)

theorem Headed.ne_parenthesis {head : Head} (headed : Headed head n) : head ≠ .parenthesis := by
  rintro rfl
  cases headed

/-- What stands before all dots in the tightest place. -/
theorem splits_tightest (tidy : Tidy b) (tidy' : Tidy b') (bare : b.Bare 17) (bare' : b'.Bare 17)
    (known : Known 17 b b') :
    Splits (Closes 18) (b = b') (b.lettersAt 17) (b'.lettersAt 17) := by
  obtain ⟨n⟩ := b
  obtain ⟨n'⟩ := b'
  -- A parenthesis is never the mark of an expression without one.
  have mixed {n n' : Node Expr} (tidy' : Tidy (mk n')) (loose : n.precedence.rank < 17)
      (tight : n'.precedence.rank = 17) {head : Head} (headed : Headed head n') (r r' : List Char)
      (ends : Closes 18 r') : (mk n).lettersAt 17 ++ r ≠ (mk n').lettersAt 17 ++ r' := by
    intro same
    have heads := congrArg Head.ofLetters same
    rw [lettersAt_of_lt loose, lettersAt_of_le (Nat.le_of_eq tight.symm),
      headed.ofLetters_layout tidy'.1 (ends.endsName (Nat.le_refl 18))] at heads
    exact headed.ne_parenthesis heads.symm
  rcases tightest_of_bare tidy bare with loose | ⟨tight, head, atom, headed⟩
  · rcases tightest_of_bare tidy' bare' with loose' | ⟨tight', head', atom', headed'⟩
    -- Inside of the parentheses both are smaller, so they are told apart already.
    · have inner : Reads 0 (mk n) (mk n') := by
        refine known 0 (by decide) _ _ tidy tidy' ?_
        have := weight_of_lt loose
        have := weight_of_lt loose'
        have := weight_zero (mk n)
        have := weight_zero (mk n')
        unfold measureAt
        omega
      rw [lettersAt_of_lt loose, lettersAt_of_lt loose']
      exact (inner.closed [')'] fun r _ => .of_endRank rfl).fixed ['(']
    · exact fun r r' _ ends same => (mixed tidy' loose tight' headed' r r' ends same).elim
  · rcases tightest_of_bare tidy' bare' with loose' | ⟨tight', head', atom', headed'⟩
    · exact fun r r' ends _ same => (mixed tidy loose' tight headed r' r ends same.symm).elim
    · rw [lettersAt_of_le (Nat.le_of_eq tight.symm), lettersAt_of_le (Nat.le_of_eq tight'.symm)]
      have marked := headed.splits_layout headed' tidy.1 tidy'.1 (known.told tidy tidy')
      rw [Head.reach, if_pos atom] at marked
      exact marked.imp (congrArg mk)

/-! ### The loosest place -/

/-- What does not begin with a mark of the loosest place is an expression of the next place, with
or without a tail. -/
theorem Expr.exists_tail (tidy : Tidy (mk n)) :
    (∃ head : Head, head.isAtom = false ∧ Headed head n) ∨
      ∃ x o, mk n = Tail.attachOption x o ∧
        letters (mk n) = lettersAt 1 x ++ Tail.optionLetters o ∧
        x.Within (mk n) ∧ x.weight 1 ≤ (mk n).weight 0 := by
  -- An expression of the next place has no tail.
  have alone (place : 1 ≤ n.precedence.rank) : ∃ x o, mk n = Tail.attachOption x o ∧
      letters (mk n) = lettersAt 1 x ++ Tail.optionLetters o ∧
      x.Within (mk n) ∧ x.weight 1 ≤ (mk n).weight 0 := by
    refine ⟨mk n, none, rfl, ?_, .refl, Nat.le_of_eq (weight_of_le place)⟩
    rw [lettersAt_of_le place, letters_mk]
    exact (List.append_nil _).symm
  have legible : n.Legible := tidy.1.here
  cases Node.form legible with
  | @headed head _ headed =>
    cases atom : head.isAtom with
    | true =>
      refine Or.inr (alone ?_)
      rw [headed.rank_precedence, atom]
      decide
    | false => exact Or.inl ⟨head, atom, headed⟩
  | suffixed s x =>
    refine Or.inr (alone ?_)
    rw [s.precedence_attach]
    exact s.rank_pos
  | tailed t x =>
    have member := t.mem_children_attach x
    have smaller := size_lt_of_mem member
    refine Or.inr ⟨x, some t, rfl, ?_, .of_child member, ?_⟩
    · rw [letters_mk, t.layout_attach]
      rfl
    · have := weight_le 1 x
      rw [weight_zero]
      omega

/-- A mark of the loosest place is not what expressions in the next place begin with. -/
theorem Headed.layout_ne {head : Head} {x : Expr} {o : Option Tail} {r r' : List Char}
    (headed : Headed head n) (opener : head.isAtom = false) (tidy : Tidy (mk n)) (part : Tidy x)
    (ends : Closes 0 r) (ends' : Closes 0 r') :
    n.layout ++ r ≠ lettersAt 1 x ++ Tail.optionLetters o ++ r' := by
  intro same
  have after := (Tail.closes_optionLetters o ends').endsName (by decide)
  have atom := (begins part.1 1 after).2 Nat.one_pos
  rw [← List.append_assoc, ← same, headed.ofLetters_layout tidy.1 (ends.endsName (by decide)),
    opener] at atom
  cases atom

/-- Expressions of the next place, with or without a tail. -/
theorem Reads.tails {x x' : Expr} {o o' : Option Tail} (same : mk n = Tail.attachOption x o)
    (same' : mk n' = Tail.attachOption x' o')
    (written : letters (mk n) = lettersAt 1 x ++ Tail.optionLetters o)
    (written' : letters (mk n') = lettersAt 1 x' ++ Tail.optionLetters o')
    (first : Reads 1 x x') (told : n.Told n') : Reads 0 (mk n) (mk n') := by
  have child {n : Node Expr} {x : Expr} {o : Option Tail} {t : Tail}
      (same : mk n = Tail.attachOption x o) (member : t ∈ o) : t.child ∈ n.children := by
    rw [Option.mem_def.mp member] at same
    cases same
    exact t.child_mem x
  have tails : Splits (Closes 0) (o = o') (Tail.optionLetters o) (Tail.optionLetters o') := by
    refine splits_option (fun t member t' member' => Tail.splits ?_) fun t r r' ends same => ?_
    · exact told _ (child same member) _ (child same' member') 0 (by decide)
    · have rank := t.endRank_letters r'
      rw [same] at rank
      exact absurd (rank ▸ ends : 1 ≤ 0) (by decide)
  rw [Reads, lettersAt_zero, lettersAt_zero, written, written', same, same']
  refine (first.append (fun _ => tails) (fun r ends => Tail.closes_optionLetters o ends)
    fun r ends => Tail.closes_optionLetters o' ends).imp ?_
  rintro ⟨rfl, rfl⟩
  rfl

/-- The loosest place. -/
theorem Reads.loosest (tidy : Tidy (mk n)) (tidy' : Tidy (mk n')) (known : Known 0 (mk n) (mk n')) :
    Reads 0 (mk n) (mk n') := by
  have told := known.told tidy tidy'
  rcases exists_tail tidy with ⟨head, opener, headed⟩ | ⟨x, o, same, written, inside, weight⟩
  · rcases exists_tail tidy' with
      ⟨head', opener', headed'⟩ | ⟨x', o', same', written', inside', weight'⟩
    · have marked := headed.splits_layout headed' tidy.1 tidy'.1 told
      rw [Head.reach, opener, ← letters_mk, ← letters_mk] at marked
      exact marked.imp (congrArg mk)
    · intro r r' ends ends' equal
      rw [lettersAt_zero, lettersAt_zero, written', letters_mk] at equal
      exact (headed.layout_ne opener tidy (tidy'.within inside') ends ends' equal).elim
  · rcases exists_tail tidy' with
      ⟨head', opener', headed'⟩ | ⟨x', o', same', written', inside', weight'⟩
    · intro r r' ends ends' equal
      rw [lettersAt_zero, lettersAt_zero, written, letters_mk] at equal
      exact (headed'.layout_ne opener' tidy' (tidy.within inside) ends' ends equal.symm).elim
    · refine .tails same same' written written' ?_ told
      refine known 1 (by decide) x x' (tidy.within inside) (tidy'.within inside') ?_
      unfold measureAt
      omega

/-- Tidy expressions are told apart in every place. -/
theorem Reads.of_tidy (place : k ≤ 17) (tidy : Tidy e) (tidy' : Tidy e') : Reads k e e' := by
  induction size : measureAt k e e' using Nat.strongRecOn generalizing k e e' with
  | ind m ih =>
    subst size
    have known : Known k e e' := fun j place a a' tidy tidy' smaller =>
      ih _ smaller place tidy tidy' rfl
    rcases Nat.eq_zero_or_pos k with rfl | positive
    · obtain ⟨n⟩ := e
      obtain ⟨n'⟩ := e'
      exact .loosest tidy tidy' known
    · rcases Nat.lt_or_eq_of_le place with between | rfl
      · exact .step positive between tidy tidy' known
      · refine .of_bases place tidy tidy' known ?_
        intro b b' inside inside' bare bare'
        exact splits_tightest (tidy.within inside) (tidy'.within inside') bare bare'
          (known.within inside inside')

namespace Expr

/-- Texts of legible expressions are equal exactly if the expressions become equal when operands
of single operators are regrouped. -/
theorem render_eq_iff {a b : Expr} (legible : Legible a) (legible' : Legible b) :
    a.render = b.render ↔ Associated a b := by
  constructor
  · intro same
    have regrouped : a.leftNested.letters = b.leftNested.letters := by
      rw [letters, letters, render, render, ← (associated_leftNested a).renderAt_eq .base,
        ← (associated_leftNested b).renderAt_eq .base]
      exact congrArg String.toList same
    have tidy : Tidy a.leftNested := ⟨legible_leftNested legible, leftNested_leftNested a⟩
    have tidy' : Tidy b.leftNested := ⟨legible_leftNested legible', leftNested_leftNested b⟩
    have reads := Reads.of_tidy (Nat.zero_le 17) tidy tidy'
    have equal := (reads [] [] (Nat.le_refl 0) (Nat.le_refl 0) (congrArg (· ++ []) regrouped)).1
    exact (associated_leftNested a).trans (equal ▸ (associated_leftNested b).symm)
  · exact fun associated => associated.renderAt_eq .base

/-- Two groupings of a chain with a quoted label, an escaped dollar sign and an index. -/
theorem render_eq_iff_chain :
    Legible (op .textAppend (op .textAppend (var ⟨⟨"if"⟩, 0⟩) (text (.plain "$")))
        (var ⟨⟨"x"⟩, 1⟩)) ∧
      Legible (op .textAppend (var ⟨⟨"if"⟩, 0⟩)
        (op .textAppend (text (.plain "$")) (var ⟨⟨"x"⟩, 1⟩))) ∧
      ((op .textAppend (op .textAppend (var ⟨⟨"if"⟩, 0⟩) (text (.plain "$")))
          (var ⟨⟨"x"⟩, 1⟩)).render =
        (op .textAppend (var ⟨⟨"if"⟩, 0⟩)
          (op .textAppend (text (.plain "$")) (var ⟨⟨"x"⟩, 1⟩))).render ↔
        Associated
          (op .textAppend (op .textAppend (var ⟨⟨"if"⟩, 0⟩) (text (.plain "$"))) (var ⟨⟨"x"⟩, 1⟩))
          (op .textAppend (var ⟨⟨"if"⟩, 0⟩)
            (op .textAppend (text (.plain "$")) (var ⟨⟨"x"⟩, 1⟩)))) := by
  have first : Legible (var ⟨⟨"if"⟩, 0⟩) := legible_mk.mpr ⟨⟨rfl, by decide⟩, nofun⟩
  have second : Legible (text (.plain "$")) := legible_mk.mpr ⟨⟨rfl, nofun⟩, nofun⟩
  have third : Legible (var ⟨⟨"x"⟩, 1⟩) := legible_mk.mpr ⟨⟨rfl, by decide⟩, nofun⟩
  have left : Legible (op .textAppend (op .textAppend _ _) _) :=
    legible_op.mpr ⟨legible_op.mpr ⟨first, second⟩, third⟩
  have right : Legible (op .textAppend _ (op .textAppend _ _)) :=
    legible_op.mpr ⟨first, legible_op.mpr ⟨second, third⟩⟩
  exact ⟨left, right, render_eq_iff left right⟩

end Expr

end Dhall
