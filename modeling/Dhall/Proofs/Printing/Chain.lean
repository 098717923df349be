/-
# Chains of suffixes and tails

An expression in a place is written as an expression that cannot stand there in two ways,
followed by suffixes of the rank of the place. Where one suffix ends is seen from the next one,
and where the chain ends from what follows it, so chains are told apart if the expressions at
their beginning and the parts of their suffixes are. In the loosest place a tail may come last.

## Main definitions

* `Expr.Tidy` — legible expressions in which no operator is the right operand of itself
* `Expr.Bare` — expressions that no suffix of a rank makes
* `Suffix.attachAll`, `Tail.attachOption` — an expression with suffixes or with a tail after it

## Main results

* `Expr.exists_chain` — every expression is a chain of any rank
* `Suffix.splits` — suffixes of one rank are told apart
* `Suffix.splits_attachAll` — chains of one rank are told apart
* `Tail.splits` — tails are told apart
-/

import Dhall.Proofs.Printing.Marked

namespace Dhall

theorem Operator.rank_inj {o p : Operator} : o.rank = p.rank ↔ o = p := by
  cases o <;> cases p <;> decide

namespace Expr

/-- The expression is legible, and no operator in it is the right operand of itself. -/
def Tidy (e : Expr) : Prop :=
  Legible e ∧ LeftNested e

variable {e c : Expr} {n : Node Expr} {k : Nat}

theorem Tidy.within {s : Expr} (h : Tidy e) (inside : s.Within e) : Tidy s :=
  ⟨Everywhere.within h.1 inside, Everywhere.within h.2 inside⟩

theorem Tidy.child (h : Tidy (mk n)) (member : c ∈ n.children) : Tidy c :=
  h.within (.of_child member)

theorem size_le_of_within {s : Expr} (inside : s.Within e) : s.size ≤ e.size := by
  induction inside with
  | refl => exact Nat.le_refl _
  | child member _ ih => exact Nat.le_trans ih (Nat.le_of_lt (size_lt_of_mem member))

/-- What is within an expression and is not the expression itself has fewer nodes. -/
theorem Within.eq_or_size_lt {s : Expr} (inside : s.Within e) : s = e ∨ s.size < e.size := by
  cases inside with
  | refl => exact Or.inl rfl
  | child member inner =>
    exact Or.inr (Nat.lt_of_le_of_lt (size_le_of_within inner) (size_lt_of_mem member))

/-- The expression is not made by a suffix of the rank. -/
def Bare (k : Nat) (e : Expr) : Prop :=
  ∀ (s : Suffix) (x : Expr), e = mk (s.attach x) → s.rank ≠ k

/-- Places of neighbouring ranks are alike for expressions that do not stand in the looser one
alone. -/
theorem lettersAt_succ (h : e.node.precedence.rank ≠ k) : lettersAt (k + 1) e = lettersAt k e := by
  have same : e.node.precedence.rank < k + 1 ↔ e.node.precedence.rank < k := by omega
  simp only [lettersAt, same]

end Expr

namespace Suffix

variable {k : Nat} {e e' b b' : Expr} {s s' : Suffix} {ss ss' : List Suffix}

/-- An expression with suffixes after it. -/
def attachAll (b : Expr) (ss : List Suffix) : Expr :=
  ss.foldl (fun e s => .mk (s.attach e)) b

theorem lettersAt_attachAll (ranks : ∀ s ∈ ss, s.rank = k) :
    (attachAll b ss).lettersAt k = b.lettersAt k ++ ss.flatMap letters := by
  induction ss generalizing b with
  | nil => exact (List.append_nil _).symm
  | cons s ss ih =>
    have first : (Expr.mk (s.attach b)).lettersAt k = b.lettersAt k ++ s.letters := by
      have place : k ≤ (s.attach b).precedence.rank :=
        Nat.le_of_eq ((s.precedence_attach b).trans (ranks s (.head _))).symm
      rw [Expr.lettersAt_of_le place, s.layout_attach, ranks s (.head _)]
    have rest := ih (b := .mk (s.attach b)) fun s member => ranks s (.tail _ member)
    rw [List.flatMap_cons, ← List.append_assoc, ← first]
    exact rest

end Suffix

/-- Every expression is a chain of each rank: a bare expression with suffixes of the rank after
it. -/
theorem Expr.exists_chain (k : Nat) (e : Expr) : ∃ b ss, e = Suffix.attachAll b ss ∧
    (∀ s ∈ ss, s.rank = k ∧ ∃ x, (mk (s.attach x)).Within e) ∧ b.Within e ∧ b.Bare k := by
  induction e using induction with
  | step n ih =>
    by_cases made : ∃ s : Suffix, ∃ x, mk n = mk (s.attach x) ∧ s.rank = k
    · obtain ⟨s, x, same, rank⟩ := made
      cases same
      have member := s.mem_children_attach x
      obtain ⟨b, ss, chain, suffixes, inside, bare⟩ := ih x member
      refine ⟨b, ss ++ [s], ?_, ?_, inside.trans (.of_child member), bare⟩
      · rw [Suffix.attachAll, List.foldl_append]
        exact congrArg (fun x => mk (s.attach x)) chain
      · intro t position
        rcases List.mem_append.mp position with earlier | last
        · obtain ⟨rank', y, part⟩ := suffixes t earlier
          exact ⟨rank', y, part.trans (.of_child member)⟩
        · rw [List.mem_singleton.mp last]
          exact ⟨rank, x, .refl⟩
    · refine ⟨mk n, [], rfl, nofun, .refl, fun s x same rank => ?_⟩
      exact made ⟨s, x, same, rank⟩

/-- Only operations have the rank of their operator. -/
theorem Expr.eq_op_of_rank {e : Expr} {o : Operator}
    (h : e.node.precedence.rank = 2 + o.rank) : ∃ x y, e = op o x y := by
  have small := o.rank_lt
  obtain ⟨n⟩ := e
  cases n with
  | op p x y =>
    have same : p.rank = o.rank := Nat.add_left_cancel h
    rw [Operator.rank_inj.mp same]
    exact ⟨x, y, rfl⟩
  | _ =>
    simp only [node, Node.precedence, Precedence.rank] at h
    omega

namespace Suffix

variable {k : Nat} {b b' : Expr} {s s' : Suffix} {ss ss' : List Suffix}

/-- The expressions in a suffix. -/
def children : Suffix → List Expr
  | operand _ e | argument e | projectType e => [e]
  | field _ | project _ => []

theorem mem_children_attach_of_mem {c : Expr} (member : c ∈ s.children) (e : Expr) :
    c ∈ (s.attach e).children := by
  cases s with
  | operand o right => exact .tail _ member
  | argument a => exact .tail _ member
  | projectType type => exact .tail _ member
  | _ => cases member

/-- The suffix stands after some expression in a tidy one. -/
def Tidy (s : Suffix) : Prop :=
  ∃ e, Expr.Tidy (.mk (s.attach e))

/-- Operands bind less tightly than arguments. -/
theorem rank_operand_lt (o : Operator) (y : Expr) : (operand o y).rank < 15 :=
  Nat.add_lt_add_left o.rank_lt 2

theorem splits_operand {o : Operator} {y y' : Expr} (tidy : Tidy (operand o y))
    (tidy' : Tidy (operand o y')) (reads : Reads (2 + o.rank + 1) y y') :
    Splits (Closes (2 + o.rank + 1)) (operand o y = operand o y') (operand o y).letters
      (operand o y').letters := by
  have apart {y : Expr} (tidy : Tidy (operand o y)) : y.node.precedence.rank ≠ 2 + o.rank := by
    obtain ⟨x, -, nested⟩ := tidy
    intro rank
    obtain ⟨z, w, operation⟩ := Expr.eq_op_of_rank rank
    exact (Expr.leftNested_op_iff.mp nested).1 z w operation
  rw [Reads, Expr.lettersAt_succ (apart tidy), Expr.lettersAt_succ (apart tidy')] at reads
  exact (((reads.fixed [' ']).fixed o.render.toList).fixed [' ']).imp (congrArg (operand o))

/-- Labels, braces and parentheses after a dot begin differently. -/
theorem splits_selector (level : s.rank = 17) (level' : s'.rank = 17) (tidy : s.Tidy)
    (tidy' : s'.Tidy) (reads : ∀ c ∈ s.children, ∀ c' ∈ s'.children, Reads 0 c c') :
    Splits (Closes 18) (s = s') s.letters s'.letters := by
  obtain ⟨e, legible, -⟩ := tidy
  obtain ⟨e', legible', -⟩ := tidy'
  have clean := legible.here.2
  have clean' := legible'.here.2
  have operand (o : Operator) (y : Expr) : (operand o y).rank ≠ 17 :=
    Nat.ne_of_lt (Nat.lt_trans (rank_operand_lt o y) (by decide))
  have brace (l : Label) (r r' : List Char) :
      (l.render.toList ++ r).head? ≠ (['\x7b'] ++ r').head? := Label.head?_ne (by decide) l r
  have parenthesis (l : Label) (r r' : List Char) :
      (l.render.toList ++ r).head? ≠ (['('] ++ r').head? := Label.head?_ne (by decide) l r
  -- Only selectors have this rank. Two of one kind are compared by what they select, and two of
  -- different kinds by the first character after the dot.
  cases s with
  | operand o y => exact (operand o y level).elim
  | argument a => cases level
  | field l =>
    cases s' with
    | operand o y => exact (operand o y level').elim
    | argument a => cases level'
    | field l' =>
      have labels := (Label.splits (clean l (.head _)) (clean' l' (.head _))).mono
        fun r (ends : Closes 18 r) => ends.endsName (Nat.le_refl 18)
      exact (labels.fixed ['.']).imp (congrArg field)
    | project labels =>
      refine Splits.fixed ['.'] (.of_head_ne fun r r' _ _ => brace l r _)
    | projectType type =>
      refine Splits.fixed ['.'] (.of_head_ne fun r r' _ _ => parenthesis l r _)
  | project labels =>
    cases s' with
    | operand o y => exact (operand o y level').elim
    | argument a => cases level'
    | field l => exact Splits.fixed ['.'] (.of_head_ne fun r r' _ _ => (brace l r' _).symm)
    | project labels' =>
      exact ((splits_labels clean clean').fixed ['.']).imp (congrArg project)
    | projectType type => exact Splits.fixed ['.'] (.of_head_ne fun r r' _ _ => nofun)
  | projectType type =>
    cases s' with
    | operand o y => exact (operand o y level').elim
    | argument a => cases level'
    | field l => exact Splits.fixed ['.'] (.of_head_ne fun r r' _ _ => (parenthesis l r' _).symm)
    | project labels => exact Splits.fixed ['.'] (.of_head_ne fun r r' _ _ => nofun)
    | projectType type' =>
      have types := (reads type (.head _) type' (.head _)).closed [')']
        fun r (_ : Closes 18 r) => .of_endRank rfl
      exact (types.fixed ['.', '(']).imp (congrArg projectType)

/-- Suffixes of one rank are told apart. -/
theorem splits (level : s.rank = k) (level' : s'.rank = k) (tidy : s.Tidy) (tidy' : s'.Tidy)
    (reads : ∀ c ∈ s.children, ∀ c' ∈ s'.children, ∀ j ≤ 17, Reads j c c') :
    Splits (Closes (k + 1)) (s = s') s.letters s'.letters := by
  by_cases selector : k = 17
  · subst selector
    exact splits_selector level level' tidy tidy' fun c member c' member' =>
      reads c member c' member' 0 (by decide)
  · cases s with
    | operand o y =>
      cases s' with
      | operand o' y' =>
        have same : o.rank = o'.rank := Nat.add_left_cancel (level.trans level'.symm)
        cases Operator.rank_inj.mp same
        cases level
        have place : 2 + o.rank + 1 ≤ 17 := Nat.le_trans (rank_operand_lt o y) (by decide)
        exact splits_operand tidy tidy' (reads y (.head _) y' (.head _) _ place)
      | argument a =>
        exact absurd (level.trans level'.symm) (Nat.ne_of_lt (rank_operand_lt o y))
      | _ => exact (selector level'.symm).elim
    | argument a =>
      cases s' with
      | operand o y =>
        exact absurd (level'.trans level.symm) (Nat.ne_of_lt (rank_operand_lt o y))
      | argument a' =>
        cases level
        exact ((reads a (.head _) a' (.head _) 16 (by decide)).fixed [' ']).imp (congrArg argument)
      | _ => exact (selector level'.symm).elim
    | _ => exact (selector level.symm).elim

/-- Chains of suffixes of one rank are told apart. -/
theorem splits_attachAll (place : k ≤ 17) (levels : ∀ s ∈ ss, s.rank = k)
    (levels' : ∀ s ∈ ss', s.rank = k) (tidy : ∀ s ∈ ss, s.Tidy) (tidy' : ∀ s ∈ ss', s.Tidy)
    (bases : Splits (Closes (k + 1)) (b = b') (b.lettersAt k) (b'.lettersAt k))
    (reads : ∀ s ∈ ss, ∀ s' ∈ ss', ∀ c ∈ s.children, ∀ c' ∈ s'.children, ∀ j ≤ 17, Reads j c c') :
    Reads k (attachAll b ss) (attachAll b' ss') := by
  -- The rank at which a chain goes on tells that another suffix follows.
  have goes {s : Suffix} (level : s.rank = k) (tidy : s.Tidy) {r : List Char} (ends : EndsName r) :
      endRank (s.letters ++ r) = k + 1 := by
    obtain ⟨e, legible, -⟩ := tidy
    rw [endRank_letters (fun c member => legible.child member) ends, level]
  have ends {r : List Char} (closes : Closes (k + 1) r) : EndsName r :=
    closes.endsName (Nat.succ_le_succ place)
  -- Where the first of the suffixes begins, what is in front of them ends.
  have after {ss : List Suffix} (levels : ∀ s ∈ ss, s.rank = k) (tidy : ∀ s ∈ ss, s.Tidy)
      (r : List Char) (closes : Closes k r) : Closes (k + 1) (ss.flatMap letters ++ r) := by
    cases ss with
    | nil => exact closes.mono (Nat.le_succ k)
    | cons s ss =>
      have next : EndsName (ss.flatMap letters ++ r) := by
        cases ss with
        | nil => exact ends (closes.mono (Nat.le_succ k))
        | cons s' ss =>
          rw [List.flatMap_cons, List.append_assoc]
          exact s'.endsName_letters _
      rw [List.flatMap_cons, List.append_assoc]
      exact Nat.le_of_eq (goes (levels s (.head _)) (tidy s (.head _)) next)
  have suffixes : Splits (Closes k) (ss = ss') (ss.flatMap letters) (ss'.flatMap letters) := by
    refine splits_flatMap (G := Closes (k + 1)) (fun s member s' member' => ?_)
      (fun r closes => closes.mono (Nat.le_succ k)) ?_ ?_
    · exact splits (levels s member) (levels' s' member') (tidy s member) (tidy' s' member')
        (reads s member s' member')
    · rintro s r (member | member) closes
      · exact Nat.le_of_eq (goes (levels s member) (tidy s member) (ends closes))
      · exact Nat.le_of_eq (goes (levels' s member) (tidy' s member) (ends closes))
    · rintro s r r' (member | member) closes closes' rfl
      · have rank := goes (levels s member) (tidy s member) (ends closes')
        exact absurd (rank ▸ closes : k + 1 ≤ k) (Nat.not_succ_le_self k)
      · have rank := goes (levels' s member) (tidy' s member) (ends closes')
        exact absurd (rank ▸ closes : k + 1 ≤ k) (Nat.not_succ_le_self k)
  rw [Reads, lettersAt_attachAll levels, lettersAt_attachAll levels']
  refine (bases.append (fun _ => suffixes) (after levels tidy) (after levels' tidy')).imp ?_
  rintro ⟨rfl, rfl⟩
  rfl

end Suffix

/-! ### Tails -/

namespace Tail

variable {t t' : Tail} {x x' : Expr}

/-- The expression in a tail. -/
def child : Tail → Expr
  | colon e | arrow e => e

theorem child_mem (t : Tail) (x : Expr) : t.child ∈ (t.attach x).children := by
  cases t <;> exact .tail _ (.head _)

theorem endRank_letters (t : Tail) (r : List Char) : endRank (t.letters ++ r) = 1 := by
  cases t <;> rfl

/-- A colon and an arrow are different. -/
theorem splits (reads : Reads 0 t.child t'.child) :
    Splits (Closes 0) (t = t') t.letters t'.letters := by
  cases t with
  | colon type =>
    cases t' with
    | colon type' => exact (reads.fixed [' ', ':', ' ']).imp (congrArg colon)
    | arrow codomain => exact Splits.fixed [' '] (.of_head_ne fun r r' _ _ => nofun)
  | arrow codomain =>
    cases t' with
    | colon type => exact Splits.fixed [' '] (.of_head_ne fun r r' _ _ => nofun)
    | arrow codomain' => exact (reads.fixed [' ', '→', ' ']).imp (congrArg arrow)

/-- An expression with a tail that may be left out. -/
def attachOption (x : Expr) : Option Tail → Expr
  | none => x
  | some t => .mk (t.attach x)

/-- The characters of a tail that may be left out. -/
def optionLetters (o : Option Tail) : List Char :=
  o.elim [] letters

theorem closes_optionLetters (o : Option Tail) {r : List Char} (ends : Closes 0 r) :
    Closes 1 (optionLetters o ++ r) := by
  cases o with
  | none => exact ends.mono (Nat.zero_le 1)
  | some t => exact Nat.le_of_eq (t.endRank_letters r)

end Tail

end Dhall
