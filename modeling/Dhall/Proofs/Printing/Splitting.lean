/-
# Where a written piece ends

Texts are written one after the other, without marks between them. Two pieces can be split from
what follows them if texts that begin with them are equal only where the pieces stand for the
same thing and are followed by the same text. What may follow is restricted, since a piece may
go on in the same way in which it begins. Pieces that can be split make up longer ones: words,
numbers, escaped text, sequences and lists.

## Main definitions

* `Splits` — two pieces are told apart from what follows them
* `separated` — pieces with a separator between them

## Main results

* `Splits.append` — pieces that follow each other
* `splits_flatMap`, `splits_separated` — lists of pieces
* `splits_run` — runs of characters of one kind
* `splits_repr`, `Text.splits_escape` — numbers, and text between quotes
-/

import Dhall.Proofs.Escape

namespace Dhall

/-- If two texts are equal that begin with these pieces and go on as permitted, then the pieces
stand for the same thing and the texts go on in the same way. -/
def Splits (F : List Char → Prop) (same : Prop) (w w' : List Char) : Prop :=
  ∀ r r', F r → F r' → w ++ r = w' ++ r' → same ∧ r = r'

namespace Splits

variable {F G : List Char → Prop} {same same' : Prop} {v v' w w' : List Char}

theorem nil : Splits F True [] [] :=
  fun _ _ _ _ equal => ⟨.intro, equal⟩

theorem imp (h : Splits F same w w') (weaker : same → same') : Splits F same' w w' :=
  fun r r' hr hr' equal => (h r r' hr hr' equal).imp_left weaker

/-- Fewer texts may follow. -/
theorem mono (h : Splits G same w w') (stronger : ∀ r, F r → G r) : Splits F same w w' :=
  fun r r' hr hr' => h r r' (stronger r hr) (stronger r' hr')

/-- The same piece in front of others. -/
theorem fixed (s : List Char) (h : Splits F same w w') : Splits F same (s ++ w) (s ++ w') := by
  intro r r' hr hr' equal
  rw [List.append_assoc, List.append_assoc] at equal
  exact h r r' hr hr' (List.append_cancel_left equal)

/-- Pieces that are followed by others, which may depend on what the first ones stand for. -/
theorem append (h : Splits G same v v') (rest : same → Splits F same' w w')
    (left : ∀ r, F r → G (w ++ r)) (right : ∀ r, F r → G (w' ++ r)) :
    Splits F (same ∧ same') (v ++ w) (v' ++ w') := by
  intro r r' hr hr' equal
  rw [List.append_assoc, List.append_assoc] at equal
  obtain ⟨first, equal⟩ := h _ _ (left r hr) (right r' hr') equal
  obtain ⟨second, equal⟩ := rest first r r' hr hr' equal
  exact ⟨⟨first, second⟩, equal⟩

/-- Pieces with a mark after them, at which both end. -/
theorem before (mark : List Char) (h : Splits G same v v') (stop : ∀ r, G (mark ++ r))
    (rest : Splits F same' w w') :
    Splits F (same ∧ same') (v ++ (mark ++ w)) (v' ++ (mark ++ w')) :=
  h.append (fun _ => rest.fixed mark) (fun r _ => List.append_assoc mark w r ▸ stop _)
    fun r _ => List.append_assoc mark w' r ▸ stop _

/-- Pieces with a mark after them that belongs to them. -/
theorem closed (mark : List Char) (h : Splits G same v v') (stop : ∀ r, F r → G (mark ++ r)) :
    Splits F same (v ++ mark) (v' ++ mark) := by
  intro r r' hr hr' equal
  rw [List.append_assoc, List.append_assoc] at equal
  obtain ⟨first, rest⟩ := h _ _ (stop r hr) (stop r' hr') equal
  exact ⟨first, List.append_cancel_left rest⟩

/-- Pieces that begin with one character each. -/
theorem cons {c d : Char} (h : c = d → Splits F same w w') :
    Splits F (c = d ∧ same) (c :: w) (d :: w') := by
  intro r r' hr hr' equal
  obtain ⟨first, rest⟩ := List.cons.inj equal
  obtain ⟨same, rest⟩ := h first r r' hr hr' rest
  exact ⟨⟨first, same⟩, rest⟩

/-- Pieces that begin differently. -/
theorem of_head_ne (h : ∀ r r', F r → F r' → (w ++ r).head? ≠ (w' ++ r').head?) :
    Splits F same w w' :=
  fun r r' hr hr' equal => (h r r' hr hr' (congrArg List.head? equal)).elim

end Splits

section Lists

variable {α : Type} {F G : List Char → Prop} {w : α → List Char}

/-- A list of pieces goes on as long as another piece follows, which what comes after the list
must not look like. -/
theorem splits_flatMap {as bs : List α}
    (each : ∀ a ∈ as, ∀ b ∈ bs, Splits G (a = b) (w a) (w b)) (stop : ∀ r, F r → G r)
    (more : ∀ a r, a ∈ as ∨ a ∈ bs → G r → G (w a ++ r))
    (apart : ∀ a r r', a ∈ as ∨ a ∈ bs → F r → G r' → w a ++ r' ≠ r) :
    Splits F (as = bs) (as.flatMap w) (bs.flatMap w) := by
  -- After a piece comes another one or the end of the list, and a piece may end before both.
  have after (cs : List α) (inside : ∀ c ∈ cs, c ∈ as ∨ c ∈ bs) (r : List Char) (hr : F r) :
      G (cs.flatMap w ++ r) := by
    induction cs with
    | nil => exact stop r hr
    | cons c cs ih =>
      rw [List.flatMap_cons, List.append_assoc]
      exact more c _ (inside c (.head _)) (ih fun d member => inside d (.tail _ member))
  -- Lists of different lengths would have a piece where the shorter one ends.
  induction as generalizing bs with
  | nil =>
    cases bs with
    | nil => exact Splits.nil.imp fun _ => rfl
    | cons b bs =>
      intro r r' hr hr' equal
      rw [List.flatMap_cons, List.append_assoc] at equal
      have rest := after bs (fun c member => Or.inr (.tail _ member)) r' hr'
      exact (apart b r _ (Or.inr (.head _)) hr rest equal.symm).elim
  | cons a as ih =>
    cases bs with
    | nil =>
      intro r r' hr hr' equal
      rw [List.flatMap_cons, List.append_assoc] at equal
      have rest := after as (fun c member => Or.inl (.tail _ member)) r hr
      exact (apart a r' _ (Or.inl (.head _)) hr' rest equal).elim
    | cons b bs =>
      have later {c : α} (inside : c ∈ as ∨ c ∈ bs) : c ∈ a :: as ∨ c ∈ b :: bs :=
        inside.imp (.tail _) (.tail _)
      have rest : Splits F (as = bs) (as.flatMap w) (bs.flatMap w) :=
        ih (fun c hc d hd => each c (.tail _ hc) d (.tail _ hd))
          (fun c r inside => more c r (later inside))
          (fun c r r' inside => apart c r r' (later inside))
          fun cs inside => after cs fun c member => later (inside c member)
      rw [List.flatMap_cons, List.flatMap_cons]
      refine ((each a (.head _) b (.head _)).append (fun _ => rest) ?_ ?_).imp ?_
      · exact after as fun c member => Or.inl (.tail _ member)
      · exact after bs fun c member => Or.inr (.tail _ member)
      · rintro ⟨rfl, rfl⟩
        rfl

/-- Pieces with a separator between them. -/
def separated (separator : List Char) (w : α → List Char) : List α → List Char
  | [] => []
  | a :: as => w a ++ as.flatMap fun b => separator ++ w b

theorem separated_map {β : Type} (separator : List Char) (w : β → List Char) (f : α → β)
    (as : List α) :
    separated separator w (as.map f) = separated separator (fun a => w (f a)) as := by
  cases as with
  | nil => rfl
  | cons a as => simp [separated, List.flatMap_map]

/-- A list of pieces with separators goes on as long as a separator follows, and it is empty if
the closing mark stands in the place of the first piece. -/
theorem splits_separated {separator closing : List Char} {as bs : List α}
    (each : ∀ a ∈ as, ∀ b ∈ bs, Splits G (a = b) (w a) (w b)) (stop : ∀ r, G (closing ++ r))
    (more : ∀ r, G (separator ++ r)) (apart : ∀ r r', separator ++ r' ≠ closing ++ r)
    (first : ∀ a r r', a ∈ as ∨ a ∈ bs → G r' → w a ++ r' ≠ closing ++ r) :
    Splits F (as = bs) (separated separator w as ++ closing)
      (separated separator w bs ++ closing) := by
  have closes (r : List Char) (_ : F r) : closing <+: closing ++ r := List.prefix_append _ _
  have stop (r : List Char) (ends : closing <+: r) : G r := by
    obtain ⟨rest, rfl⟩ := ends
    exact stop rest
  -- All pieces but the first one come with a separator in front.
  have others (as bs : List α) (each : ∀ a ∈ as, ∀ b ∈ bs, Splits G (a = b) (w a) (w b)) :
      Splits (closing <+: ·) (as = bs) (as.flatMap fun a => separator ++ w a)
        (bs.flatMap fun b => separator ++ w b) := by
    refine splits_flatMap (G := G) (fun a ha b hb => (each a ha b hb).fixed separator) stop ?_ ?_
    · exact fun a r _ _ => List.append_assoc separator (w a) r ▸ more _
    · rintro a _ r' - ⟨rest, rfl⟩ -
      exact List.append_assoc separator (w a) r' ▸ apart rest _
  have after (as : List α) (r : List Char) (ends : closing <+: r) :
      G ((as.flatMap fun a => separator ++ w a) ++ r) := by
    cases as with
    | nil => exact stop r ends
    | cons a as =>
      rw [List.flatMap_cons, List.append_assoc, List.append_assoc]
      exact more _
  refine Splits.closed closing ?_ closes
  cases as with
  | nil =>
    cases bs with
    | nil => exact Splits.nil.imp fun _ => rfl
    | cons b bs =>
      rintro _ r' ⟨rest, rfl⟩ hr' equal
      rw [separated, separated, List.append_assoc] at equal
      exact (first b rest _ (Or.inr (.head _)) (after bs r' hr') equal.symm).elim
  | cons a as =>
    cases bs with
    | nil =>
      rintro r _ hr ⟨rest, rfl⟩ equal
      rw [separated, separated, List.append_assoc] at equal
      exact (first a rest _ (Or.inl (.head _)) (after as r hr) equal).elim
    | cons b bs =>
      refine ((each a (.head _) b (.head _)).append (fun _ => others as bs ?_) (after as)
        (after bs)).imp ?_
      · exact fun c hc d hd => each c (.tail _ hc) d (.tail _ hd)
      · rintro ⟨rfl, rfl⟩
        rfl

/-- A piece that may be left out. -/
theorem splits_option {o o' : Option α} (each : ∀ a ∈ o, ∀ b ∈ o', Splits F (a = b) (w a) (w b))
    (apart : ∀ a r r', F r → w a ++ r' ≠ r) : Splits F (o = o') (o.elim [] w) (o'.elim [] w) := by
  cases o with
  | none =>
    cases o' with
    | none => exact Splits.nil.imp fun _ => rfl
    | some b => exact fun r r' hr _ equal => (apart b r r' hr equal.symm).elim
  | some a =>
    cases o' with
    | none => exact fun r r' _ hr' equal => (apart a r' r hr' equal).elim
    | some b => exact (each a rfl b rfl).imp (congrArg some)

end Lists

/-! ### Runs of characters -/

/-- A run of characters of one kind is what a text begins with if another kind of character
follows. -/
theorem takeWhile_run {kind : Char → Bool} {xs r : List Char} (run : ∀ c ∈ xs, kind c)
    (stop : ∀ c ∈ r.head?, kind c = false) : (xs ++ r).takeWhile kind = xs := by
  rw [List.takeWhile_append_of_pos run]
  cases r with
  | nil => exact List.append_nil xs
  | cons c r => rw [List.takeWhile_cons_of_neg (by simp [stop c rfl]), List.append_nil]

/-- A run of characters of one kind ends where another kind of character follows. -/
theorem splits_run {kind : Char → Bool} {xs ys : List Char} (hx : ∀ c ∈ xs, kind c)
    (hy : ∀ c ∈ ys, kind c) : Splits (fun r => ∀ c ∈ r.head?, kind c = false) (xs = ys) xs ys := by
  intro r r' hr hr' equal
  have same : xs = ys := by
    rw [← takeWhile_run hx hr, ← takeWhile_run hy hr', equal]
  subst same
  exact ⟨rfl, List.append_cancel_left equal⟩

theorem toList_repr (n : Nat) : n.repr.toList = Nat.toDigits 10 n := by
  rw [Nat.repr_eq_ofList_toDigits, String.toList_ofList]

theorem isDigit_of_mem_repr {n : Nat} : ∀ c ∈ n.repr.toList, c.isDigit := by
  intro c member
  rw [toList_repr] at member
  exact Nat.isDigit_of_mem_toDigits (by decide) (by decide) member

/-- A number begins with a digit. -/
theorem exists_digit (n : Nat) : ∃ d rest, n.repr.toList = d :: rest ∧ d.isDigit := by
  have filled : n.repr.toList ≠ [] := by
    rw [toList_repr]
    exact Nat.toDigits_ne_nil
  obtain ⟨d, rest, digits⟩ := List.exists_cons_of_ne_nil filled
  have first : d ∈ n.repr.toList := by
    rw [digits]
    exact .head _
  exact ⟨d, rest, digits, isDigit_of_mem_repr d first⟩

/-- A number in decimal digits. -/
theorem splits_repr (m n : Nat) :
    Splits (fun r => ∀ c ∈ r.head?, c.isDigit = false) (m = n) m.repr.toList n.repr.toList := by
  refine (splits_run isDigit_of_mem_repr isDigit_of_mem_repr).imp fun same => ?_
  rw [toList_repr, toList_repr] at same
  have read := congrArg (Nat.ofDigitChars 10 · 0) same
  simpa only [Nat.ofDigitChars_ten_toDigits] using read

namespace Text

/-- Escaped text ends at a quote or at an interpolation. -/
theorem splits_escape (s s' : String) :
    Splits (fun r => r.head? = some '"' ∨ r.head? = some '$') (s = s') (escape s).toList
      (escape s').toList := by
  have each (c d : Char) : Splits (fun _ => True) (c = d) (escapeChar c) (escapeChar d) :=
    fun _ _ _ _ => escapeChar_append_inj
  rw [escape, escape, String.toList_ofList, String.toList_ofList]
  refine (splits_flatMap (fun c _ d _ => each c d) (fun _ _ => trivial) (fun _ _ _ _ => trivial)
    fun c r r' _ stop _ same => ?_).imp fun same => String.toList_inj.mp same
  rw [← same] at stop
  rcases stop with quote | interpolation
  · exact (head?_escapeChar c r').1 quote
  · exact (head?_escapeChar c r').2 interpolation

end Text

end Dhall
