/-
# The characters of a written expression

The written form of a construct as characters: its marks, its labels and the written forms of
its children, each with the parentheses that its place demands. An expression stands without
parentheses in a place whose rank is at most its own.

## Main definitions

* `Expr.letters`, `Expr.lettersAt` — the characters of an expression, and of one in a place
* `Node.layout` — the characters of a construct

## Main results

* `Expr.letters_mk` — an expression is written as its construct is laid out
* `Expr.lettersAt_of_lt`, `Expr.lettersAt_of_le` — where an expression has parentheses
-/

import Dhall.Proofs.Printing.Association
import Dhall.Proofs.Printing.Name

namespace Dhall

namespace Expr

/-- The characters of the written form. -/
def letters (e : Expr) : List Char :=
  e.render.toList

/-- The characters of the written form in a place of a certain rank. -/
def lettersAt (rank : Nat) (e : Expr) : List Char :=
  if e.node.precedence.rank < rank then '(' :: (letters e ++ [')']) else letters e

/-- The characters of a type that may be left out, with the colon before it. -/
def typeLetters (rank : Nat) (type : Option Expr) : List Char :=
  type.elim [] fun t => [' ', ':', ' '] ++ lettersAt rank t

/-- The characters of a definition. -/
def bindingLetters (b : Binding Expr) : List Char :=
  ['l', 'e', 't', ' '] ++ (b.label.render.toList ++ (typeLetters 0 b.annotation ++
    ([' ', '=', ' '] ++ (letters b.value ++ [' ']))))

/-- The characters of a field, with a sign between its label and its expression. -/
def fieldLetters (sign : Char) (entry : Label × Expr) : List Char :=
  entry.1.render.toList ++ ([' ', sign, ' '] ++ letters entry.2)

/-- The characters of an alternative. -/
def alternativeLetters (entry : Label × Option Expr) : List Char :=
  entry.1.render.toList ++ typeLetters 0 entry.2

/-- The characters of an interpolated expression and of the text after it. -/
def pieceLetters (piece : Expr × String) : List Char :=
  ['$', '\x7b'] ++ (letters piece.1 ++ (['\x7d'] ++ (Text.escape piece.2).toList))

end Expr

open Dhall.Expr

/-- The characters between braces, with a blank on both sides. -/
def braced {α : Type} (w : α → List Char) (items : List α) : List Char :=
  ['\x7b', ' '] ++ (separated [',', ' '] w items ++ [' ', '\x7d'])

/-- The characters of a construct. -/
def Node.layout : Node Expr → List Char
  | lam x domain body => ['λ', '('] ++ (x.render.toList ++ ([' ', ':', ' '] ++
    (letters domain ++ ([')', ' ', '→', ' '] ++ letters body))))
  | pi x domain codomain =>
    if x = Label.placeholder then lettersAt 1 domain ++ ([' ', '→', ' '] ++ letters codomain)
    else ['∀', '('] ++ (x.render.toList ++ ([' ', ':', ' '] ++
      (letters domain ++ ([')', ' ', '→', ' '] ++ letters codomain))))
  | app function argument => lettersAt 15 function ++ ([' '] ++ lettersAt 16 argument)
  | letIn bindings body => bindings.flatMap bindingLetters ++ (['i', 'n', ' '] ++ letters body)
  | annot e type => lettersAt 1 e ++ ([' ', ':', ' '] ++ letters type)
  | assertion type => ['a', 's', 's', 'e', 'r', 't', ' ', ':', ' '] ++ letters type
  | op o left right => lettersAt (2 + o.rank) left ++
    ([' '] ++ (o.render.toList ++ ([' '] ++ lettersAt (2 + o.rank) right)))
  | ifThenElse condition yes no => ['i', 'f', ' '] ++ (letters condition ++
    ([' ', 't', 'h', 'e', 'n', ' '] ++ (letters yes ++ ([' ', 'e', 'l', 's', 'e', ' '] ++
      letters no))))
  | natural n => n.toNat.repr.toList
  | integer i => [if 0 ≤ i then '+' else '-'] ++ i.toInt.natAbs.repr.toList
  | text t => ['"'] ++ ((Text.escape t.head).toList ++ (t.tail.flatMap pieceLetters ++ ['"']))
  | emptyList type => ['[', ']', ' ', ':', ' '] ++ letters type
  | list items => ['['] ++ (separated [',', ' '] letters items ++ [']'])
  | present e => ['S', 'o', 'm', 'e', ' '] ++ lettersAt 16 e
  | recordType fields =>
    if fields.isEmpty then ['\x7b', '\x7d'] else braced (fieldLetters ':') fields.toList
  | record fields =>
    if fields.isEmpty then ['\x7b', '=', '\x7d']
    else braced (fieldLetters '=') fields.toList
  | union alternatives => ['<', ' '] ++
    (separated [' ', '|', ' '] alternativeLetters alternatives.toList ++ [' ', '>'])
  | merge handlers variant type => ['m', 'e', 'r', 'g', 'e', ' '] ++
    (lettersAt 16 handlers ++ ([' '] ++ (lettersAt 16 variant ++ typeLetters 15 type)))
  | toMap e type => ['t', 'o', 'M', 'a', 'p', ' '] ++ (lettersAt 16 e ++ typeLetters 15 type)
  | field e l => lettersAt 17 e ++ (['.'] ++ l.render.toList)
  | project e labels => lettersAt 17 e ++ (['.'] ++ braced (·.render.toList) labels.labels)
  | projectType e type => lettersAt 17 e ++ (['.', '('] ++ (letters type ++ [')']))
  | const c => c.render.toList
  | var v => v.render.toList
  | builtin b => b.render.toList
  | bool b => if b then ['T', 'r', 'u', 'e'] else ['F', 'a', 'l', 's', 'e']
  | double d => d.render.toList
  | embed i => i.render.toList

theorem Entries.isEmpty_map {α β : Type} {bound : Option Label} (f : α → β) (m : Entries α bound) :
    (m.map f).isEmpty = m.isEmpty := by
  cases m <;> rfl

theorem toList_renderList {α : Type} (opening separator closing : String) (w : α → String)
    (items : List α) : (renderList opening separator closing (items.map w)).toList =
      opening.toList ++
        (separated separator.toList (fun a => (w a).toList) items ++ closing.toList) := by
  have joined : separator.toList.intercalate (items.map fun a => (w a).toList) =
      separated separator.toList (fun a => (w a).toList) items := by
    cases items with
    | nil => rfl
    | cons a items =>
      induction items generalizing a with
      | nil => simp [separated]
      | cons b items ih =>
        have rest := ih b
        rw [List.map_cons] at rest
        rw [List.map_cons, List.map_cons, List.intercalate_cons_cons, rest]
        simp [separated]
  simp [renderList, ← joined, Function.comp_def]

theorem toList_renderInteger (i : Int64) :
    (renderInteger i).toList = [if 0 ≤ i then '+' else '-'] ++ i.toInt.natAbs.repr.toList := by
  have sign : 0 ≤ i ↔ 0 ≤ i.toInt := Int64.le_iff_toInt_le
  have written : toString i = i.toInt.repr := rfl
  simp only [renderInteger, sign, written]
  cases i.toInt with
  | ofNat n => simp [Int.repr]
  | negSucc n =>
    simp [Int.repr]

theorem Text.toList_render (t : Text String) : t.render.toList = ['"'] ++ ((escape t.head).toList ++
    ((t.tail.flatMap fun p =>
      ['$', '\x7b'] ++ (p.1.toList ++ (['\x7d'] ++ (escape p.2).toList))) ++ ['"'])) := by
  -- A literal without characters is no piece, and it is written with no characters.
  have literal (write : Piece String → String) (same : ∀ s, write (.literal s) = escape s)
      (s : String) : (literalPieces s).flatMap (fun p => (write p).toList) = (escape s).toList := by
    by_cases empty : s = ""
    · rw [empty]
      rfl
    · rw [literalPieces, if_neg empty, List.flatMap_singleton, same]
  simp [render, pieces, List.flatMap_assoc, List.flatMap_map, literal]

namespace Expr

/-- Parentheses stand around an expression that binds less tightly than its place demands. -/
theorem toList_renderAt (e : Expr) (place : Precedence) :
    (e.renderAt place).toList = lettersAt place.rank e := by
  obtain ⟨n⟩ := e
  rw [lettersAt, letters, render, renderAt_mk, renderAt_mk]
  have base : ¬n.precedence.rank < Precedence.base.rank := Nat.not_lt_zero _
  simp only [node, if_neg base]
  split
  · simp
  · rfl

theorem letters_eq (e : Expr) : (e.renderAt .base).toList = letters e := rfl

@[simp] theorem lettersAt_zero (e : Expr) : lettersAt 0 e = letters e := rfl

theorem toList_renderType (place : Precedence) (type : Option Expr) :
    (Node.renderType (type.map fun t => t.renderAt place)).toList =
      typeLetters place.rank type := by
  cases type with
  | none => rfl
  | some t => simp [Node.renderType, typeLetters, toList_renderAt]

theorem toList_renderBinding (b : Binding Expr) :
    ((b.map fun e => (Precedence.base, e)).map fun p => p.2.renderAt p.1).render.toList =
      bindingLetters b := by
  obtain ⟨x, type, value⟩ := b
  cases type with
  | none => simp [Binding.map, Binding.render, bindingLetters, typeLetters, letters_eq]
  | some t =>
    simp [Binding.map, Binding.render, bindingLetters, letters_eq]
    rfl

theorem toList_renderFields {sign : String} {c : Char} (blanks : sign.toList = [' ', c, ' '])
    (m : LabelMap Expr) :
    (renderList "\x7b " ", " " \x7d"
      (m.toList.map fun p => p.1.render ++ sign ++ p.2.renderAt .base)).toList =
        braced (fieldLetters c) m.toList := by
  simp [toList_renderList, braced, letters_eq, blanks]
  rfl

/-- An expression is written as its construct is laid out. -/
theorem letters_mk (n : Node Expr) : letters (mk n) = n.layout := by
  -- At the top no construct is put in parentheses.
  have written : letters (mk n) = (n.placed.map fun p => p.2.renderAt p.1).render.toList := by
    have base : ¬n.precedence.rank < Precedence.base.rank := Nat.not_lt_zero _
    rw [letters, render, renderAt_mk]
    simp only [if_neg base]
  rw [written]
  cases n with
  | pi x domain codomain =>
    -- A function type without a name for its argument is an arrow.
    by_cases anonymous : x = Label.placeholder
    · simp [Node.placed, Node.map, Node.render, Node.layout, anonymous, toList_renderAt,
        Precedence.rank]
    · simp [Node.placed, Node.map, Node.render, Node.layout, anonymous, letters_eq]
  | bool b => cases b <;> rfl
  | natural n => rfl
  | integer i => exact toList_renderInteger i
  | letIn bindings body =>
    simp [Node.placed, Node.map, Node.render, Node.layout, letters_eq, List.flatMap_map,
      toList_renderBinding]
  | text t =>
    simp [Node.placed, Node.map, Node.render, Node.layout, Text.toList_render, Text.map,
      List.flatMap_map, letters_eq]
    rfl
  | list items =>
    simp [Node.placed, Node.map, Node.render, Node.layout, Function.comp_def, toList_renderList,
      letters_eq]
  | recordType m =>
    have none : (m.map fun e => e.renderAt .base).isEmpty = m.isEmpty := Entries.isEmpty_map _ m
    by_cases empty : m.isEmpty = true
    · simp [Node.placed, Node.map, Node.render, Node.layout, none, empty]
    · simp [Node.placed, Node.map, Node.render, Node.layout, none, empty, Function.comp_def,
        toList_renderFields (c := ':')]
  | record m =>
    have none : (m.map fun e => e.renderAt .base).isEmpty = m.isEmpty := Entries.isEmpty_map _ m
    by_cases empty : m.isEmpty = true
    · simp [Node.placed, Node.map, Node.render, Node.layout, none, empty]
    · simp [Node.placed, Node.map, Node.render, Node.layout, none, empty, Function.comp_def,
        toList_renderFields (c := '=')]
  | union alternatives =>
    simp [Node.placed, Node.map, Node.render, Node.layout, Function.comp_def, toList_renderList,
      toList_renderType, Precedence.rank]
    rfl
  | project e labels =>
    simp [Node.placed, Node.map, Node.render, Node.layout, toList_renderList, toList_renderAt,
      Precedence.rank, braced]
  | _ =>
    simp [Node.placed, Node.map, Node.render, Node.layout, Function.comp_def, toList_renderAt,
      Precedence.rank, toList_renderType]

theorem lettersAt_of_lt {n : Node Expr} {k : Nat} (h : n.precedence.rank < k) :
    lettersAt k (mk n) = ['('] ++ (letters (mk n) ++ [')']) :=
  if_pos h

theorem lettersAt_of_le {n : Node Expr} {k : Nat} (h : k ≤ n.precedence.rank) :
    lettersAt k (mk n) = n.layout :=
  (if_neg (Nat.not_lt_of_le h)).trans (letters_mk n)

end Expr

end Dhall
