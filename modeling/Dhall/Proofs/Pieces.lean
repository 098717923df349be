/-
# Literals and their pieces

A literal keeps its strings apart: there is one before the first interpolated value and one after
each value, and any of them may be empty. Its pieces leave the empty strings out. Collecting
pieces puts them back, and it joins strings that stand next to each other, so different lists of
pieces can make one literal. They do if they agree once empty strings are dropped and neighbouring
strings are joined, and this is the list that one reads off the literal again.

Pieces are collected here by recursion on the list. Nothing changes if they come one at a time
from the left: a string is then added to the string that the literal ends with at the moment. It
is the same for chunks, where the value that has come last waits for the string after it.

## Main definitions

* `Text.joined` — pieces without empty strings and without neighbouring strings
* `Text.push` — one more piece at the end of a literal
* `Text.attach` — one more string after a literal whose last value waits for it

## Main results

* `Text.pieces_ofPieces` — the pieces of a collected literal
* `Text.foldl_push` — pieces that come one at a time
* `Text.foldl_attach` — chunks that come one at a time
* `Text.pieces_inverse` — literals are lists of pieces up to `Text.joined`
-/

import Dhall.Proofs.Concatenation
import Mathlib.Data.List.Induction

namespace Dhall.Text

variable {α : Type} {s : String} {a : α}

/-! ### Canonical pieces -/

/-- Whether a piece is an empty string. -/
def Piece.isEmpty : Piece α → Bool
  | .literal s => s = ""
  | .interpolation _ => false

/-- A string in front of pieces, joined to a string that they begin with. -/
def joinFront (s : String) : List (Piece α) → List (Piece α)
  | .literal s' :: rest => .literal (s ++ s') :: rest
  | rest => .literal s :: rest

/-- Pieces with neighbouring strings joined. -/
def joinNeighbours : List (Piece α) → List (Piece α)
  | [] => []
  | .literal s :: rest => joinFront s (joinNeighbours rest)
  | .interpolation a :: rest => .interpolation a :: joinNeighbours rest

/-- Pieces without empty strings, with neighbouring strings joined. -/
def joined (ps : List (Piece α)) : List (Piece α) :=
  joinNeighbours (ps.filter fun p => !p.isEmpty)

theorem joined_literal (nonempty : s ≠ "") (ps : List (Piece α)) :
    joined (.literal s :: ps) = joinFront s (joined ps) := by
  rw [joined, List.filter_cons_of_pos (by simpa [Piece.isEmpty] using nonempty), joinNeighbours,
    joined]

theorem joined_empty (ps : List (Piece α)) : joined (.literal "" :: ps) = joined ps := by
  rw [joined, List.filter_cons_of_neg (by simp [Piece.isEmpty]), joined]

theorem joined_interpolation (a : α) (ps : List (Piece α)) :
    joined (.interpolation a :: ps) = .interpolation a :: joined ps := by
  rw [joined, List.filter_cons_of_pos (by simp [Piece.isEmpty]), joinNeighbours, joined]

/-- The string at the front of a literal is joined to what comes before it. -/
theorem pieces_prepend (nonempty : s ≠ "") (t : Text α) :
    pieces ⟨s ++ t.head, t.tail⟩ = joinFront s t.pieces := by
  obtain ⟨head, tail⟩ := t
  have longer : s ++ head ≠ "" := fun empty => nonempty (String.append_eq_empty_iff.mp empty).1
  simp only [pieces, literalPieces, if_neg longer]
  by_cases empty : head = ""
  · -- What follows an empty string is a value, or nothing.
    rw [if_pos empty, empty, String.append_empty]
    cases tail <;> rfl
  · rw [if_neg empty]
    rfl

/-- The pieces of a collected literal are those that it has been collected from, without empty
strings and joined. -/
theorem pieces_ofPieces (ps : List (Piece α)) : (ofPieces ps).pieces = joined ps := by
  induction ps with
  | nil => rfl
  | cons p ps ih =>
    cases p with
    | literal s =>
      by_cases empty : s = ""
      · rw [empty, joined_empty, ← ih, ofPieces, String.empty_append]
      · rw [joined_literal empty, ← ih, ofPieces, pieces_prepend empty]
    | interpolation a =>
      rw [joined_interpolation, ← ih, ofPieces, pieces_cons]
      rfl

/-- Two lists of pieces make one literal if they are joined to one list. -/
theorem ofPieces_eq_iff {ps qs : List (Piece α)} :
    ofPieces ps = ofPieces qs ↔ joined ps = joined qs := by
  rw [← pieces_ofPieces, ← pieces_ofPieces]
  refine ⟨congrArg pieces, fun same => ?_⟩
  rw [← ofPieces_pieces (ofPieces ps), same, ofPieces_pieces]

/-- The pieces of a literal are all its strings and values, without the strings that are empty. -/
theorem pieces_eq_filter (t : Text α) :
    t.pieces = (.literal t.head :: t.tail.flatMap fun p =>
      [.interpolation p.1, .literal p.2]).filter fun p => !p.isEmpty := by
  have string (s : String) : literalPieces s =
      [(.literal s : Piece α)].filter fun p => !p.isEmpty := by
    by_cases empty : s = "" <;> simp [literalPieces, Piece.isEmpty, empty]
  obtain ⟨head, tail⟩ := t
  rw [pieces, string, ← List.singleton_append (l := List.flatMap _ _), List.filter_append,
    List.filter_flatMap]
  congr 2
  funext p
  exact (congrArg (_ :: ·) (string p.2)).trans
    (List.filter_cons_of_pos (by simp [Piece.isEmpty])).symm

/-! ### One piece at a time -/

/-- One more piece at the end of a literal. A string is added to the last string. -/
def push (t : Text α) : Piece α → Text α
  | .interpolation a => ⟨t.head, t.tail ++ [(a, "")]⟩
  | .literal s =>
    match t.tail.getLast? with
    | none => ⟨t.head ++ s, t.tail⟩
    | some (a, last) => ⟨t.head, t.tail.dropLast ++ [(a, last ++ s)]⟩

theorem mk_append_interpolated (head : String) (tail : List (α × String)) (a : α) :
    (⟨head, tail⟩ ++ interpolated a : Text α) = ⟨head, tail ++ [(a, "")]⟩ := by
  induction tail generalizing head with
  | nil => rw [mk_nil_append, interpolated, String.append_empty, List.nil_append]
  | cons p tail ih => rw [mk_cons_append, ih, List.cons_append]

/-- A string goes to the last string of what it is appended to. -/
theorem concat_append_plain (head last s : String) (tail : List (α × String)) (a : α) :
    (⟨head, tail ++ [(a, last)]⟩ ++ plain s : Text α) = ⟨head, tail ++ [(a, last ++ s)]⟩ := by
  induction tail generalizing head with
  | nil => rfl
  | cons p tail ih => rw [List.cons_append, mk_cons_append, ih, List.cons_append]

/-- To add a piece is to append the literal that it makes. -/
theorem push_eq_append (t : Text α) (p : Piece α) : t.push p = t ++ ofPieces [p] := by
  obtain ⟨head, tail⟩ := t
  cases p with
  | interpolation a => exact (mk_append_interpolated head tail a).symm
  | literal s =>
    have string : (ofPieces [.literal s] : Text α) = plain s :=
      congrArg (Text.mk · []) String.append_empty
    rw [string]
    induction tail using List.reverseRecOn with
    | nil => rfl
    | append_singleton tail p _ =>
      obtain ⟨a, last⟩ := p
      simp only [push, List.getLast?_append, List.getLast?_singleton, Option.some_or,
        List.dropLast_concat, concat_append_plain]

/-- To add pieces one at a time is to append the literal that they make together. -/
theorem foldl_push (t : Text α) (ps : List (Piece α)) : ps.foldl push t = t ++ ofPieces ps := by
  induction ps generalizing t with
  | nil => exact (append_empty t).symm
  | cons p ps ih =>
    rw [List.foldl_cons, ih, push_eq_append, append_assoc, ← ofPieces_append,
      List.singleton_append]

theorem ofPieces_eq_foldl (ps : List (Piece α)) : ofPieces ps = ps.foldl push (plain "") := by
  rw [foldl_push, empty_append]

/-! ### Chunks -/

/-- The pieces of chunks, each a string and a value, and of the string after them. -/
def chunkPieces (chunks : List (String × α)) (suffix : String) : List (Piece α) :=
  (chunks.flatMap fun p => [.literal p.1, .interpolation p.2]) ++ [.literal suffix]

theorem ofChunks_eq_ofPieces (chunks : List (String × α)) (suffix : String) :
    ofChunks chunks suffix = ofPieces (chunkPieces chunks suffix) := by
  induction chunks with
  | nil => exact congrArg (Text.mk · []) String.append_empty.symm
  | cons p chunks ih =>
    have rest : chunkPieces (p :: chunks) suffix =
        .literal p.1 :: .interpolation p.2 :: chunkPieces chunks suffix := rfl
    rw [rest, ofPieces, ofPieces, ← ih, ofChunks, String.append_empty]

/-- A string after a literal. If a value waits for the string after it, they make a new entry, and
otherwise the string is the head. -/
def attach (t : Text α) : Option α → String → Text α
  | none, s => ⟨s, t.tail⟩
  | some a, s => ⟨t.head, t.tail ++ [(a, s)]⟩

/-- The literal and the waiting value, after one more chunk. -/
def pushChunk (state : Text α × Option α) (chunk : String × α) : Text α × Option α :=
  (state.1.attach state.2 chunk.1, some chunk.2)

/-- While a value waits, chunks go to the end of the literal. -/
theorem foldl_attach (t : Text α) (a : α) (chunks : List (String × α)) (suffix : String) :
    let state := chunks.foldl pushChunk (t, some a)
    state.1.attach state.2 suffix =
      ⟨t.head, t.tail ++ (a, (ofChunks chunks suffix).head) :: (ofChunks chunks suffix).tail⟩ := by
  induction chunks generalizing t a with
  | nil => rfl
  | cons p chunks ih =>
    refine (ih (t.attach (some a) p.1) p.2).trans ?_
    simp only [attach, ofChunks, List.append_assoc, List.singleton_append]

theorem ofChunks_eq_foldl (chunks : List (String × α)) (suffix : String) :
    let state := chunks.foldl pushChunk (plain "", none)
    ofChunks chunks suffix = state.1.attach state.2 suffix := by
  cases chunks with
  | nil => rfl
  | cons p chunks => exact (foldl_attach ⟨p.1, []⟩ p.2 chunks suffix).symm

/-- A literal is collected from its pieces, which are its strings and values in order, without the
strings that are empty. The pieces of a collected literal are those that it is collected from,
without empty strings and joined, so two lists of pieces make one literal exactly if these
canonical forms agree. The literal of chunks is collected from their strings and values in order.
Pieces and chunks can both be collected from the left, one at a time. -/
theorem pieces_inverse :
    (∀ t : Text α, ofPieces t.pieces = t ∧
      t.pieces = (.literal t.head :: t.tail.flatMap fun p =>
        [.interpolation p.1, .literal p.2]).filter fun p => !p.isEmpty) ∧
    (∀ ps : List (Piece α), (ofPieces ps).pieces = joined ps) ∧
    (∀ ps qs : List (Piece α), ofPieces ps = ofPieces qs ↔ joined ps = joined qs) ∧
    (∀ (chunks : List (String × α)) (suffix : String),
      ofChunks chunks suffix = ofPieces (chunkPieces chunks suffix)) ∧
    (∀ ps : List (Piece α), ofPieces ps = ps.foldl push (plain "")) ∧
    ∀ (chunks : List (String × α)) (suffix : String),
      let state := chunks.foldl pushChunk (plain "", none)
      ofChunks chunks suffix = state.1.attach state.2 suffix :=
  ⟨fun t => ⟨ofPieces_pieces t, pieces_eq_filter t⟩, pieces_ofPieces, fun _ _ => ofPieces_eq_iff,
    ofChunks_eq_ofPieces, ofPieces_eq_foldl, ofChunks_eq_foldl⟩

/-- Empty strings vanish, also between strings that are joined. -/
example :
    joined [.literal "a", .literal "", .literal "b", .interpolation 7, .literal "",
      .interpolation 8, .literal "c", .literal "d"] =
      [.literal "ab", .interpolation 7, .interpolation 8, .literal "cd"] := by
  decide +kernel

end Dhall.Text
