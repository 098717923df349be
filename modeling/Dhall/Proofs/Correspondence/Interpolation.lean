/-
# Text with corresponding interpolations

A literal corresponds to one with the same strings around corresponding expressions. Seen as
lists of pieces both literals have pieces of the same kind, and splicing the pieces of
interpolated literals keeps this.

## Main definitions

* `Text.Piece.Related` — equal strings, or related values

## Main results

* `Correspondence.relates_ofPieces` — normal text of related pieces corresponds
-/

import Dhall.Proofs.Correspondence
import Dhall.Reduction.Interpolation

namespace Dhall

variable {α β : Type} {R : α → β → Prop}

namespace Text

/-- Pieces of one kind, with equal strings or with related values. -/
inductive Piece.Related (R : α → β → Prop) : Piece α → Piece β → Prop
  /-- A string is related to itself. -/
  | literal (s : String) : Related R (.literal s) (.literal s)
  /-- Interpolations of related values are related. -/
  | interpolation {a : α} {b : β} (h : R a b) : Related R (.interpolation a) (.interpolation b)

theorem related_literalPieces (s : String) :
    List.Forall₂ (Piece.Related R) (literalPieces s) (literalPieces s) := by
  unfold literalPieces
  split
  · exact .nil
  · exact .cons (.literal s) .nil

/-- Literals with the same strings around related values have related pieces. -/
theorem related_pieces (head : String) {tail : List (α × String)} {tail' : List (β × String)}
    (h : List.Forall₂ (fun p q => q.2 = p.2 ∧ R p.1 q.1) tail tail') :
    List.Forall₂ (Piece.Related R) (pieces ⟨head, tail⟩) (pieces ⟨head, tail'⟩) := by
  refine List.rel_append (related_literalPieces head) (List.rel_flatMap h ?_)
  rintro ⟨a, s⟩ ⟨b, _⟩ ⟨rfl, related⟩
  exact .cons (.interpolation related) (related_literalPieces _)

/-- Related pieces make literals with the same strings around related values. -/
theorem related_ofPieces {l : List (Piece α)} {l' : List (Piece β)}
    (h : List.Forall₂ (Piece.Related R) l l') :
    (ofPieces l').head = (ofPieces l).head ∧
      List.Forall₂ (fun p q => q.2 = p.2 ∧ R p.1 q.1) (ofPieces l).tail (ofPieces l').tail := by
  induction h with
  | nil => exact ⟨rfl, .nil⟩
  | cons here _ ih =>
    cases here with
    | literal s => exact ⟨congrArg (s ++ ·) ih.1, ih.2⟩
    | interpolation related => exact ⟨rfl, .cons ⟨ih.1, related⟩ ih.2⟩

end Text

namespace Correspondence

open Dhall.Expr

variable {K : Correspondence} {e e' : Expr}

/-- A piece that is a literal is spliced on both sides. -/
theorem related_splicePiece {p p' : Text.Piece Expr} (h : Text.Piece.Related K.Relates p p') :
    List.Forall₂ (Text.Piece.Related K.Relates) (splicePiece p) (splicePiece p') := by
  cases h with
  | literal s => exact .cons (.literal s) .nil
  | interpolation related =>
    cases related.alike with
    | text head h => exact Text.related_pieces head h
    | _ => exact .cons (.interpolation related) .nil

theorem relates_ofText {t t' : Text Expr} (heads : t'.head = t.head)
    (h : List.Forall₂ (fun p q => q.2 = p.2 ∧ K.Relates p.1 q.1) t.tail t'.tail) :
    K.Relates (ofText t) (ofText t') := by
  obtain ⟨head, tail⟩ := t
  obtain ⟨head', tail'⟩ := t'
  obtain rfl : head' = head := heads
  have kept : K.Relates (text ⟨head', tail⟩) (text ⟨head', tail'⟩) := Alike.relates (.text head' h)
  dsimp only at h
  cases h with
  | nil => exact kept
  | cons here below =>
    cases below with
    | cons _ _ => exact kept
    | nil =>
      rename_i p q
      obtain ⟨e, last⟩ := p
      obtain ⟨e', last'⟩ := q
      obtain ⟨rfl, related⟩ := here
      simp only [ofText]
      split
      · exact related
      · exact kept

/-- Text that is put together from related pieces corresponds. -/
theorem relates_ofPieces {l l' : List (Text.Piece Expr)}
    (h : List.Forall₂ (Text.Piece.Related K.Relates) l l') :
    K.Relates (ofPieces l) (ofPieces l') := by
  have spliced : List.Forall₂ (Text.Piece.Related K.Relates) (l.flatMap splicePiece)
      (l'.flatMap splicePiece) := List.rel_flatMap h fun _ _ => related_splicePiece
  obtain ⟨heads, tails⟩ := Text.related_ofPieces spliced
  exact relates_ofText heads tails

end Correspondence

end Dhall
