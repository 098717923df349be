/-
# Settled expressions

An expression is settled if it is stuck everywhere. The rules of evaluation take settled
parts to settled results: what a rule returns is one of the parts, a literal, or the
construct that it has found no reason to change. This module says what it takes for each
construct to be settled, and treats texts.

## Main definitions

* `Expr.Settled` — stuck at every node

## Main results

* `Expr.settled_mk` — settled constructs are stuck, with settled children
* `Expr.settled_ofPieces` — texts are spliced into settled texts
-/

import Dhall.LabelMap.Lemmas
import Dhall.Proofs.Redex

namespace Dhall

namespace Expr

/-- No rule of evaluation applies anywhere in the expression, for the reasons that `Stuck`
lists. -/
def Settled (e : Expr) : Prop :=
  Everywhere Stuck e

variable {e f a x y yes no condition type : Expr} {l : Label} {n : Node Expr}

theorem settled_mk : Settled (mk n) ↔ Stuck (mk n) ∧ ∀ c ∈ n.children, Settled c :=
  everywhere_mk

theorem Settled.stuck (h : Settled e) : Stuck e :=
  h.here

@[simp] theorem settled_app : Settled (app f a) ↔ Stuck (app f a) ∧ Settled f ∧ Settled a := by
  simp [settled_mk, Node.children, Node.scopedChildren]

@[simp] theorem settled_op {o : Operator} :
    Settled (op o x y) ↔ o.Stuck x y ∧ Settled x ∧ Settled y := by
  simp [settled_mk, Node.children, Node.scopedChildren, Stuck]

@[simp] theorem settled_ifThenElse : Settled (ifThenElse condition yes no) ↔
    Stuck (ifThenElse condition yes no) ∧ Settled condition ∧ Settled yes ∧ Settled no := by
  simp [settled_mk, Node.children, Node.scopedChildren]

@[simp] theorem settled_bool (b : Bool) : Settled (bool b) := by
  simp [settled_mk, Node.children, Node.scopedChildren, Stuck]

@[simp] theorem settled_natural (m : UInt64) : Settled (natural m) := by
  simp [settled_mk, Node.children, Node.scopedChildren, Stuck]

@[simp] theorem settled_integer (i : Int64) : Settled (integer i) := by
  simp [settled_mk, Node.children, Node.scopedChildren, Stuck]

@[simp] theorem settled_double (d : Double) : Settled (double d) := by
  simp [settled_mk, Node.children, Node.scopedChildren, Stuck]

@[simp] theorem settled_builtin (b : Builtin) : Settled (builtin b) := by
  simp [settled_mk, Node.children, Node.scopedChildren, Stuck]

@[simp] theorem settled_text {t : Text Expr} :
    Settled (text t) ↔ Stuck (text t) ∧ ∀ e ∈ t.values, Settled e := by
  simp [settled_mk, Node.children, Node.scopedChildren]

theorem settled_plainText (s : String) : Settled (plainText s) :=
  settled_text.mpr ⟨⟨nofun, nofun⟩, nofun⟩

@[simp] theorem settled_emptyList : Settled (emptyList type) ↔ Settled type := by
  simp [settled_mk, Node.children, Node.scopedChildren, Stuck]

@[simp] theorem settled_list {items : List Expr} :
    Settled (list items) ↔ ∀ e ∈ items, Settled e := by
  simp [settled_mk, Node.children, Node.scopedChildren, Stuck]

@[simp] theorem settled_present : Settled (present e) ↔ Settled e := by
  simp [settled_mk, Node.children, Node.scopedChildren, Stuck]

@[simp] theorem settled_record {fields : LabelMap Expr} :
    Settled (record fields) ↔ ∀ value ∈ fields.values, Settled value := by
  simp [settled_mk, Node.children, Node.scopedChildren, Stuck]

@[simp] theorem settled_recordType {fields : LabelMap Expr} :
    Settled (recordType fields) ↔ ∀ type ∈ fields.values, Settled type := by
  simp [settled_mk, Node.children, Node.scopedChildren, Stuck]

@[simp] theorem settled_field : Settled (field e l) ↔ e.FieldStuck l ∧ Settled e := by
  simp [settled_mk, Node.children, Node.scopedChildren, Stuck]

@[simp] theorem settled_project {labels : LabelSet} :
    Settled (project e labels) ↔ (labels ≠ .nil ∧ e.ProjectStuck) ∧ Settled e := by
  simp [settled_mk, Node.children, Node.scopedChildren, Stuck]

@[simp] theorem settled_projectType : Settled (projectType e type) ↔
    type.recordType? = none ∧ Settled e ∧ Settled type := by
  simp [settled_mk, Node.children, Node.scopedChildren, Stuck]

@[simp] theorem settled_toMap {type : Option Expr} : Settled (toMap e type) ↔
    Stuck (toMap e type) ∧ Settled e ∧ ∀ t ∈ type, Settled t := by
  simp [settled_mk, Node.children, Node.scopedChildren]

@[simp] theorem settled_merge {type : Option Expr} : Settled (merge e f type) ↔
    Stuck (merge e f type) ∧ Settled e ∧ Settled f ∧ ∀ t ∈ type, Settled t := by
  simp [settled_mk, Node.children, Node.scopedChildren]

/-! ### Texts -/

theorem interpolation_mem_of_mem_values {pieces : List (Text.Piece Expr)}
    (member : e ∈ (Text.ofPieces pieces).values) : .interpolation e ∈ pieces := by
  induction pieces with
  | nil => cases member
  | cons piece rest ih =>
    cases piece with
    | literal s => exact .tail _ (ih member)
    | interpolation f =>
      rcases List.mem_cons.mp member with rfl | below
      · exact .head _
      · exact .tail _ (ih below)

theorem mem_values_of_interpolation_mem {t : Text Expr} (member : .interpolation e ∈ t.pieces) :
    e ∈ t.values := by
  have plain (s : String) : Text.Piece.interpolation e ∉ Text.literalPieces s := by
    unfold Text.literalPieces
    split <;> simp
  rcases List.mem_append.mp member with head | tail
  · exact absurd head (plain _)
  · obtain ⟨p, inside, here⟩ := List.mem_flatMap.mp tail
    rcases List.mem_cons.mp here with same | last
    · cases same
      exact List.mem_map_of_mem inside
    · exact absurd last (plain _)

/-- A literal of settled expressions, none of which is a literal, is settled or drops out. -/
theorem settled_ofText {t : Text Expr} (settled : ∀ e ∈ t.values, Settled e)
    (spliced : ∀ u, text u ∉ t.values) : Settled (ofText t) := by
  unfold ofText
  split
  · next head e last =>
    split
    · exact settled e (.head _)
    · next filled =>
      refine settled_text.mpr ⟨⟨spliced, fun f lone => filled ?_⟩, settled⟩
      simp only [Text.mk.injEq, List.cons.injEq, Prod.mk.injEq, and_true] at lone
      exact ⟨lone.1, lone.2.2⟩
  · next several => exact settled_text.mpr ⟨⟨spliced, fun f lone => several _ _ _ lone⟩, settled⟩

/-- Splicing settled expressions into each other settles a text. -/
theorem settled_ofPieces {pieces : List (Text.Piece Expr)}
    (h : ∀ e, .interpolation e ∈ pieces → Settled e) : Settled (ofPieces pieces) := by
  -- What is spliced comes from a settled literal, so it is no literal itself.
  have spliced (e : Expr) (member : .interpolation e ∈ pieces.flatMap splicePiece) :
      Settled e ∧ ∀ u, e ≠ text u := by
    obtain ⟨piece, inside, here⟩ := List.mem_flatMap.mp member
    unfold splicePiece at here
    split at here
    · next t =>
      have settled := settled_text.mp (h _ inside)
      have value := mem_values_of_interpolation_mem here
      refine ⟨settled.2 e value, ?_⟩
      rintro u rfl
      exact settled.1.1 u value
    · next whole =>
      obtain rfl := List.mem_singleton.mp here
      refine ⟨h e inside, ?_⟩
      rintro u rfl
      exact whole u rfl
  refine settled_ofText (fun e member => ?_) fun u member => ?_
  · exact (spliced e (interpolation_mem_of_mem_values member)).1
  · exact (spliced _ (interpolation_mem_of_mem_values member)).2 u rfl

end Expr

end Dhall
