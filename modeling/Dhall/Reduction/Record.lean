/-
# Fields, projections and maps of normal records

Selecting from a merge asks only the operands that can have the field: an operand
that is a literal either decides the matter or drops out, and what is left of it is
the one field. A projection of a merge is split between the operands in the same way.
-/

import Dhall.Reduction.Operator

namespace Dhall.Expr

/-- `e.l` for a normal expression `e`. -/
def select (l : Label) : Expr → Expr
  | record fields =>
    match fields.get? l with
    | some value => value
    | none => field (record fields) l
  | project e _ => e.select l
  | projectType e _ => e.select l
  | op .prefer x y =>
    match x.record?, y.record? with
    -- The right operand is asked first, because its fields are preferred.
    | _, some ys =>
      match ys.get? l with
      | some value => value
      | none => x.select l
    | some xs, none =>
      match xs.get? l with
      | some value => field (op .prefer (record (.singleton l value)) y) l
      | none => y.select l
    | none, none => field (op .prefer x y) l
  | op .combine x y =>
    match x.record?, y.record? with
    -- Both operands may have the field, so a literal is only cut down to it.
    | some xs, _ =>
      match xs.get? l with
      | some value => field (op .combine (record (.singleton l value)) y) l
      | none => y.select l
    | none, some ys =>
      match ys.get? l with
      | some value => field (op .combine x (record (.singleton l value))) l
      | none => x.select l
    | none, none => field (op .combine x y) l
  | e => field e l

/-- `e.{ k, l }` for a normal expression `e`. -/
def selectAll : Expr → LabelSet → Except Violation Expr
  | _, .nil => .ok (record .empty)
  | record fields, labels => .ok (record (fields.restrict labels.contains))
  | project e _, labels => e.selectAll labels
  | op .prefer x y, labels =>
    match y.record? with
    | some fields => do
      let left ← x.selectAll (labels.restrict fun l => !fields.contains l)
      Operator.reducePrefer left (record (fields.restrict labels.contains))
    | none => .ok (project (op .prefer x y) labels)
  | e, labels => .ok (project e labels)

section Stuck

variable {e : Expr}

/-- A field of anything else is kept. -/
theorem select_eq_field {l : Label} (notRecord : ∀ fields, e = record fields → False)
    (notProject : ∀ inner labels, e = project inner labels → False)
    (notProjectType : ∀ inner type, e = projectType inner type → False)
    (notPrefer : ∀ x y, e = op .prefer x y → False)
    (notCombine : ∀ x y, e = op .combine x y → False) : e.select l = field e l := by
  rw [select.eq_def]
  split
  · exact (notRecord _ rfl).elim
  · exact (notProject _ _ rfl).elim
  · exact (notProjectType _ _ rfl).elim
  · exact (notPrefer _ _ rfl).elim
  · exact (notCombine _ _ rfl).elim
  · rfl

/-- Nothing is projected from an expression of any form. -/
theorem selectAll_nil (e : Expr) : e.selectAll .nil = .ok (record .nil) := by
  rw [selectAll.eq_def]
  rfl

/-- A projection of anything else is kept. -/
theorem selectAll_eq_project {labels : LabelSet} (some : labels = .nil → False)
    (notRecord : ∀ fields, e = record fields → False)
    (notProject : ∀ inner labels, e = project inner labels → False)
    (notPrefer : ∀ x y, e = op .prefer x y → False) :
    e.selectAll labels = .ok (project e labels) := by
  rw [selectAll.eq_def]
  split
  · exact (some rfl).elim
  · exact (notRecord _ rfl).elim
  · exact (notProject _ _ rfl).elim
  · exact (notPrefer _ _ rfl).elim
  · rfl

end Stuck

/-- `e.(type)` for normal expressions. -/
def selectByType (e type : Expr) : Except Violation Expr :=
  match type.recordType? with
  | some fields => e.selectAll (.ofKeys fields)
  | none => .ok (projectType e type)

/-- One entry of the list that a record is as a map. -/
def mapEntry (l : Label) (value : Expr) : Expr :=
  record (.ofList [("mapKey", text (.plain l.name)), ("mapValue", value)])

/-- `toMap e : type` for normal expressions; an empty record needs the type, which is
the type of the whole list. -/
def toEntries (e : Expr) (type : Option Expr) : Expr :=
  match e.record?, type with
  | some .nil, some type => emptyList type
  | some .nil, none => toMap e none
  | some fields, _ => list (fields.toList.map fun (l, value) => mapEntry l value)
  | none, _ => toMap e type

end Dhall.Expr
