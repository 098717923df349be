/-
# Fields and projections of corresponding records

Which operand a field comes from depends on the labels that the operands have, and
corresponding records have the same labels.

## Main results

* `Correspondence.relates_select` — selecting a field keeps correspondences
* `Correspondence.agree_selectAll`, `Correspondence.agree_selectByType` — so do projections
* `Correspondence.relates_toEntries` — so do maps
-/

import Dhall.Proofs.Correspondence.Operator
import Dhall.Reduction.Record

namespace Dhall.Correspondence

open Dhall.Expr

variable {K : Correspondence} {e e' : Expr}

theorem relates_field (h : K.Relates e e') (l : Label) : K.Relates (field e l) (field e' l) :=
  Alike.relates (.field h l)

theorem relates_singleton (h : K.Relates e e') (l : Label) :
    K.Relates (record (.singleton l e)) (record (.singleton l e')) :=
  relates_record (LabelMap.related_singleton h l)

/-- What is made of the value at a label corresponds, and so does what stands for no value. -/
theorem relates_value {xs xs' : LabelMap Expr} (h : xs.Related K.Relates xs') (l : Label)
    {found found' : Expr → Expr} {absent absent' : Expr}
    (here : ∀ v v', K.Relates v v' → K.Relates (found v) (found' v'))
    (nowhere : K.Relates absent absent') :
    K.Relates (match xs.get? l with | some v => found v | none => absent)
      (match xs'.get? l with | some v => found' v | none => absent') := by
  have value := h.get? l
  generalize xs.get? l = v at value ⊢
  generalize xs'.get? l = v' at value ⊢
  cases value with
  | none => exact nowhere
  | some related => exact here _ _ related

/-- The same field of corresponding expressions corresponds. -/
theorem relates_select (l : Label) (h : K.Relates e e') :
    K.Relates (e.select l) (e'.select l) := by
  induction e using Expr.induction generalizing e' with
  | step n ih =>
    cases h.alike with
    | record fields =>
      simp only [select]
      exact relates_value fields l (fun _ _ here => here) (relates_field h l)
    | project inner _ =>
      simp only [select]
      exact ih _ (.head _) inner
    | projectType inner _ =>
      simp only [select]
      exact ih _ (.head _) inner
    | @op o x x' y y' left right =>
      have fromLeft := ih x (.head _) left
      have fromRight := ih y (.tail _ (.head _)) right
      have kept := relates_field (relates_op o left right) l
      have leftFields := left.record?
      have rightFields := right.record?
      -- An operand that is a record decides, or it is cut down to the field, or it drops out.
      cases o with
      | prefer =>
        simp only [select]
        generalize x.record? = xs at leftFields ⊢
        generalize x'.record? = xs' at leftFields ⊢
        generalize y.record? = ys at rightFields ⊢
        generalize y'.record? = ys' at rightFields ⊢
        cases rightFields with
        | some others => exact relates_value others l (fun _ _ here => here) fromLeft
        | none =>
          cases leftFields with
          | none => exact kept
          | some fields =>
            exact relates_value fields l (fun _ _ here =>
              relates_field (relates_op .prefer (relates_singleton here l) right) l) fromRight
      | combine =>
        simp only [select]
        generalize x.record? = xs at leftFields ⊢
        generalize x'.record? = xs' at leftFields ⊢
        generalize y.record? = ys at rightFields ⊢
        generalize y'.record? = ys' at rightFields ⊢
        cases leftFields with
        | some fields =>
          exact relates_value fields l (fun _ _ here =>
            relates_field (relates_op .combine (relates_singleton here l) right) l) fromRight
        | none =>
          cases rightFields with
          | none => exact kept
          | some others =>
            exact relates_value others l (fun _ _ here =>
              relates_field (relates_op .combine left (relates_singleton here l)) l) fromLeft
      | _ => exact kept
    | _ => exact relates_field h l

/-- The same projection of corresponding expressions corresponds. -/
theorem agree_selectAll (labels : LabelSet) (h : K.Relates e e') :
    Agree K.Relates (e.selectAll labels) (e'.selectAll labels) := by
  have kept (labels : LabelSet) {e e' : Expr} (h : K.Relates e e') :
      K.Relates (project e labels) (project e' labels) := Alike.relates (.project h labels)
  induction e using Expr.induction generalizing e' labels with
  | step n ih =>
    cases labels with
    | nil =>
      rw [selectAll, selectAll]
      exact .pure (relates_record .nil)
    | cons l above u rest =>
      cases h.alike with
      | record fields => exact .pure (relates_record (fields.restrict _))
      | project inner _ =>
        simp only [selectAll]
        exact ih _ (.head _) _ inner
      | @op o x x' y y' left right =>
        have split := relates_op o left right
        have rightFields := right.record?
        cases o with
        | prefer =>
          simp only [selectAll]
          generalize y.record? = ys at rightFields ⊢
          generalize y'.record? = ys' at rightFields ⊢
          cases rightFields with
          | none => exact .pure (kept _ split)
          | some others =>
            dsimp only
            simp only [others.contains_eq]
            exact (ih x (.head _) _ left).bind fun _ _ first =>
              agree_reducePrefer first (relates_record (others.restrict _))
        | _ => exact .pure (kept _ split)
      | _ => exact .pure (kept _ h)

/-- Projections by corresponding types correspond. -/
theorem agree_selectByType {type type' : Expr} (h : K.Relates e e') (ht : K.Relates type type') :
    Agree K.Relates (e.selectByType type) (e'.selectByType type') := by
  have fields := ht.recordType?
  unfold selectByType
  generalize type.recordType? = ts at fields ⊢
  generalize type'.recordType? = ts' at fields ⊢
  cases fields with
  | none => exact .pure (Alike.relates (.projectType h ht))
  | some types =>
    dsimp only
    rw [LabelMap.ofKeys_eq_of_related types]
    exact agree_selectAll _ h

theorem relates_mapEntry (h : K.Relates e e') (l : Label) :
    K.Relates (mapEntry l e) (mapEntry l e') := by
  have key : K.Relates (text (.plain l.name)) (text (.plain l.name)) :=
    Alike.relates (.text l.name .nil)
  exact relates_record (LabelMap.related_ofList (.cons ⟨rfl, key⟩ (.cons ⟨rfl, h⟩ .nil)))

/-- Maps of corresponding records correspond. -/
theorem relates_toEntries {type type' : Option Expr} (h : K.Relates e e')
    (ht : Option.Rel K.Relates type type') :
    K.Relates (e.toEntries type) (e'.toEntries type') := by
  have fields := h.record?
  have kept : K.Relates (toMap e type) (toMap e' type') := Alike.relates (.toMap h ht)
  unfold toEntries
  generalize e.record? = xs at fields ⊢
  generalize e'.record? = xs' at fields ⊢
  cases fields with
  | none => exact kept
  | some related =>
    have entries (xs xs' : LabelMap Expr) (related : xs.Related K.Relates xs') :
        K.Relates (list (xs.toList.map fun p => mapEntry p.1 p.2))
          (list (xs'.toList.map fun p => mapEntry p.1 p.2)) := by
      refine Alike.relates (.list (List.rel_map ?_ related.toList))
      rintro ⟨l, value⟩ ⟨_, value'⟩ ⟨rfl, here⟩
      exact relates_mapEntry here _
    cases related with
    | nil =>
      cases ht with
      | none => exact kept
      | some typed => exact Alike.relates (.emptyList typed)
    | cons here below => exact entries _ _ (.cons here below)

end Dhall.Correspondence
