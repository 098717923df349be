/-
# Laws of nodes

Replacing the children of a node changes neither its shape nor the order of its
children, and a node is determined by its shape and its children.

## Main results

* `Node.children_map`, `Node.shape_map` — what `map` does to the two views
* `Node.eq_of_shape` — shape and children determine a node
-/

import Dhall.LabelMap.Lemmas
import Dhall.Node

namespace Dhall

variable {α β γ : Type}

namespace Text

theorem eq_of_shape {s t : Text α} (hs : s.map (fun _ => ()) = t.map fun _ => ())
    (hv : s.values = t.values) : s = t := by
  obtain ⟨head, tail⟩ := s
  obtain ⟨head', tail'⟩ := t
  simp only [map, mk.injEq, values] at hs hv ⊢
  refine ⟨hs.1, ?_⟩
  have zipped (l : List (α × String)) :
      (l.map Prod.fst).zip ((l.map fun p => ((), p.2)).map Prod.snd) = l := by
    simp [List.zip_map', Function.comp_def]
  rw [← zipped tail, ← zipped tail', hs.2, hv]

end Text

namespace Binding

@[simp] theorem label_map (f : α → β) (b : Binding α) : (b.map f).label = b.label := rfl

@[simp] theorem children_map (f : α → β) (b : Binding α) :
    (b.map f).children = b.children.map f := by
  cases b with
  | mk x annotation value => cases annotation <;> rfl

@[simp] theorem scopedChildren_map (f : α → β) (scope : List Label) (bs : List (Binding α)) :
    scopedChildren scope (bs.map (Binding.map f)) =
      (scopedChildren scope bs).map fun (inner, c) => (inner, f c) := by
  induction bs generalizing scope with
  | nil => rfl
  | cons b rest ih => simp [scopedChildren, ih, Function.comp_def]

theorem eq_of_shape {scope : List Label} {bs cs : List (Binding α)}
    (hs : bs.map (map fun _ => ()) = cs.map (map fun _ => ()))
    (hc : (scopedChildren scope bs).map Prod.snd = (scopedChildren scope cs).map Prod.snd) :
    bs = cs := by
  induction bs generalizing cs scope with
  | nil => simpa using hs
  | cons b bs ih =>
    cases cs with
    | nil => simp at hs
    | cons c cs =>
      obtain ⟨x, bType, bValue⟩ := b
      obtain ⟨y, cType, cValue⟩ := c
      simp only [List.map_cons, List.cons.injEq, map, mk.injEq] at hs
      obtain ⟨⟨rfl, typed, -⟩, hs⟩ := hs
      cases bType <;> cases cType <;> simp [scopedChildren, children] at typed hc
      · rw [hc.1, ih hs hc.2]
      · rw [hc.1, hc.2.1, ih hs hc.2.2]

end Binding

namespace Node

/-- The labels around the children stay, and each child is replaced. -/
theorem scopedChildren_map (f : α → β) (n : Node α) :
    (n.map f).scopedChildren = n.scopedChildren.map fun (inner, c) => (inner, f c) := by
  cases n with
  | union alternatives =>
    have values (os : List (Option α)) :
        (os.map (Option.map f)).flatMap Option.toList = (os.flatMap Option.toList).map f := by
      induction os with
      | nil => rfl
      | cons o rest ih => cases o <;> simp [ih]
    simp [map, scopedChildren, values, Function.comp_def]
  | merge _ _ type | toMap _ type => cases type <;> rfl
  | _ => simp [map, scopedChildren, Text.map, Text.values, Function.comp_def]

/-- Each child is replaced. -/
@[simp] theorem children_map (f : α → β) (n : Node α) :
    (n.map f).children = n.children.map f := by
  simp [children, scopedChildren_map, Function.comp_def]

theorem map_map (f : α → β) (g : β → γ) (n : Node α) :
    (n.map f).map g = n.map fun a => g (f a) := by
  cases n <;> simp [map, Text.map, Function.comp_def, Binding.map]

/-- The shape does not see the children. -/
@[simp] theorem shape_map (f : α → β) (n : Node α) : (n.map f).shape = n.shape :=
  map_map f _ n

/-- A node is determined by its shape and its children. -/
theorem eq_of_shape {n m : Node α} (hs : n.shape = m.shape) (hc : n.children = m.children) :
    n = m := by
  have optional {o p : Option α} (hs : (o.map fun _ => ()) = p.map fun _ => ())
      (hv : o.toList = p.toList) : o = p := by
    cases o <;> cases p <;> simp_all
  cases n <;> cases m <;> try (cases hs; done)
  all_goals simp_all [shape, map, children, scopedChildren, Function.comp_def]
  case letIn.letIn => exact Binding.eq_of_shape hs hc.1
  case text.text => exact Text.eq_of_shape hs hc
  case recordType.recordType => exact Entries.eq_of_shape hs hc
  case record.record => exact Entries.eq_of_shape hs hc
  case union.union => exact Entries.eq_of_optional_shape hs hc
  case merge.merge => exact optional hs hc.2.2
  case toMap.toMap => exact optional hs hc.2

end Node

end Dhall
