/-
# Laws of traversals

A traversal runs its effect on the children one by one, in order, and puts the
results in their places. Since a node is determined by its shape and its children,
one equation says all of this: a traversal is the traversal of the list of children,
followed by a node of the old shape.

## Main results

* `Node.views_traverse` — a traversal, seen through shape and children
* `Node.traverse_map` — a traversal after a map
-/

import Dhall.Node.Lemmas

namespace Dhall

variable {α β γ : Type} {m : Type → Type} [Monad m] [LawfulMonad m]

private theorem map_congr_views {δ ε : Type} {x : m α} {y : m β} {v : α → δ} {w : β → δ}
    (h : v <$> x = w <$> y) (g : δ → ε) :
    (fun a => g (v a)) <$> x = (fun b => g (w b)) <$> y := by
  simpa using congrArg (Functor.map g) h

private theorem bind_congr_views {δ ε : Type} {x : m α} {y : m β} {v : α → δ} {w : β → δ}
    (h : v <$> x = w <$> y) (k : δ → m ε) :
    (x >>= fun a => k (v a)) = y >>= fun b => k (w b) := by
  simpa using congrArg (· >>= k) h

private theorem views_mapM_list (f : α → m β) (l : List α) :
    (fun l' => (l'.map fun _ => (), l')) <$> l.mapM f =
      (l.map fun _ => (), ·) <$> l.mapM f := by
  induction l with
  | nil => simp
  | cons a l ih =>
    have step (b : β) := map_congr_views ih fun p => (() :: p.1, b :: p.2)
    simp only at step
    simp only [List.mapM_cons, map_bind, bind_pure_comp, Functor.map_map, List.map_cons, step]

private theorem views_mapM_option (f : α → m β) (o : Option α) :
    (fun o' => (o'.map fun _ => (), o'.toList)) <$> o.mapM f =
      (o.map fun _ => (), ·) <$> o.toList.mapM f := by
  cases o <;> simp

namespace Text

theorem traverse_map (f : β → m γ) (g : α → β) (t : Text α) :
    (t.map g).traverse f = t.traverse fun a => f (g a) := by
  simp [traverse, map, Function.comp_def]

theorem views_traverse (f : α → m β) (t : Text α) :
    (fun t' => (t'.map fun _ => (), t'.values)) <$> t.traverse f =
      (t.map fun _ => (), ·) <$> t.values.mapM f := by
  obtain ⟨head, tail⟩ := t
  simp [traverse, values, map]
  induction tail with
  | nil => simp
  | cons entry tail ih =>
    obtain ⟨a, s⟩ := entry
    have step (b : β) := map_congr_views ih
      fun p => ((⟨head, ((), s) :: p.1.tail⟩ : Text Unit), b :: p.2)
    simp only at step
    simp [step]

theorem pieces_cons (head s : String) (a : α) (tail : List (α × String)) :
    pieces ⟨head, (a, s) :: tail⟩ = literalPieces head ++ .interpolation a :: pieces ⟨s, tail⟩ := by
  simp [pieces]

/-- A value is interpolated between the same strings when it is replaced. -/
theorem mapM_pieces (f : α → m β) (t : Text α) :
    t.pieces.mapM (Piece.traverse f) = pieces <$> t.traverse f := by
  have plain (s : String) :
      (literalPieces s).mapM (Piece.traverse f) =
        (pure (literalPieces s) : m (List (Piece β))) := by
    unfold literalPieces
    split <;> simp [Piece.traverse]
  obtain ⟨head, tail⟩ := t
  -- The induction is on the values that are left, after any string.
  induction tail generalizing head with
  | nil => simp [pieces, traverse, plain]
  | cons entry tail ih =>
    obtain ⟨a, s⟩ := entry
    rw [pieces_cons, List.mapM_append, List.mapM_cons, plain, ih]
    simp [traverse, Piece.traverse, pieces_cons]

end Text

namespace Entries

variable {bound : Option Label}

theorem traverse_map (f : Label → β → m γ) (g : α → β) (e : Entries α bound) :
    (e.map g).traverse f = e.traverse fun l a => f l (g a) := by
  induction e with
  | nil => rfl
  | cons l above a rest ih => simp [map, traverse, ih]

theorem views_traverse (f : α → m β) (e : Entries α bound) :
    (fun e' => (e'.map fun _ => (), e'.values)) <$> e.traverse (fun _ => f) =
      (e.map fun _ => (), ·) <$> e.values.mapM f := by
  induction e with
  | nil => simp [traverse, map, values, toList]
  | cons l above a rest ih =>
    have step (b : β) := map_congr_views ih
      fun p => (Entries.cons l above () p.1, b :: p.2)
    simp only [values] at step
    simp [traverse, map, values, toList, step]

theorem views_traverse_optional (f : α → m β) (e : Entries (Option α) bound) :
    (fun e' => (e'.map (Option.map fun _ => ()), e'.values.flatMap Option.toList)) <$>
        e.traverse (fun _ o => o.mapM f) =
      (e.map (Option.map fun _ => ()), ·) <$> (e.values.flatMap Option.toList).mapM f := by
  induction e with
  | nil => simp [traverse, map, values, toList]
  | cons l above o rest ih =>
    have step (b : Option β) := map_congr_views ih
      fun p => (Entries.cons l above (b.map fun _ => ()) p.1, b.toList ++ p.2)
    simp only [values] at step
    cases o with
    | none => simpa [traverse, map, values, toList] using step none
    | some a =>
      have step (b : β) := step (some b)
      simp only [Option.map_some, Option.toList_some, List.cons_append, List.nil_append] at step
      simp [traverse, map, values, toList, step]

end Entries

namespace Binding

theorem traverseAll_map (f : List Label → β → m γ) (g : α → β) (scope : List Label)
    (bs : List (Binding α)) :
    traverseAll f scope (bs.map (map g)) = traverseAll (fun inner a => f inner (g a)) scope bs := by
  induction bs generalizing scope with
  | nil => rfl
  | cons b bs ih =>
    obtain ⟨x, type, value⟩ := b
    cases type <;> simp [traverseAll, traverse, map, ih]

theorem views_traverseAll (f : List Label → α → m β) (scope : List Label) (bs : List (Binding α)) :
    (fun bs' => (bs'.map (map fun _ => ()), (scopedChildren scope bs').map Prod.snd)) <$>
        traverseAll f scope bs =
      (bs.map (map fun _ => ()), ·) <$>
        (scopedChildren scope bs).mapM fun (inner, c) => f inner c := by
  induction bs generalizing scope with
  | nil => simp [traverseAll, scopedChildren]
  | cons b bs ih =>
    obtain ⟨x, type, value⟩ := b
    have step (t : Option β) (v : β) := map_congr_views (ih (scope ++ [x]))
      fun p => ((⟨x, t.map fun _ => (), ()⟩ : Binding Unit) :: p.1, t.toList ++ v :: p.2)
    simp only at step
    cases type with
    | none =>
      have step (v : β) := step none v
      simp only [Option.map_none, Option.toList_none, List.nil_append] at step
      simp [traverseAll, traverse, scopedChildren, children, map, step]
    | some t =>
      have step (t v : β) := step (some t) v
      simp only [Option.map_some, Option.toList_some, List.cons_append, List.nil_append] at step
      simp [traverseAll, traverse, scopedChildren, children, map, step]

end Binding

namespace Node

/-- A traversal visits the children in order and keeps the shape. -/
theorem views_traverse (f : List Label → α → m β) (n : Node α) :
    (fun n' => (n'.shape, n'.children)) <$> n.traverse f =
      (n.shape, ·) <$> n.scopedChildren.mapM fun (inner, c) => f inner c := by
  cases n with
  | letIn bindings body =>
    have step := bind_congr_views (Binding.views_traverseAll f [] bindings) fun p =>
      (fun c => ((letIn p.1 () : Node Unit), p.2 ++ [c])) <$> f (bindings.map Binding.label) body
    simp only at step
    simp [traverse, scopedChildren, shape, map, children, step]
  | text t =>
    simpa [traverse, scopedChildren, shape, map, children, Function.comp_def] using
      map_congr_views (Text.views_traverse (f []) t) fun p => ((text p.1 : Node Unit), p.2)
  | list items =>
    have step := map_congr_views (views_mapM_list (f []) items)
      fun p => ((list p.1 : Node Unit), p.2)
    simp only at step
    simpa only [shape, map, children, scopedChildren, traverse, bind_pure_comp, Functor.map_map,
      List.map_map, Function.comp_def, List.map_id_fun', id_eq, List.mapM_map] using step
  | recordType fields =>
    simpa [traverse, scopedChildren, shape, map, children, Function.comp_def] using
      map_congr_views (Entries.views_traverse (f []) fields)
        fun p => ((recordType p.1 : Node Unit), p.2)
  | record fields =>
    simpa [traverse, scopedChildren, shape, map, children, Function.comp_def] using
      map_congr_views (Entries.views_traverse (f []) fields)
        fun p => ((record p.1 : Node Unit), p.2)
  | union alternatives =>
    simpa [traverse, scopedChildren, shape, map, children, Function.comp_def] using
      map_congr_views (Entries.views_traverse_optional (f []) alternatives)
        fun p => ((union p.1 : Node Unit), p.2)
  | merge handlers variant type =>
    have step (c d : β) := map_congr_views (views_mapM_option (f []) type)
      fun p => ((merge () () p.1 : Node Unit), c :: d :: p.2)
    simp only at step
    simp [traverse, scopedChildren, shape, map, children, Function.comp_def, step]
  | toMap e type =>
    have step (c : β) := map_congr_views (views_mapM_option (f []) type)
      fun p => ((toMap () p.1 : Node Unit), c :: p.2)
    simp only at step
    simp [traverse, scopedChildren, shape, map, children, Function.comp_def, step]
  | _ => simp [traverse, scopedChildren, shape, map, children]

/-- Traversing after a map runs the effect on the images. -/
theorem traverse_map (f : List Label → β → m γ) (g : α → β) (n : Node α) :
    (n.map g).traverse f = n.traverse fun inner a => f inner (g a) := by
  cases n with
  | letIn bindings body =>
    simp [map, traverse, Binding.traverseAll_map, Function.comp_def]
  | text t => simp [map, traverse, Text.traverse_map]
  | list items => simp [map, traverse, Function.comp_def]
  | recordType fields | record fields => simp [map, traverse, Entries.traverse_map]
  | union alternatives =>
    have optional (o : Option α) : (o.map g).mapM (f []) = o.mapM fun a => f [] (g a) := by
      cases o <;> rfl
    simp [map, traverse, Entries.traverse_map, optional]
  | merge handlers variant type | toMap e type => cases type <;> simp [map, traverse]
  | _ => simp [map, traverse]

end Node

end Dhall
