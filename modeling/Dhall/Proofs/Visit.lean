/-
# Visits of the children

A traversal calls a function at each child. The function may keep a state from one call to the
next, and any call may fail; what a failed call has done to the state stays done. So it can be
observed which calls are made: a function that writes them down has, after the traversal, a record
of the children in order, each with the labels around it, and up to the first failure if there is
one.

Nothing about constructs is needed here. A traversal has the effects of a list of calls, and a node
is determined by its shape and its children, so the calls are followed along the list, and the node
that is returned is the one of the old shape with the results as children.

## Main definitions

* `Node.InOrder` — what the order of the children is, and what the labels around them are
* `Visit` — a function to be called at children
* `Visit.recorded` — the function that also writes its calls down
* `Visit.Returns` — calls that all return, one after the other

## Main results

* `Node.inOrder` — the children are listed in the order in which they are written
* `Node.traverse_returns`, `Node.traverse_fails` — the two ways in which a traversal ends
* `Node.traverse_pure` — a traversal without effects
* `Node.traverse_visits` — traversals visit all children, in order, until a visit fails
-/

import Dhall.Proofs.Traversal

namespace Dhall

variable {σ ε α β γ : Type}

/-! ### Order and scope -/

/-- Whatever the first label of some entries is above, all of their labels are above. -/
theorem Entries.above_of_mem_labels {bound : Option Label} (m : Entries α bound) :
    ∀ l ∈ m.labels, Label.Above bound l := by
  induction m with
  | nil => exact nofun
  | cons k above a rest ih =>
    intro l member
    rcases List.mem_cons.mp member with rfl | member
    · exact above
    · exact above.trans (ih l member)

/-- Entries come by ascending label. -/
theorem Entries.toList_ascending {bound : Option Label} (m : Entries α bound) :
    m.toList.Pairwise fun p q => p.1 < q.1 := by
  induction m with
  | nil => exact .nil
  | cons k above a rest ih =>
    exact .cons (fun p member => rest.above_of_mem_labels p.1 (List.mem_map_of_mem member)) ih

/-- The children of a definition are in the scope of the definitions before it. -/
theorem Binding.scopedChildren_eq (scope : List Label) (bs : List (Binding α)) :
    scopedChildren scope bs = bs.zipIdx.flatMap fun p =>
      p.1.children.map (scope ++ (bs.take p.2).map Binding.label, ·) := by
  induction bs generalizing scope with
  | nil => rfl
  | cons b bs ih =>
    rw [scopedChildren, ih, List.zipIdx_cons', List.flatMap_cons, List.flatMap_map, List.take_zero,
      List.map_nil, List.append_nil]
    simp only [List.append_assoc, List.singleton_append]
    rfl

namespace Node

/-- The order of the children of a construct where there is a choice, and the labels around them
where there are any. -/
structure InOrder (n : Node α) : Prop where
  /-- The type of a parameter is outside of the label, and what comes after it is under it. -/
  parameters : ∀ x type body, n = lam x type body ∨ n = pi x type body →
    n.scopedChildren = [([], type), ([x], body)]
  /-- A definition is under the labels of those before it, its annotation comes before its value,
  and the body comes last, under all labels. -/
  definitions : ∀ bindings body, n = letIn bindings body →
    n.scopedChildren = (bindings.zipIdx.flatMap fun p =>
      p.1.children.map ((bindings.take p.2).map Binding.label, ·)) ++
        [(bindings.map Binding.label, body)]
  /-- Fields come by ascending label. -/
  fields : ∀ entries, n = record entries ∨ n = recordType entries →
    n.scopedChildren = entries.toList.map (fun p => ([], p.2)) ∧
      entries.toList.Pairwise fun p q => p.1 < q.1
  /-- Alternatives come by ascending label, and those without a type are passed over. -/
  alternatives : ∀ entries, n = union entries →
    n.scopedChildren = entries.toList.filterMap (fun p => p.2.map ([], ·)) ∧
      entries.toList.Pairwise fun p q => p.1 < q.1
  /-- An annotation that may be missing comes last. -/
  annotations : ∀ annotation, (∀ handlers variant, n = merge handlers variant annotation →
      n.children = [handlers, variant] ++ annotation.toList) ∧
    ∀ entries, n = toMap entries annotation → n.children = entries :: annotation.toList

theorem inOrder (n : Node α) : n.InOrder where
  parameters := by
    rintro x type body (rfl | rfl) <;> rfl
  definitions := by
    rintro bindings body rfl
    exact congrArg (· ++ _) (Binding.scopedChildren_eq [] bindings)
  fields := by
    rintro entries (rfl | rfl)
    · exact ⟨List.map_map, entries.toList_ascending⟩
    · exact ⟨List.map_map, entries.toList_ascending⟩
  alternatives := by
    rintro entries rfl
    refine ⟨?_, entries.toList_ascending⟩
    rw [scopedChildren, Entries.values, List.flatMap_map, List.map_flatMap,
      List.filterMap_eq_flatMap_toList]
    refine List.flatMap_congr fun p _ => ?_
    cases p.2 <;> rfl
  annotations := by
    refine fun annotation => ⟨?_, ?_⟩
    · rintro handlers variant rfl
      cases annotation <;> rfl
    · rintro entries rfl
      cases annotation <;> rfl

end Node

/-! ### Calls in a row -/

/-- A function that is called with a child and the labels around it. It may change a state, and it
may fail. -/
abbrev Visit (σ ε α β : Type) : Type := List Label → α → ExceptT ε (StateM σ) β

section Run

variable {x : ExceptT ε (StateM σ) α} {s t : σ} {a : α} {e : ε}

theorem run_bind_of_ok (g : α → ExceptT ε (StateM σ) β) (h : x.run.run s = (.ok a, t)) :
    (x >>= g).run.run s = (g a).run.run t := by
  rw [ExceptT.run_bind, StateT.run_bind, h]
  rfl

theorem run_bind_of_error (g : α → ExceptT ε (StateM σ) β) (h : x.run.run s = (.error e, t)) :
    (x >>= g).run.run s = (.error e, t) := by
  rw [ExceptT.run_bind, StateT.run_bind, h]
  rfl

theorem run_of_map_ok {g : α → β} {b : β} (h : (g <$> x).run.run s = (.ok b, t)) :
    ∃ a, x.run.run s = (.ok a, t) ∧ g a = b := by
  rw [ExceptT.run_map, StateT.run_map] at h
  match returned : x.run.run s with
  | (.ok a, t') =>
    rw [returned] at h
    cases h
    exact ⟨a, rfl, rfl⟩
  | (.error e, t') =>
    rw [returned] at h
    cases h

theorem run_of_map_error {g : α → β} (h : (g <$> x).run.run s = (.error e, t)) :
    x.run.run s = (.error e, t) := by
  rw [ExceptT.run_map, StateT.run_map] at h
  match returned : x.run.run s with
  | (.ok a, t') =>
    rw [returned] at h
    cases h
  | (.error e', t') =>
    rw [returned] at h
    cases h
    rfl

end Run

namespace Visit

variable {f : Visit σ ε α β} {s t u : σ} {p : List Label × α} {b : β} {bs : List β} {e : ε}
  {ps before after calls : List (List Label × α)}

/-- The function that also writes its calls down. -/
def recorded (f : Visit σ ε α β) : Visit (List (List Label × α) × σ) ε α β := fun inner c =>
  ExceptT.mk fun s =>
    let (outcome, t) := (f inner c).run.run s.2
    (outcome, s.1 ++ [(inner, c)], t)

/-- Calls one after the other that all return. Each starts in the state in which the one before it
has ended. -/
inductive Returns (f : Visit σ ε α β) : σ → List (List Label × α) → List β → σ → Prop
  /-- No call is made. -/
  | nil {s : σ} : Returns f s [] [] s
  /-- The first call returns, and then the others do. -/
  | cons {s t u : σ} {p : List Label × α} {ps : List (List Label × α)} {b : β} {bs : List β}
      (here : (f p.1 p.2).run.run s = (.ok b, t)) (below : Returns f t ps bs u) :
      Returns f s (p :: ps) (b :: bs) u

theorem run_recorded {outcome : Except ε β} (h : (f p.1 p.2).run.run s = (outcome, t)) :
    (f.recorded p.1 p.2).run.run (calls, s) = (outcome, calls ++ [p], t) :=
  congrArg (fun r : Except ε β × σ => (r.1, calls ++ [p], r.2)) h

/-- Calls that return return when they are recorded, and the record has them in order. -/
theorem Returns.recorded (h : f.Returns s ps bs t) (calls : List (List Label × α)) :
    f.recorded.Returns (calls, s) ps bs (calls ++ ps, t) := by
  induction h generalizing calls with
  | nil => rw [List.append_nil]; exact .nil
  | @cons s t u p ps b bs here _ ih =>
    refine .cons (run_recorded here) ?_
    have rest := ih (calls ++ [p])
    rwa [List.append_assoc, List.singleton_append] at rest

/-- A sequence of calls returns if all of them do. -/
theorem Returns.run_mapM (h : f.Returns s ps bs t) :
    (ps.mapM fun p => f p.1 p.2).run.run s = (.ok bs, t) := by
  induction h with
  | nil => rfl
  | cons here _ ih =>
    rw [List.mapM_cons, run_bind_of_ok _ here, run_bind_of_ok _ ih]
    rfl

/-- A sequence of calls fails as the first of them does that fails, and later ones are not made. -/
theorem Returns.run_mapM_of_error (h : f.Returns s before bs t)
    (failed : (f p.1 p.2).run.run t = (.error e, u)) :
    ((before ++ p :: after).mapM fun p => f p.1 p.2).run.run s = (.error e, u) := by
  induction h with
  | nil => rw [List.nil_append, List.mapM_cons, run_bind_of_error _ failed]
  | cons here _ ih =>
    rw [List.cons_append, List.mapM_cons, run_bind_of_ok _ here, run_bind_of_error _ (ih failed)]

end Visit

namespace Node

variable {f : Visit σ ε α β} {n : Node α} {s t u : σ} {p : List Label × α} {bs : List β} {e : ε}
  {before after : List (List Label × α)}

/-- A traversal returns if the calls at the children do, and it returns a node of the old shape. -/
theorem traverse_returns (h : f.Returns s n.scopedChildren bs t) :
    ∃ n', (n.traverse f).run.run s = (.ok n', t) ∧ n'.shape = n.shape ∧ n'.children = bs := by
  have views := congrArg (fun x => x.run.run s) (views_traverse f n)
  have returned : ((n.shape, ·) <$> n.scopedChildren.mapM fun p => f p.1 p.2).run.run s =
      (.ok (n.shape, bs), t) := by
    rw [ExceptT.run_map, StateT.run_map, h.run_mapM]
    rfl
  obtain ⟨n', returned, same⟩ := run_of_map_ok (views.trans returned)
  rw [Prod.mk.injEq] at same
  exact ⟨n', returned, same⟩

/-- A traversal fails as the first call does that fails. -/
theorem traverse_fails (children : n.scopedChildren = before ++ p :: after)
    (h : f.Returns s before bs t) (failed : (f p.1 p.2).run.run t = (.error e, u)) :
    (n.traverse f).run.run s = (.error e, u) := by
  have views := congrArg (fun x => x.run.run s) (views_traverse f n)
  have returned : ((n.shape, ·) <$> n.scopedChildren.mapM fun p => f p.1 p.2).run.run s =
      (.error e, u) := by
    rw [children, ExceptT.run_map, StateT.run_map, h.run_mapM_of_error failed]
    rfl
  exact run_of_map_error (views.trans returned)

/-- A node is returned if its shape and its children are. -/
theorem eq_pure_of_views {m : Type → Type} [Monad m] [LawfulMonad m] {x : m (Node α)}
    (h : (fun n' => (n'.shape, n'.children)) <$> x = pure (n.shape, n.children)) : x = pure n := by
  have injective : Function.Injective fun n' : Node α => (n'.shape, n'.children) :=
    fun _ _ same => eq_of_shape (Prod.mk.inj same).1 (Prod.mk.inj same).2
  have : Nonempty (Node α) := ⟨n⟩
  obtain ⟨rebuild, inverse⟩ := injective.hasLeftInverse
  calc x = rebuild <$> (fun n' => (n'.shape, n'.children)) <$> x := by
        rw [Functor.map_map]
        exact (id_map x).symm.trans (congrArg (· <$> x) (funext inverse).symm)
    _ = pure n := by rw [h, map_pure]; exact congrArg pure (inverse n)

/-- Nodes that are similar along a function have the values of the function as children. -/
theorem similar_function_iff {g : List Label → α → β} {n' : Node β} :
    n.Similar (fun inner c c' => c' = g inner c) n' ↔
      n'.shape = n.shape ∧ n'.children = n.scopedChildren.map fun p => g p.1 p.2 := by
  refine and_congr_right fun _ => ?_
  rw [eq_comm, ← List.forall₂_eq_eq_eq, List.forall₂_map_left_iff]
  simp only [eq_comm]

/-- A traversal without effects returns the node of the old shape with the results as children,
whatever effects there could be. -/
theorem traverse_pure (g : List Label → α → β) (n : Node α) :
    ∃ n' : Node β, n.Similar (fun inner c c' => c' = g inner c) n' ∧
      ∀ (m : Type → Type) [Monad m] [LawfulMonad m],
        n.traverse (fun inner c => (pure (g inner c) : m β)) = pure n' := by
  obtain ⟨n', returned⟩ : ∃ n', n.traverse (m := Id) (fun inner c => pure (g inner c)) = pure n' :=
    ⟨_, rfl⟩
  have similar := (traverse_eq_pure_iff.mp returned).imp (S := fun inner c c' => c' = g inner c)
    fun p _ c' same => same.symm
  refine ⟨n', similar, fun m _ _ => eq_pure_of_views ?_⟩
  obtain ⟨shape, children⟩ := similar_function_iff.mp similar
  rw [views_traverse, List.mapM_pure, map_pure, shape, children]

/-- Two traversals without effects are one. -/
theorem traverse_traverse_pure {m : Type → Type} [Monad m] [LawfulMonad m]
    (g : List Label → α → β) (h : List Label → β → γ) (n : Node α) :
    (do (← n.traverse fun inner c => pure (g inner c)).traverse fun inner c => pure (h inner c)) =
      (n.traverse fun inner c => pure (h inner (g inner c)) : m (Node γ)) := by
  obtain ⟨n', first, returned⟩ := traverse_pure g n
  obtain ⟨n'', second, returned'⟩ := traverse_pure h n'
  obtain ⟨atOnce, both, returned''⟩ := traverse_pure (fun inner c => h inner (g inner c)) n
  have composed := (first.trans second).imp (S := fun inner c c' => c' = h inner (g inner c))
    fun p _ c' steps => by
      obtain ⟨_, rfl, rfl⟩ := steps
      rfl
  -- Both results have the shape of the node and the same children.
  obtain ⟨shape, children⟩ := similar_function_iff.mp composed
  obtain ⟨shape', children'⟩ := similar_function_iff.mp both
  rw [returned, pure_bind, returned', returned'',
    eq_of_shape (shape.trans shape'.symm) (children.trans children'.symm)]

/-- A traversal visits the children in order, each with the labels around it. If every call returns,
it returns the node of the same shape whose children are the results, and if a call is the first to
fail, no further one is made and the traversal fails as that call does. Traversing without any
change returns the same node, and traversing twice without effects is the same as traversing
once. -/
theorem traverse_visits (n : Node α) (f : Visit σ ε α β) (s : σ) :
    n.InOrder ∧
    (∀ bs t, f.Returns s n.scopedChildren bs t →
      ∃ n', (n.traverse f).run.run s = (.ok n', t) ∧
        (n.traverse f.recorded).run.run ([], s) = (.ok n', n.scopedChildren, t) ∧
        n'.shape = n.shape ∧ n'.children = bs) ∧
    (∀ i p bs t e u, n.scopedChildren[i]? = some p → f.Returns s (n.scopedChildren.take i) bs t →
      (f p.1 p.2).run.run t = (.error e, u) → (n.traverse f).run.run s = (.error e, u) ∧
        ∃ calls, calls <+: n.scopedChildren ∧ calls.length = i + 1 ∧
          (n.traverse f.recorded).run.run ([], s) = (.error e, calls, u)) ∧
    (n.traverse fun _ c => pure c : ExceptT ε (StateM σ) (Node α)) = pure n ∧
    (∀ (g : List Label → α → β) (h : List Label → β → γ),
      (do (← n.traverse fun inner c => pure (g inner c)).traverse fun inner c =>
        pure (h inner c)) =
        (n.traverse fun inner c => pure (h inner (g inner c)) :
          ExceptT ε (StateM σ) (Node γ))) := by
  refine ⟨n.inOrder, fun bs t returns => ?_, fun i p bs t e u place returns failed => ?_, ?_,
    fun g h => traverse_traverse_pure g h n⟩
  · obtain ⟨n', returned, shape, children⟩ := traverse_returns returns
    obtain ⟨n'', recorded, shape', children'⟩ := traverse_returns (returns.recorded [])
    obtain rfl : n'' = n' := eq_of_shape (shape'.trans shape.symm) (children'.trans children.symm)
    exact ⟨n'', returned, recorded, shape, children⟩
  · obtain ⟨inside, rfl⟩ := List.getElem?_eq_some_iff.mp place
    -- The children are those before the one that fails, this one, and those after it.
    have children : n.scopedChildren = n.scopedChildren.take i ++
        n.scopedChildren[i] :: n.scopedChildren.drop (i + 1) := by
      rw [← List.drop_eq_getElem_cons inside, List.take_append_drop]
    refine ⟨traverse_fails children returns failed, n.scopedChildren.take (i + 1),
      List.take_prefix _ _, by rw [List.length_take]; omega, ?_⟩
    rw [List.take_add_one, place]
    exact traverse_fails children (returns.recorded []) (Visit.run_recorded failed)
  · obtain ⟨n', same, returned⟩ := traverse_pure (fun _ c => c) n
    rw [returned, same.eq]

/-- The children of a `let`, visited until the second value, or all of them. -/
theorem traverse_visits_let :
    let n : Node Nat := letIn [⟨"x", some 1, 2⟩, ⟨"y", none, 3⟩] 4
    let f (bad : Nat) : Visit Nat Nat Nat Nat := fun inner c => do
      modify (· + 1)
      if c = bad then throw c else pure (c + inner.length)
    (∃ n', (n.traverse (f 0)).run.run 0 = (.ok n', 4) ∧ n'.shape = n.shape ∧
      n'.children = [1, 2, 4, 6]) ∧
    (n.traverse (f 3)).run.run 0 = (.error 3, 3) ∧
      ∃ calls, calls <+: n.scopedChildren ∧ calls.length = 3 ∧
        (n.traverse (f 3).recorded).run.run ([], 0) = (.error 3, calls, 3) := by
  intro n f
  obtain ⟨-, all, -⟩ := traverse_visits (γ := Nat) n (f 0) 0
  obtain ⟨-, -, first, -⟩ := traverse_visits (γ := Nat) n (f 3) 0
  obtain ⟨n', returned, -, shape, children⟩ :=
    all [1, 2, 4, 6] 4 (.cons rfl (.cons rfl (.cons rfl (.cons rfl .nil))))
  exact ⟨⟨n', returned, shape, children⟩,
    first 2 (["x"], 3) [1, 2] 2 3 3 rfl (.cons rfl (.cons rfl .nil)) rfl⟩

end Node

end Dhall
