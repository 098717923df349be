/-
# Selections in queries

The rules for fields and projections look at a query before the record is known: they pass a
selection on to the operand that can have the field, cut a literal down to the field, and split
a projection between two operands. What they return has the answer of the selection in every
record in which the selection has one. So a query and its normal form have the same answers.

## Main results

* `Expr.answers_reducePrefer`, `Expr.answers_mergeRecords` — preferences and merges
* `Expr.answers_select`, `Expr.answers_selectAll` — fields and projections
* `Expr.answers_of_normal` — the normal form of a query has its answers
* `Expr.normalizes_query` — evaluating a query before the record is put in changes nothing
-/

import Dhall.Proofs.Query

namespace Dhall.Expr

open Operator

variable {r : Variable} {R e n v w u x y : Expr} {l : Label} {values : LabelMap Expr}

/-! ### Comparisons -/

/-- A query has no binders, and its parts have answers if it has one. -/
theorem Answers.parts {n : Node Expr} (h : Answers r R (mk n) v) :
    n.isPlain ∧ ∀ c ∈ n.children, ∃ w, Answers r R c w := by
  cases h with
  | var | natural m => exact ⟨rfl, List.forall_mem_nil _⟩
  | @record fields values parts =>
    refine ⟨rfl, fun c member => ?_⟩
    rw [Node.children_record] at member
    obtain ⟨l, has⟩ := Entries.mem_values_iff.mp member
    have here := parts.get? l
    rw [has] at here
    obtain ⟨w, -, answer⟩ := exists_of_rel_some here
    exact ⟨w, answer⟩
  | prefer left right _ | combine left right _ =>
    exact ⟨rfl, List.forall_mem_cons.mpr ⟨⟨_, left⟩, List.forall_mem_singleton.mpr ⟨_, right⟩⟩⟩
  | field operand _ | project operand _ =>
    exact ⟨rfl, List.forall_mem_singleton.mpr ⟨_, operand⟩⟩

/-- There is nothing to rename in a query. -/
theorem alphaNormal_of_answers (h : Answers r R e v) : e.alphaNormal = .ok e := by
  induction e using induction generalizing v with
  | step n ih =>
    obtain ⟨plain, parts⟩ := h.parts
    rw [alphaNormal_mk, alphaNormalStep_plain plain]
    refine map_eq_pure_iff.mpr ⟨n, Node.traverse_eq_pure_iff.mpr ?_, rfl⟩
    refine Node.similar_self fun p member => ?_
    obtain ⟨w, answer⟩ := parts p.2 (List.mem_map_of_mem member)
    exact ih p.2 (List.mem_map_of_mem member) answer

/-- So queries that are equal up to names of bound variables are equal. -/
theorem eq_of_alphaEquivalent (hx : Answers r R x v) (hy : Answers r R y w)
    (same : x.alphaEquivalent y = .ok true) : x = y := by
  unfold alphaEquivalent at same
  split at same
  · next equal => exact equal
  · rw [alphaNormal_of_answers hx, alphaNormal_of_answers hy] at same
    exact of_decide_eq_true (Except.ok.inj same)

/-- A query has at most one answer in a record. -/
theorem Answers.unique (data : R.Data) (h : Answers r R e v) (h' : Answers r R e w) : v = w := by
  obtain ⟨e', substituted, normal⟩ := normalizes_of_answers data h
  obtain ⟨e'', substituted', normal'⟩ := normalizes_of_answers data h'
  cases substituted.symm.trans substituted'
  exact normal.unique normal'

/-! ### Operators -/

/-- What a preference reduces to has the preferred answer. -/
theorem answers_reducePrefer (data : R.Data) (hx : Answers r R x v) (hy : Answers r R y w)
    (reduced : reducePrefer x y = .ok n) (preferred : reducePrefer v w = .ok u) :
    Answers r R n u := by
  unfold reducePrefer at reduced
  split at reduced
  · next empty =>
    cases reduced
    obtain rfl := record?_eq_some.mp empty
    cases hy with | record parts =>
    cases parts
    rw [reducePrefer_nil_right] at preferred
    exact Except.ok.inj preferred ▸ hx
  · next empty _ =>
    cases reduced
    obtain rfl := record?_eq_some.mp empty
    cases hx with | record parts =>
    cases parts
    rw [reducePrefer_nil] at preferred
    exact Except.ok.inj preferred ▸ hy
  · next xs ys _ _ left right =>
    cases reduced
    obtain rfl := record?_eq_some.mp left
    obtain rfl := record?_eq_some.mp right
    cases hx with | record partsX =>
    cases hy with | record partsY =>
    rw [reducePrefer_record] at preferred
    exact Except.ok.inj preferred ▸ .record (LabelMap.related_union partsX partsY)
  · obtain ⟨same, compared, reduced⟩ := bind_eq_pure_iff.mp reduced
    cases same with
    | true =>
      -- Operands that agree are the same query, and then the answers are the same.
      cases reduced
      obtain rfl := eq_of_alphaEquivalent hx hy compared
      obtain rfl := hx.unique data hy
      rw [reducePrefer_self] at preferred
      exact Except.ok.inj preferred ▸ hy
    | false =>
      cases reduced
      exact .prefer hx hy preferred

/-- What a merge reduces to has the merged answer. -/
theorem answers_mergeRecords (hx : Answers r R x v) (hy : Answers r R y w)
    (reduced : mergeRecords x y = .ok n) (merged : mergeRecords v w = .ok u) :
    Answers r R n u := by
  induction x, y using mergeRecords_induction generalizing v w n u with
  | unknown x y unknown =>
    rw [mergeRecords_of_unknown unknown] at reduced
    cases reduced
    split
    · next empty =>
      obtain rfl := record?_eq_some.mp empty
      cases hx with | record parts =>
      cases parts
      rw [mergeRecords_nil] at merged
      exact Except.ok.inj merged ▸ hy
    · split
      · next empty =>
        obtain rfl := record?_eq_some.mp empty
        cases hy with | record parts =>
        cases parts
        rw [mergeRecords_nil_right] at merged
        exact Except.ok.inj merged ▸ hx
      · exact .combine hx hy merged
  | records xs ys ih =>
    cases hx with | record partsX =>
    cases hy with | record partsY =>
    rw [mergeRecords_record] at reduced merged
    obtain ⟨zs, fields, rfl⟩ := map_eq_pure_iff.mp reduced
    obtain ⟨zs', fields', rfl⟩ := map_eq_pure_iff.mp merged
    refine .record (LabelMap.related_union partsY ?_)
    -- A label that both records have is merged on both sides, and any other is kept on both.
    refine Entries.related_iff_get?.mpr fun k => ?_
    have here := Entries.traverse_eq_pure_iff.mp fields k
    have here' := Entries.traverse_eq_pure_iff.mp fields' k
    have related := partsX.get? k
    have others := partsY.get? k
    cases known : xs.get? k with
    | none =>
      rw [known] at here related
      rw [eq_none_of_rel related] at here'
      rw [eq_none_of_rel here, eq_none_of_rel here']
      exact .none
    | some a =>
      rw [known] at here related
      obtain ⟨b, known', answer⟩ := exists_of_rel_some related
      rw [known'] at here'
      obtain ⟨c, has, merges⟩ := exists_of_rel_some here
      obtain ⟨d, has', merges'⟩ := exists_of_rel_some here'
      rw [has, has']
      refine .some ?_
      rcases mergeField_eq_ok_iff.mp merges with ⟨absent, rfl⟩ | ⟨a', shared, -, merges⟩
      · rw [absent] at others
        rcases mergeField_eq_ok_iff.mp merges' with ⟨-, rfl⟩ | ⟨b', shared', -, -⟩
        · exact answer
        · rw [eq_none_of_rel others] at shared'
          cases shared'
      · rw [shared] at others
        obtain ⟨b', shared', answer'⟩ := exists_of_rel_some others
        rcases mergeField_eq_ok_iff.mp merges' with ⟨absent', -⟩ | ⟨_, same, -, merges'⟩
        · cases absent'.symm.trans shared'
        · cases same.symm.trans shared'
          exact ih k a a' known shared answer answer' merges merges'

/-! ### Selections -/

/-- The answers of a record are those of its fields. -/
theorem rel_get?_of_answers {fields : LabelMap Expr}
    (h : Answers r R (record fields) (record values)) (l : Label) :
    Option.Rel (Answers r R) (fields.get? l) (values.get? l) := by
  cases h with | record parts =>
  exact parts.get? l

/-- A preference that has a record as its answer prefers the fields of one record to those of
another. -/
theorem exists_of_answers_prefer (h : Answers r R (op .prefer x y) (record values)) :
    ∃ vs ws, Answers r R x (record vs) ∧ Answers r R y (record ws) ∧ values = vs.union ws := by
  cases h with | prefer left right preferred =>
  obtain ⟨vs, ws, rfl, rfl, same⟩ := reducePrefer_eq_record_iff.mp preferred
  exact ⟨vs, ws, left, right, same⟩

/-- A merge that has a record as its answer merges two records. -/
theorem exists_of_answers_combine (h : Answers r R (op .combine x y) (record values)) :
    ∃ vs ws, Answers r R x (record vs) ∧ Answers r R y (record ws) ∧
      mergeRecords (record vs) (record ws) = .ok (record values) := by
  cases h with | combine left right merged =>
  obtain ⟨vs, ws, _, rfl, rfl, -, -⟩ := mergeRecords_eq_record_iff.mp merged
  exact ⟨vs, ws, left, right, merged⟩

/-- A record that is cut down to one field. -/
theorem answers_singleton (h : Answers r R e v) (l : Label) :
    Answers r R (record (.singleton l e)) (record (.singleton l v)) :=
  .record (LabelMap.related_singleton h l)

/-- What a field reduces to has the answer of the field. -/
theorem answers_select (h : Answers r R e (record values)) (has : values.get? l = some v) :
    Answers r R (e.select l) v := by
  have only (a : Expr) : (LabelMap.singleton l a).get? l = some a := if_pos rfl
  induction e using select.induct l generalizing values with
  | case1 fields value known =>
    simp only [select, known]
    obtain ⟨_, known', answer⟩ := exists_of_rel_some (known ▸ rel_get?_of_answers h l)
    exact Option.some.inj (known'.symm.trans has) ▸ answer
  | case2 fields absent =>
    rw [(none_iff_of_rel (rel_get?_of_answers h l)).mp absent] at has
    cases has
  | case3 e labels ih =>
    cases h with | project operand _ =>
    rw [Entries.get?_restrict] at has
    split at has
    · exact ih operand has
    · cases has
  | case4 e type ih => cases h
  -- Preferences: the right operand decides if it is known, and only then the left one.
  | case5 x y ys known value shared =>
    simp only [select, known, shared]
    obtain rfl := record?_eq_some.mp known
    obtain ⟨vs, ws, left, right, rfl⟩ := exists_of_answers_prefer h
    obtain ⟨w, known', answer⟩ := exists_of_rel_some (shared ▸ rel_get?_of_answers right l)
    rw [LabelMap.get?_union, known', Option.some_or] at has
    exact Option.some.inj has ▸ answer
  | case6 x y ys known absent ih =>
    simp only [select, known, absent]
    obtain rfl := record?_eq_some.mp known
    obtain ⟨vs, ws, left, right, rfl⟩ := exists_of_answers_prefer h
    have absent' := (none_iff_of_rel (rel_get?_of_answers right l)).mp absent
    rw [LabelMap.get?_union, absent', Option.none_or] at has
    exact ih left has
  | case7 x y xs unknown known value shared =>
    simp only [select, unknown, known, shared]
    obtain rfl := record?_eq_some.mp known
    obtain ⟨vs, ws, left, right, rfl⟩ := exists_of_answers_prefer h
    obtain ⟨a, known', answer⟩ := exists_of_rel_some (shared ▸ rel_get?_of_answers left l)
    refine .field (.prefer (answers_singleton answer l) right (reducePrefer_record _ _)) ?_
    rw [LabelMap.get?_union, known'] at has
    rw [LabelMap.get?_union, only, has]
  | case8 x y xs unknown known absent ih =>
    simp only [select, unknown, known, absent]
    obtain rfl := record?_eq_some.mp known
    obtain ⟨vs, ws, left, right, rfl⟩ := exists_of_answers_prefer h
    have absent' := (none_iff_of_rel (rel_get?_of_answers left l)).mp absent
    rw [LabelMap.get?_union, absent', Option.or_none] at has
    exact ih right has
  | case9 x y right left =>
    simp only [select, right, left]
    exact .field h has
  -- Merges: an operand that lacks the field drops out, and one that has it is cut down to it.
  | case10 x y xs known value shared =>
    simp only [select, known, shared]
    obtain rfl := record?_eq_some.mp known
    obtain ⟨vs, ws, left, right, merged⟩ := exists_of_answers_combine h
    obtain ⟨a, known', answer⟩ := exists_of_rel_some (shared ▸ rel_get?_of_answers left l)
    have shared' (k : Label) (b c : Expr) (inLeft : (LabelMap.singleton l a).get? k = some b)
        (inRight : ws.get? k = some c) : vs.get? k = some b ∧ ws.get? k = some c := by
      obtain ⟨rfl, rfl⟩ := LabelMap.get?_singleton_eq_some.mp inLeft
      exact ⟨known', inRight⟩
    obtain ⟨zs, merged', kept⟩ :=
      exists_mergeRecords_of_shared merged shared' ((only a).trans known'.symm) rfl
    exact .field (.combine (answers_singleton answer l) right merged') (kept.trans has)
  | case11 x y xs known absent ih =>
    simp only [select, known, absent]
    obtain rfl := record?_eq_some.mp known
    obtain ⟨vs, ws, left, right, merged⟩ := exists_of_answers_combine h
    have absent' := (none_iff_of_rel (rel_get?_of_answers left l)).mp absent
    rw [(get?_of_mergeRecords merged l).1 absent'] at has
    exact ih right has
  | case12 x y ys known unknown value shared =>
    simp only [select, unknown, known, shared]
    obtain rfl := record?_eq_some.mp known
    obtain ⟨vs, ws, left, right, merged⟩ := exists_of_answers_combine h
    obtain ⟨a, known', answer⟩ := exists_of_rel_some (shared ▸ rel_get?_of_answers right l)
    have shared' (k : Label) (b c : Expr) (inLeft : vs.get? k = some b)
        (inRight : (LabelMap.singleton l a).get? k = some c) :
        vs.get? k = some b ∧ ws.get? k = some c := by
      obtain ⟨rfl, rfl⟩ := LabelMap.get?_singleton_eq_some.mp inRight
      exact ⟨inLeft, known'⟩
    obtain ⟨zs, merged', kept⟩ :=
      exists_mergeRecords_of_shared merged shared' rfl ((only a).trans known'.symm)
    exact .field (.combine left (answers_singleton answer l) merged') (kept.trans has)
  | case13 x y ys known unknown absent ih =>
    simp only [select, unknown, known, absent]
    obtain rfl := record?_eq_some.mp known
    obtain ⟨vs, ws, left, right, merged⟩ := exists_of_answers_combine h
    have absent' := (none_iff_of_rel (rel_get?_of_answers right l)).mp absent
    rw [(get?_of_mergeRecords merged l).2 absent'] at has
    exact ih left has
  | case14 x y left right =>
    simp only [select, left, right]
    exact .field h has
  | case15 e notRecord notProject notProjectType notPrefer notCombine =>
    rw [select_eq_field notRecord notProject notProjectType notPrefer notCombine]
    exact .field h has

/-- A projection of a projection is the projection to the labels of the outer one. -/
theorem restrict_restrict {inner labels : LabelSet}
    (within : ∀ k, labels.contains k → (values.restrict inner.contains).contains k) :
    (values.restrict inner.contains).restrict labels.contains =
      values.restrict labels.contains := by
  refine Entries.ext_get? fun k => ?_
  rw [Entries.get?_restrict, Entries.get?_restrict, Entries.get?_restrict]
  split
  · next asked =>
    have found := within k asked
    rw [Entries.contains, Entries.get?_restrict] at found
    split at found
    · next kept => rw [if_pos kept]
    · cases found
  · rfl

/-- A projection of a union takes from the left map the labels that the right one lacks. -/
theorem restrict_union (xs ys : LabelMap Expr) (labels : LabelSet) :
    (xs.union ys).restrict labels.contains =
      LabelMap.union (xs.restrict (labels.restrict fun k => !ys.contains k).contains)
        (ys.restrict labels.contains) := by
  refine Entries.ext_get? fun k => ?_
  simp only [Entries.get?_restrict, LabelMap.get?_union, Entries.contains]
  by_cases asked : (labels.get? k).isSome = true
  · cases ys.get? k with
    | none => simp [asked]
    | some b => simp [asked]
  · have out : labels.get? k = none := by simpa using asked
    simp [out]

/-- What a projection reduces to has the answer of the projection. -/
theorem answers_selectAll (data : R.Data) {labels : LabelSet} (h : Answers r R e (record values))
    (has : ∀ k, labels.contains k → values.contains k)
    (reduced : e.selectAll labels = .ok n) :
    Answers r R n (record (values.restrict labels.contains)) := by
  induction e, labels using selectAll.induct generalizing values n with
  | case1 e =>
    cases (selectAll_nil e).symm.trans reduced
    rw [Entries.restrict_contains_nil]
    exact .record .nil
  | case2 fields labels some =>
    rw [selectAll_record] at reduced
    cases reduced
    cases h with | record parts =>
    exact .record (parts.restrict _)
  | case3 e inner labels some ih =>
    rw [selectAll] at reduced
    · cases h with | @project _ _ whole operand _ =>
      rw [restrict_restrict has]
      refine ih operand (fun k asked => ?_) reduced
      have found := has k asked
      rw [Entries.contains, Entries.get?_restrict] at found
      split at found
      · exact found
      · cases found
    · exact some
  | case4 x y labels some fields known ih =>
    rw [selectAll] at reduced
    · simp only [known] at reduced
      obtain ⟨a, selected, reduced⟩ := bind_eq_pure_iff.mp reduced
      obtain rfl := record?_eq_some.mp known
      obtain ⟨vs, ws, left, right, rfl⟩ := exists_of_answers_prefer h
      cases right with | record parts =>
      -- The left operand is asked for what the right one lacks.
      have lacking (k : Label)
          (asked : (labels.restrict fun k => !fields.contains k).contains k) :
          vs.contains k := by
        rw [Entries.contains, Entries.get?_restrict] at asked
        split at asked
        · next absent =>
          have found := has k asked
          have absent' : ws.contains k = false := by
            rw [parts.contains_eq k]
            simpa using absent
          rw [Entries.contains, Option.isSome_eq_false_iff, Option.isNone_iff_eq_none] at absent'
          rwa [Entries.contains, LabelMap.get?_union, absent', Option.none_or] at found
        · cases asked
      have answer := answers_reducePrefer data (ih left lacking selected)
        (.record (parts.restrict labels.contains)) reduced (reducePrefer_record _ _)
      have same : (fun k => !fields.contains k) = fun k => !ws.contains k :=
        funext fun k => by rw [parts.contains_eq k]
      rw [restrict_union vs ws labels, ← same]
      exact answer
    · exact some
  | case5 x y labels some unknown =>
    rw [selectAll] at reduced
    · simp only [unknown] at reduced
      cases reduced
      exact .project h has
    · exact some
  | case6 e labels some notRecord notProject notPrefer =>
    rw [selectAll_eq_project some notRecord notProject notPrefer] at reduced
    cases reduced
    exact .project h has

/-! ### Evaluation -/

/-- The normal form of a query has the answers of the query. -/
theorem answers_of_normal (data : R.Data) (h : Answers r R e v) (normal : e.Normalizes n) :
    Answers r R n v := by
  induction e using induction generalizing v n with
  | step node ih =>
    cases h with
    | var => exact normal.unique (normalizes_var r) ▸ .var
    | natural m =>
      obtain rfl := normal.unique (normalizes_natural m)
      exact .natural m
    | @record fields values parts =>
      obtain ⟨fields', rfl, evaluated⟩ := normalizes_record_iff.mp normal
      refine .record (parts.beside evaluated fun c member w c' answer normal => ?_)
      exact ih c (Node.children_record fields ▸ member) answer normal
    | prefer left right preferred =>
      obtain ⟨x', y', first, second, reduced⟩ := normalizes_op_iff.mp normal
      exact answers_reducePrefer data (ih _ (.head _) left first)
        (ih _ (.tail _ (.head _)) right second) reduced preferred
    | combine left right merged =>
      obtain ⟨x', y', first, second, reduced⟩ := normalizes_op_iff.mp normal
      exact answers_mergeRecords (ih _ (.head _) left first)
        (ih _ (.tail _ (.head _)) right second) reduced merged
    | field operand has =>
      obtain ⟨e', evaluated, rfl⟩ := normalizes_field_iff.mp normal
      exact answers_select (ih _ (.head _) operand evaluated) has
    | project operand has =>
      obtain ⟨e', evaluated, selected⟩ := normalizes_project_iff.mp normal
      exact answers_selectAll data (ih _ (.head _) operand evaluated) has selected

/-- A query can be evaluated before the record is put in the place of the variable: if all
selections find what they ask for, the normal form of the query has then the normal form that
the query itself has with the record in the place of the variable. -/
theorem normalizes_query (query : Query r e) (data : R.Data) :
    ∃ e', e.subst r R = .ok e' ∧
      ∀ n v, e.Normalizes n → e'.Normalizes v → Everywhere Finds e' →
        ∃ n', n.subst r R = .ok n' ∧ n'.Normalizes v := by
  obtain ⟨e', substituted⟩ := query.subst_returns R
  refine ⟨e', substituted, fun n v normal evaluated finds => ?_⟩
  have answer := answers_of_normalizes query data substituted finds evaluated
  exact normalizes_of_answers data (answers_of_normal data answer normal)

/-- A projection that the rules split between a variable and a literal. -/
theorem normalizes_query_projected :
    let r := Variable.nearest "r"
    let a := record (.singleton "a" (natural 1))
    let e := project (op .prefer (var r) a) (.ofList ["a", "b"])
    let n := op .prefer (project (var r) (.singleton "b" ())) a
    let R := record (.cons "a" trivial (natural 0) (.cons "b" (by decide) (natural 2) .nil))
    let e' := project (op .prefer R a) (.ofList ["a", "b"])
    let v := record (.cons "a" trivial (natural 1) (.cons "b" (by decide) (natural 2) .nil))
    Query r e ∧ R.Data ∧ e.subst r R = .ok e' ∧ e.Normalizes n ∧ e'.Normalizes v ∧
      Everywhere Finds e' ∧ ∃ n', n.subst r R = .ok n' ∧ n'.Normalizes v := by
  intro r a e n R e' v
  have query : Query r e := by
    simp [Query, e, a, everywhere_mk, Entries.values, Entries.toList, LabelMap.singleton, node,
      Node.isQuery, Node.children, Node.scopedChildren]
  have data : R.Data := by
    simp [Data, R, everywhere_mk, Entries.values, Entries.toList, Node.children,
      Node.scopedChildren]
  have substituted : e.subst r R = .ok e' := rfl
  have normal : e.Normalizes n := ⟨5, rfl⟩
  -- The fields of the literal win, and the other field of the record stays.
  have preferred : Operator.reducePrefer R a = .ok v := by
    rw [Operator.reducePrefer_record]
    refine congrArg (fun fields => Except.ok (record fields)) (Entries.ext_get? fun k => ?_)
    rw [LabelMap.get?_union]
    by_cases k = "a" <;> simp [*, LabelMap.singleton, Entries.get?_cons]
  have operand : (op .prefer R a).Normalizes v :=
    data.normalizes_self.op ⟨2, rfl⟩ preferred
  have evaluated : e'.Normalizes v :=
    normalizes_project_iff.mpr ⟨v, operand, selectAll_record _ _⟩
  have here : Finds e' := by
    refine ⟨fun x l same => ?_, fun x labels same => ?_⟩
    · cases mk.inj same
    obtain ⟨rfl, rfl⟩ := Node.project.inj (mk.inj same)
    refine ⟨_, operand, fun l asked => ?_⟩
    by_cases l = "b" <;>
      simp_all [LabelSet.ofList, LabelMap.ofList, LabelMap.empty, Entries.get?_insert,
        Entries.contains, Entries.get?_cons]
  have finds : Everywhere Finds e' := by
    refine everywhere_mk.mpr ⟨here, ?_⟩
    simp [R, a, everywhere_mk, Entries.values, Entries.toList, LabelMap.singleton,
      Node.children, Node.scopedChildren, Finds]
  obtain ⟨_, same, pushed⟩ := normalizes_query query data
  cases substituted.symm.trans same
  exact ⟨query, data, substituted, normal, evaluated, finds, pushed n v normal evaluated finds⟩

end Dhall.Expr
