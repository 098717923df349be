/-
# Queries of a record

A query asks for parts of one record that a variable stands for: it selects fields, projects,
prefers and merges, and puts records together. It has an answer in a given record if every
field and every projection finds what it asks for. The answer is the normal form of the query
with the record in the place of the variable, and conversely such a normal form is the answer
if all selections on the way find what they ask for.

## Main definitions

* `Expr.Query`, `Expr.Data` — queries, and the records they are about
* `Expr.Answers` — what a query evaluates to in a record, where all selections succeed
* `Expr.Finds` — an expression that is no selection, or one whose operand has what it asks for

## Main results

* `Expr.normalizes_of_answers` — an answer is the normal form of the query in the record
* `Expr.answers_of_normalizes` — such a normal form is an answer if all selections succeed
-/

import Dhall.Proofs.Evaluation
import Dhall.Proofs.Idempotence
import Dhall.Proofs.Merge

namespace Dhall

/-- Whether a construct may occur in a query about the variable `r`. -/
def Node.isQuery {α : Type} (r : Variable) : Node α → Bool
  | var v => v = r
  | natural _ | record _ | op .prefer _ _ | op .combine _ _ | field _ _ | project _ _ => true
  | _ => false

namespace Expr

/-- The expression is built from one variable, natural numbers, records, preferences, merges,
fields and projections. -/
def Query (r : Variable) (e : Expr) : Prop :=
  Everywhere (fun s => s.node.isQuery r) e

/-- The expression is a natural number, or a record of such expressions. -/
def Data (e : Expr) : Prop :=
  Everywhere (fun s => (∃ n, s = natural n) ∨ ∃ fields, s = record fields) e

/-- What a query evaluates to where the variable `r` stands for `R`. Fields and projections
have to find what they ask for. -/
inductive Answers (r : Variable) (R : Expr) : Expr → Expr → Prop
  | var : Answers r R (var r) R
  | natural (n : UInt64) : Answers r R (natural n) (natural n)
  | record {fields values : LabelMap Expr} (parts : fields.Related (Answers r R) values) :
    Answers r R (record fields) (record values)
  | prefer {x y v w u : Expr} (left : Answers r R x v) (right : Answers r R y w)
    (preferred : Operator.reducePrefer v w = .ok u) : Answers r R (op .prefer x y) u
  | combine {x y v w u : Expr} (left : Answers r R x v) (right : Answers r R y w)
    (merged : mergeRecords v w = .ok u) : Answers r R (op .combine x y) u
  | field {e v : Expr} {l : Label} {values : LabelMap Expr}
    (operand : Answers r R e (record values)) (has : values.get? l = some v) :
    Answers r R (field e l) v
  | project {e : Expr} {labels : LabelSet} {values : LabelMap Expr}
    (operand : Answers r R e (record values))
    (has : ∀ l, labels.contains l → values.contains l) :
    Answers r R (project e labels) (record (values.restrict labels.contains))

/-- A field or a projection whose operand is a record that has what is asked for, or any other
construct. -/
def Finds (s : Expr) : Prop :=
  (∀ e l, s = field e l → ∃ values, e.Normalizes (record values) ∧ values.contains l) ∧
    ∀ e labels, s = project e labels →
      ∃ values, e.Normalizes (record values) ∧ ∀ l, labels.contains l → values.contains l

variable {r : Variable} {R e e' v x y : Expr} {l : Label}

/-! ### Data -/

/-- A projection of a record keeps the fields that are asked for. -/
theorem selectAll_record (values : LabelMap Expr) (labels : LabelSet) :
    (record values).selectAll labels = .ok (record (values.restrict labels.contains)) := by
  cases labels with
  | nil => rw [selectAll_nil, Entries.restrict_contains_nil]
  | cons k above u rest => rw [selectAll.eq_def]

/-- Data is its own normal form. -/
theorem Data.normalizes_self (h : R.Data) : R.Normalizes R := by
  refine Settled.normalizes_self (fun s inside => ?_) fun s inside empty => ?_
  · rcases h s inside with ⟨n, rfl⟩ | ⟨fields, rfl⟩ <;> trivial
  · rcases h s inside with ⟨n, rfl⟩ | ⟨fields, rfl⟩ <;> cases empty

/-! ### Substitution in queries -/

theorem subst_record (fields : LabelMap Expr) (r : Variable) (R : Expr) :
    (record fields).subst r R = record <$> fields.traverse fun _ c => c.subst r R := by
  rw [subst_mk (n := .record fields) fun _ => nofun]
  simp [Node.traverse, underAll]

theorem subst_op (o : Operator) (x y : Expr) (r : Variable) (R : Expr) :
    (op o x y).subst r R = (do pure (op o (← x.subst r R) (← y.subst r R))) := by
  rw [subst_mk (n := .op o x y) fun _ => nofun]
  simp [Node.traverse, underAll]

theorem subst_field (e : Expr) (l : Label) (r : Variable) (R : Expr) :
    (field e l).subst r R = (field · l) <$> e.subst r R := by
  rw [subst_mk (n := .field e l) fun _ => nofun]
  simp [Node.traverse, underAll]

theorem subst_project (e : Expr) (labels : LabelSet) (r : Variable) (R : Expr) :
    (project e labels).subst r R = (project · labels) <$> e.subst r R := by
  rw [subst_mk (n := .project e labels) fun _ => nofun]
  simp [Node.traverse, underAll]

/-- A query can be asked of any record: there are no binders on the way. -/
theorem Query.subst_returns (h : Query r e) (R : Expr) : ∃ e', e.subst r R = .ok e' := by
  induction e using induction with
  | step n ih =>
    have child {c : Expr} (member : c ∈ n.children) : ∃ c', c.subst r R = .ok c' :=
      ih c member (h.child member)
    have here := h.here
    cases n with
    | var v => exact ⟨_, rfl⟩
    | natural m => exact ⟨natural m, rfl⟩
    | record fields =>
      have parts : ∃ fields', fields.traverse (fun _ c => c.subst r R) = .ok fields' :=
        Entries.exists_traverse_eq_pure fun l c has =>
          child (Node.children_record fields ▸ Entries.mem_values_iff.mpr ⟨l, has⟩)
      obtain ⟨fields', parts⟩ := parts
      rw [subst_record, parts]
      exact ⟨record fields', rfl⟩
    | op o x y =>
      obtain ⟨x', left⟩ := child (.head _)
      obtain ⟨y', right⟩ := child (.tail _ (.head _))
      rw [subst_op, left, right]
      exact ⟨op o x' y', rfl⟩
    | field e l =>
      obtain ⟨e', operand⟩ := child (.head _)
      rw [subst_field, operand]
      exact ⟨field e' l, rfl⟩
    | project e labels =>
      obtain ⟨e', operand⟩ := child (.head _)
      rw [subst_project, operand]
      exact ⟨project e' labels, rfl⟩
    | _ => cases here

/-! ### Answers and normal forms -/

/-- An answer is the normal form of the query with the record in the place of the variable. -/
theorem normalizes_of_answers (data : R.Data) (h : Answers r R e v) :
    ∃ e', e.subst r R = .ok e' ∧ e'.Normalizes v := by
  induction e using induction generalizing v with
  | step n ih =>
    cases h with
    | var =>
      refine ⟨R, ?_, data.normalizes_self⟩
      rw [subst_var, if_pos rfl]
    | natural m => exact ⟨natural m, rfl, normalizes_natural m⟩
    -- Each field is put in and evaluated on its own.
    | @record fields values parts =>
      obtain ⟨fields', substituted, evaluated⟩ := parts.through fun c member w answer =>
        ih c (Node.children_record fields ▸ member) answer
      refine ⟨record fields', ?_, normalizes_record_iff.mpr ⟨values, rfl, evaluated⟩⟩
      rw [subst_record, Entries.traverse_eq_pure_iff_related.mpr substituted]
      rfl
    | prefer left right preferred =>
      obtain ⟨x', leftSubst, evaluated⟩ := ih _ (.head _) left
      obtain ⟨y', rightSubst, evaluated'⟩ := ih _ (.tail _ (.head _)) right
      refine ⟨op .prefer x' y', ?_, evaluated.op evaluated' preferred⟩
      rw [subst_op, leftSubst, rightSubst]
      rfl
    | combine left right merged =>
      obtain ⟨x', leftSubst, evaluated⟩ := ih _ (.head _) left
      obtain ⟨y', rightSubst, evaluated'⟩ := ih _ (.tail _ (.head _)) right
      refine ⟨op .combine x' y', ?_, evaluated.op evaluated' merged⟩
      rw [subst_op, leftSubst, rightSubst]
      rfl
    | @field e v l values operand has =>
      obtain ⟨e', substituted, evaluated⟩ := ih _ (.head _) operand
      refine ⟨field e' l, by rw [subst_field, substituted]; rfl, ?_⟩
      refine normalizes_field_iff.mpr ⟨record values, evaluated, ?_⟩
      simp only [select, has]
    | @project e labels values operand has =>
      obtain ⟨e', substituted, evaluated⟩ := ih _ (.head _) operand
      refine ⟨project e' labels, by rw [subst_project, substituted]; rfl, ?_⟩
      exact normalizes_project_iff.mpr ⟨record values, evaluated, selectAll_record values labels⟩

/-- Where all selections find what they ask for, the normal form of the query with the record
in the place of the variable is its answer. -/
theorem answers_of_normalizes (query : Query r e) (data : R.Data)
    (substituted : e.subst r R = .ok e') (finds : Everywhere Finds e')
    (evaluated : e'.Normalizes v) : Answers r R e v := by
  induction e using induction generalizing e' v with
  | step n ih =>
    have here := query.here
    cases n with
    -- The variable of the query has the record as its answer, which is normal.
    | var u =>
      obtain rfl : u = r := of_decide_eq_true here
      rw [subst_var, if_pos rfl] at substituted
      cases substituted
      exact evaluated.unique data.normalizes_self ▸ .var
    | natural m =>
      cases substituted
      exact evaluated.unique (normalizes_natural m) ▸ .natural m
    | record fields =>
      rw [subst_record] at substituted
      obtain ⟨fields', parts, rfl⟩ := map_eq_pure_iff.mp substituted
      obtain ⟨values, rfl, normal⟩ := normalizes_record_iff.mp evaluated
      refine .record ?_
      refine (Entries.traverse_eq_pure_iff_related.mp parts).comp normal ?_
      intro c member c' member' w substituted normal
      have member := Node.children_record fields ▸ member
      have member' := Node.children_record fields' ▸ member'
      exact ih c member (query.child member) substituted (finds.child member') normal
    | op o x y =>
      rw [subst_op] at substituted
      obtain ⟨x', leftSubst, substituted⟩ := bind_eq_pure_iff.mp substituted
      obtain ⟨y', rightSubst, same⟩ := bind_eq_pure_iff.mp substituted
      cases same
      obtain ⟨v, w, left, right, reduced⟩ := normalizes_op_iff.mp evaluated
      have first := ih x (.head _) (query.child (.head _)) leftSubst (finds.child (.head _)) left
      have second := ih y (.tail _ (.head _)) (query.child (.tail _ (.head _))) rightSubst
        (finds.child (.tail _ (.head _))) right
      cases o with
      | prefer => exact .prefer first second reduced
      | combine => exact .combine first second reduced
      | _ => cases here
    | field e l =>
      rw [subst_field] at substituted
      obtain ⟨e', operand, rfl⟩ := map_eq_pure_iff.mp substituted
      -- The operand has one normal form only, so it is the record that has the field.
      obtain ⟨values, normal, has⟩ := finds.here.1 e' l rfl
      obtain ⟨a, has⟩ := Option.isSome_iff_exists.mp has
      obtain ⟨w, normal', rfl⟩ := normalizes_field_iff.mp evaluated
      obtain rfl := normal'.unique normal
      have answer := ih e (.head _) (query.child (.head _)) operand (finds.child (.head _)) normal
      simp only [select, has]
      exact .field answer has
    | project e labels =>
      rw [subst_project] at substituted
      obtain ⟨e', operand, rfl⟩ := map_eq_pure_iff.mp substituted
      obtain ⟨values, normal, has⟩ := finds.here.2 e' labels rfl
      obtain ⟨w, normal', selected⟩ := normalizes_project_iff.mp evaluated
      obtain rfl := normal'.unique normal
      have answer := ih e (.head _) (query.child (.head _)) operand (finds.child (.head _)) normal
      rw [selectAll_record] at selected
      cases selected
      exact .project answer has
    | _ => cases here

end Expr

end Dhall
