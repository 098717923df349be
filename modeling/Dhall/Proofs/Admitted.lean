/-
# Expressions without imports and empty definitions

Evaluation stops at imports and at lists of definitions that are empty. It brings in neither
of them, and no recursive merges where there are none: rules take operands apart, and what
they build is made of literals, operations of their own and names that are applied. So whether
a construct is admitted is a property of constructs that expressions keep on their way.

The admitted constructs come in two kinds, with recursive merges and without them, and the
kind says which violations are left.

## Main definitions

* `Expr.Complete` — no imports and no empty definitions
* `Expr.MergeFree` — no recursive merges
* `Expr.Admitted` — both kinds of expressions as one property of constructs
* `Violation.Permitted` — where the evaluation of admitted expressions may stop
* `Proper` — an effect that stops at such violations only and returns admitted expressions

## Main results

* `Expr.ensures_alphaNormal` — renaming the binders of an admitted expression stops at an
  overflow only
-/

import Dhall.Proofs.Construct
import Dhall.Proofs.Overflow

namespace Dhall

namespace Violation

/-- Two fields, or their types, cannot be merged. -/
def IsMismatch (v : Violation) : Prop :=
  (∃ l x y, v = .recordMismatch l x y) ∨ ∃ l x y, v = .recordTypeMismatch l x y

/-- An index overflows, or fields cannot be merged where there are merges. -/
def Permitted (merges : Bool) (v : Violation) : Prop :=
  v.IsOverflow ∨ merges = true ∧ v.IsMismatch

end Violation

open Violation

namespace Node

variable {α : Type}

/-- Whether a construct is no import and no empty list of definitions, and a recursive merge
only where merges are admitted. -/
def isAdmitted (merges : Bool) : Node α → Bool
  | embed _ | letIn [] _ => false
  | op .combine _ _ | op .combineTypes _ _ => merges
  | _ => true

theorem isAdmitted_shape (merges : Bool) (n : Node α) :
    n.shape.isAdmitted merges = n.isAdmitted merges := by
  cases n with
  | letIn bindings body => cases bindings <;> rfl
  | op o left right => cases o <;> rfl
  | _ => rfl

end Node

namespace Expr

/-- No import and no empty list of definitions. -/
def Complete (e : Expr) : Prop :=
  Everywhere (fun s => (∀ i, s ≠ embed i) ∧ ∀ body, s ≠ letIn [] body) e

/-- Neither a merge of records nor one of record types. -/
def MergeFree (e : Expr) : Prop :=
  Everywhere (fun s => ∀ o ∈ [Operator.combine, .combineTypes], ∀ x y, s ≠ op o x y) e

/-- Every construct is admitted. -/
def Admitted (merges : Bool) (e : Expr) : Prop :=
  MadeOf (fun s => s.isAdmitted merges) e

variable {merges : Bool} {e e' f a value body : Expr} {n : Node Expr} {x : Variable}

theorem admitted_mk :
    Admitted merges (mk n) ↔ n.isAdmitted merges ∧ ∀ c ∈ n.children, Admitted merges c := by
  rw [← Node.isAdmitted_shape]
  exact madeOf_mk

theorem admitted_mk_iff (h : n.isAdmitted merges = true) :
    Admitted merges (mk n) ↔ ∀ c ∈ n.children, Admitted merges c :=
  admitted_mk.trans (and_iff_right h)

/-- Complete expressions are admitted if they have merges only where merges are admitted. -/
theorem Complete.admitted (h : Complete e) (free : merges = true ∨ MergeFree e) :
    Admitted merges e := by
  intro s inside
  obtain ⟨noImport, noEmpty⟩ := h s inside
  obtain ⟨n⟩ := s
  rw [node, Node.isAdmitted_shape]
  unfold Node.isAdmitted
  split
  · exact absurd rfl (noImport _)
  · exact absurd rfl (noEmpty _)
  · exact free.elim id fun free => absurd rfl (free _ inside _ (.head _) _ _)
  · exact free.elim id fun free => absurd rfl (free _ inside _ (.tail _ (.head _)) _ _)
  · rfl

theorem admitted_of_complete (h : Complete e) : Admitted true e :=
  h.admitted (Or.inl rfl)

theorem admitted_of_mergeFree (h : Complete e) (free : MergeFree e) : Admitted false e :=
  h.admitted (Or.inr free)

/-! ### Constructs -/

@[simp] theorem admitted_var (v : Variable) : Admitted merges (var v) :=
  (admitted_mk_iff rfl).mpr nofun

@[simp] theorem admitted_builtin (b : Builtin) : Admitted merges (builtin b) :=
  (admitted_mk_iff rfl).mpr nofun

@[simp] theorem admitted_bool (b : Bool) : Admitted merges (bool b) :=
  (admitted_mk_iff rfl).mpr nofun

@[simp] theorem admitted_natural (m : UInt64) : Admitted merges (natural m) :=
  (admitted_mk_iff rfl).mpr nofun

@[simp] theorem admitted_integer (i : Int64) : Admitted merges (integer i) :=
  (admitted_mk_iff rfl).mpr nofun

@[simp] theorem admitted_double (d : Double) : Admitted merges (double d) :=
  (admitted_mk_iff rfl).mpr nofun

@[simp] theorem admitted_lam {y : Label} {domain : Expr} :
    Admitted merges (lam y domain body) ↔ Admitted merges domain ∧ Admitted merges body :=
  (admitted_mk_iff rfl).trans (by simp [Node.children, Node.scopedChildren])

@[simp] theorem admitted_app :
    Admitted merges (app f a) ↔ Admitted merges f ∧ Admitted merges a :=
  (admitted_mk_iff rfl).trans (by simp [Node.children, Node.scopedChildren])

@[simp] theorem admitted_op {o : Operator} :
    Admitted merges (op o f a) ↔
      (Node.op o f a).isAdmitted merges ∧ Admitted merges f ∧ Admitted merges a := by
  simp [admitted_mk, Node.children, Node.scopedChildren]

@[simp] theorem admitted_ifThenElse : Admitted merges (ifThenElse e f a) ↔
    Admitted merges e ∧ Admitted merges f ∧ Admitted merges a :=
  (admitted_mk_iff rfl).trans (by simp [Node.children, Node.scopedChildren])

@[simp] theorem admitted_text {t : Text Expr} :
    Admitted merges (text t) ↔ ∀ c ∈ t.values, Admitted merges c :=
  (admitted_mk_iff rfl).trans (by simp [Node.children, Node.scopedChildren])

@[simp] theorem admitted_emptyList : Admitted merges (emptyList e) ↔ Admitted merges e :=
  (admitted_mk_iff rfl).trans (by simp [Node.children, Node.scopedChildren])

@[simp] theorem admitted_list {items : List Expr} :
    Admitted merges (list items) ↔ ∀ c ∈ items, Admitted merges c :=
  (admitted_mk_iff rfl).trans (by simp [Node.children, Node.scopedChildren])

@[simp] theorem admitted_present : Admitted merges (present e) ↔ Admitted merges e :=
  (admitted_mk_iff rfl).trans (by simp [Node.children, Node.scopedChildren])

@[simp] theorem admitted_recordType {fields : LabelMap Expr} :
    Admitted merges (recordType fields) ↔ ∀ c ∈ fields.values, Admitted merges c :=
  (admitted_mk_iff rfl).trans (by simp [Node.children, Node.scopedChildren])

@[simp] theorem admitted_record {fields : LabelMap Expr} :
    Admitted merges (record fields) ↔ ∀ c ∈ fields.values, Admitted merges c :=
  (admitted_mk_iff rfl).trans (by simp [Node.children, Node.scopedChildren])

@[simp] theorem admitted_merge {type : Option Expr} : Admitted merges (merge e f type) ↔
    Admitted merges e ∧ Admitted merges f ∧ ∀ t ∈ type, Admitted merges t :=
  (admitted_mk_iff rfl).trans (by simp [Node.children, Node.scopedChildren])

@[simp] theorem admitted_toMap {type : Option Expr} : Admitted merges (toMap e type) ↔
    Admitted merges e ∧ ∀ t ∈ type, Admitted merges t :=
  (admitted_mk_iff rfl).trans (by simp [Node.children, Node.scopedChildren])

@[simp] theorem admitted_field {l : Label} :
    Admitted merges (field e l) ↔ Admitted merges e :=
  (admitted_mk_iff rfl).trans (by simp [Node.children, Node.scopedChildren])

@[simp] theorem admitted_project {labels : LabelSet} :
    Admitted merges (project e labels) ↔ Admitted merges e :=
  (admitted_mk_iff rfl).trans (by simp [Node.children, Node.scopedChildren])

@[simp] theorem admitted_projectType {type : Expr} :
    Admitted merges (projectType e type) ↔ Admitted merges e ∧ Admitted merges type :=
  (admitted_mk_iff rfl).trans (by simp [Node.children, Node.scopedChildren])

/-- What a definition is in front of is admitted if the definitions are. -/
theorem admitted_afterFirst {first : Binding Expr} {rest : List (Binding Expr)}
    (h : Admitted merges (letIn (first :: rest) body)) :
    Admitted merges (afterFirst rest body) := by
  have parts := (admitted_mk.mp h).2
  rw [Node.children_letIn_cons] at parts
  have below := (List.forall_mem_append.mp parts).2
  cases rest with
  | nil => exact below body (.head _)
  | cons second more => exact admitted_mk.mpr ⟨rfl, below⟩

end Expr

open Dhall.Expr

variable {merges : Bool} {e body value : Expr} {x : Variable}

/-- The effect stops at permitted violations only, and returns admitted expressions only. -/
abbrev Proper {m : Type → Type} [Monad m] [MonadExceptOf Violation m] (merges : Bool)
    (x : m Expr) : Prop :=
  Ensures (Permitted merges) (Admitted merges) x

/-- Where an effect stops at overflows only, the violation is permitted. -/
theorem Ensures.permit {m : Type → Type} [Monad m] [MonadExceptOf Violation m] {α : Type}
    {P : α → Prop} {x : m α} (h : Ensures IsOverflow P x) : Ensures (Permitted merges) P x :=
  h.imp (fun _ => Or.inl) fun _ _ => id

namespace Expr

theorem proper_under (h : e.Admitted merges) (y : Label) : Proper merges (e.under y) :=
  (ensures_shift_up e _).permit.imp (fun _ => id) fun _ _ => h.shift fun _ => rfl

theorem proper_instantiate (h : e.Admitted merges) (hv : value.Admitted merges) (x : Variable) :
    Proper merges (e.instantiate x value) :=
  (ensures_instantiate e x value).permit.imp (fun _ => id) fun _ _ =>
    h.instantiate (fun _ => rfl) hv

/-- Renaming all binders of an admitted expression stops at an overflow only. -/
theorem ensures_alphaNormal (h : e.Admitted merges) :
    Ensures IsOverflow (fun _ => True) e.alphaNormal := by
  -- The induction is on the number of nodes, because a renamed body is no part of the expression.
  induction bound : e.size using Nat.strongRecOn generalizing e with
  | _ size ih =>
    subst bound
    obtain ⟨n⟩ := e
    have smaller {c : Expr} (below : c.size < (mk n).size) (hc : c.Admitted merges) :
        Ensures IsOverflow (fun _ => True) c.alphaNormal := ih _ below hc rfl
    have child {c : Expr} (member : c ∈ n.children) :
        Ensures IsOverflow (fun _ => True) c.alphaNormal :=
      smaller (size_lt_of_mem member) ((admitted_mk.mp h).2 c member)
    have renamed {c : Expr} (y : Label) (below : c.size < (mk n).size) (hc : c.Admitted merges) :
        Ensures IsOverflow (fun c' => Ensures IsOverflow (fun _ => True) c'.alphaNormal)
          (c.renameBound y) :=
      (ensures_renameBound c y).imp (fun _ => id) fun c' _ same =>
        smaller (size_renameBound same ▸ below) (hc.renameBound (fun _ => rfl) same)
    rw [alphaNormal_mk]
    by_cases plain : n.isPlain
    · rw [alphaNormalStep_plain plain]
      refine (ensures_traverse (R := fun _ _ _ => True) fun p member => ?_).map fun _ _ => .intro
      exact child (List.mem_map_of_mem member)
    · cases n with
      | lam y domain inner | pi y domain inner =>
        have innerMember : inner ∈ [domain, inner] := .tail _ (.head _)
        refine (child (.head _)).bind fun domain' _ => ?_
        refine (renamed y (size_lt_of_mem innerMember)
          ((admitted_mk.mp h).2 inner innerMember)).bind fun inner' stops => ?_
        exact stops.bind fun _ _ => ensures_pure .intro
      | letIn bindings inner =>
        cases bindings with
        | nil => exact absurd (admitted_mk.mp h).1 Bool.false_ne_true
        | cons first rest =>
          have definition {c : Expr} (member : c ∈ first.children) :
              Ensures IsOverflow (fun _ => True) c.alphaNormal := by
            refine child ?_
            rw [Node.children_letIn_cons]
            exact List.mem_append_left _ member
          refine (renamed first.label (size_afterFirst_lt first rest inner)
            (admitted_afterFirst h)).bind fun after stops => ?_
          refine stops.bind fun after' _ => ?_
          refine (ensures_mapM_option (Q := fun _ => True) fun t stated => ?_).bind fun type _ => ?_
          · exact definition (List.mem_append_left _ (Option.mem_toList.mpr stated))
          · refine (definition (List.mem_append_right _ (.head _))).bind fun value' _ => ?_
            exact ensures_pure .intro
      | embed i => exact absurd (admitted_mk.mp h).1 Bool.false_ne_true
      | _ => exact absurd rfl plain

/-- Comparing admitted expressions stops at an overflow only. -/
theorem ensures_alphaEquivalent {y z : Expr} (hy : y.Admitted merges) (hz : z.Admitted merges) :
    Ensures IsOverflow (fun _ => True) (y.alphaEquivalent z) := by
  unfold alphaEquivalent
  split
  · exact ensures_pure .intro
  · refine (ensures_alphaNormal hy).bind fun y' _ => ?_
    exact (ensures_alphaNormal hz).bind fun z' _ => ensures_pure .intro

end Expr

end Dhall
