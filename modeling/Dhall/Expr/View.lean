/-
# Views of expressions

Reduction rules ask what an expression is: a literal, a record, an application of
a built-in name. Each question is a function that returns the contents.
-/

import Dhall.Expr.Build

namespace Dhall.Expr

/-- The truth value, if the expression is one. -/
def bool? : Expr → Option Bool
  | bool b => some b
  | _ => none

/-- The number, if the expression is a natural number. -/
def natural? : Expr → Option UInt64
  | natural n => some n
  | _ => none

/-- The fields, if the expression is a record. -/
def record? : Expr → Option (LabelMap Expr)
  | record fields => some fields
  | _ => none

/-- The types of the fields, if the expression is a record type. -/
def recordType? : Expr → Option (LabelMap Expr)
  | recordType fields => some fields
  | _ => none

/-- Whether the expression waits for the value of a variable, so that it can turn out to
be any value of its type. -/
def isNeutral : Expr → Bool
  | var _ | app .. | ifThenElse .. | op .. | field .. | project .. | projectType .. | merge .. =>
    true
  | _ => false

/-- The function at the head of nested applications, and its arguments in order. -/
def spine : Expr → Expr × List Expr
  | app f a =>
    let (head, args) := f.spine
    (head, args ++ [a])
  | e => (e, [])

/-- The arguments, if the expression is a certain built-in name applied to any number of
them. -/
def argumentsOf? (b : Builtin) (e : Expr) : Option (List Expr) :=
  match e.spine with
  | (builtin c, args) => if c = b then some args else none
  | _ => none

@[simp] theorem bool?_eq_some {e : Expr} {b : Bool} : e.bool? = some b ↔ e = bool b := by
  refine ⟨fun h => ?_, fun h => h ▸ rfl⟩
  unfold bool? at h
  split at h <;> simp_all

@[simp] theorem natural?_eq_some {e : Expr} {n : UInt64} : e.natural? = some n ↔ e = natural n := by
  refine ⟨fun h => ?_, fun h => h ▸ rfl⟩
  unfold natural? at h
  split at h <;> simp_all

@[simp] theorem record?_eq_some {e : Expr} {fields : LabelMap Expr} :
    e.record? = some fields ↔ e = record fields := by
  refine ⟨fun h => ?_, fun h => h ▸ rfl⟩
  unfold record? at h
  split at h <;> simp_all

@[simp] theorem recordType?_eq_some {e : Expr} {fields : LabelMap Expr} :
    e.recordType? = some fields ↔ e = recordType fields := by
  refine ⟨fun h => ?_, fun h => h ▸ rfl⟩
  unfold recordType? at h
  split at h <;> simp_all

@[simp] theorem spine_app (f a : Expr) : (app f a).spine = (f.spine.1, f.spine.2 ++ [a]) := rfl

/-- Arguments that are applied join the end of the spine. -/
theorem spine_apply (f : Expr) (args : List Expr) :
    (f.apply args).spine = (f.spine.1, f.spine.2 ++ args) := by
  induction args generalizing f with
  | nil => simp [apply]
  | cons a args ih => simpa [apply] using ih (app f a)

/-- The spine of an expression, applied again, is the expression. -/
theorem apply_spine (e : Expr) : e.spine.1.apply e.spine.2 = e := by
  induction e using spine.induct with
  | case1 f a head args h ih => simpa [spine, h, apply] using ih
  | case2 e h => unfold spine; split <;> simp_all [apply]

end Dhall.Expr
