/-
# Operators on normal operands

Each operator has rules for literal operands, for operands that are neutral or
absorbing, and some have a rule for operands that agree up to the names of bound
variables. Where no rule applies the operation is kept as it is. A sum or a product
that is no 64-bit word is kept as well.
-/

import Dhall.Reduction.Interpolation
import Dhall.Reduction.Merge

namespace Dhall.Operator

open Dhall.Expr

/-- `x && y` -/
def reduceAnd (x y : Expr) : Except Violation Expr :=
  match x.bool?, y.bool? with
  | some true, _ => .ok y
  | _, some true => .ok x
  | some false, _ => .ok (bool false)
  | _, some false => .ok (bool false)
  | none, none => do pure (if ← x.alphaEquivalent y then x else op .and x y)

/-- `x || y` -/
def reduceOr (x y : Expr) : Except Violation Expr :=
  match x.bool?, y.bool? with
  | some true, _ => .ok (bool true)
  | _, some true => .ok (bool true)
  | some false, _ => .ok y
  | _, some false => .ok x
  | none, none => do pure (if ← x.alphaEquivalent y then x else op .or x y)

/-- `x == y` -/
def reduceEqual (x y : Expr) : Except Violation Expr :=
  match x.bool?, y.bool? with
  | some true, _ => .ok y
  | _, some true => .ok x
  | some a, some b => .ok (bool (a == b))
  | _, _ => do pure (if ← x.alphaEquivalent y then bool true else op .equal x y)

/-- `x != y` -/
def reduceNotEqual (x y : Expr) : Except Violation Expr :=
  match x.bool?, y.bool? with
  | some false, _ => .ok y
  | _, some false => .ok x
  | some a, some b => .ok (bool (a != b))
  | _, _ => do pure (if ← x.alphaEquivalent y then bool false else op .notEqual x y)

/-- `x + y` -/
def reducePlus (x y : Expr) : Expr :=
  if x.natural? = some 0 then y
  else if y.natural? = some 0 then x
  else
    match x.natural?, y.natural? with
    | some m, some n => if m.toNat + n.toNat < UInt64.size then natural (m + n) else op .plus x y
    | _, _ => op .plus x y

/-- `x * y` -/
def reduceTimes (x y : Expr) : Expr :=
  if x.natural? = some 0 ∨ y.natural? = some 0 then natural 0
  else if x.natural? = some 1 then y
  else if y.natural? = some 1 then x
  else
    match x.natural?, y.natural? with
    | some m, some n => if m.toNat * n.toNat < UInt64.size then natural (m * n) else op .times x y
    | _, _ => op .times x y

/-- `x ++ y` -/
def reduceTextAppend (x y : Expr) : Expr :=
  ofPieces [.interpolation x, .interpolation y]

/-- `x # y` -/
def reduceListAppend : Expr → Expr → Expr
  | emptyList _, y => y
  | x, emptyList _ => x
  | list xs, list ys => list (xs ++ ys)
  | x, y => op .listAppend x y

/-- `x ⫽ y` -/
def reducePrefer (x y : Expr) : Except Violation Expr :=
  match x.record?, y.record? with
  | _, some .nil => .ok x
  | some .nil, _ => .ok y
  | some xs, some ys => .ok (record (xs.union ys))
  | _, _ => do pure (if ← x.alphaEquivalent y then y else op .prefer x y)

/-- The normal form of an operation on normal operands. -/
def reduce (o : Operator) (x y : Expr) : Except Violation Expr :=
  match o with
  | .and => reduceAnd x y
  | .or => reduceOr x y
  | .equal => reduceEqual x y
  | .notEqual => reduceNotEqual x y
  | .plus => .ok (reducePlus x y)
  | .times => .ok (reduceTimes x y)
  | .textAppend => .ok (reduceTextAppend x y)
  | .listAppend => .ok (reduceListAppend x y)
  | .prefer => reducePrefer x y
  | .combine => mergeRecords x y
  | .combineTypes => mergeRecordTypes x y
  | .equivalent | .alternative => .ok (op o x y)

end Dhall.Operator
