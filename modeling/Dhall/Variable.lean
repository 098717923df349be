/-
# Variables

A variable is a label and an index. The index counts the enclosing binders of
the same label that lie between the occurrence and the binder it refers to, so
in `λ(x : A) → λ(y : B) → λ(x : C) → x@1` the variable is the outermost `x`.
Indices are 64-bit words and shifts are signed 64-bit words, so a shifted index
may fall outside the range of indices.
-/

import Dhall.Label

namespace Dhall

/-- An occurrence of a name, `label@index`. -/
structure Variable where
  /-- The name that is looked up. -/
  label : Label
  /-- How many binders of that name are skipped. -/
  index : UInt64
  deriving DecidableEq, Inhabited, Repr

namespace Variable

/-- The variable that the nearest binder of `x` binds. -/
def nearest (x : Label) : Variable := ⟨x, 0⟩

/-- The index `n + delta`, if it is an index. The least delta is refused outright,
since its magnitude is not itself a delta. -/
def moveIndex? (n : UInt64) (delta : Int64) : Option UInt64 :=
  let moved := n.toNat + delta.toInt
  if delta = Int64.minValue ∨ moved < 0 ∨ UInt64.size ≤ moved then none
  else some (UInt64.ofNat moved.toNat)

/-- Whether a shift at `cutoff` moves the variable: it has the same label, and an
index that is not below the cutoff. -/
def movedAt (v cutoff : Variable) : Bool :=
  v.label = cutoff.label ∧ cutoff.index ≤ v.index

end Variable

end Dhall
