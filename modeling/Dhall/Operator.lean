/-
# Binary operators

Operators are ordered by how tightly they bind, the loosest first. All of them
associate, so an operator may stand without parentheses beside itself.
-/

namespace Dhall

/-- A binary operator, from the loosest to the tightest. -/
inductive Operator
  /-- `≡`, the proposition of an assertion. -/
  | equivalent
  /-- `?`, the first import that can be resolved. -/
  | alternative
  /-- `||` -/
  | or
  /-- `+` -/
  | plus
  /-- `++`, on text. -/
  | textAppend
  /-- `#`, on lists. -/
  | listAppend
  /-- `&&` -/
  | and
  /-- `∧`, the recursive merge of records. -/
  | combine
  /-- `⫽`, the merge of records that prefers the right operand. -/
  | prefer
  /-- `⩓`, the recursive merge of record types. -/
  | combineTypes
  /-- `*` -/
  | times
  /-- `==`, on booleans. -/
  | equal
  /-- `!=`, on booleans. -/
  | notEqual
  deriving DecidableEq, Inhabited, Repr

namespace Operator

/-- How tightly the operator binds. -/
def rank : Operator → Nat
  | equivalent => 0
  | alternative => 1
  | or => 2
  | plus => 3
  | textAppend => 4
  | listAppend => 5
  | and => 6
  | combine => 7
  | prefer => 8
  | combineTypes => 9
  | times => 10
  | equal => 11
  | notEqual => 12

instance : LE Operator := ⟨fun o p => o.rank ≤ p.rank⟩

instance (o p : Operator) : Decidable (o ≤ p) := inferInstanceAs (Decidable (o.rank ≤ p.rank))

/-- The written form. -/
def render : Operator → String
  | equivalent => "≡"
  | alternative => "?"
  | or => "||"
  | plus => "+"
  | textAppend => "++"
  | listAppend => "#"
  | and => "&&"
  | combine => "∧"
  | prefer => "⫽"
  | combineTypes => "⩓"
  | times => "*"
  | equal => "=="
  | notEqual => "!="

end Operator

end Dhall
