/-
# Sorts of the pure type system

Types are classified by `Type`, type constructors by `Kind` and kinds by `Sort`.
-/

namespace Dhall

/-- A constant of the pure type system, in ascending order. -/
inductive Const
  | type
  | kind
  | sort
  deriving DecidableEq, Inhabited, Repr

namespace Const

/-- The position in the ascending order. -/
def rank : Const → Nat
  | type => 0
  | kind => 1
  | sort => 2

instance : LE Const := ⟨fun c d => c.rank ≤ d.rank⟩

instance (c d : Const) : Decidable (c ≤ d) := inferInstanceAs (Decidable (c.rank ≤ d.rank))

/-- The written form. -/
def render : Const → String
  | type => "Type"
  | kind => "Kind"
  | sort => "Sort"

end Const

end Dhall
