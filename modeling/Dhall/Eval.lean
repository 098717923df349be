/-
# Evaluation that may not end

Evaluating an ill-typed expression need not end, so evaluation is given fuel and
has three outcomes: it runs out of fuel, it stops at a violation, or it returns.
More fuel can only change the first.
-/

import Dhall.Violation

namespace Dhall

/-- The outcome of evaluating something: no outcome yet, a violation or a value. -/
abbrev Eval := ExceptT Violation Option

namespace Eval

variable {α : Type}

/-- There was not enough fuel. -/
def outOfFuel : Eval α := (none : Option (Except Violation α))

/-- What an outcome is, if there is one. -/
def outcome? (x : Eval α) : Option (Except Violation α) := x.run

/-- Evaluate a function on its own results, a number of times. -/
def iterate (f : α → Eval α) : Nat → α → Eval α
  | 0, a => pure a
  | n + 1, a => do iterate f n (← f a)

end Eval

end Dhall
