/-
# Doubles

A double is the 64 bits of a binary floating-point number. Two doubles are equal
when their bits are, so the two zeros differ and a NaN equals itself. Values are
read off the bits in exact arithmetic.
-/

namespace Dhall

/-- A binary floating-point number, by its bits. -/
structure Double where
  /-- One sign bit, eleven bits of exponent and 52 bits of fraction. -/
  bits : UInt64
  deriving DecidableEq, Inhabited, Repr

namespace Double

/-- What a double stands for. -/
inductive Value
  /-- No number. -/
  | nan
  /-- One of the two infinities. -/
  | infinite (negative : Bool)
  /-- The number `mantissa * 2 ^ exponent`, with a sign. -/
  | finite (negative : Bool) (mantissa : Nat) (exponent : Int)
  deriving DecidableEq, Repr

/-- The value of a double. A zero exponent field marks the numbers without an
implicit leading bit, and a full one marks the infinities and NaNs. -/
def value (d : Double) : Value :=
  let negative := decide (Nat.pow 2 63 ≤ d.bits.toNat)
  let exponent : Nat := d.bits.toNat / Nat.pow 2 52 % Nat.pow 2 11
  let fraction := d.bits.toNat % Nat.pow 2 52
  if exponent = Nat.pow 2 11 - 1 then
    if fraction = 0 then .infinite negative else .nan
  else if exponent = 0 then .finite negative fraction (-1074)
  else .finite negative (Nat.pow 2 52 + fraction) ((exponent : Int) - 1075)

/-- `n / 2 ^ places`, rounded to the nearest natural number, a half to the even one. -/
def roundShift (n places : Nat) : Nat :=
  let unit := Nat.pow 2 places
  let quotient := n / unit
  let twiceRest := 2 * (n % unit)
  if twiceRest < unit ∨ (twiceRest = unit ∧ quotient % 2 = 0) then quotient
  else quotient + 1

/-- The bits of the double nearest to a natural number, ties to the even mantissa.
A mantissa that rounds up to `2 ^ 53` carries into the exponent. -/
def bitsOfNat (n : Nat) : Nat :=
  if n = 0 then 0
  else
    let top := n.log2
    let mantissa := if top ≤ 52 then n * Nat.pow 2 (52 - top) else roundShift n (top - 52)
    (top + 1023) * Nat.pow 2 52 + (mantissa - Nat.pow 2 52)

/-- The double nearest to an integer, ties to the even mantissa. -/
def ofInt (i : Int) : Double :=
  ⟨UInt64.ofNat ((if i < 0 then Nat.pow 2 63 else 0) + bitsOfNat i.natAbs)⟩

end Double

end Dhall
