/-
# Shortest decimals

Every real number in a small interval around a double rounds to that double. The
shortest decimal of a double is the decimal in this interval with the fewest
digits, and among those the one nearest to the double.

The search tries one digit, then two, and so on. On each grid of decimals only
the two neighbours of the double matter: if any point of the grid lies in the
interval then one of them does, because the interval contains the double. All
comparisons are between natural numbers.
-/

import Dhall.Double

namespace Dhall.Double

/-- The decimal `digits * 10 ^ power`. -/
structure Decimal where
  /-- The digits, read as one number. -/
  digits : Nat
  /-- The power of ten of the last digit. -/
  power : Int
  deriving DecidableEq, Inhabited, Repr

/-- The numbers that round to one double, in units of `2 ^ exponent`. -/
structure RoundingInterval where
  /-- The least number of the interval. -/
  low : Nat
  /-- The double itself. -/
  center : Nat
  /-- The greatest number of the interval. -/
  high : Nat
  /-- The binary exponent of the unit. -/
  exponent : Int
  /-- Whether the two ends round to the double as well. -/
  closed : Bool
  deriving DecidableEq, Repr

namespace RoundingInterval

/-- The interval of `mantissa * 2 ^ exponent`, in quarters of the last mantissa
bit. It reaches half a bit to both sides, except that below a power of two it
reaches a quarter. The ends belong to it when the mantissa is even. -/
def ofFinite (mantissa : Nat) (exponent : Int) : RoundingInterval where
  low := 4 * mantissa - if mantissa = Nat.pow 2 52 then 1 else 2
  center := 4 * mantissa
  high := 4 * mantissa + 2
  exponent := exponent - 2
  closed := mantissa % 2 = 0

variable (r : RoundingInterval)

/-- The factor of a number of units on the common scale of units and `10 ^ power`. -/
def unitScale (power : Int) : Nat :=
  Nat.pow 2 r.exponent.toNat * Nat.pow 10 (-power).toNat

/-- The factor of a number of steps of `10 ^ power` on the common scale. -/
def stepScale (power : Int) : Nat :=
  Nat.pow 10 power.toNat * Nat.pow 2 (-r.exponent).toNat

/-- Whether a decimal lies in the interval. -/
def contains (d : Decimal) : Bool :=
  let point := d.digits * r.stepScale d.power
  let low := r.low * r.unitScale d.power
  let high := r.high * r.unitScale d.power
  if r.closed then low ≤ point ∧ point ≤ high else low < point ∧ point < high

/-- The power of ten of the first digit of the double. -/
def leadingPower : Int :=
  let numerator := r.center * r.unitScale 0
  let denominator := r.stepScale 0
  if denominator ≤ numerator then ((Nat.toDigits 10 (numerator / denominator)).length : Int) - 1
  else -((Nat.toDigits 10 ((denominator - 1) / numerator)).length : Int)

/-- The better neighbour of the double among the decimals with a given number of
digits, if one of the two lies in the interval. Of two equally near neighbours the
greater is taken. -/
def neighbour? (count : Nat) : Option Decimal :=
  let power := r.leadingPower - count + 1
  let step := r.stepScale power
  let center := r.center * r.unitScale power
  let below : Decimal := ⟨center / step, power⟩
  -- Above the greatest decimal with this many digits comes a power of ten.
  let above : Decimal :=
    if below.digits + 1 = Nat.pow 10 count then ⟨1, power + count⟩
    else ⟨below.digits + 1, power⟩
  match r.contains below, r.contains above with
  | true, true => some (if step ≤ 2 * (center % step) then above else below)
  | true, false => some below
  | false, true => some above
  | false, false => none

/-- Seventeen digits tell any two doubles apart, so the search succeeds by then. -/
def shortest : Decimal :=
  ((List.range 17).findSome? fun count => r.neighbour? (count + 1)).getD default

end RoundingInterval

/-- The decimal written out without an exponent, with at least one digit on either
side of the point. -/
def Decimal.render (d : Decimal) : String :=
  let digits := Nat.toDigits 10 d.digits
  if 0 ≤ d.power then String.ofList (digits ++ List.replicate d.power.toNat '0') ++ ".0"
  else
    let places := (-d.power).toNat
    let padded := List.replicate (places + 1 - digits.length) '0' ++ digits
    let whole := padded.length - places
    String.ofList (padded.take whole) ++ "." ++ String.ofList (padded.drop whole)

/-- The written form of a double. -/
def render (d : Double) : String :=
  match d.value with
  | .nan => "NaN"
  | .infinite negative => if negative then "-Infinity" else "Infinity"
  | .finite negative mantissa exponent =>
    (if negative then "-" else "") ++
      if mantissa = 0 then "0.0"
      else (RoundingInterval.ofFinite mantissa exponent).shortest.render

end Dhall.Double
