/-!
# Doubles

A `Binary64` is a double: a sign and a magnitude, an infinity, or no number. A magnitude is
counted in units of `2 ^ (-1074)`, the smallest positive double, so it is a natural number,
and rounding is a division of natural numbers: a quotient keeps its 53 leading binary digits
and goes to the nearest such value, of two equally near ones to the even one
(`roundUnits`).
-/

namespace FilesetBatch

/-- A double. Magnitudes count units of `2 ^ (-1074)`. -/
inductive Binary64
  | finite (negative : Bool) (units : Nat)
  | infinite (negative : Bool)
  | nan
deriving DecidableEq, Repr

namespace Binary64

/-- The number of units in one. -/
def one : Nat := Nat.pow 2 1074

/-- The first magnitude that is too large for a double. -/
def limit : Nat := Nat.pow 2 1024 * one

/-- The distance between neighbouring doubles at a magnitude. -/
def gap (units : Nat) : Nat := Nat.pow 2 (units.log2 - 52)

/-- The magnitude nearest to a quotient, with 53 binary digits; ties go to the even one. -/
def roundUnits (numerator denominator : Nat) : Nat :=
  let step := gap (numerator / denominator)
  let whole := numerator / (denominator * step)
  let rest := numerator % (denominator * step)
  if denominator * step < 2 * rest ∨ (denominator * step = 2 * rest ∧ whole % 2 = 1) then
    (whole + 1) * step
  else
    whole * step

/-- The double with this sign and magnitude, infinite if the magnitude is too large. -/
def ofUnits (negative : Bool) (units : Nat) : Binary64 :=
  if units < limit then .finite negative units else .infinite negative

/-- The double nearest to a quotient of natural numbers. -/
def ofRatio (negative : Bool) (numerator denominator : Nat) : Binary64 :=
  ofUnits negative (roundUnits (numerator * one) denominator)

/-- The double nearest to `digits * 10 ^ exponent`. Beyond 400 decimal places to either side
of the point it is infinite or zero. -/
def ofDecimal (negative : Bool) (digits : Nat) (exponent : Int) : Binary64 :=
  let places : Int := (Nat.toDigits 10 digits).length + exponent
  if digits = 0 ∨ places < -400 then .finite negative 0
  else if 400 < places then .infinite negative
  else if 0 ≤ exponent then ofRatio negative (digits * Nat.pow 10 exponent.toNat) 1
  else ofRatio negative digits (Nat.pow 10 (-exponent).toNat)

/-- The natural number nearest to the magnitude, a half going up; a negative number gives
zero, no number too, and what exceeds the bound gives the bound. -/
def clampRound (bound : Nat) : Binary64 → Nat
  | finite false units => min bound ((2 * units + one) / (2 * one))
  | finite true _ => 0
  | infinite false => bound
  | infinite true => 0
  | nan => 0

/-- Whether a double differs from zero. -/
def isNonzero : Binary64 → Bool
  | finite _ units => units ≠ 0
  | _ => true

/-! ## Products and quotients of magnitudes -/

/-- The rounded product of two magnitudes. -/
def mulUnits (a b : Nat) : Nat := roundUnits (a * b) one

/-- The rounded quotient of two magnitudes. -/
def divUnits (a b : Nat) : Nat := roundUnits (a * one) b

/-- The magnitude nearest to a natural number. -/
def unitsOfNat (n : Nat) : Nat := roundUnits (n * one) 1

end Binary64

end FilesetBatch
