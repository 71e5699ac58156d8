import FilesetBatch.Decimal.Shortest
import FilesetBatch.Decimal.Word

/-!
# Numbers in JSON

A number is either written as a plain integer, and then it is that integer, or it has a
fraction, an exponent or a minus sign before zero, and then it is a decimal. Whether a
number is too large depends on how it is read as a double: its leading digits, as many as
fit into 64 bits, are multiplied by or divided by a power of ten, and both numbers and
the result are rounded (`Number.toBinary64?`).

A number is held as an integer of 64 bits or as a double (`Number.held`), and it is written as
what it is held as.
-/

namespace FilesetBatch

/-- A number as it is written: a plain integer, or digits and a power of ten. -/
inductive Number
  | integer (value : Int)
  | decimal (negative : Bool) (digits : Nat) (exponent : Int)
deriving DecidableEq, Repr

namespace Number

/-- The leading digits that fit into 64 bits, and how many digits follow them. -/
def leadingDigits (digits : Nat) : Nat × Nat :=
  if digits ≤ Word.maxUnsigned then (digits, 0)
  else
    let (leading, dropped) := leadingDigits (digits / 10)
    (leading, dropped + 1)
termination_by digits
decreasing_by
  have : Word.maxUnsigned < digits := by omega
  unfold Word.maxUnsigned at this
  omega

/-- The magnitude of `digits * 10 ^ exponent`, if it is not too large. Up to 308 places it is
one product or quotient; below that the quotient is taken in two steps. -/
def scaledUnits (digits : Nat) (exponent : Int) : Option Nat :=
  let units := Binary64.unitsOfNat digits
  let power := fun exponent : Nat => Binary64.unitsOfNat (Nat.pow 10 exponent)
  if digits = 0 ∨ exponent < -616 then some 0
  else if exponent < -308 then
    some (Binary64.divUnits (Binary64.divUnits units (power 308)) (power (-exponent - 308).toNat))
  else if exponent < 0 then some (Binary64.divUnits units (power (-exponent).toNat))
  else if exponent ≤ 308 then
    let product := Binary64.mulUnits units (power exponent.toNat)
    if product < Binary64.limit then some product else none
  else none

/-- The double that a number is read as, if it is not too large for one. -/
def toBinary64? (number : Number) : Option Binary64 :=
  let (negative, digits, exponent) : Bool × Nat × Int :=
    match number with
    | integer value => (value < 0, value.natAbs, 0)
    | decimal negative digits exponent => (negative, digits, exponent)
  let (leading, dropped) := leadingDigits digits
  (scaledUnits leading (exponent + dropped)).map (.finite negative)

/-- Whether a number is not too large for a double. An integer of 64 bits never is. -/
def inRange (number : Number) : Bool :=
  match number with
  | integer value => value.natAbs ≤ Word.maxUnsigned || number.toBinary64?.isSome
  | decimal .. => number.toBinary64?.isSome

/-- What a number is held as. -/
inductive Held
  | integer (value : Int)
  | double (value : Binary64)
deriving DecidableEq, Repr

/-- A number as it is held: an integer that fits into 64 bits as itself, any other number as the
double that it is read as. -/
def held (number : Number) : Held :=
  let double := Held.double (number.toBinary64?.getD .nan)
  match number with
  | integer value => if Word.Fits value then .integer value else double
  | decimal .. => double

theorem held_integer {value : Int} (h : Word.Fits value) :
    (integer value).held = .integer value :=
  if_pos h

/-- The integer, if the number is written as one that fits into 64 bits with a sign. -/
def toInt64? : Number → Option Int
  | integer value => Word.signed? value
  | decimal .. => none

end Number

end FilesetBatch
