import FilesetBatch.Decimal.Binary64

/-!
# The shortest decimal text of a double

The text of a double has the fewest digits that are read back as the same double, and among
those the nearest. Two may be equally near, and then a form of writing has its own choice
(`Tie`). With one digit, with two, and so on, the two neighbours of the magnitude
on the decimal grid of that many digits are tried; the first grid with a neighbour among the
reals that round to the double wins (`shortestDigits`). The text never uses an exponent and
has no point for a whole number (`Binary64.text`).
-/

namespace FilesetBatch

/-- Which of two equally near decimals is taken. -/
inductive Tie
  /-- The larger one. -/
  | up
  /-- The one whose last digit is even. -/
  | even
deriving DecidableEq, Repr

namespace Binary64

/-- The bounds of the reals that round to a magnitude, in quarters of a unit. Below a power of
two the next double is only half as far away as above it. -/
def quarters (units : Nat) : Nat × Nat :=
  let step := gap units
  let lower := if units = Nat.pow 2 units.log2 ∧ 1 < step then step else 2 * step
  (4 * units - lower, 4 * units + 2 * step)

/-- Whether the bounds themselves round to a magnitude: they do if its last digit is even. -/
def includesBounds (units : Nat) : Bool :=
  (units / gap units) % 2 = 0

/-- The number of decimal digits before the point, or less than one by the number of zeros
right behind it. -/
def decimalPlaces (units : Nat) : Int :=
  if one ≤ units then
    (Nat.toDigits 10 (units / one)).length
  else
    -(((List.range 400).find? fun zeros => one ≤ units * Nat.pow 10 (zeros + 1)).getD 0 : Nat)

/-- The neighbours of a magnitude on the grid of `10 ^ exponent` that round to it, the nearer
one first. -/
def neighbours (tie : Tie) (units : Nat) (exponent : Int) : List Nat :=
  let belowFirst := fun below : Nat => tie = .even ∧ below % 2 = 0
  let (scale, parts) :=
    if 0 ≤ exponent then (Nat.pow 10 exponent.toNat, 1) else (1, Nat.pow 10 (-exponent).toNat)
  let below := units * parts / (scale * one)
  let fits := fun digits : Nat =>
    let here := 4 * digits * scale * one
    let bounds := quarters units
    if includesBounds units then bounds.1 * parts ≤ here ∧ here ≤ bounds.2 * parts
    else bounds.1 * parts < here ∧ here < bounds.2 * parts
  let rest := units * parts - below * scale * one
  let candidates :=
    if 2 * rest < scale * one ∨ (2 * rest = scale * one ∧ belowFirst below) then
      [below, below + 1]
    else [below + 1, below]
  candidates.filter fun digits => fits digits

/-- The fewest digits, with the power of ten of the last one, that are read back as the
magnitude; seventeen always suffice. -/
def shortestDigits (tie : Tie) (units : Nat) : Nat × Int :=
  let places := decimalPlaces units
  let found := (List.range 17).findSome? fun (count : Nat) =>
    let exponent := places - (count + 1)
    ((neighbours tie units exponent).head?).map fun digits => (digits, exponent)
  found.getD (0, 0)

/-- Digits without the zeros at their end, for which the power of ten is higher. -/
def withoutZeros (digits : Nat) (exponent : Int) : Nat × Int :=
  if 0 < digits ∧ digits % 10 = 0 then withoutZeros (digits / 10) (exponent + 1)
  else (digits, exponent)
termination_by digits

/-- Digits times a power of ten, written without an exponent. -/
def positional (digits : Nat) (exponent : Int) : List Char :=
  let written := Nat.toDigits 10 digits
  if 0 ≤ exponent then
    written ++ List.replicate exponent.toNat '0'
  else
    let places := (-exponent).toNat
    let padded := List.replicate (places + 1 - written.length) '0' ++ written
    let whole := padded.take (padded.length - places)
    let fraction := (padded.drop (padded.length - places)).reverse.dropWhile (· = '0')
    if fraction.isEmpty then whole else whole ++ '.' :: fraction.reverse

/-- The text of a double, which is the larger one of two that are equally near. -/
def text : Binary64 → String
  | finite negative units =>
    let magnitude :=
      if units = 0 then ['0']
      else positional (shortestDigits .up units).1 (shortestDigits .up units).2
    String.ofList (if negative then '-' :: magnitude else magnitude)
  | infinite negative => if negative then "-inf" else "inf"
  | nan => "NaN"

end Binary64

end FilesetBatch
