/-!
# Digits

The numbers that texts of decimal digits stand for, with a sign before them or without one.
-/

namespace FilesetBatch

namespace Digits

/-- The number with these decimal digits. -/
def value (digits : List Char) : Nat :=
  digits.foldl (fun value c => 10 * value + (c.toNat - '0'.toNat)) 0

/-- The number in a text of digits. -/
def read? (text : List Char) : Option Nat :=
  if text.isEmpty || !text.all Char.isDigit then none else some (value text)

/-- Whether a number has a minus before it, and what follows its sign. -/
def sign : List Char → Bool × List Char
  | '-' :: rest => (true, rest)
  | '+' :: rest => (false, rest)
  | text => (false, text)

/-- The integer in a text of digits with a sign before them or without one. -/
def readSigned? (text : List Char) : Option Int :=
  let (negative, digits) := sign text
  (read? digits).map fun number => if negative then -number else number

end Digits

end FilesetBatch
