import FilesetBatch.Json.Value

/-!
# Writing JSON

Two written forms: the compact one has no blanks (`Json.compact`), the pretty one has a line
for each item and member, indented by two blanks for each level (`Json.pretty`). In a string
a quote, a backslash and the control characters before the blank are escaped, and nothing
else is. A number is written as what it is held as : an integer in full, a double with the
fewest digits that are read back as it (`Json.numberText`).
-/

namespace FilesetBatch

namespace Json

/-! ## Strings and numbers -/

/-- A digit of a code in an escape. -/
def hexDigit (value : Nat) : Char :=
  if value < 10 then Char.ofNat ('0'.toNat + value) else Char.ofNat ('a'.toNat + value - 10)

/-- A character as it is written in a string. -/
def escape (c : Char) : List Char :=
  if c = '"' then ['\\', '"']
  else if c = '\\' then ['\\', '\\']
  else if c = '\x08' then ['\\', 'b']
  else if c = '\t' then ['\\', 't']
  else if c = '\n' then ['\\', 'n']
  else if c = '\x0c' then ['\\', 'f']
  else if c = '\r' then ['\\', 'r']
  else if c < ' ' then ['\\', 'u', '0', '0', hexDigit (c.toNat / 16), hexDigit (c.toNat % 16)]
  else [c]

/-- A string as it is written. -/
def quoted (text : String) : List Char :=
  '"' :: text.toList.flatMap escape ++ ['"']

/-- The decimal digits of an integer, with its sign. -/
def intText (value : Int) : List Char :=
  if value < 0 then '-' :: Nat.toDigits 10 value.natAbs else Nat.toDigits 10 value.natAbs

/-- Digits times a power of ten, with a digit on either side of the point. Where the number has
more than sixteen digits before the point, or more than four zeros right behind it, the point
stands behind the first digit, if there are others, and an exponent tells its place. -/
def decimalText (digits : List Char) (exponent : Int) : List Char :=
  let places := digits.length + exponent
  if 0 ≤ exponent ∧ places ≤ 16 then
    digits ++ List.replicate exponent.toNat '0' ++ ['.', '0']
  else if 0 < places ∧ places ≤ 16 then
    digits.take places.toNat ++ '.' :: digits.drop places.toNat
  else if -5 < places ∧ places ≤ 0 then
    '0' :: '.' :: List.replicate (-places).toNat '0' ++ digits
  else
    let fraction := digits.drop 1
    digits.take 1 ++ (if fraction.isEmpty then [] else '.' :: fraction) ++
      'e' :: intText (places - 1)

/-- A double with the fewest digits that are read back as it; one that is not finite is null. -/
def doubleText : Binary64 → List Char
  | .finite negative units =>
    let shortest := Binary64.shortestDigits .even units
    -- the nearer neighbour on a grid of few digits may be a power of ten, as 10 next to 9
    let (digits, exponent) := Binary64.withoutZeros shortest.1 shortest.2
    (if negative then ['-'] else []) ++ decimalText (Nat.toDigits 10 digits) exponent
  | _ => ['n', 'u', 'l', 'l']

/-- A number as it is written. -/
def numberText (number : Number) : List Char :=
  match number.held with
  | .integer value => intText value
  | .double value => doubleText value

theorem numberText_integer {value : Int} (h : Word.Fits value) :
    numberText (.integer value) = intText value := by
  rw [numberText, Number.held_integer h]

/-! ## The compact form -/

mutual

/-- A value without blanks. -/
def compact : Json → List Char
  | null => ['n', 'u', 'l', 'l']
  | bool true => ['t', 'r', 'u', 'e']
  | bool false => ['f', 'a', 'l', 's', 'e']
  | number value => numberText value
  | string text => quoted text
  | array [] => ['[', ']']
  | array (item :: items) => '[' :: compact item ++ compactItems items ++ [']']
  | object [] => ['{', '}']
  | object ((name, value) :: members) =>
    '{' :: quoted name ++ ':' :: compact value ++ compactMembers members ++ ['}']

/-- The items behind the first one, without blanks. -/
def compactItems : List Json → List Char
  | [] => []
  | item :: items => ',' :: compact item ++ compactItems items

/-- The members behind the first one, without blanks. -/
def compactMembers : List (String × Json) → List Char
  | [] => []
  | (name, value) :: members =>
    ',' :: quoted name ++ ':' :: compact value ++ compactMembers members

end

/-! ## The pretty form -/

/-- A new line at a level. -/
def newLine (level : Nat) : List Char :=
  '\n' :: List.replicate (2 * level) ' '

mutual

/-- A value that stands at a level, on lines of its own. -/
def pretty (level : Nat) : Json → List Char
  | null => ['n', 'u', 'l', 'l']
  | bool true => ['t', 'r', 'u', 'e']
  | bool false => ['f', 'a', 'l', 's', 'e']
  | number value => numberText value
  | string text => quoted text
  | array [] => ['[', ']']
  | array (item :: items) =>
    '[' :: newLine (level + 1) ++ pretty (level + 1) item ++ prettyItems (level + 1) items ++
      newLine level ++ [']']
  | object [] => ['{', '}']
  | object ((name, value) :: members) =>
    '{' :: newLine (level + 1) ++ quoted name ++ ':' :: ' ' :: pretty (level + 1) value ++
      prettyMembers (level + 1) members ++ newLine level ++ ['}']

/-- The items behind the first one, each on a line of its own. -/
def prettyItems (level : Nat) : List Json → List Char
  | [] => []
  | item :: items => ',' :: newLine level ++ pretty level item ++ prettyItems level items

/-- The members behind the first one, each on a line of its own. -/
def prettyMembers (level : Nat) : List (String × Json) → List Char
  | [] => []
  | (name, value) :: members =>
    ',' :: newLine level ++ quoted name ++ ':' :: ' ' :: pretty level value ++
      prettyMembers level members

end

/-- The text of a value without blanks. -/
def compactText (value : Json) : String :=
  String.ofList value.compact

/-- The text of a value with a line for each item and member. -/
def prettyText (value : Json) : String :=
  String.ofList (value.pretty 0)

end Json

end FilesetBatch
