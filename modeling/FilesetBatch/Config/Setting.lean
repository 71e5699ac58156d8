import FilesetBatch.Decimal.Digits
import FilesetBatch.Decimal.Shortest
import FilesetBatch.Json.Value

/-!
# Settings

A configuration is put together in layers. Each layer is a value with named parts, and a
later layer is laid over an earlier one part by part: tables are joined name by name,
anything else replaces what was there (`Setting.put`). Names count without regard to upper
and lower case.

The layers give values in several spellings: a number may come as text, a switch as a number.
`Setting.asBool?`, `Setting.asUnsigned?` and `Setting.asText?` say what each is taken for.
-/

namespace FilesetBatch

/-- A value in a layer of the configuration. -/
inductive Setting
  | null
  | bool (value : Bool)
  | integer (value : Int)
  | real (value : Binary64)
  | text (value : String)
  | list (items : List Setting)
  | table (entries : List (String × Setting))

namespace Setting

/-! ## Names -/

/-- A letter in lower case. Of the letters beyond ASCII only the sign for kelvin becomes a
letter that is used in a name. -/
def lowerChar (c : Char) : Char :=
  if c = '\u212a' then 'k' else c.toLower

/-- A name in lower case. -/
def lowerName (name : String) : String :=
  String.ofList (name.toList.map lowerChar)

/-! ## Layers -/

/-- The entries of a table; anything else has none. -/
def entries : Setting → List (String × Setting)
  | table entries => entries
  | _ => []

/-- The value at a name. -/
def get? (setting : Setting) (name : String) : Option Setting :=
  setting.entries.lookup name

/-- The entries with a changed value at one name. -/
def changeIn (name : String) (update : Option Setting → Setting) :
    List (String × Setting) → List (String × Setting)
  | [] => [(name, update none)]
  | entry :: rest =>
    if entry.1 = name then (name, update (some entry.2)) :: rest
    else entry :: changeIn name update rest

/-- The table with a changed value at one name; anything else becomes a table first. -/
def change (setting : Setting) (name : String) (update : Option Setting → Setting) : Setting :=
  .table (changeIn name update setting.entries)

mutual

/-- Lay a value over what is at a name: a table is joined with it, anything else replaces it. -/
def put (value : Setting) (name : String) (root : Setting) : Setting :=
  match value with
  | .table entries => root.change name fun old => putAll entries (old.getD (.table []))
  | value => root.change name fun _ => value

/-- Lay the entries of a table over a value. -/
def putAll (entries : List (String × Setting)) (root : Setting) : Setting :=
  match entries with
  | [] => root
  | (name, value) :: rest => putAll rest (put value (lowerName name) root)

end

/-! ## Values from JSON -/

/-- A number as a setting: an integer if it fits into 64 bits with a sign. -/
def ofNumber (number : Number) : Setting :=
  match number.toInt64? with
  | some value => .integer value
  | none => .real (number.toBinary64?.getD .nan)

/-- Without the entries whose name comes again later. -/
def lastOfEach : List (String × Setting) → List (String × Setting)
  | [] => []
  | entry :: rest =>
    if rest.any fun other => other.1 = entry.1 then lastOfEach rest
    else entry :: lastOfEach rest

mutual

/-- The setting that is written as a JSON value. -/
def ofJson : Json → Setting
  | .null => .null
  | .bool value => .bool value
  | .number value => ofNumber value
  | .string value => .text value
  | .array items => .list (ofItems items)
  | .object members => .table (lastOfEach (ofMembers members))

/-- The settings that are written as the items of an array. -/
def ofItems : List Json → List Setting
  | [] => []
  | item :: items => ofJson item :: ofItems items

/-- The settings that are written as the members of an object. -/
def ofMembers : List (String × Json) → List (String × Setting)
  | [] => []
  | (name, value) :: members => (name, ofJson value) :: ofMembers members

end

/-! ## What a value is taken for -/

/-- A switch: a number is on unless it is zero, and there are words for both. -/
def asBool? : Setting → Option Bool
  | .bool value => some value
  | .integer value => some (value ≠ 0)
  | .real value => some value.isNonzero
  | .text value =>
    let word := lowerName value
    if ["1", "true", "on", "yes"].contains word then some true
    else if ["0", "false", "off", "no"].contains word then some false
    else none
  | _ => none

/-- The number in a text of digits, perhaps with a plus before them. -/
def digits? (text : List Char) : Option Nat :=
  Digits.read? (if text.head? = some '+' then text.drop 1 else text)

/-- A number without sign that is not above a bound: a switch counts as one or zero, and a
fraction is rounded. -/
def asUnsigned? (bound : Nat) (setting : Setting) : Option Nat :=
  let number : Option Nat :=
    match setting with
    | .integer value => if value < 0 then none else some value.toNat
    | .bool value => some value.toNat
    | .real value => some (value.clampRound Word.maxUnsigned)
    | .text value =>
      let word := lowerName value
      if ["true", "on", "yes"].contains word then some 1
      else if ["false", "off", "no"].contains word then some 0
      else (digits? value.toList).filter fun number => number ≤ Word.maxUnsigned
    | _ => none
  number.filter fun number => number ≤ bound

/-- A text, as which numbers and switches count too. -/
def asText? : Setting → Option String
  | .text value => some value
  | .bool value => some (if value then "true" else "false")
  | .integer value => some (toString value)
  | .real value => some value.text
  | _ => none

/-- One of several choices, by its name or by a table whose only entry has its name. -/
def asChoice? {α : Type} (choices : List (String × α)) (setting : Setting) : Option α :=
  let name : Option String :=
    match setting with
    | .text name => some name
    | .table [(name, _)] => some name
    | _ => none
  name.bind fun name => choices.lookup (lowerName name)

/-- The values of the parts with these names, in that order. Instead of a table there may be a
list of them. -/
def parts? (names : List String) : Setting → Option (List (Option Setting))
  | .table entries => some (names.map fun name => entries.lookup name)
  | .list items =>
    if names.length ≤ items.length then some ((items.take names.length).map some) else none
  | _ => none

end Setting

end FilesetBatch
