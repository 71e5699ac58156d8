import FilesetBatch.Config.Path

/-!
# Settings from the environment

Variables whose name begins with `PREPROC_` set parts of the configuration: what follows is a
path, with two low lines between its names (`Environment.path?`). Their values are text, but
one that reads as a switch or a number is taken for that, and the operations are a list with
commas between its items (`Environment.setting`).
-/

namespace FilesetBatch

namespace Environment

/-- What the names of the variables begin with. -/
def opening : List Char := "preproc_".toList

/-- A text with a point for every two low lines. -/
def pointed : List Char → List Char
  | [] => []
  | '_' :: '_' :: rest => '.' :: pointed rest
  | c :: rest => c :: pointed rest

/-- The path that a variable sets, if it sets one, as it is written. -/
def path? (name : String) : Option String :=
  let name := name.toList.map Setting.lowerChar
  if name.take opening.length = opening then
    some (String.ofList (pointed (name.drop opening.length)))
  else
    none

/-! ## Numbers -/

/-- The integer that a text is, if it fits into 64 bits with a sign. -/
def integer? (text : List Char) : Option Int :=
  (Digits.readSigned? text).bind Word.signed?

/-- The exponent at the end of a number, zero if there is none. -/
def exponent? : List Char → Option Int
  | [] => some 0
  | c :: rest => if c = 'e' || c = 'E' then Digits.readSigned? rest else none

/-- The double that a text is: digits with a point among them or at their ends and perhaps an
exponent, or a word for infinity or for no number. -/
def real? (text : List Char) : Option Binary64 :=
  let (negative, text) := Digits.sign text
  let word := String.ofList (text.map Char.toLower)
  if word = "inf" || word = "infinity" then some (.infinite negative)
  else if word = "nan" then some .nan
  else
    let whole := text.takeWhile Char.isDigit
    let behind := text.dropWhile Char.isDigit
    let (fraction, rest) :=
      match behind with
      | '.' :: rest => (rest.takeWhile Char.isDigit, rest.dropWhile Char.isDigit)
      | rest => ([], rest)
    if whole.isEmpty && fraction.isEmpty then none
    else
      (exponent? rest).map fun exponent =>
        .ofDecimal negative (Digits.value (whole ++ fraction)) (exponent - fraction.length)

/-! ## Values -/

/-- Split a text at each occurrence of a character. -/
def splitAt (separator : Char) : List Char → List (List Char)
  | [] => [[]]
  | c :: rest =>
    if c = separator then [] :: splitAt separator rest
    else
      match splitAt separator rest with
      | piece :: pieces => (c :: piece) :: pieces
      | [] => [[c]]

/-- The path whose value is a list. -/
def listPath : String := "preprocess.operations"

/-- The setting that a variable gives to a path. -/
def setting (path value : String) : Setting :=
  let word := Setting.lowerName value
  if word = "true" then .bool true
  else if word = "false" then .bool false
  else
    match integer? value.toList with
    | some number => .integer number
    | none =>
      match real? value.toList with
      | some number => .real number
      | none =>
        if path = listPath then
          .list ((splitAt ',' value.toList).map fun piece => .text (String.ofList piece))
        else
          .text value

/-- Lay the settings of the environment over a configuration. -/
def layOver (environment : List (String × String)) (root : Setting) : Option Setting :=
  environment.foldlM (fun root entry =>
    match path? entry.1 with
    | some path => (setting path entry.2).place (Setting.Path.ofName path) root
    | none => some root) root

end Environment

end FilesetBatch
