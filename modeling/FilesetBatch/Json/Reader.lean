import FilesetBatch.Json.Lexeme
import FilesetBatch.Json.Value

/-!
# Reading JSON

Lexemes are read one at a time by a machine that keeps the arrays and objects that are still
open (`Open`) and knows what may come next (`Expected`). A value that is complete goes into
the innermost open array or object; the machine stops when there is none
(`Reading.deliver`), and leaves the lexemes behind the value alone.

Reading is strict: no comma before a closing bracket, names are strings, numbers are not too
large for a double, strings have a text, and at most a given number of arrays and objects
are open at once. A value that will be thrown away is only held to the form of JSON
(`Scrutiny`).
-/

namespace FilesetBatch

/-- How closely a value is looked at. -/
inductive Scrutiny
  /-- All rules count, and at most so many arrays and objects are open at once. -/
  | full (depth : Nat)
  /-- Only the form counts. -/
  | form
deriving DecidableEq

namespace Scrutiny

/-- Whether one more array or object may be opened when these are open. -/
def allowsOpening {α : Type} (scrutiny : Scrutiny) (opened : List α) : Bool :=
  match scrutiny with
  | full depth => opened.length < depth
  | form => true

/-- Whether a number is acceptable. -/
def allowsNumber (scrutiny : Scrutiny) (number : Number) : Bool :=
  match scrutiny with
  | full _ => number.inRange
  | form => true

/-- The text of a string, if the string is acceptable. -/
def textOf? (scrutiny : Scrutiny) (text : Option String) : Option String :=
  match scrutiny with
  | full _ => text
  | form => some (text.getD "")

end Scrutiny

/-- An array or object that is being read, with what is in it so far, the last first. -/
inductive Open
  | array (items : List Json)
  | object (members : List (String × Json))
  /-- An object whose next member has a name, but no value yet. -/
  | member (members : List (String × Json)) (name : String)

/-- What may come next. -/
inductive Expected
  | value
  /-- The first item or member, or the end of what was opened. -/
  | first
  /-- A comma, or the end of what is open. -/
  | next
  | name
  | colon
deriving DecidableEq

/-- Where the reader stands after a lexeme. -/
inductive Reading
  | done (value : Json)
  | goOn (opened : List Open) (expected : Expected)
  | wrong

namespace Reading

/-- Put a complete value into the innermost array or object. -/
def deliver (value : Json) : List Open → Reading
  | [] => done value
  | .array items :: outer => goOn (.array (value :: items) :: outer) .next
  | .member members name :: outer => goOn (.object ((name, value) :: members) :: outer) .next
  | .object _ :: _ => wrong

/-- Read the first lexeme of a value. -/
def startValue (scrutiny : Scrutiny) (opened : List Open) : Lexeme → Reading
  | .null => deliver .null opened
  | .bool value => deliver (.bool value) opened
  | .number value =>
    if scrutiny.allowsNumber value then deliver (.number value) opened else wrong
  | .string text =>
    match scrutiny.textOf? text with
    | some text => deliver (.string text) opened
    | none => wrong
  | .openBracket =>
    if scrutiny.allowsOpening opened then goOn (.array [] :: opened) .first else wrong
  | .openBrace =>
    if scrutiny.allowsOpening opened then goOn (.object [] :: opened) .first else wrong
  | _ => wrong

/-- Read the name of a member. -/
def readName (scrutiny : Scrutiny) (members : List (String × Json)) (outer : List Open) :
    Lexeme → Reading
  | .string text =>
    match scrutiny.textOf? text with
    | some name => goOn (.member members name :: outer) .colon
    | none => wrong
  | _ => wrong

/-- Read one lexeme. -/
def step (scrutiny : Scrutiny) (opened : List Open) (expected : Expected) (lexeme : Lexeme) :
    Reading :=
  match expected, opened, lexeme with
  | .value, _, _ => startValue scrutiny opened lexeme
  | .first, .array items :: outer, .closeBracket => deliver (.array items.reverse) outer
  | .first, .array _ :: _, _ => startValue scrutiny opened lexeme
  | .first, .object members :: outer, .closeBrace => deliver (.object members.reverse) outer
  | .first, .object members :: outer, _ => readName scrutiny members outer lexeme
  | .next, .array items :: outer, .closeBracket => deliver (.array items.reverse) outer
  | .next, .array _ :: _, .comma => goOn opened .value
  | .next, .object members :: outer, .closeBrace => deliver (.object members.reverse) outer
  | .next, .object _ :: _, .comma => goOn opened .name
  | .name, .object members :: outer, _ => readName scrutiny members outer lexeme
  | .colon, _, .colon => goOn opened .value
  | _, _, _ => wrong

end Reading

namespace Json

/-- Read on until the outermost value is complete. -/
def readFrom (scrutiny : Scrutiny) :
    List Open → Expected → List Lexeme → Option (Json × List Lexeme)
  | _, _, [] => none
  | opened, expected, lexeme :: rest =>
    match Reading.step scrutiny opened expected lexeme with
    | .done value => some (value, rest)
    | .goOn opened expected => readFrom scrutiny opened expected rest
    | .wrong => none

/-- The value at the front of some lexemes, and what follows it. -/
def read (scrutiny : Scrutiny) (input : List Lexeme) : Option (Json × List Lexeme) :=
  readFrom scrutiny [] .value input

/-- So many arrays and objects may be open at once. -/
def maxDepth : Nat := 127

/-- The value that a text is, with nothing but blanks around it. -/
def parse? (text : String) : Option Json :=
  match read (.full maxDepth) (lexemes text.toList) with
  | some (value, []) => some value
  | _ => none

/-- What follows a value is shorter. -/
theorem length_lt_of_readFrom {scrutiny : Scrutiny} {opened : List Open} {expected : Expected}
    {input rest : List Lexeme} {value : Json}
    (h : readFrom scrutiny opened expected input = some (value, rest)) :
    rest.length < input.length := by
  fun_induction readFrom scrutiny opened expected input <;> grind

theorem length_lt_of_read {scrutiny : Scrutiny} {input rest : List Lexeme} {value : Json}
    (h : read scrutiny input = some (value, rest)) : rest.length < input.length :=
  length_lt_of_readFrom h

end Json

end FilesetBatch
