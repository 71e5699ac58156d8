import FilesetBatch.Json.Number

/-!
# JSON values

A value as it stands in a JSON text: the members of an object keep their order, and names
may repeat.
-/

namespace FilesetBatch

/-- A JSON value. -/
inductive Json
  | null
  | bool (value : Bool)
  | number (value : Number)
  | string (text : String)
  | array (items : List Json)
  | object (members : List (String × Json))

namespace Json

/-- The value of an integer. -/
def integer (value : Int) : Json := .number (.integer value)

/-- How often a name occurs among the members of an object, with the value if it is once. -/
inductive Occurrence
  | absent
  | once (value : Json)
  | repeated

/-- How often a name occurs among these members. -/
def occurrence (name : String) (members : List (String × Json)) : Occurrence :=
  match members.filter fun member => member.1 = name with
  | [] => .absent
  | [member] => .once member.2
  | _ => .repeated

end Json

end FilesetBatch
