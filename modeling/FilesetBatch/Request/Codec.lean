import FilesetBatch.Json.Value
import FilesetBatch.Request.Basic

/-!
# Requests in JSON

A request is an object whose member `request` is its tag (`Request.toJson`). Its other
members may come in any order, and members that the tag does not know may come as often as
they like; a member that it knows, and the tag itself, may come only once
(`Request.ofMembers?`). A request may also be a list, of the tag and the values of its
members in their order (`Request.ofItems?`). Options may be left out.
-/

namespace FilesetBatch

namespace Request

/-! ## Writing -/

/-- The member with the options, left out when there are none. -/
def optionMembers (options : Options) : List (String × Json) :=
  if options.isEmpty then []
  else
    [("options", .object (options.toList.map fun entry => (entry.1, .string entry.2)))]

/-- The tag of a request. -/
def tag : Request → String
  | delete .. => "delete"
  | chgrp .. => "chgrp"
  | other _ => "other"

/-- Whether a tag is that of some request. -/
def isTag (tag : String) : Bool :=
  tag = "delete" || tag = "chgrp" || tag = "other"

/-- A request as an object. -/
def toJson (request : Request) : Json :=
  .object <| ("request", .string request.tag) ::
    match request with
    | delete typeName id options =>
      [("type", .string typeName), ("id", .integer id)] ++ optionMembers options
    | chgrp typeName id groupId options =>
      [("type", .string typeName), ("id", .integer id), ("group_id", .integer groupId)] ++
        optionMembers options
    | other name => [("name", .string name)]

/-- A batch as an array of objects. -/
def batchToJson (requests : List Request) : Json :=
  .array (requests.map toJson)

/-! ## Reading -/

/-- The text of a string. -/
def textOf? : Json → Option String
  | .string text => some text
  | _ => none

/-- A number as an identifier: an integer of 64 bits with a sign. -/
def idOf? : Json → Option Int
  | .number value => value.toInt64?
  | _ => none

/-- The options in an object of strings. -/
def optionsOf? : Json → Option Options
  | .object members => do
    let entries ← members.mapM fun member => (textOf? member.2).map (member.1, ·)
    return Options.ofList entries
  | _ => none

/-- What a member that must be there holds. -/
def required? {α : Type} (read : Json → Option α) (name : String)
    (members : List (String × Json)) : Option α :=
  match Json.occurrence name members with
  | .once value => read value
  | _ => none

/-- The options among these members, none if they are left out. -/
def optionsAmong? (members : List (String × Json)) : Option Options :=
  match Json.occurrence "options" members with
  | .absent => some ∅
  | .once value => optionsOf? value
  | .repeated => none

/-- The request with these members. -/
def ofMembers? (members : List (String × Json)) : Option Request := do
  match ← required? textOf? "request" members with
  | "delete" =>
    return delete (← required? textOf? "type" members) (← required? idOf? "id" members)
      (← optionsAmong? members)
  | "chgrp" =>
    return chgrp (← required? textOf? "type" members) (← required? idOf? "id" members)
      (← required? idOf? "group_id" members) (← optionsAmong? members)
  | "other" => return other (← required? textOf? "name" members)
  | _ => none

/-- The request with this tag and these values. -/
def ofItems? : List Json → Option Request
  | [.string "delete", typeName, id] =>
    return delete (← textOf? typeName) (← idOf? id) ∅
  | [.string "delete", typeName, id, options] =>
    return delete (← textOf? typeName) (← idOf? id) (← optionsOf? options)
  | [.string "chgrp", typeName, id, groupId] =>
    return chgrp (← textOf? typeName) (← idOf? id) (← idOf? groupId) ∅
  | [.string "chgrp", typeName, id, groupId, options] =>
    return chgrp (← textOf? typeName) (← idOf? id) (← idOf? groupId) (← optionsOf? options)
  | [.string "other", name] => return other (← textOf? name)
  | _ => none

/-- The request that a value stands for. -/
def ofJson? : Json → Option Request
  | .object members => ofMembers? members
  | .array items => ofItems? items
  | _ => none

/-- The batch that an array stands for. -/
def batchOfJson? : Json → Option (List Request)
  | .array items => items.mapM ofJson?
  | _ => none

end Request

end FilesetBatch
