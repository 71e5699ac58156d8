import FilesetBatch.Target.Basic
import FilesetBatch.Request.Options

/-!
# Requests

A batch is a list of requests. A request deletes an entity, moves it to another group, or
asks for something else, of which only the name is kept. The entity is given by a type name
and a number; a type name that is no kind of entity (`Kind.ofExternalName?`) is kept as it
is, and such a request has no target.

An operation looks at the requests of its own sort that have a target
(`Request.relevantTarget?`). Retargeting keeps everything but the entity
(`Request.retarget?`).
-/

namespace FilesetBatch

/-- An operation on entities: moving them to a group, or deleting them. -/
inductive Operation
  | chgrp
  | delete
deriving DecidableEq, Repr

namespace Operation

/-- All operations, in the order in which they are prepared unless told otherwise. -/
def all : List Operation := [chgrp, delete]

/-- The name of an operation, also as the tag of its requests. -/
def name : Operation → String
  | chgrp => "chgrp"
  | delete => "delete"

end Operation

/-- One request of a batch. -/
inductive Request
  | delete (typeName : String) (id : Int) (options : Options)
  | chgrp (typeName : String) (id : Int) (groupId : Int) (options : Options)
  | other (name : String)
deriving DecidableEq

namespace Request

/-- The request to delete this target, without options. -/
def deleteTarget (target : Target) : Request :=
  delete target.kind.externalName target.id ∅

/-- The request to move this target to a group, without options. -/
def chgrpTarget (target : Target) (groupId : Int) : Request :=
  chgrp target.kind.externalName target.id groupId ∅

/-- The operation that a request asks for. -/
def operation? : Request → Option Operation
  | delete .. => some .delete
  | chgrp .. => some .chgrp
  | other _ => none

/-- The entity that a request names, if its type name is a kind. -/
def target? : Request → Option Target
  | delete typeName id _ => (Kind.ofExternalName? typeName).map (⟨·, id⟩)
  | chgrp typeName id _ _ => (Kind.ofExternalName? typeName).map (⟨·, id⟩)
  | other _ => none

/-- The entity on which a request asks for this operation. -/
def relevantTarget? (request : Request) (operation : Operation) : Option Target :=
  if request.operation? = some operation then request.target? else none

/-- The same request on another entity. -/
def retarget? (request : Request) (target : Target) : Option Request :=
  match request with
  | delete _ _ options => some (delete target.kind.externalName target.id options)
  | chgrp _ _ groupId options =>
    some (chgrp target.kind.externalName target.id groupId options)
  | other _ => none

/-! ## Retargeting -/

theorem operation?_of_retarget? {request moved : Request} {target : Target}
    (h : request.retarget? target = some moved) : moved.operation? = request.operation? := by
  cases request <;> simp [retarget?] at h <;> subst h <;> rfl

theorem target?_of_retarget? {request moved : Request} {target : Target}
    (h : request.retarget? target = some moved) : moved.target? = some target := by
  cases request <;> simp [retarget?] at h <;> subst h <;> simp [target?]

/-- A retargeted request is for the same operation as before, on the new target. -/
theorem relevantTarget?_of_retarget? {request moved : Request} {target : Target}
    (h : request.retarget? target = some moved) (operation : Operation) :
    moved.relevantTarget? operation =
      if request.operation? = some operation then some target else none := by
  rw [relevantTarget?, operation?_of_retarget? h, target?_of_retarget? h]

/-- A request with a relevant target is for the operation. -/
theorem operation?_of_relevantTarget? {request : Request} {operation : Operation}
    {target : Target} (h : request.relevantTarget? operation = some target) :
    request.operation? = some operation := by
  rw [relevantTarget?] at h
  split at h
  · assumption
  · cases h

/-- A request is relevant to one operation at most. -/
theorem eq_of_relevantTarget? {request : Request} {operation operation' : Operation}
    {target target' : Target} (h : request.relevantTarget? operation = some target)
    (h' : request.relevantTarget? operation' = some target') : operation = operation' := by
  have hsame := (operation?_of_relevantTarget? h).symm.trans (operation?_of_relevantTarget? h')
  exact Option.some.inj hsame

/-- A request with a relevant target can be retargeted. -/
theorem isSome_retarget?_of_relevantTarget? {request : Request} {operation : Operation}
    {old : Target} (h : request.relevantTarget? operation = some old) (target : Target) :
    (request.retarget? target).isSome = true := by
  cases request <;> simp_all [relevantTarget?, operation?, retarget?]

/-- A request that is retargeted to its own target stays as it is. -/
theorem retarget?_self {request : Request} {operation : Operation} {target : Target}
    (h : request.relevantTarget? operation = some target) :
    request.retarget? target = some request := by
  rw [relevantTarget?, if_pos (operation?_of_relevantTarget? h)] at h
  cases request with
  | other name => cases h
  | _ =>
    obtain ⟨kind, hkind, rfl⟩ := Option.map_eq_some_iff.mp h
    rw [Kind.ofExternalName?_eq_some_iff.mp hkind]
    rfl

end Request

end FilesetBatch
