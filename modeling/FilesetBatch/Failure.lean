import FilesetBatch.Target.Basic

/-!
# Failures

Why the preparation of a batch can fail. All but a failed query say that what the queries
answered, or the plan made from it, breaks a rule that the batch relies on
(`Failure.isInvariantViolation`).
-/

namespace FilesetBatch

/-- Why a batch could not be prepared. -/
inductive Failure
  /-- The schema has no template that leads from the first kind to the second. -/
  | undeclaredEdge (given found : Kind)
  /-- An image lies in several filesets. -/
  | multipleFilesets (image : Target) (filesets : List Target)
  /-- A fileset holds something that is no image. -/
  | nonImageInFileset (fileset member : Target)
  /-- A request that the fileset's request replaces comes before any place for it. -/
  | suffixTooEarly (fileset target : Target)
  /-- No request marks the place of the fileset's request. -/
  | placeMissing (fileset : Target)
  /-- The query service failed, for the reason it gives. -/
  | query (template : String) (id : Int) (reason : String)
deriving DecidableEq, Repr

namespace Failure

/-- The message that tells a failure, without the reason of a failed query. -/
def message : Failure → String
  | undeclaredEdge given found =>
    "no containment query is declared from " ++ given.name ++ " to " ++ found.name
  | multipleFilesets image filesets =>
    "image " ++ image.display ++ " is contained in multiple filesets: [" ++
      String.intercalate ", " (filesets.map Target.spelledOut) ++ "]"
  | nonImageInFileset fileset member =>
    "non-image " ++ member.display ++ " found in fileset " ++ fileset.display
  | suffixTooEarly fileset target =>
    "request for " ++ target.display ++ " precedes every prohibited prefix of fileset " ++
      fileset.display
  | placeMissing fileset =>
    "no prohibited prefix of fileset " ++ fileset.display ++ " is among the requests"
  | query template id _ =>
    "containment query " ++ template ++ " failed for id " ++ toString id

/-- The reason that the query service gave. -/
def reason? : Failure → Option String
  | query _ _ reason => some reason
  | _ => none

/-- The message, followed by the reason where there is one. -/
def fullMessage (failure : Failure) : String :=
  match failure.reason? with
  | some reason => failure.message ++ ": " ++ reason
  | none => failure.message

/-- Whether a rule is broken that the batch relies on; a failed query breaks none. -/
def isInvariantViolation : Failure → Bool
  | query .. => false
  | _ => true

end Failure

end FilesetBatch
