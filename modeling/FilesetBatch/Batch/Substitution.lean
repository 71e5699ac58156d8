import FilesetBatch.Batch.Plan
import FilesetBatch.Request.Basic

/-!
# Carrying out a plan

A plan puts the request for its fileset right before the first request for one of its
prefixes. That request lends its settings, and from there on the requests for suffixes are
dropped (`Plan.substitute`). Requests for other operations and requests without a target stay
where they are. There is no place for the fileset's request if no prefix is requested, and
a suffix must not be requested before it. Done in place, a plan leaves the batch as it is if it
fails (`Plan.carryOut`).
-/

namespace FilesetBatch

namespace Plan

/-- Whether a request stays once the fileset has its own. -/
def keeps (plan : Plan) (operation : Operation) (request : Request) : Bool :=
  match request.relevantTarget? operation with
  | some target => target ∉ plan.suffixes
  | none => true

/-- The batch in which the fileset of the plan has its own request. -/
def substitute (plan : Plan) (operation : Operation) :
    List Request → Except Failure (List Request)
  | [] => .error (.placeMissing plan.fileset)
  | request :: rest =>
    match request.relevantTarget? operation with
    | none => return request :: (← plan.substitute operation rest)
    | some target =>
      if target ∈ plan.prefixes then
        .ok ((request.retarget? plan.fileset).toList ++
          (request :: rest).filter (plan.keeps operation))
      else if target ∈ plan.suffixes then
        .error (.suffixTooEarly plan.fileset target)
      else
        return request :: (← plan.substitute operation rest)

/-- Carry out a plan on a batch in place. A batch on which this fails stays as it is. -/
def carryOut (plan : Plan) (operation : Operation) : EStateM Failure (List Request) Unit :=
  fun requests =>
    match plan.substitute operation requests with
    | .ok rewritten => .ok () rewritten
    | .error failure => .error failure requests

end Plan

/-- Carry out plans one after another. -/
def substituteAll (plans : List Plan) (operation : Operation) (requests : List Request) :
    Except Failure (List Request) :=
  plans.foldlM (fun requests plan => plan.substitute operation requests) requests

end FilesetBatch
