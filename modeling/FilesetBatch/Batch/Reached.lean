import FilesetBatch.Containment.Lookup
import FilesetBatch.Request.Basic

/-!
# What a batch reaches

An operation reaches the targets of its requests (`directTargets`) and whatever lies under
them along the edges of `hierarchy`. The edges are followed once each: by the time an edge
is followed, every target of its container kind has been reached (`collect`). The filesets
of the reached images are looked up as well, but are not themselves reached.
-/

namespace FilesetBatch

/-- The targets that the requests of a batch name for an operation. -/
def directTargets (requests : List Request) (operation : Operation) : TargetSet :=
  .ofList (requests.filterMap fun request => request.relevantTarget? operation)

@[simp] theorem mem_directTargets {requests : List Request} {operation : Operation}
    {target : Target} :
    target ∈ directTargets requests operation ↔
      ∃ request ∈ requests, request.relevantTarget? operation = some target := by
  simp [directTargets]

/-- Add what the reached containers of an edge contain along it. -/
def follow (service : QueryService) (reached : TargetSet) (edge : Edge) :
    LookupM TargetSet :=
  (reached.ofKind edge.container).toList.foldlM (fun reached container => do
    lookupContents service edge.contained container
    let contents := (← get).cache.contained container
    return reached.union (contents.ofKind edge.contained)) reached

/-- Find all that a batch reaches for an operation, and the filesets of the images in it. -/
def collect (service : QueryService) (requests : List Request) (operation : Operation) :
    LookupM TargetSet := do
  let reached ← hierarchy.foldlM (follow service) (directTargets requests operation)
  (reached.ofKind .image).toList.forM fun image => lookupContainers service .fileset image
  return reached

end FilesetBatch
