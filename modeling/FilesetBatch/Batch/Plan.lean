import FilesetBatch.Containment.Ascent
import FilesetBatch.Failure

/-!
# Plans for filesets

An operation must treat the images of a fileset as a whole. If a batch reaches all images of
a fileset that has several, the requests for them give way to one request for the fileset. A
`Plan` says which: its *suffixes* are the targets whose requests are dropped, the images and
the fileset itself, and its *prefixes* are the targets whose requests must not come before
the fileset's request, the images and everything that contains them.

`plans` goes through the reached images in ascending order. The images of a fileset that was
looked at are settled and are not looked at again. An image may be in one fileset only, and
a fileset may hold images only.
-/

namespace FilesetBatch

/-- How the requests for the images of a fileset give way to one for the fileset. -/
structure Plan where
  fileset : Target
  /-- The targets before whose first request the request for the fileset comes. -/
  prefixes : TargetSet
  /-- The targets whose requests are dropped. -/
  suffixes : TargetSet
deriving DecidableEq

namespace Plan

/-- The plan for a fileset with these images. -/
def ofMembers (cache : Cache) (fileset : Target) (members : TargetSet) : Plan where
  fileset := fileset
  prefixes := members.toList.foldl (fun set image => set.union (cache.allContainers image)) members
  suffixes := members.insert fileset

end Plan

/-- Check that the members of a fileset are images of no second fileset. -/
def checkMembers (cache : Cache) (fileset : Target) : List Target → Except Failure Unit
  | [] => .ok ()
  | member :: rest =>
    if member.kind ≠ .image then
      .error (.nonImageInFileset fileset member)
    else
      let filesets := cache.containersOfKind member .fileset
      if 1 < filesets.size then
        .error (.multipleFilesets member filesets.toList)
      else
        checkMembers cache fileset rest

/-- Whether a fileset with these members is to be treated as a whole: it has several, and all
of them are reached. -/
def isWhole (reached members : TargetSet) : Bool :=
  2 ≤ members.size && members.isSubset reached

/-- The plans for the filesets of these images, but for those that are settled. -/
def plansFor (cache : Cache) (reached : TargetSet) :
    TargetSet → List Target → Except Failure (List Plan)
  | _, [] => .ok []
  | settled, image :: rest =>
    if image ∈ settled then
      plansFor cache reached settled rest
    else
      match (cache.containersOfKind image .fileset).toList with
      | [] => plansFor cache reached settled rest
      | [fileset] => do
        let members := cache.contained fileset
        checkMembers cache fileset members.toList
        let plans ← plansFor cache reached (settled.union members) rest
        if isWhole reached members then
          return Plan.ofMembers cache fileset members :: plans
        else
          return plans
      | filesets => .error (.multipleFilesets image filesets)

/-- The plans for the filesets that are reached as a whole. -/
def plans (cache : Cache) (reached : TargetSet) : Except Failure (List Plan) :=
  plansFor cache reached ∅ (reached.ofKind .image).toList

end FilesetBatch
