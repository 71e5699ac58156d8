import FilesetBatch.Containment.Index
import FilesetBatch.Containment.Marks
import FilesetBatch.Containment.Schema

/-!
# What is known about containment

A `Cache` holds pairs of a container and something that it directly contains, indexed from
both ends, so that `Cache.contained` and `Cache.containers` are two readings of one relation
(`Cache.mem_containers_record` and `Cache.mem_contained_record` grow them alike). It also
remembers which look-ups were made, to make none of them twice.
-/

namespace FilesetBatch

/-- The pairs found so far, the look-ups made so far, and the templates to make them with. -/
structure Cache where
  schema : Schema
  /-- What each container directly contains. -/
  contents : TargetIndex
  /-- What directly contains each entity. -/
  holders : TargetIndex
  /-- The look-ups of the contents of one kind of a container. -/
  contentsAsked : Marks
  /-- The look-ups of the containers of one kind of an entity. -/
  holdersAsked : Marks
deriving DecidableEq

namespace Cache

/-- The cache that knows nothing, with the templates of this schema. -/
def ofSchema (schema : Schema) : Cache := ⟨schema, .empty, .empty, ∅, ∅⟩

/-- The cache that knows nothing, with the standard templates. -/
def fresh : Cache := ofSchema .standard

/-! ## Growth -/

/-- Note that one entity directly contains another. -/
def record (cache : Cache) (container contained : Target) : Cache :=
  { cache with
    contents := cache.contents.add container contained
    holders := cache.holders.add contained container }

/-- Note that an entity directly contains those of one kind with these numbers. -/
def recordAll (cache : Cache) (container : Target) (kind : Kind) (ids : List Int) : Cache :=
  ids.foldl (fun cache id => cache.record container ⟨kind, id⟩) cache

/-- Note that the contents of one kind of a container are being looked up. -/
def markContents (cache : Cache) (kind : Kind) (container : Target) : Cache :=
  { cache with contentsAsked := cache.contentsAsked.insert (kind, container) }

/-- Note that the containers of one kind of an entity are being looked up. -/
def markHolders (cache : Cache) (kind : Kind) (contained : Target) : Cache :=
  { cache with holdersAsked := cache.holdersAsked.insert (kind, contained) }

/-! ## Reading -/

/-- What an entity is known to contain directly. -/
def contained (cache : Cache) (container : Target) : TargetSet :=
  cache.contents.get container

/-- What is known to contain an entity directly. -/
def containers (cache : Cache) (contained : Target) : TargetSet :=
  cache.holders.get contained

/-- What is known to contain an entity directly and is of this kind. -/
def containersOfKind (cache : Cache) (contained : Target) (kind : Kind) : TargetSet :=
  (cache.containers contained).ofKind kind

/-- The number of entities that are known to be contained in something. -/
def containedCount (cache : Cache) : Nat := cache.holders.size

/-- The number of entities that are known to contain something. -/
def containerCount (cache : Cache) : Nat := cache.contents.size

/-! ## Both ends of a pair -/

@[simp] theorem mem_contained_record {cache : Cache} {container contained c x : Target} :
    x ∈ (cache.record container contained).contained c ↔
      (c = container ∧ x = contained) ∨ x ∈ cache.contained c :=
  TargetIndex.mem_get_add

@[simp] theorem mem_containers_record {cache : Cache} {container contained c x : Target} :
    c ∈ (cache.record container contained).containers x ↔
      (x = contained ∧ c = container) ∨ c ∈ cache.containers x :=
  TargetIndex.mem_get_add

end Cache

end FilesetBatch
