import FilesetBatch.Containment.Cache
import FilesetBatch.Containment.QueryService

/-!
# Looking up containment

A look-up asks the query service for the contents or the containers of one kind of one
entity and adds the answer to the cache. It is made at most once for a kind and an entity:
the cache notes it before the query goes out, so one that failed is not tried again, while a
look-up for which the schema has no template leaves no trace.

What contains an entity is only a pointer to containers: each of them is then looked up for
all its contents of that entity's kind (`lookupContainers`), so that the contents of a
container are known completely or not at all.
-/

namespace FilesetBatch

/-- What look-ups leave behind: the cache and the queries that were asked. -/
structure Lookups where
  cache : Cache
  log : QueryLog
deriving DecidableEq

/-- A computation that makes look-ups and may fail; what it looked up before stays. -/
abbrev LookupM := EStateM Failure Lookups

theorem LookupM.get_bind {α : Type} (next : Lookups → LookupM α) (lookups : Lookups) :
    (get >>= next) lookups = next lookups lookups :=
  rfl

/-- Replace the cache by an updated one. -/
def updateCache (update : Cache → Cache) : LookupM Unit :=
  modify fun lookups => { lookups with cache := update lookups.cache }

/-- Ask the service a query. -/
def QueryService.issue (service : QueryService) (template : Template) (id : Int) :
    LookupM (List Int) :=
  fun lookups =>
    match service.ask template id lookups.log with
    | .ok ids log => .ok ids { lookups with log := log }
    | .error reason log => .error (.query template.name id reason) { lookups with log := log }

/-- The template between two kinds in the schema of the cache. -/
def findTemplate (given found : Kind) : LookupM Template := do
  MonadExcept.ofExcept ((← get).cache.schema.template given found)

theorem findTemplate_eq (given found : Kind) (lookups : Lookups) :
    findTemplate given found lookups =
      match lookups.cache.schema.template given found with
      | .ok template => .ok template lookups
      | .error failure => .error failure lookups := by
  rw [findTemplate, LookupM.get_bind]
  cases lookups.cache.schema.template given found <;> rfl

theorem updateCache_eq (update : Cache → Cache) (lookups : Lookups) :
    updateCache update lookups = .ok () ⟨update lookups.cache, lookups.log⟩ :=
  rfl

theorem issue_eq (service : QueryService) (template : Template) (id : Int)
    (lookups : Lookups) :
    service.issue template id lookups =
      match service.answer lookups.log template id with
      | .ok ids => .ok ids ⟨lookups.cache, lookups.log ++ [⟨template.name, id⟩]⟩
      | .error reason =>
        .error (.query template.name id reason)
          ⟨lookups.cache, lookups.log ++ [⟨template.name, id⟩]⟩ := by
  unfold QueryService.issue QueryService.ask
  cases service.answer lookups.log template id <;> rfl

/-! ## The contents of a container -/

/-- Look up what a container contains of one kind. -/
def lookupContents (service : QueryService) (kind : Kind) (container : Target) :
    LookupM Unit := do
  if (kind, container) ∈ (← get).cache.contentsAsked then
    return
  let template ← findTemplate container.kind kind
  updateCache fun cache => cache.markContents kind container
  let ids ← service.issue template container.id
  updateCache fun cache => cache.recordAll container kind ids

/-- A look-up that was made before changes nothing. -/
theorem lookupContents_of_mem {service : QueryService} {kind : Kind} {container : Target}
    {lookups : Lookups} (h : (kind, container) ∈ lookups.cache.contentsAsked) :
    lookupContents service kind container lookups = .ok () lookups := by
  rw [lookupContents, LookupM.get_bind, if_pos h]
  rfl

/-- A look-up without a template leaves no trace. -/
theorem lookupContents_of_undeclared {service : QueryService} {kind : Kind}
    {container : Target} {lookups : Lookups} {failure : Failure}
    (h : (kind, container) ∉ lookups.cache.contentsAsked)
    (ht : lookups.cache.schema.template container.kind kind = .error failure) :
    lookupContents service kind container lookups = .error failure lookups := by
  rw [lookupContents, LookupM.get_bind, if_neg h]
  simp [bind, EStateM.bind, findTemplate_eq, ht]

/-- A look-up whose query fails is noted, and nothing is recorded. -/
theorem lookupContents_of_failed {service : QueryService} {kind : Kind} {container : Target}
    {lookups : Lookups} {template : Template} {reason : String}
    (h : (kind, container) ∉ lookups.cache.contentsAsked)
    (ht : lookups.cache.schema.template container.kind kind = .ok template)
    (ha : service.answer lookups.log template container.id = .error reason) :
    lookupContents service kind container lookups =
      .error (.query template.name container.id reason)
        ⟨lookups.cache.markContents kind container,
          lookups.log ++ [⟨template.name, container.id⟩]⟩ := by
  rw [lookupContents, LookupM.get_bind, if_neg h]
  simp [bind, EStateM.bind, findTemplate_eq, ht, updateCache_eq, issue_eq, ha]

/-- A look-up whose query is answered is noted, and all that was answered is recorded. -/
theorem lookupContents_of_answered {service : QueryService} {kind : Kind}
    {container : Target} {lookups : Lookups} {template : Template} {ids : List Int}
    (h : (kind, container) ∉ lookups.cache.contentsAsked)
    (ht : lookups.cache.schema.template container.kind kind = .ok template)
    (ha : service.answer lookups.log template container.id = .ok ids) :
    lookupContents service kind container lookups =
      .ok ()
        ⟨(lookups.cache.markContents kind container).recordAll container kind ids,
          lookups.log ++ [⟨template.name, container.id⟩]⟩ := by
  rw [lookupContents, LookupM.get_bind, if_neg h]
  simp [bind, EStateM.bind, findTemplate_eq, ht, updateCache_eq, issue_eq, ha]

/-! ## The containers of an entity -/

/-- Look up which containers of one kind an entity is in, and all that they contain of the
kind of that entity. -/
def lookupContainers (service : QueryService) (kind : Kind) (contained : Target) :
    LookupM Unit := do
  if (kind, contained) ∈ (← get).cache.holdersAsked then
    return
  let template ← findTemplate contained.kind kind
  updateCache fun cache => cache.markHolders kind contained
  let ids ← service.issue template contained.id
  ids.forM fun id => lookupContents service contained.kind ⟨kind, id⟩

/-- A look-up that was made before changes nothing. -/
theorem lookupContainers_of_mem {service : QueryService} {kind : Kind} {contained : Target}
    {lookups : Lookups} (h : (kind, contained) ∈ lookups.cache.holdersAsked) :
    lookupContainers service kind contained lookups = .ok () lookups := by
  rw [lookupContainers, LookupM.get_bind, if_pos h]
  rfl

/-- A look-up without a template leaves no trace. -/
theorem lookupContainers_of_undeclared {service : QueryService} {kind : Kind}
    {contained : Target} {lookups : Lookups} {failure : Failure}
    (h : (kind, contained) ∉ lookups.cache.holdersAsked)
    (ht : lookups.cache.schema.template contained.kind kind = .error failure) :
    lookupContainers service kind contained lookups = .error failure lookups := by
  rw [lookupContainers, LookupM.get_bind, if_neg h]
  simp [bind, EStateM.bind, findTemplate_eq, ht]

/-- A look-up whose query fails is noted, and no container is looked up. -/
theorem lookupContainers_of_failed {service : QueryService} {kind : Kind}
    {contained : Target} {lookups : Lookups} {template : Template} {reason : String}
    (h : (kind, contained) ∉ lookups.cache.holdersAsked)
    (ht : lookups.cache.schema.template contained.kind kind = .ok template)
    (ha : service.answer lookups.log template contained.id = .error reason) :
    lookupContainers service kind contained lookups =
      .error (.query template.name contained.id reason)
        ⟨lookups.cache.markHolders kind contained,
          lookups.log ++ [⟨template.name, contained.id⟩]⟩ := by
  rw [lookupContainers, LookupM.get_bind, if_neg h]
  simp [bind, EStateM.bind, findTemplate_eq, ht, updateCache_eq, issue_eq, ha]

/-- A look-up whose query is answered is noted, and the contents of each container that was
answered are looked up. -/
theorem lookupContainers_of_answered {service : QueryService} {kind : Kind}
    {contained : Target} {lookups : Lookups} {template : Template} {ids : List Int}
    (h : (kind, contained) ∉ lookups.cache.holdersAsked)
    (ht : lookups.cache.schema.template contained.kind kind = .ok template)
    (ha : service.answer lookups.log template contained.id = .ok ids) :
    lookupContainers service kind contained lookups =
      (ids.forM fun id => lookupContents service contained.kind ⟨kind, id⟩)
        ⟨lookups.cache.markHolders kind contained,
          lookups.log ++ [⟨template.name, contained.id⟩]⟩ := by
  rw [lookupContainers, LookupM.get_bind, if_neg h]
  simp [bind, EStateM.bind, findTemplate_eq, ht, updateCache_eq, issue_eq, ha]

end FilesetBatch
