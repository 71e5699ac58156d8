import FilesetBatch.Containment.LinkSet
import FilesetBatch.Containment.QueryService

/-!
# A store of links

A `LinkStore` holds which entity directly contains which, as a set of links. It answers a
template with the numbers at the other end of the links that it follows, in ascending order
and without repetition; what it answers depends on the set of links only, not on the order
in which they were made. Single templates can be made to fail. The store keeps a log of the
queries it was asked (`LinkStore.projection`).
-/

namespace FilesetBatch

/-- Links between entities, with the templates that fail and the queries asked so far. -/
structure LinkStore where
  links : LinkSet
  failing : List String
  issued : QueryLog
deriving DecidableEq

namespace LinkStore

/-- The store without links. -/
def empty : LinkStore := ⟨∅, [], []⟩

/-! ## Filling the store -/

/-- Record that one entity directly contains another. -/
def link (store : LinkStore) (container contained : Target) : LinkStore :=
  { store with links := store.links.insert ⟨container, contained⟩ }

/-- Record that an entity directly contains each of these. -/
def linkAll (store : LinkStore) (container : Target) (contained : List Target) : LinkStore :=
  contained.foldl (fun store target => store.link container target) store

/-- The number of links. -/
def linkCount (store : LinkStore) : Nat := store.links.size

/-- Let every later query of this template fail. -/
def failOn (store : LinkStore) (template : String) : LinkStore :=
  { store with failing := store.failing.insert template }

/-- Forget which queries were asked. -/
def resetQueries (store : LinkStore) : LinkStore :=
  { store with issued := [] }

/-! ## Answers -/

/-- What an entity directly contains. -/
def contents (store : LinkStore) (container : Target) : TargetSet :=
  store.links.contents container

/-- What directly contains an entity. -/
def holders (store : LinkStore) (contained : Target) : TargetSet :=
  store.links.holders contained

/-- The entities that a template leads to from the entity with this number. -/
def related (store : LinkStore) (template : Template) (id : Int) : TargetSet :=
  match template.direction with
  | .contained => (store.contents ⟨template.given, id⟩).ofKind template.found
  | .container => (store.holders ⟨template.given, id⟩).ofKind template.found

/-- What the store answers a template with. -/
def answer (store : LinkStore) (template : Template) (id : Int) : Except String (List Int) :=
  if template.name ∈ store.failing then
    .error ("query " ++ template.name ++ " unavailable")
  else
    .ok ((store.related template id).toList.map (·.id))

/-- The service that answers from the links of the store. -/
def service (store : LinkStore) : QueryService :=
  .ofAnswers store.answer

/-- Ask the store a query, which it logs. -/
def projection (template : Template) (id : Int) : EStateM String LinkStore (List Int) :=
  fun store =>
    let asked := { store with issued := store.issued ++ [⟨template.name, id⟩] }
    match store.answer template id with
    | .ok ids => .ok ids asked
    | .error reason => .error reason asked

/-- To ask the store is to ask its service behind the log of the store : the log grows, and
nothing else changes. -/
theorem projection_eq (store : LinkStore) (template : Template) (id : Int) :
    projection template id store =
      match store.service.ask template id store.issued with
      | .ok ids log => .ok ids { store with issued := log }
      | .error reason log => .error reason { store with issued := log } := by
  simp only [projection, QueryService.ask, service, QueryService.ofAnswers]
  cases store.answer template id <;> rfl

/-! ## What the answers show -/

@[simp] theorem mem_links_link {store : LinkStore} {container contained : Target}
    {link : Link} :
    link ∈ (store.link container contained).links ↔
      link = ⟨container, contained⟩ ∨ link ∈ store.links := by
  simp [LinkStore.link]

@[simp] theorem mem_contents {store : LinkStore} {container contained : Target} :
    contained ∈ store.contents container ↔ ⟨container, contained⟩ ∈ store.links :=
  LinkSet.mem_contents

@[simp] theorem mem_holders {store : LinkStore} {container contained : Target} :
    container ∈ store.holders contained ↔ ⟨container, contained⟩ ∈ store.links :=
  LinkSet.mem_holders

end LinkStore

/-! ## A small demonstration hierarchy -/

namespace LinkStore

/-- The store with a small demonstration hierarchy. Project 1 holds dataset 11 with images 101
and 102 and dataset 12 with images 103, 104 and 105. Fileset 1001 holds images 101, 102 and
103 and so is split across the datasets; fileset 1003 holds image 105 alone, and image 104
is in no fileset. Screen 2 holds plate 21 with wells 211 and 212, whose images 201 and 202
make up fileset 1002. -/
def loadDemonstration (store : LinkStore) : LinkStore :=
  store
    |>.linkAll ⟨.project, 1⟩ [⟨.dataset, 11⟩, ⟨.dataset, 12⟩]
    |>.linkAll ⟨.dataset, 11⟩ [.image 101, .image 102]
    |>.linkAll ⟨.dataset, 12⟩ [.image 103, .image 104, .image 105]
    |>.linkAll (.fileset 1001) [.image 101, .image 102, .image 103]
    |>.link (.fileset 1003) (.image 105)
    |>.link ⟨.screen, 2⟩ ⟨.plate, 21⟩
    |>.linkAll ⟨.plate, 21⟩ [⟨.well, 211⟩, ⟨.well, 212⟩]
    |>.link ⟨.well, 211⟩ (.image 201)
    |>.link ⟨.well, 212⟩ (.image 202)
    |>.linkAll (.fileset 1002) [.image 201, .image 202]

end LinkStore

end FilesetBatch
