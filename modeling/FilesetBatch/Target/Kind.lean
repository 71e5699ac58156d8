/-!
# Kinds of entity

The seven kinds of entity that a request can name and a query can answer with. They are
listed once, in `Kind.all`, and that order is the order of the kinds everywhere else:
`Kind.rank` is the position in it. A request names a kind with a leading slash
(`Kind.externalName`), messages name it without one (`Kind.name`).
-/

namespace FilesetBatch

/-- What an entity is. -/
inductive Kind
  | image
  | fileset
  | dataset
  | project
  | well
  | plate
  | screen
deriving DecidableEq, Repr

namespace Kind

/-- All kinds, the smallest first. -/
def all : List Kind :=
  [image, fileset, dataset, project, well, plate, screen]

/-- The position of a kind in `all`. -/
def rank : Kind → Nat
  | image => 0
  | fileset => 1
  | dataset => 2
  | project => 3
  | well => 4
  | plate => 5
  | screen => 6

/-- The name of a kind in messages. -/
def name : Kind → String
  | image => "Image"
  | fileset => "Fileset"
  | dataset => "Dataset"
  | project => "Project"
  | well => "Well"
  | plate => "Plate"
  | screen => "Screen"

/-- The name of a kind in requests. -/
def externalName (kind : Kind) : String :=
  "/" ++ kind.name

/-- The kind that requests call by this name, if there is one. -/
def ofExternalName? (name : String) : Option Kind :=
  all.find? fun kind => kind.externalName = name

theorem all_rank (kind : Kind) : all[kind.rank]? = some kind := by
  cases kind <;> rfl

/-- Kinds of one rank are equal. -/
theorem rank_injective {a b : Kind} (h : a.rank = b.rank) : a = b := by
  have := all_rank a
  rw [h, all_rank b] at this
  exact (Option.some.inj this).symm

/-- The name of a kind in requests is read back as that kind. -/
@[simp] theorem ofExternalName?_externalName (kind : Kind) :
    ofExternalName? kind.externalName = some kind := by
  cases kind <;> decide

theorem ofExternalName?_eq_some_iff {name : String} {kind : Kind} :
    ofExternalName? name = some kind ↔ name = kind.externalName := by
  constructor
  · intro h
    exact (by simpa using List.find?_some h : kind.externalName = name).symm
  · rintro rfl
    exact ofExternalName?_externalName kind

end Kind

end FilesetBatch
