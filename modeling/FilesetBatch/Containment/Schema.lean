import FilesetBatch.Failure

/-!
# The schema of containment

Entities contain others along six edges between kinds (`hierarchy`). The schema says with
which query each edge is followed: a template takes the number of one entity and answers
with the numbers of those that it contains, or of those that contain it. A schema is built
from a list of templates; of two templates between the same kinds the later counts
(`Schema.template?`). The standard schema has a template for each edge in both directions.
-/

namespace FilesetBatch

/-- Entities of the first kind contain entities of the second. -/
structure Edge where
  container : Kind
  contained : Kind
deriving DecidableEq, Repr

/-- Where containment leads, each kind above those that it leads to: whatever lies under an
entity is found by following these edges once each, in this order. -/
def hierarchy : List Edge :=
  [⟨.project, .dataset⟩, ⟨.dataset, .image⟩, ⟨.screen, .plate⟩, ⟨.plate, .well⟩,
    ⟨.well, .image⟩, ⟨.fileset, .image⟩]

/-- Whether a query answers with what an entity contains or with what contains it. -/
inductive Direction
  | contained
  | container
deriving DecidableEq, Repr

/-- A query on one entity of kind `given` that answers with entities of kind `found`. -/
structure Template where
  name : String
  given : Kind
  found : Kind
  direction : Direction
  sql : String
deriving DecidableEq, Repr

namespace Template

/-- The edge that a template follows, down or up. -/
def edge (template : Template) : Edge :=
  match template.direction with
  | .contained => ⟨template.given, template.found⟩
  | .container => ⟨template.found, template.given⟩

/-- The twelve standard templates: those that lead down, then those that lead up. -/
def standard : List Template :=
  [⟨"project_datasets", .project, .dataset, .contained,
      "SELECT child FROM projectdatasetlink WHERE parent = $1"⟩,
    ⟨"dataset_images", .dataset, .image, .contained,
      "SELECT child FROM datasetimagelink WHERE parent = $1"⟩,
    ⟨"screen_plates", .screen, .plate, .contained,
      "SELECT child FROM screenplatelink WHERE parent = $1"⟩,
    ⟨"plate_wells", .plate, .well, .contained,
      "SELECT id FROM well WHERE plate = $1"⟩,
    ⟨"well_images", .well, .image, .contained,
      "SELECT image FROM wellsample WHERE well = $1"⟩,
    ⟨"fileset_images", .fileset, .image, .contained,
      "SELECT id FROM image WHERE fileset = $1"⟩,
    ⟨"image_fileset", .image, .fileset, .container,
      "SELECT fileset FROM image WHERE fileset IS NOT NULL AND id = $1"⟩,
    ⟨"image_wells", .image, .well, .container,
      "SELECT well FROM wellsample WHERE image = $1"⟩,
    ⟨"well_plate", .well, .plate, .container,
      "SELECT plate FROM well WHERE id = $1"⟩,
    ⟨"plate_screens", .plate, .screen, .container,
      "SELECT parent FROM screenplatelink WHERE child = $1"⟩,
    ⟨"image_datasets", .image, .dataset, .container,
      "SELECT parent FROM datasetimagelink WHERE child = $1"⟩,
    ⟨"dataset_projects", .dataset, .project, .container,
      "SELECT parent FROM projectdatasetlink WHERE child = $1"⟩]

end Template

/-- The templates that may be used. -/
structure Schema where
  templates : List Template
deriving DecidableEq, Repr

namespace Schema

/-- The schema that these templates declare. -/
def ofTemplates (templates : List Template) : Schema := ⟨templates⟩

/-- The schema of the standard templates. -/
def standard : Schema := ofTemplates Template.standard

/-- The template between two kinds, the last that was declared. -/
def template? (schema : Schema) (given found : Kind) : Option Template :=
  schema.templates.reverse.find? fun template =>
    template.given = given ∧ template.found = found

/-- The template between two kinds, or the failure that there is none. -/
def template (schema : Schema) (given found : Kind) : Except Failure Template :=
  match schema.template? given found with
  | some template => .ok template
  | none => .error (.undeclaredEdge given found)

/-- The templates in use, in the order of the kinds they start from and then of those they
lead to. -/
def declared (schema : Schema) : List Template :=
  Kind.all.flatMap fun given => Kind.all.filterMap fun found => schema.template? given found

theorem given_of_template? {schema : Schema} {given found : Kind} {template : Template}
    (h : schema.template? given found = some template) : template.given = given :=
  (by simpa using List.find?_some h : template.given = given ∧ template.found = found).1

theorem found_of_template? {schema : Schema} {given found : Kind} {template : Template}
    (h : schema.template? given found = some template) : template.found = found :=
  (by simpa using List.find?_some h : template.given = given ∧ template.found = found).2

theorem template_eq_ok_iff {schema : Schema} {given found : Kind} {template : Template} :
    schema.template given found = .ok template ↔ schema.template? given found = some template := by
  unfold Schema.template
  cases schema.template? given found <;> simp

theorem template_eq_error_iff {schema : Schema} {given found : Kind} {failure : Failure} :
    schema.template given found = .error failure ↔
      schema.template? given found = none ∧ failure = .undeclaredEdge given found := by
  unfold Schema.template
  cases schema.template? given found <;> simp [eq_comm]

end Schema

end FilesetBatch
