import Mathlib.Data.List.Induction
import Mathlib.Data.List.Nodup
import FilesetBatch.Proofs.Request.Codec

/-!
# Which values are requests

The tag of a request tells which fields it has (`Request.fieldsOf`). What these fields hold
makes up the request (`Request.MadeOf`), and a value can give it in two forms : as an object
with one member for the tag and at most one for each field (`Request.InObject`), or as an array
of the tag and the values of the fields in their order (`Request.InArray`). Options may be left
out in either form, and of an option that is set twice the last value counts, which is to say
that the options are known by the value of each name (`Options.eq_of_get?_eq`).

An array is read as the object with its values for members (`Request.ofItems?_eq`), so
`Request.ofJson?_iff_and_heeds` follows from what is read of objects : a value is read as a
request exactly if it gives it in one of the two forms, and members that are neither the tag
nor a field of it, as well as the order of all members, change nothing about what is read.
-/

namespace FilesetBatch

/-! ## Options by the values of their names -/

namespace Options

variable {options options' : Options} {name value : String} {entries : List (String × String)}

theorem nodup_names (options : Options) : (options.toList.map Prod.fst).Nodup := by
  refine List.pairwise_map.mpr (options.ascending.imp fun hlt heq => ?_)
  rw [heq] at hlt
  exact String.lt_irrefl _ hlt

theorem mem_toList_iff : (name, value) ∈ options.toList ↔ options.get? name = some value := by
  rw [get?, Option.map_eq_some_iff]
  constructor
  · intro hmem
    obtain ⟨entry, hentry⟩ : ∃ entry, options.toList.find? (fun entry => entry.1 = name) =
        some entry := by
      rw [← Option.isSome_iff_exists, List.find?_isSome]
      exact ⟨_, hmem, by simp⟩
    have hname : entry.1 = name := by simpa using List.find?_some hentry
    obtain rfl : entry = (name, value) :=
      List.inj_on_of_nodup_map options.nodup_names (List.mem_of_find?_eq_some hentry) hmem hname
    exact ⟨_, hentry, rfl⟩
  · rintro ⟨entry, hentry, rfl⟩
    obtain rfl : entry.1 = name := by simpa using List.find?_some hentry
    exact List.mem_of_find?_eq_some hentry

/-- Options that give every name the same value are equal. -/
theorem eq_of_get?_eq (h : ∀ name, options.get? name = options'.get? name) :
    options = options' := by
  have hperm : options.toList.Perm options'.toList := by
    refine (List.perm_ext_iff_of_nodup options.nodup_names.of_map
      options'.nodup_names.of_map).mpr fun entry => ?_
    rw [mem_toList_iff, mem_toList_iff, h]
  exact eq_of_toList_eq (hperm.eq_of_pairwise
    (fun a b _ _ hab hba => absurd hba (String.lt_asymm hab)) options.ascending options'.ascending)

/-- Of a name that is set several times the last value counts. -/
theorem get?_ofList (entries : List (String × String)) (name : String) :
    (ofList entries).get? name = entries.reverse.lookup name := by
  induction entries using List.reverseRecOn with
  | nil => rfl
  | append_singleton entries entry ih =>
    rw [ofList, List.foldl_append, List.reverse_append]
    change ((ofList entries).set entry.1 entry.2).get? name = _
    rw [get?_set, ih]
    rw [List.reverse_singleton, List.singleton_append, List.lookup_cons]
    by_cases h : entry.1 = name
    · simp [h]
    · simp [h, beq_false_of_ne (Ne.symm h)]

theorem ofList_eq_iff : ofList entries = options ↔
    ∀ name, options.get? name = entries.reverse.lookup name := by
  constructor
  · rintro rfl name
    exact get?_ofList entries name
  · exact fun h => eq_of_get?_eq fun name => (get?_ofList entries name).trans (h name).symm

end Options

/-! ## Members of an object -/

/-- Members of an object, or values by the names of fields. -/
abbrev Members := List (String × Json)

namespace Members

/-- How often there is a member of this name. -/
def count (members : Members) (name : String) : Nat := (members.map Prod.fst).count name

variable {members : Members} {name : String} {value : Json}

theorem count_eq_length_filter :
    members.count name = (members.filter fun member => member.1 = name).length := by
  rw [count, List.count_eq_countP, List.countP_map, List.countP_eq_length_filter]
  exact congrArg List.length (List.filter_congr fun member _ => beq_eq_decide ..)

/-- All that the reader asks about a name is settled by the members of that name. -/
theorem occurrence_cases (name : String) (members : Members) :
    (Json.occurrence name members = .absent ∧ members.count name = 0) ∨
    (∃ value, Json.occurrence name members = .once value ∧ members.count name = 1 ∧
      ∀ value', (name, value') ∈ members ↔ value' = value) ∨
    (Json.occurrence name members = .repeated ∧ 2 ≤ members.count name) := by
  have hmem : ∀ value, (name, value) ∈ members ↔
      (name, value) ∈ members.filter fun member => member.1 = name := by simp
  have hname : ∀ member ∈ members.filter (fun member => member.1 = name), member.1 = name :=
    fun member h => by simpa using (List.mem_filter.mp h).2
  simp only [count_eq_length_filter, Json.occurrence, hmem]
  generalize members.filter (fun member => member.1 = name) = named at hname
  cases named with
  | nil => exact .inl ⟨rfl, rfl⟩
  | cons first rest =>
    cases rest with
    | nil =>
      obtain ⟨name', value⟩ := first
      obtain rfl : name' = name := hname _ List.mem_cons_self
      exact .inr (.inl ⟨value, rfl, rfl, fun value' => by simp⟩)
    | cons second rest => exact .inr (.inr ⟨rfl, by simp⟩)

theorem count_pos (h : (name, value) ∈ members) : 0 < members.count name :=
  List.count_pos_iff.mpr (List.mem_map_of_mem h)

end Members

namespace Request

variable {request : Request} {members members' given given' : Members} {name field : String}
  {value : Json} {values items : List Json} {text : String} {id : Int} {options : Options}

/-! ## What makes up a request -/

/-- The fields of the requests with this tag, in their order. -/
def fieldsOf : String → List String
  | "delete" => ["type", "id", "options"]
  | "chgrp" => ["type", "id", "group_id", "options"]
  | "other" => ["name"]
  | _ => []

/-- A field holds an identifier. -/
def HasId (given : Members) (field : String) (id : Int) : Prop :=
  (field, .integer id) ∈ given ∧ Word.IsSigned id

/-- The field for the options is left out and there are none, or it holds an object of strings
in which the last value of each name is the one that counts. -/
def HasOptions (given : Members) (options : Options) : Prop :=
  ((∀ value, ("options", value) ∉ given) ∧ options = ∅) ∨
    ∃ entries : List (String × String),
      ("options", .object (entries.map fun entry => (entry.1, .string entry.2))) ∈ given ∧
        ∀ name, options.get? name = entries.reverse.lookup name

/-- These values of fields make up the request. -/
def MadeOf (given : Members) : Request → Prop
  | delete typeName id options =>
    ("type", .string typeName) ∈ given ∧ HasId given "id" id ∧ HasOptions given options
  | chgrp typeName id groupId options =>
    ("type", .string typeName) ∈ given ∧ HasId given "id" id ∧ HasId given "group_id" groupId ∧
      HasOptions given options
  | other name => ("name", .string name) ∈ given

/-- The members of an object give the request. -/
structure InObject (members : Members) (request : Request) : Prop where
  tagged : ("request", .string request.tag) ∈ members
  one_tag : members.count "request" = 1
  fields_once : ∀ field ∈ fieldsOf request.tag, members.count field ≤ 1
  made : request.MadeOf members

/-- The items of an array give the request : its tag, and then the values of its fields in
their order, as many as there are. -/
def InArray (items : List Json) (request : Request) : Prop :=
  ∃ values, items = .string request.tag :: values ∧
    values.length ≤ (fieldsOf request.tag).length ∧
    request.MadeOf ((fieldsOf request.tag).zip values)

/-- Only the fields of a request are asked for what makes it up. -/
theorem madeOf_congr (h : ∀ field ∈ fieldsOf request.tag, ∀ value,
    (field, value) ∈ given ↔ (field, value) ∈ given') :
    request.MadeOf given ↔ request.MadeOf given' := by
  cases request <;>
    simp only [tag, fieldsOf, List.forall_mem_cons] at h <;>
    simp [MadeOf, HasId, HasOptions, h]

/-! ## Reading single values -/

theorem textOf?_eq_some_iff : textOf? value = some text ↔ value = .string text := by
  cases value <;> simp [textOf?]

theorem idOf?_eq_some_iff :
    idOf? value = some id ↔ value = .integer id ∧ Word.IsSigned id := by
  cases value with
  | number number =>
    cases number with
    | integer value =>
      simp [idOf?, Number.toInt64?, Json.integer, Word.signed?_eq_some_iff, and_comm]
    | decimal negative digits exponent => simp [idOf?, Number.toInt64?, Json.integer]
  | _ => simp [idOf?, Json.integer]

theorem mapM_textOf?_eq_some_iff {entries : List (String × String)} :
    members.mapM (fun member => (textOf? member.2).map (member.1, ·)) = some entries ↔
      members = entries.map fun entry => (entry.1, .string entry.2) := by
  constructor
  · intro h
    induction members generalizing entries with
    | nil =>
      obtain rfl := Option.some.inj h
      rfl
    | cons member members ih =>
      simp only [List.mapM_cons, Option.bind_eq_bind, Option.bind_eq_some_iff,
        Option.map_eq_some_iff] at h
      obtain ⟨entry, ⟨text, htext, rfl⟩, rest, hrest, h⟩ := h
      obtain rfl := Option.some.inj h
      rw [List.map_cons, ← ih hrest, ← textOf?_eq_some_iff.mp htext]
  · rintro rfl
    exact mapM_map_eq_some fun entry _ => rfl

theorem optionsOf?_eq_some_iff : optionsOf? value = some options ↔
    ∃ entries : List (String × String),
      value = .object (entries.map fun entry => (entry.1, .string entry.2)) ∧
        ∀ name, options.get? name = entries.reverse.lookup name := by
  cases value with
  | object members =>
    simp only [optionsOf?, Option.bind_eq_bind, Option.bind_eq_some_iff,
      mapM_textOf?_eq_some_iff, Option.pure_def, Option.some.injEq, Options.ofList_eq_iff,
      Json.object.injEq]
  | _ => simp [optionsOf?]

/-! ## Reading members -/

theorem required?_eq_some_iff {α : Type} {read : Json → Option α} {a : α} :
    required? read name members = some a ↔
      members.count name ≤ 1 ∧ ∃ value, (name, value) ∈ members ∧ read value = some a := by
  obtain ⟨hnone, hcount⟩ | ⟨value, hone, hcount, hvalue⟩ | ⟨hmore, hcount⟩ :=
    Members.occurrence_cases name members
  · simp only [required?, hnone, reduceCtorEq, false_iff]
    rintro ⟨-, value, hmem, -⟩
    exact absurd (Members.count_pos hmem) (by omega)
  · simp [required?, hone, hcount, hvalue]
  · simp only [required?, hmore, reduceCtorEq, false_iff]
    omega

theorem optionsAmong?_eq_some_iff : optionsAmong? members = some options ↔
    members.count "options" ≤ 1 ∧ HasOptions members options := by
  obtain ⟨hnone, hcount⟩ | ⟨value, hone, hcount, hvalue⟩ | ⟨hmore, hcount⟩ :=
    Members.occurrence_cases "options" members
  · have hleft : ∀ value, ("options", value) ∉ members := fun value hmem =>
      absurd (Members.count_pos hmem) (by omega)
    simp [optionsAmong?, hnone, hcount, HasOptions, hleft, eq_comm]
  · simp only [optionsAmong?, hone, hcount, HasOptions, hvalue, optionsOf?_eq_some_iff,
      Nat.le_refl, true_and]
    rw [or_iff_right fun h => h.1 value rfl]
    exact exists_congr fun _ => and_congr_left' eq_comm
  · simp only [optionsAmong?, hmore, reduceCtorEq, false_iff]
    omega

theorem required?_text_iff : required? textOf? name members = some text ↔
    members.count name ≤ 1 ∧ (name, .string text) ∈ members := by
  simp [required?_eq_some_iff, textOf?_eq_some_iff]

theorem required?_id_iff : required? idOf? name members = some id ↔
    members.count name ≤ 1 ∧ HasId members name id := by
  simp [required?_eq_some_iff, idOf?_eq_some_iff, HasId]

/-- An object is read as a request if its members for the tag and for the fields are. -/
theorem ofMembers?_eq_some_iff_required? : ofMembers? members = some request ↔
    required? textOf? "request" members = some request.tag ∧
      match request with
      | delete typeName id options =>
        required? textOf? "type" members = some typeName ∧
          required? idOf? "id" members = some id ∧ optionsAmong? members = some options
      | chgrp typeName id groupId options =>
        required? textOf? "type" members = some typeName ∧
          required? idOf? "id" members = some id ∧
          required? idOf? "group_id" members = some groupId ∧
          optionsAmong? members = some options
      | other name => required? textOf? "name" members = some name := by
  unfold ofMembers?
  cases required? textOf? "request" members with
  | none => simp
  | some text =>
    simp only [Option.bind_eq_bind, Option.bind_some, Option.some.injEq]
    split <;> cases request <;> simp_all [Option.bind_eq_some_iff, tag]

theorem inObject_iff : request.InObject members ↔
    (members.count "request" ≤ 1 ∧ ("request", .string request.tag) ∈ members) ∧
      (∀ field ∈ fieldsOf request.tag, members.count field ≤ 1) ∧ request.MadeOf members := by
  constructor
  · exact fun h => ⟨⟨Nat.le_of_eq h.one_tag, h.tagged⟩, h.fields_once, h.made⟩
  · rintro ⟨⟨hcount, htag⟩, hfields, hmade⟩
    exact ⟨htag, Nat.le_antisymm hcount (Members.count_pos htag), hfields, hmade⟩

/-- An object is read as the request that its members give. -/
theorem ofMembers?_eq_some_iff : ofMembers? members = some request ↔
    request.InObject members := by
  rw [ofMembers?_eq_some_iff_required?, inObject_iff, required?_text_iff]
  refine and_congr_right fun _ => ?_
  cases request <;>
    simp only [tag, fieldsOf, MadeOf, required?_text_iff, required?_id_iff,
      optionsAmong?_eq_some_iff, List.forall_mem_cons] <;>
    tauto

/-! ## Reading items -/

/-- An array is read as the object that has its values for members. -/
theorem ofItems?_eq (text : String) (values : List Json) :
    ofItems? (.string text :: values) =
      if values.length ≤ (fieldsOf text).length then
        ofMembers? (("request", .string text) :: (fieldsOf text).zip values)
      else none := by
  unfold fieldsOf
  split
  · rcases values with _ | ⟨typeName, _ | ⟨id, _ | ⟨options, _ | ⟨more, values⟩⟩⟩⟩ <;>
      simp [ofItems?, ofMembers?, required?, optionsAmong?, Json.occurrence, textOf?]
  · rcases values with
      _ | ⟨typeName, _ | ⟨id, _ | ⟨groupId, _ | ⟨options, _ | ⟨more, values⟩⟩⟩⟩⟩ <;>
      simp [ofItems?, ofMembers?, required?, optionsAmong?, Json.occurrence, textOf?]
  · rcases values with _ | ⟨name, _ | ⟨more, values⟩⟩ <;>
      simp [ofItems?, ofMembers?, required?, Json.occurrence, textOf?]
  · rename_i hdelete hchgrp hother
    have hitems : ofItems? (.string text :: values) = none := by
      unfold ofItems?
      split <;> simp_all
    have hmembers : ofMembers? [("request", .string text)] = none := by
      simp [ofMembers?, required?, Json.occurrence, textOf?]
    rw [hitems, List.zip_nil_left, hmembers, ite_self]

theorem nodup_fieldsOf (text : String) : ("request" :: fieldsOf text).Nodup := by
  unfold fieldsOf
  split <;> decide

theorem map_fst_zip_sublist (names : List String) (values : List Json) :
    ((names.zip values).map Prod.fst).Sublist names := by
  induction names generalizing values with
  | nil => exact .slnil
  | cons name names ih =>
    cases values with
    | nil => exact List.nil_sublist _
    | cons value values => exact (ih values).cons_cons name

/-- Values in the order of the fields are members none of which comes twice. -/
theorem inObject_cons_zip_iff :
    request.InObject (("request", .string text) :: (fieldsOf text).zip values) ↔
      text = request.tag ∧ request.MadeOf ((fieldsOf text).zip values) := by
  have hnodup := nodup_fieldsOf text
  have honce : ∀ name,
      Members.count (("request", .string text) :: (fieldsOf text).zip values) name ≤ 1 :=
    List.nodup_iff_count_le_one.mp
      (hnodup.sublist ((map_fst_zip_sublist (fieldsOf text) values).cons_cons _))
  have htag : ("request", .string request.tag) ∈
      ("request", Json.string text) :: (fieldsOf text).zip values ↔ text = request.tag := by
    rw [List.mem_cons, or_iff_left fun h => (List.nodup_cons.mp hnodup).1 (List.of_mem_zip h).1]
    simp [eq_comm]
  rw [inObject_iff, and_iff_right fun field _ => honce field, and_iff_right (honce _), htag]
  refine and_congr_right fun heq => madeOf_congr fun field hfield value => ?_
  have hne : field ≠ "request" := by
    rintro rfl
    exact (List.nodup_cons.mp hnodup).1 (heq ▸ hfield)
  simp [hne]

/-- An array is read as the request that its items give. -/
theorem ofItems?_eq_some_iff : ofItems? items = some request ↔ request.InArray items := by
  constructor
  · intro h
    obtain ⟨text, values, rfl⟩ : ∃ text values, items = .string text :: values := by
      unfold ofItems? at h
      split at h
      case h_6 => cases h
      all_goals exact ⟨_, _, rfl⟩
    rw [ofItems?_eq] at h
    split at h
    · rename_i hlength
      obtain ⟨rfl, hmade⟩ := inObject_cons_zip_iff.mp (ofMembers?_eq_some_iff.mp h)
      exact ⟨values, rfl, hlength, hmade⟩
    · cases h
  · rintro ⟨values, rfl, hlength, hmade⟩
    rw [ofItems?_eq, if_pos hlength]
    exact ofMembers?_eq_some_iff.mpr (inObject_cons_zip_iff.mpr ⟨rfl, hmade⟩)

/-! ## Members that are not looked at -/

/-- The names of members that are looked at : the tag's, and those of the fields that belong
to it. -/
def heeded (members : Members) : List String :=
  "request" :: members.flatMap fun member =>
    match member with
    | ("request", .string text) => fieldsOf text
    | _ => []

theorem mem_heeded (h : ("request", .string text) ∈ members)
    (hname : name ∈ "request" :: fieldsOf text) : name ∈ heeded members := by
  rcases List.mem_cons.mp hname with rfl | hfield
  · exact List.mem_cons_self
  · exact List.mem_cons_of_mem _ (List.mem_flatMap.mpr ⟨_, h, hfield⟩)

/-- With the same members of the names that are looked at, an object gives the same request. -/
theorem InObject.congr {names : List String} (h : request.InObject members)
    (hnames : ∀ name ∈ "request" :: fieldsOf request.tag, name ∈ names)
    (hsame : (members.filter (·.1 ∈ names)).Perm (members'.filter (·.1 ∈ names))) :
    request.InObject members' := by
  have hmem : ∀ name ∈ names, ∀ value, (name, value) ∈ members ↔ (name, value) ∈ members' := by
    intro name hname value
    simpa [hname] using hsame.mem_iff (a := (name, value))
  have hcount : ∀ name ∈ names, members.count name = members'.count name := by
    intro name hname
    have hfilter : ∀ members : Members, members.count name =
        Members.count (members.filter (·.1 ∈ names)) name := by
      intro members
      rw [Members.count_eq_length_filter, Members.count_eq_length_filter, List.filter_filter]
      refine congrArg List.length (List.filter_congr fun member _ => ?_)
      by_cases heq : member.1 = name <;> simp [heq, hname]
    rw [hfilter members, hfilter members']
    exact (hsame.map Prod.fst).count_eq name
  obtain ⟨htag, hfields⟩ := List.forall_mem_cons.mp hnames
  exact ⟨(hmem _ htag _).mp h.tagged, (hcount _ htag).symm.trans h.one_tag,
    fun field hfield => hcount field (hfields field hfield) ▸ h.fields_once field hfield,
    (madeOf_congr fun field hfield => hmem field (hfields field hfield)).mp h.made⟩

/-- A value is read as a request exactly if it gives it as an object or as an array. Members
that are not looked at, and the order of all members, make no difference to what is read, be
it a request or none. -/
theorem ofJson?_iff_and_heeds :
    (∀ (value : Json) (request : Request), ofJson? value = some request ↔
      (∃ members, value = .object members ∧ request.InObject members) ∨
        ∃ items, value = .array items ∧ request.InArray items) ∧
    ∀ members members' : Members,
      (members.filter (·.1 ∈ heeded members)).Perm (members'.filter (·.1 ∈ heeded members)) →
        ofJson? (.object members) = ofJson? (.object members') := by
  refine ⟨fun value request => ?_, fun members members' hsame => ?_⟩
  · cases value <;> simp [ofJson?, ofMembers?_eq_some_iff, ofItems?_eq_some_iff]
  · refine Option.ext fun request => ?_
    rw [ofJson?, ofJson?, ofMembers?_eq_some_iff, ofMembers?_eq_some_iff]
    constructor
    · exact fun h => h.congr (fun name => mem_heeded h.tagged) hsame
    · intro h
      have htagged : ("request", .string request.tag) ∈ members := by
        have hmem := hsame.mem_iff (a := ("request", .string request.tag))
        simpa [heeded, h.tagged] using hmem
      exact h.congr (fun name => mem_heeded htagged) hsame.symm

/-- A request to delete an image, with its members in another order and a group set twice :
nothing looks at the group of a request to delete. -/
theorem ofJson?_heeds_demonstration :
    let members : Members :=
      [("request", .string "delete"), ("type", .string "/Image"), ("id", .integer 8)]
    let members' : Members :=
      [("type", .string "/Image"), ("group_id", .null), ("request", .string "delete"),
        ("id", .integer 8), ("group_id", .integer 3)]
    (members.filter (·.1 ∈ heeded members)).Perm (members'.filter (·.1 ∈ heeded members)) ∧
      ofJson? (.object members') = some (.delete "/Image" 8 ∅) := by
  intro members members'
  have hsame : (members.filter (·.1 ∈ heeded members)).Perm
      (members'.filter (·.1 ∈ heeded members)) := .swap _ _ _
  have hread : ofJson? (.object members) = some (.delete "/Image" 8 ∅) := by rfl
  exact ⟨hsame, (ofJson?_iff_and_heeds.2 members members' hsame).symm.trans hread⟩

end Request

end FilesetBatch
