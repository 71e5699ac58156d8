import FilesetBatch.Command
import FilesetBatch.Proofs.Json.Reading

/-!
# A batch is read as it was written

Each request is written as an object whose members have different names, and what is written
for them is what the reader asks for. Options are written in the order of their names, which
is the order in which they are held, so setting them one after another gives the same options
(`Options.ofList_toList`).

Whatever is read has identifiers of 64 bits (`Request.isSigned_of_batchOfText?`). A batch with
such identifiers nests three levels deep, far from the limit of the reader, so its compact and
its pretty form are read as the batch, and different batches have different texts
(`Request.written_batch_reads_back`).
-/

namespace FilesetBatch

open Json

variable {request : Request} {requests : List Request} {options : Options}

/-! ## Options -/

namespace Options

theorem setIn_of_lt {name value : String} {entries : List (String × String)}
    (h : ∀ entry ∈ entries, entry.1 < name) :
    setIn name value entries = entries ++ [(name, value)] := by
  induction entries with
  | nil => rfl
  | cons entry rest ih =>
    obtain ⟨hentry, hrest⟩ := List.forall_mem_cons.mp h
    have hlt : ¬ name < entry.1 := String.lt_asymm hentry
    have hne : name ≠ entry.1 := by
      rintro rfl
      exact String.lt_irrefl _ hentry
    rw [setIn, if_neg hlt, if_neg hne, ih hrest, List.cons_append]

theorem toList_foldl_set (entries : List (String × String)) (options : Options)
    (h : (options.toList ++ entries).Pairwise fun a b => a.1 < b.1) :
    (entries.foldl (fun options entry => options.set entry.1 entry.2) options).toList =
      options.toList ++ entries := by
  induction entries generalizing options with
  | nil => simp
  | cons entry entries ih =>
    have hlast : ∀ earlier ∈ options.toList, earlier.1 < entry.1 := fun earlier hmem =>
      (List.pairwise_append.mp h).2.2 earlier hmem entry List.mem_cons_self
    have hset : (options.set entry.1 entry.2).toList = options.toList ++ [entry] :=
      setIn_of_lt hlast
    rw [List.foldl_cons, ih, hset, List.append_assoc, List.singleton_append]
    rw [hset, List.append_assoc, List.singleton_append]
    exact h

theorem eq_of_toList_eq {options' : Options} (h : options.toList = options'.toList) :
    options = options' := by
  cases options
  cases options'
  congr

/-- Options in the order of their names are held as they are listed. -/
theorem ofList_toList (options : Options) : ofList options.toList = options :=
  eq_of_toList_eq (toList_foldl_set options.toList ∅ options.ascending)

end Options

/-! ## Requests -/

namespace Request

/-- The identifiers of the request fit into 64 bits. -/
def IsSigned : Request → Prop
  | delete _ id _ => Word.IsSigned id
  | chgrp _ id groupId _ => Word.IsSigned id ∧ Word.IsSigned groupId
  | other _ => True

instance (request : Request) : Decidable request.IsSigned :=
  match request with
  | delete _ id _ => inferInstanceAs (Decidable (Word.IsSigned id))
  | chgrp _ id groupId _ => inferInstanceAs (Decidable (Word.IsSigned id ∧ Word.IsSigned groupId))
  | other _ => inferInstanceAs (Decidable True)

theorem mapM_map_eq_some {α β : Type} {write : α → β} {read : β → Option α} {xs : List α}
    (h : ∀ x ∈ xs, read (write x) = some x) : (xs.map write).mapM read = some xs := by
  induction xs with
  | nil => rfl
  | cons x xs ih =>
    obtain ⟨hx, hxs⟩ := List.forall_mem_cons.mp h
    rw [List.map_cons, List.mapM_cons, hx, ih hxs]
    rfl

theorem idOf?_integer {id : Int} (h : Word.IsSigned id) : idOf? (.integer id) = some id :=
  Word.signed?_eq_some_iff.mpr ⟨h, rfl⟩

theorem optionsOf?_object (options : Options) :
    optionsOf? (.object (options.toList.map fun entry => (entry.1, .string entry.2))) =
      some options := by
  have hentries : (options.toList.map fun entry => (entry.1, Json.string entry.2)).mapM
      (fun member => (textOf? member.2).map (member.1, ·)) = some options.toList :=
    mapM_map_eq_some fun entry _ => rfl
  rw [optionsOf?, hentries]
  exact congrArg some options.ofList_toList

theorem eq_empty_of_isEmpty (h : options.isEmpty = true) : options = ∅ :=
  Options.eq_of_toList_eq (List.isEmpty_iff.mp h)

theorem required?_append_optionMembers {α : Type} {read : Json → Option α} {name : String}
    (hname : "options" ≠ name) (members : List (String × Json)) (options : Options) :
    required? read name (members ++ optionMembers options) = required? read name members := by
  have hnone : (optionMembers options).filter (fun member => member.1 = name) = [] := by
    unfold optionMembers
    split <;> simp [hname]
  simp only [required?, occurrence, List.filter_append, hnone, List.append_nil]

/-- Options that are left out are none. -/
theorem optionsAmong?_append_optionMembers {members : List (String × Json)}
    (hnone : members.filter (fun member => member.1 = "options") = []) (options : Options) :
    optionsAmong? (members ++ optionMembers options) = some options := by
  simp only [optionsAmong?, occurrence, List.filter_append, hnone, List.nil_append]
  by_cases hempty : options.isEmpty = true
  · simpa [optionMembers, hempty] using (eq_empty_of_isEmpty hempty).symm
  · simp [optionMembers, hempty, optionsOf?_object]

theorem ofJson?_toJson (h : request.IsSigned) : ofJson? request.toJson = some request := by
  cases request with
  | delete typeName id options =>
    rw [toJson, ofJson?, ← List.cons_append, ofMembers?]
    simp only [required?_append_optionMembers, ne_eq, String.reduceEq, not_false_eq_true]
    rw [optionsAmong?_append_optionMembers (by simp)]
    simp [required?, occurrence, tag, textOf?, idOf?_integer h]
  | chgrp typeName id groupId options =>
    rw [toJson, ofJson?, ← List.cons_append, ofMembers?]
    simp only [required?_append_optionMembers, ne_eq, String.reduceEq, not_false_eq_true]
    rw [optionsAmong?_append_optionMembers (by simp)]
    simp [required?, occurrence, tag, textOf?, idOf?_integer h.1, idOf?_integer h.2]
  | other name => simp [toJson, ofJson?, ofMembers?, required?, occurrence, tag, textOf?]

theorem batchOfJson?_batchToJson (h : ∀ request ∈ requests, request.IsSigned) :
    batchOfJson? (batchToJson requests) = some requests :=
  mapM_map_eq_some fun request hmem => ofJson?_toJson (h request hmem)

/-! ## Identifiers that are read -/

theorem isSigned_of_idOf? {value : Json} {id : Int} (h : idOf? value = some id) :
    Word.IsSigned id := by
  cases value with
  | number number =>
    cases number with
    | integer value => exact (Word.signed?_eq_some_iff.mp h).1
    | decimal negative digits exponent => cases h
  | _ => cases h

theorem isSigned_of_required? {name : String} {members : List (String × Json)} {id : Int}
    (h : required? idOf? name members = some id) : Word.IsSigned id := by
  unfold required? at h
  split at h
  · exact isSigned_of_idOf? h
  · cases h

theorem isSigned_of_ofMembers? {members : List (String × Json)}
    (h : ofMembers? members = some request) : request.IsSigned := by
  simp only [ofMembers?, Option.bind_eq_bind, Option.bind_eq_some_iff] at h
  obtain ⟨tag, -, h⟩ := h
  split at h
  · simp only [Option.bind_eq_some_iff] at h
    obtain ⟨typeName, -, id, hid, options, -, h⟩ := h
    obtain rfl := Option.some.inj h
    exact isSigned_of_required? hid
  · simp only [Option.bind_eq_some_iff] at h
    obtain ⟨typeName, -, id, hid, groupId, hgroupId, options, -, h⟩ := h
    obtain rfl := Option.some.inj h
    exact ⟨isSigned_of_required? hid, isSigned_of_required? hgroupId⟩
  · simp only [Option.bind_eq_some_iff] at h
    obtain ⟨name, -, h⟩ := h
    obtain rfl := Option.some.inj h
    trivial
  · cases h

theorem isSigned_of_ofItems? {items : List Json} (h : ofItems? items = some request) :
    request.IsSigned := by
  unfold ofItems? at h
  split at h
  case h_6 => cases h
  all_goals simp only [Option.bind_eq_bind, Option.bind_eq_some_iff] at h
  case h_1 =>
    obtain ⟨typeName, -, id, hid, h⟩ := h
    obtain rfl := Option.some.inj h
    exact isSigned_of_idOf? hid
  case h_2 =>
    obtain ⟨typeName, -, id, hid, options, -, h⟩ := h
    obtain rfl := Option.some.inj h
    exact isSigned_of_idOf? hid
  case h_3 =>
    obtain ⟨typeName, -, id, hid, groupId, hgroupId, h⟩ := h
    obtain rfl := Option.some.inj h
    exact ⟨isSigned_of_idOf? hid, isSigned_of_idOf? hgroupId⟩
  case h_4 =>
    obtain ⟨typeName, -, id, hid, groupId, hgroupId, options, -, h⟩ := h
    obtain rfl := Option.some.inj h
    exact ⟨isSigned_of_idOf? hid, isSigned_of_idOf? hgroupId⟩
  case h_5 =>
    obtain ⟨name, -, h⟩ := h
    obtain rfl := Option.some.inj h
    trivial

theorem isSigned_of_ofJson? {value : Json} (h : ofJson? value = some request) :
    request.IsSigned := by
  cases value with
  | object members => exact isSigned_of_ofMembers? h
  | array items => exact isSigned_of_ofItems? h
  | _ => cases h

theorem isSigned_of_mapM {values : List Json} (h : values.mapM ofJson? = some requests) :
    ∀ request ∈ requests, request.IsSigned := by
  induction values generalizing requests with
  | nil =>
    obtain rfl := Option.some.inj h
    nofun
  | cons value values ih =>
    simp only [List.mapM_cons, Option.bind_eq_bind, Option.bind_eq_some_iff] at h
    obtain ⟨request, hrequest, rest, hrest, h⟩ := h
    obtain rfl := Option.some.inj h
    exact List.forall_mem_cons.mpr ⟨isSigned_of_ofJson? hrequest, ih hrest⟩

/-- A batch that was read has identifiers of 64 bits only. -/
theorem isSigned_of_batchOfText? {text : String}
    (h : Command.batchOfText? text = some requests) : ∀ request ∈ requests, request.IsSigned := by
  obtain ⟨value, -, hvalue⟩ := Option.bind_eq_some_iff.mp h
  cases value with
  | array items => exact isSigned_of_mapM hvalue
  | _ => cases hvalue

/-! ## Texts -/

/-- No member is called as the tag. -/
theorem optionMembers_plain (options : Options) :
    ∀ member ∈ optionMembers options, member.1 ≠ "request" ∧ Plain 1 member.2 := by
  intro member hmem
  unfold optionMembers at hmem
  split at hmem
  · cases hmem
  · obtain rfl := List.mem_singleton.mp hmem
    refine ⟨by simp, .object fun entry hentry => ?_⟩
    obtain ⟨setting, -, rfl⟩ := List.mem_map.mp hentry
    exact .string

theorem exists_members (h : request.IsSigned) : ∃ members,
    request.toJson = .object (("request", .string request.tag) :: members) ∧
      ∀ member ∈ members, member.1 ≠ "request" ∧ Plain 1 member.2 := by
  cases request with
  | delete typeName id options =>
    refine ⟨_, rfl, List.forall_mem_append.mpr ⟨?_, optionMembers_plain options⟩⟩
    simp only [List.forall_mem_cons]
    exact ⟨⟨by decide, .string⟩, ⟨by decide, .integer (.inl h)⟩, nofun⟩
  | chgrp typeName id groupId options =>
    refine ⟨_, rfl, List.forall_mem_append.mpr ⟨?_, optionMembers_plain options⟩⟩
    simp only [List.forall_mem_cons]
    exact ⟨⟨by decide, .string⟩, ⟨by decide, .integer (.inl h.1)⟩,
      ⟨by decide, .integer (.inl h.2)⟩, nofun⟩
  | other name => exact ⟨_, rfl, List.forall_mem_cons.mpr ⟨⟨by simp, .string⟩, nofun⟩⟩

theorem plain_toJson (h : request.IsSigned) : Plain 2 request.toJson := by
  obtain ⟨members, heq, hmembers⟩ := exists_members h
  rw [heq]
  exact .object (List.forall_mem_cons.mpr ⟨.string, fun member hmem => (hmembers member hmem).2⟩)

theorem plain_batchToJson (h : ∀ request ∈ requests, request.IsSigned) :
    Plain 3 (batchToJson requests) := by
  refine .array fun value hvalue => ?_
  obtain ⟨request, hmem, rfl⟩ := List.mem_map.mp hvalue
  exact plain_toJson (h request hmem)

/-- A text that is cut into the lexemes of a batch is read as the batch. -/
theorem batchOfText?_of_lexemes {text : String} (h : ∀ request ∈ requests, request.IsSigned)
    (htext : lexemes text.toList = (batchToJson requests).toLexemes) :
    Command.batchOfText? text = some requests := by
  rw [Command.batchOfText?, parse?_of_lexemes (plain_batchToJson h) (by decide) htext]
  exact batchOfJson?_batchToJson h

/-- A batch is read again from its compact form, from its pretty form and from what is
printed for it, and no other batch has one of these texts. -/
theorem written_batch_reads_back (requests : List Request)
    (h : ∀ request ∈ requests, request.IsSigned) :
    Command.batchOfText? (batchToJson requests).compactText = some requests ∧
    Command.batchOfText? (batchToJson requests).prettyText = some requests ∧
    (∀ images containers,
      Command.batchOfText? (Command.report ⟨requests, images, containers⟩).output =
        some requests) ∧
    ∀ others, (∀ request ∈ others, request.IsSigned) → others ≠ requests →
      (batchToJson others).compactText ≠ (batchToJson requests).compactText ∧
      (batchToJson others).prettyText ≠ (batchToJson requests).prettyText ∧
      (batchToJson others).compactText ≠ (batchToJson requests).prettyText := by
  have hcompact : ∀ {batch}, (∀ request ∈ batch, request.IsSigned) →
      Command.batchOfText? (batchToJson batch).compactText = some batch := fun h =>
    batchOfText?_of_lexemes h (lexemes_compactText (plain_batchToJson h))
  have hpretty : ∀ {batch}, (∀ request ∈ batch, request.IsSigned) →
      Command.batchOfText? (batchToJson batch).prettyText = some batch := fun h =>
    batchOfText?_of_lexemes h (lexemes_prettyText (plain_batchToJson h))
  refine ⟨hcompact h, hpretty h, fun images containers => ?_, fun others hothers hne => ?_⟩
  · exact batchOfText?_of_lexemes h (lexemes_prettyText_newline (plain_batchToJson h))
  · refine ⟨fun htext => hne ?_, fun htext => hne ?_, fun htext => hne ?_⟩
    · exact Option.some.inj ((hcompact hothers).symm.trans (htext ▸ hcompact h))
    · exact Option.some.inj ((hpretty hothers).symm.trans (htext ▸ hpretty h))
    · exact Option.some.inj ((hcompact hothers).symm.trans (htext ▸ hpretty h))

/-- Identifiers at the limits of 64 bits, options that need every way of escaping, an empty
name and a character outside the basic plane. -/
theorem written_batch_reads_back_demonstration :
    let requests := [.delete "/Image" (-9223372036854775808)
        (.ofList [("\"", "\\"), ("\x00\x1f\x7f", "\n\r\t\x08\x0c/")]),
      .chgrp "\u2028" 9223372036854775807 (-1) ∅, .other "", .other "𝄞"]
    Command.batchOfText? (batchToJson requests).compactText = some requests ∧
      Command.batchOfText? (batchToJson requests).prettyText = some requests := by
  intro requests
  have h := written_batch_reads_back requests (by decide)
  exact ⟨h.1, h.2.1⟩

end Request

end FilesetBatch
