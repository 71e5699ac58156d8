import FilesetBatch.Proofs.Request.Codec
import FilesetBatch.Web.Body

/-!
# A batch in a body is read as it was written

A body is read from front to back, request by request and member by member, and it is given
up as soon as something is wrong with it. Nothing is wrong with a written batch : the tag of a
request comes first and is one that is known, no other member has its name, and the values
are nested less deeply than is allowed inside a request. So each request is read as it was
written (`Body.readRequest_toLexemes`), and so is the batch (`Body.parse_of_lexemes`).
-/

namespace FilesetBatch

open Json

variable {isTagged isFirst : Bool} {input rest behind : List Lexeme} {name text : String}
  {value : Json} {members : List (String × Json)} {request : Request} {requests : List Request}

namespace Body

/-! ## Requests -/

theorem readMember_toLexemes {limit depth : Nat} (h : Plain depth value) (hdepth : depth ≤ limit)
    (rest : List Lexeme) :
    readMember (.full limit) (.colon :: (value.toLexemes ++ rest)) = .ok (value, rest) := by
  rw [readMember, read_toLexemes h hdepth]

/-- A member with which nothing is wrong is read, and then those behind it. -/
theorem readMembers_of_member (hname : nextName isFirst input = .ok (some name, behind))
    (hfault : memberFault? isTagged name behind = none)
    (hvalue : readMember (.full depthInRequest) behind = .ok (value, rest)) :
    readMembers isTagged isFirst input =
      match readMembers (isTagged || name = "request") false rest with
      | .error fault => .error fault
      | .ok (members, rest) => .ok ((name, value) :: members, rest) := by
  rw [readMembers]
  split
  · simp_all
  · simp_all
  · rename_i heq
    rw [hname] at heq
    cases heq
    rw [hfault]
    simp only
    split
    · simp_all
    · rename_i heq
      rw [hvalue] at heq
      cases heq
      rfl

theorem readMembers_of_end (hname : nextName isFirst input = .ok (none, rest)) :
    readMembers isTagged isFirst input = .ok ([], rest) := by
  rw [readMembers]
  split <;> simp_all

/-- The members behind the tag. -/
theorem readMembers_memberLexemes
    (h : ∀ member ∈ members, member.1 ≠ "request" ∧ Plain 1 member.2) (rest : List Lexeme) :
    readMembers isTagged false (memberLexemes members ++ .closeBrace :: rest) =
      .ok (members, rest) := by
  induction members generalizing isTagged with
  | nil => exact readMembers_of_end rfl
  | cons member members ih =>
    obtain ⟨name, value⟩ := member
    obtain ⟨⟨hname, hvalue⟩, hmembers⟩ := List.forall_mem_cons.mp h
    simp only [memberLexemes, List.cons_append, List.append_assoc]
    rw [readMembers_of_member rfl (if_neg hname) (readMember_toLexemes hvalue (by decide) _),
      ih hmembers]

theorem memberFault?_tag (request : Request) (rest : List Lexeme) :
    memberFault? false "request" (.colon :: .string (some request.tag) :: rest) = none := by
  cases request <;> rfl

/-- A written request is read, and what follows it is left alone. -/
theorem readRequest_toLexemes (h : request.IsSigned) (rest : List Lexeme) :
    readRequest (request.toJson.toLexemes ++ rest) = .ok (request, rest) := by
  obtain ⟨members, heq, hmembers⟩ := Request.exists_members h
  have hplain : Plain 1 (.string request.tag) := .string
  have htag : readMembers false true (.string (some "request") :: .colon ::
      (toLexemes (.string request.tag) ++ (memberLexemes members ++ .closeBrace :: rest))) =
        .ok (("request", .string request.tag) :: members, rest) := by
    rw [readMembers_of_member rfl (memberFault?_tag request _)
      (readMember_toLexemes hplain (by decide) _),
      readMembers_memberLexemes hmembers]
  have hdecode := Request.ofJson?_toJson h
  rw [heq] at hdecode ⊢
  simp only [toLexemes, List.cons_append, List.append_assoc, List.nil_append] at htag ⊢
  rw [readRequest, htag]
  simp only [decode, hdecode]

/-! ## Batches -/

theorem readItems_of_item (hnext : nextItem isFirst input = .ok (true, behind))
    (hrequest : readRequest behind = .ok (request, rest)) :
    readItems isFirst input =
      match readItems false rest with
      | .error fault => .error fault
      | .ok (requests, rest) => .ok (request :: requests, rest) := by
  rw [readItems]
  split
  · simp_all
  · simp_all
  · rename_i heq
    rw [hnext] at heq
    cases heq
    split
    · simp_all
    · rename_i heq
      rw [hrequest] at heq
      cases heq
      rfl

theorem readItems_of_end (hnext : nextItem isFirst input = .ok (false, rest)) :
    readItems isFirst input = .ok ([], rest) := by
  rw [readItems]
  split <;> simp_all

/-- The requests behind the first one. -/
theorem readItems_itemLexemes (h : ∀ request ∈ requests, request.IsSigned) (rest : List Lexeme) :
    readItems false (itemLexemes (requests.map Request.toJson) ++ .closeBracket :: rest) =
      .ok (requests, rest) := by
  induction requests with
  | nil => exact readItems_of_end rfl
  | cons request requests ih =>
    obtain ⟨hrequest, hrequests⟩ := List.forall_mem_cons.mp h
    simp only [List.map_cons, itemLexemes, List.cons_append, List.append_assoc]
    rw [readItems_of_item rfl (readRequest_toLexemes hrequest _), ih hrequests]

theorem readBatch_toLexemes (h : ∀ request ∈ requests, request.IsSigned) (rest : List Lexeme) :
    readBatch ((Request.batchToJson requests).toLexemes ++ rest) = .ok (requests, rest) := by
  cases requests with
  | nil => exact readItems_of_end rfl
  | cons request requests =>
    obtain ⟨hrequest, hrequests⟩ := List.forall_mem_cons.mp h
    obtain ⟨members, heq, -⟩ := Request.exists_members hrequest
    have hread := readRequest_toLexemes hrequest
      (itemLexemes (requests.map Request.toJson) ++ .closeBracket :: rest)
    have hfirst : ∀ behind, nextItem true (request.toJson.toLexemes ++ behind) =
        .ok (true, request.toJson.toLexemes ++ behind) := by
      intro behind
      rw [heq]
      rfl
    simp only [Request.batchToJson, List.map_cons, toLexemes, List.cons_append,
      List.append_assoc, List.nil_append, readBatch]
    rw [readItems_of_item (hfirst _) hread, readItems_itemLexemes hrequests]

/-! ## Bodies -/

theorem readFields_of_requests
    (hname : nextName isFirst input = .ok (some "requests", .colon :: behind))
    (hbatch : readBatch behind = .ok (requests, rest)) :
    readFields none isFirst input = readFields (some requests) false rest := by
  rw [readFields.eq_def none isFirst input]
  split
  · simp_all
  · simp_all
  · rename_i heq
    rw [hname] at heq
    cases heq
    simp only [if_true, Option.isSome_none, Bool.false_eq_true, if_false]
    split
    · simp_all
    · rename_i heq
      rw [hbatch] at heq
      cases heq
      rfl

theorem readFields_of_end (hname : nextName isFirst input = .ok (none, rest)) :
    readFields (some requests) isFirst input = .ok requests := by
  rw [readFields]
  split <;> simp_all

/-- A batch as the body of a call. -/
def ofBatch (requests : List Request) : Json :=
  .object [("requests", Request.batchToJson requests)]

theorem plain_ofBatch (h : ∀ request ∈ requests, request.IsSigned) : Plain 4 (ofBatch requests) :=
  .object (List.forall_mem_cons.mpr ⟨Request.plain_batchToJson h, nofun⟩)

/-- A body that is cut into the lexemes of a batch is read as the batch. -/
theorem parse_of_lexemes (h : ∀ request ∈ requests, request.IsSigned)
    (htext : lexemes text.toList = (ofBatch requests).toLexemes) :
    parse text = .ok requests := by
  rw [parse, htext, ofBatch]
  simp only [toLexemes, memberLexemes, List.append_nil, List.cons_append, readBody]
  rw [readFields_of_requests rfl (readBatch_toLexemes h [.closeBrace])]
  exact readFields_of_end rfl

end Body

end FilesetBatch
