import FilesetBatch.Json.Reader
import FilesetBatch.Request.Codec

/-!
# The body of a call

The body of a call is an object with the batch as its member `requests`, or a list with the
batch as its only item. It is read from front to back and no further than to the end of that
value. Two things can be wrong with it: it is no JSON, or it is JSON of another shape; what
is wrong first decides (`BodyFault`). So a request with an unknown tag is of another shape
whatever follows it, while the other members of a request are only looked at once the
request is complete.
-/

namespace FilesetBatch

/-- What is wrong with a body. -/
inductive BodyFault
  /-- It is no JSON. -/
  | malformed
  /-- It is JSON of another shape. -/
  | misshapen
deriving DecidableEq, Repr

namespace Body

/-- What is wrong when a value of another kind is expected: an array or object is at once of
another shape, a scalar if it is one. -/
def unexpected : List Lexeme → BodyFault
  | .openBrace :: _ => .misshapen
  | .openBracket :: _ => .misshapen
  | .null :: _ => .misshapen
  | .bool _ :: _ => .misshapen
  | .string (some _) :: _ => .misshapen
  | .number value :: _ => if value.inRange then .misshapen else .malformed
  | _ => .malformed

/-- The name of the next member and what follows it, or what follows the end of the object. -/
def nextName (isFirst : Bool) : List Lexeme → Except BodyFault (Option String × List Lexeme)
  | .closeBrace :: rest => .ok (none, rest)
  | .string (some name) :: rest =>
    if isFirst then .ok (some name, rest) else .error .malformed
  | .comma :: .string (some name) :: rest =>
    if isFirst then .error .malformed else .ok (some name, rest)
  | _ => .error .malformed

/-- What follows the comma before the next item, if there is one, or the end of the array. -/
def nextItem (isFirst : Bool) : List Lexeme → Except BodyFault (Bool × List Lexeme)
  | .closeBracket :: rest => .ok (false, rest)
  | .comma :: rest => if isFirst then .error .malformed else .ok (true, rest)
  | input => if isFirst then .ok (true, input) else .error .malformed

/-- The value of a member. -/
def readMember (scrutiny : Scrutiny) : List Lexeme → Except BodyFault (Json × List Lexeme)
  | .colon :: rest =>
    match Json.read scrutiny rest with
    | some result => .ok result
    | none => .error .malformed
  | _ => .error .malformed

/-! ## One request -/

/-- What is wrong with the tag at the front, if anything is. -/
def tagFault? : List Lexeme → Option BodyFault
  | .string (some tag) :: _ => if Request.isTag tag then none else some .misshapen
  | input => some (unexpected input)

/-- What is at once wrong with a member of a request: a second tag, or an unknown one. -/
def memberFault? (isTagged : Bool) (name : String) (rest : List Lexeme) : Option BodyFault :=
  if name = "request" then
    if isTagged then some .misshapen
    else
      match rest with
      | .colon :: rest => tagFault? rest
      | _ => some .malformed
  else
    none

/-- So many arrays and objects may be open inside a request of the batch. -/
def depthInRequest : Nat := Json.maxDepth - 3

theorem length_lt_of_nextName {isFirst : Bool} {input rest : List Lexeme}
    {name : Option String} (h : nextName isFirst input = .ok (name, rest)) :
    rest.length < input.length := by
  unfold nextName at h
  split at h
  · simp only [Except.ok.injEq, Prod.mk.injEq] at h
    simp [h.2]
  · split at h
    · simp only [Except.ok.injEq, Prod.mk.injEq] at h
      simp [h.2]
    · simp at h
  · split at h
    · simp at h
    · simp only [Except.ok.injEq, Prod.mk.injEq] at h
      simp only [h.2, List.length_cons]
      omega
  · simp at h

theorem length_lt_of_readMember {scrutiny : Scrutiny} {input rest : List Lexeme}
    {value : Json} (h : readMember scrutiny input = .ok (value, rest)) :
    rest.length < input.length := by
  unfold readMember at h
  split at h
  · split at h
    · rename_i hr
      simp only [Except.ok.injEq] at h
      subst h
      have := Json.length_lt_of_read hr
      simp only [List.length_cons]
      omega
    · simp at h
  · simp at h

/-- The members of a request up to the end of its object. -/
def readMembers (isTagged isFirst : Bool) (input : List Lexeme) :
    Except BodyFault (List (String × Json) × List Lexeme) :=
  match _hn : nextName isFirst input with
  | .error fault => .error fault
  | .ok (none, rest) => .ok ([], rest)
  | .ok (some name, rest) =>
    match memberFault? isTagged name rest with
    | some fault => .error fault
    | none =>
      match _hv : readMember (.full depthInRequest) rest with
      | .error fault => .error fault
      | .ok (value, rest) =>
        match readMembers (isTagged || name = "request") false rest with
        | .error fault => .error fault
        | .ok (members, rest) => .ok ((name, value) :: members, rest)
termination_by input.length
decreasing_by
  have := length_lt_of_nextName _hn
  have := length_lt_of_readMember _hv
  omega

/-- The request that a complete value stands for. -/
def decode (value : Json) (rest : List Lexeme) : Except BodyFault (Request × List Lexeme) :=
  match Request.ofJson? value with
  | some request => .ok (request, rest)
  | none => .error .misshapen

/-- A request at the front, and what follows it. -/
def readRequest (input : List Lexeme) : Except BodyFault (Request × List Lexeme) :=
  match input with
  | .openBrace :: rest =>
    match readMembers false true rest with
    | .error fault => .error fault
    | .ok (members, rest) => decode (.object members) rest
  | .openBracket :: .closeBracket :: _ => .error .misshapen
  | .openBracket :: rest =>
    match tagFault? rest with
    | some fault => .error fault
    | none =>
      match Json.read (.full (depthInRequest + 1)) input with
      | some (value, rest) => decode value rest
      | none => .error .malformed
  | input => .error (unexpected input)

/-! ## The batch -/

theorem length_lt_of_readMembers {isTagged isFirst : Bool} {input rest : List Lexeme}
    {members : List (String × Json)}
    (h : readMembers isTagged isFirst input = .ok (members, rest)) :
    rest.length < input.length := by
  fun_induction readMembers isTagged isFirst input generalizing members rest with
  | case1 => simp at h
  | case2 =>
    rename_i hn
    simp only [Except.ok.injEq, Prod.mk.injEq] at h
    exact h.2 ▸ length_lt_of_nextName hn
  | case3 => simp at h
  | case4 => simp at h
  | case5 => simp at h
  | case6 =>
    rename_i hn _ _ _ hv _ _ hrec ih
    simp only [Except.ok.injEq, Prod.mk.injEq] at h
    have := length_lt_of_nextName hn
    have := length_lt_of_readMember hv
    have := ih hrec
    rw [← h.2]
    omega

theorem length_lt_of_readRequest {input rest : List Lexeme} {request : Request}
    (h : readRequest input = .ok (request, rest)) : rest.length < input.length := by
  have hdecode {value : Json} {after : List Lexeme}
      (hd : decode value after = .ok (request, rest)) : rest = after := by
    unfold decode at hd
    split at hd
    · simp only [Except.ok.injEq, Prod.mk.injEq] at hd
      exact hd.2.symm
    · simp at hd
  unfold readRequest at h
  split at h
  · split at h
    · simp at h
    · rename_i hm
      have := length_lt_of_readMembers hm
      rw [hdecode h]
      simp only [List.length_cons]
      omega
  · simp at h
  · split at h
    · simp at h
    · split at h
      · rename_i hr
        rw [hdecode h]
        exact Json.length_lt_of_read hr
      · simp at h
  · simp at h

theorem length_le_of_nextItem {isFirst more : Bool} {input rest : List Lexeme}
    (h : nextItem isFirst input = .ok (more, rest)) : rest.length ≤ input.length := by
  unfold nextItem at h
  split at h
  · simp only [Except.ok.injEq, Prod.mk.injEq] at h
    simp [h.2]
  · split at h
    · simp at h
    · simp only [Except.ok.injEq, Prod.mk.injEq] at h
      simp [h.2]
  · split at h
    · simp only [Except.ok.injEq, Prod.mk.injEq] at h
      simp [h.2]
    · simp at h

/-- The requests up to the end of their array, and what follows it. -/
def readItems (isFirst : Bool) (input : List Lexeme) :
    Except BodyFault (List Request × List Lexeme) :=
  match _hn : nextItem isFirst input with
  | .error fault => .error fault
  | .ok (false, rest) => .ok ([], rest)
  | .ok (true, rest) =>
    match _hr : readRequest rest with
    | .error fault => .error fault
    | .ok (request, rest) =>
      match readItems false rest with
      | .error fault => .error fault
      | .ok (requests, rest) => .ok (request :: requests, rest)
termination_by input.length
decreasing_by
  have := length_le_of_nextItem _hn
  have := length_lt_of_readRequest _hr
  omega

/-- The batch at the front, and what follows it. -/
def readBatch : List Lexeme → Except BodyFault (List Request × List Lexeme)
  | .openBracket :: rest => readItems true rest
  | input => .error (unexpected input)

/-! ## The body -/

theorem length_le_of_readItems {isFirst : Bool} {input rest : List Lexeme}
    {requests : List Request} (h : readItems isFirst input = .ok (requests, rest)) :
    rest.length ≤ input.length := by
  fun_induction readItems isFirst input generalizing requests rest with
  | case1 => simp at h
  | case2 =>
    rename_i hn
    simp only [Except.ok.injEq, Prod.mk.injEq] at h
    exact h.2 ▸ length_le_of_nextItem hn
  | case3 => simp at h
  | case4 => simp at h
  | case5 =>
    rename_i hn _ _ hr _ _ hrec ih
    simp only [Except.ok.injEq, Prod.mk.injEq] at h
    have := length_le_of_nextItem hn
    have := length_lt_of_readRequest hr
    have := ih hrec
    rw [← h.2]
    omega

theorem length_lt_of_readBatch {input rest : List Lexeme} {requests : List Request}
    (h : readBatch input = .ok (requests, rest)) : rest.length < input.length := by
  unfold readBatch at h
  split at h
  · have := length_le_of_readItems h
    simp only [List.length_cons]
    omega
  · simp at h

/-- The batch in the members of the body, which may have been found already. -/
def readFields (found : Option (List Request)) (isFirst : Bool) (input : List Lexeme) :
    Except BodyFault (List Request) :=
  match _hn : nextName isFirst input with
  | .error fault => .error fault
  | .ok (none, _) =>
    match found with
    | some requests => .ok requests
    | none => .error .misshapen
  | .ok (some name, rest) =>
    if name = "requests" then
      if found.isSome then .error .misshapen
      else
        match rest with
        | .colon :: rest =>
          match _hb : readBatch rest with
          | .error fault => .error fault
          | .ok (requests, rest) => readFields (some requests) false rest
        | _ => .error .malformed
    else
      match _hv : readMember .form rest with
      | .error fault => .error fault
      | .ok (_, rest) => readFields found false rest
termination_by input.length
decreasing_by
  · have := length_lt_of_nextName _hn
    have := length_lt_of_readBatch _hb
    simp only [List.length_cons] at *
    omega
  · have := length_lt_of_nextName _hn
    have := length_lt_of_readMember _hv
    omega

/-- The batch in a body that is cut into lexemes. -/
def readBody : List Lexeme → Except BodyFault (List Request)
  | .openBrace :: rest => readFields none true rest
  | .openBracket :: .closeBracket :: _ => .error .misshapen
  | .openBracket :: rest =>
    match readBatch rest with
    | .error fault => .error fault
    | .ok (requests, .closeBracket :: _) => .ok requests
    | .ok _ => .error .malformed
  | input => .error (unexpected input)

/-- The batch in a body. -/
def parse (body : String) : Except BodyFault (List Request) :=
  readBody (lexemes body.toList)

end Body

end FilesetBatch
