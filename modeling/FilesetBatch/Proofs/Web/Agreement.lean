import FilesetBatch.Proofs.Answers.LogBlind
import FilesetBatch.Proofs.Store.InRange
import FilesetBatch.Proofs.Web.Body
import FilesetBatch.Web.WebService

/-!
# The service, the command and the library agree

A run of the library on a store ends with a prepared batch, with a broken rule or with a
failed query. The service tells just that to a call with the batch (`Reply.Tells`), whatever
calls came before : they leave nothing behind but their queries, and the store answers
without regard to these (`WebService.answer_after`, `WebService.logAfter_eq`). The command, on
a file with the batch and with a store in memory, prints the prepared batch or fails
(`Command.Tells`).

On the way in and on the way out a batch is written and read again. A written batch is read
as it was (`Body.parse_of_lexemes`, `Request.batchOfText?_of_lexemes`), and this holds of the
prepared one too, because its numbers still fit into 64 bits (`isSigned_of_run`).
-/

namespace FilesetBatch

open Json

variable {answers : Answers} {store : LinkStore} {operations : List Operation}
  {requests : List Request} {prepared : Prepared} {failure : Failure} {start : QueryLog}
  {call : Call} {text : String} {stamp : Stamp}

/-! ## What is told -/

/-- A count in the body of an answer. -/
def countOf? : Json → Option Nat
  | .number (.integer value) => if 0 ≤ value then some value.toNat else none
  | _ => none

/-- The prepared batch in the body of an answer. -/
def Prepared.ofJson? : Json → Option Prepared
  | .object members => do
    return ⟨← Request.required? Request.batchOfJson? "requests" members,
      ← Request.required? countOf? "image_count" members,
      ← Request.required? countOf? "container_count" members⟩
  | _ => none

/-- The value that the text of the body of an answer is. -/
def Reply.read? (stamp : Stamp) (reply : Reply) : Option Json :=
  (reply.body? stamp).bind fun body => Json.parse? body.compactText

/-- The answer tells how the run ended. -/
def Reply.Tells (stamp : Stamp) (reply : Reply) : Except Failure Prepared → Prop
  | .ok prepared =>
    reply.status = 200 ∧ (reply.read? stamp).bind Prepared.ofJson? = some prepared
  | .error (.query template id reason) =>
    reply.status = 500 ∧ reply.read? stamp =
      some (.object [("error",
        .string ((Failure.query template id reason).message ++ ": " ++ reason))])
  | .error failure =>
    reply.status = 422 ∧ reply.read? stamp = some (.object [("error", .string failure.message)])

/-- The command prints the prepared batch, or it prints nothing and fails, as the run ended. -/
def Command.Tells (ended : Except Mishap Report) : Except Failure Prepared → Prop
  | .ok prepared =>
    batchOfText? (printed ended) = some prepared.requests ∧ exitCode ended = 0
  | .error _ => printed ended = "" ∧ exitCode ended ≠ 0

/-- The log once these calls are answered, one after another. -/
def WebService.logAfter (web : WebService) (calls : List Call) (log : QueryLog) : QueryLog :=
  calls.foldl (fun log call => (web.answer call log).2) log

/-! ## Calls -/

/-- The answer to a call whose run ended so. -/
def Reply.ofResult : Except Failure Prepared → Reply
  | .ok prepared => .prepared prepared
  | .error failure => .failed failure

namespace WebService

variable {web : WebService}

/-- A call with a batch is answered by a run. -/
theorem prepareBody_of_parse (hjson : call.contentType.any MediaType.isJson = true)
    (hsize : call.body.utf8ByteSize ≤ bodyLimit) (hparse : Body.parse call.body = .ok requests)
    (log : QueryLog) :
    web.prepareBody call log =
      (.ofResult (run web.queries web.operations requests log).result,
        (run web.queries web.operations requests log).log) := by
  rw [prepareBody, hjson, hparse]
  simp only [Bool.not_true, Bool.false_eq_true, if_false, if_neg (Nat.not_lt.mpr hsize)]
  obtain ⟨result, log'⟩ := run web.queries web.operations requests log
  cases result <;> rfl

/-- A call about a batch is turned away without a query, or it is answered by a run. -/
theorem prepareBody_cases (web : WebService) (call : Call) :
    (∃ status, ∀ log, web.prepareBody call log = (.rejected status, log)) ∨
      ∃ requests, ∀ log, web.prepareBody call log =
        (.ofResult (run web.queries web.operations requests log).result,
          (run web.queries web.operations requests log).log) := by
  by_cases hjson : call.contentType.any MediaType.isJson = true
  · by_cases hsize : bodyLimit < call.body.utf8ByteSize
    · exact .inl ⟨413, fun log => by simp [prepareBody, hjson, hsize]⟩
    · cases hparse : Body.parse call.body with
      | ok requests =>
        exact .inr ⟨requests, prepareBody_of_parse hjson (Nat.not_lt.mp hsize) hparse⟩
      | error fault =>
        cases fault with
        | malformed => exact .inl ⟨400, fun log => by simp [prepareBody, hjson, hsize, hparse]⟩
        | misshapen => exact .inl ⟨422, fun log => by simp [prepareBody, hjson, hsize, hparse]⟩
  · exact .inl ⟨415, fun log => by simp [prepareBody, hjson]⟩

/-- No call is answered otherwise for the queries that were put before it. -/
theorem answer_after (operations : List Operation) (call : Call) (start : QueryLog) :
    let web : WebService := ⟨.ofAnswers answers, operations⟩
    web.answer call start = ((web.answer call []).1, start ++ (web.answer call []).2) := by
  intro web
  have hbody : web.prepareBody call start =
      ((web.prepareBody call []).1, start ++ (web.prepareBody call []).2) := by
    rcases web.prepareBody_cases call with ⟨status, heq⟩ | ⟨requests, heq⟩
    · rw [heq, heq, List.append_nil]
    · rw [heq, heq, run_ofAnswers_after]
  unfold answer
  split <;> first | exact hbody | rw [List.append_nil]

/-- After a row of calls the log is longer by what each of them asks on its own. -/
theorem logAfter_eq (operations : List Operation) (calls : List Call) (start : QueryLog) :
    let web : WebService := ⟨.ofAnswers answers, operations⟩
    web.logAfter calls start = start ++ calls.flatMap fun call => (web.answer call []).2 := by
  intro web
  induction calls generalizing start with
  | nil => exact (List.append_nil start).symm
  | cons call calls ih =>
    have hcall : (web.answer call start).2 = start ++ (web.answer call []).2 :=
      congrArg Prod.snd (answer_after operations call start)
    rw [logAfter, List.foldl_cons, ← logAfter, ih, hcall, List.append_assoc, List.flatMap_cons]

/-- A call with a written batch is answered as the run on it ends, and puts its queries. -/
theorem answer_batch (operations : List Operation)
    (hrequests : ∀ request ∈ requests, request.IsSigned)
    (htext : text = (Body.ofBatch requests).compactText ∨
      text = (Body.ofBatch requests).prettyText)
    (hsize : text.utf8ByteSize ≤ bodyLimit) (log : QueryLog) :
    let outcome := run (.ofAnswers answers) operations requests []
    let web : WebService := ⟨.ofAnswers answers, operations⟩
    web.answer ⟨"POST", "/preprocess", some "application/json", text⟩ log =
      (.ofResult outcome.result, log ++ outcome.log) := by
  intro outcome web
  have hparse : Body.parse text = .ok requests := by
    have hplain := Body.plain_ofBatch hrequests
    rcases htext with rfl | rfl
    · exact Body.parse_of_lexemes hrequests (lexemes_compactText hplain)
    · exact Body.parse_of_lexemes hrequests (lexemes_prettyText hplain)
  have hpath : Address.path? "/preprocess" = some "/preprocess" := by decide +kernel
  have hjson : (some "application/json").any MediaType.isJson = true := by decide +kernel
  have hbody : web.prepareBody ⟨"POST", "/preprocess", some "application/json", text⟩ log = _ :=
    prepareBody_of_parse hjson hsize hparse log
  simp only [answer, hpath, hbody, web, run_ofAnswers_after operations requests log]
  rfl

end WebService

/-! ## What a client reads -/

theorem Reply.read?_of_plain {reply : Reply} {body : Json} {depth : Nat}
    (hbody : reply.body? stamp = some body) (h : Plain depth body) (hdepth : depth ≤ maxDepth) :
    reply.read? stamp = some body := by
  rw [read?, hbody]
  exact parse?_of_lexemes h hdepth (lexemes_compactText h)

theorem countOf?_integer (count : Nat) : countOf? (.integer count) = some count := by
  simp [countOf?, Json.integer]

/-- A prepared batch whose numbers fit into 64 bits is read from the answer. -/
theorem Reply.tells_prepared (hrequests : ∀ request ∈ prepared.requests, request.IsSigned)
    (hcounts : prepared.imageCount ≤ Word.maxUnsigned ∧
      prepared.containerCount ≤ Word.maxUnsigned) :
    (Reply.prepared prepared).Tells stamp (.ok prepared) := by
  have hcount : ∀ {count : Nat}, count ≤ Word.maxUnsigned → Plain 3 (.integer count) :=
    fun h => .integer (.inr ⟨by omega, by omega⟩)
  have hplain : Plain 4 (.object [("run_id", .string stamp.runId),
      ("requests", Request.batchToJson prepared.requests),
      ("image_count", .integer prepared.imageCount),
      ("container_count", .integer prepared.containerCount),
      ("processed_at", .string stamp.time)]) := by
    refine .object ?_
    simp only [List.forall_mem_cons]
    exact ⟨.string, Request.plain_batchToJson hrequests, hcount hcounts.1, hcount hcounts.2,
      .string, nofun⟩
  refine ⟨rfl, ?_⟩
  rw [Reply.read?_of_plain rfl hplain (by decide)]
  simp [Prepared.ofJson?, Request.required?, occurrence, countOf?_integer,
    Request.batchOfJson?_batchToJson hrequests]

theorem Reply.read?_failed (failure : Failure) : (Reply.failed failure).read? stamp =
    some (.object [("error", .string failure.fullMessage)]) :=
  have hplain : Plain 1 (.object [("error", .string failure.fullMessage)]) :=
    .object (List.forall_mem_cons.mpr ⟨.string, nofun⟩)
  Reply.read?_of_plain rfl hplain (by decide)

theorem Reply.tells_failed (failure : Failure) :
    (Reply.failed failure).Tells stamp (.error failure) := by
  cases failure <;> exact ⟨rfl, Reply.read?_failed _⟩

/-- The answer to a call whose run was on a store tells how the run ended. -/
theorem Reply.tells_of_run (hstore : store.InRange)
    (hrequests : ∀ request ∈ requests, request.IsSigned) :
    let outcome := FilesetBatch.run store.service operations requests []
    (Reply.ofResult outcome.result).Tells stamp outcome.result := by
  intro outcome
  cases hresult : outcome.result with
  | ok prepared =>
    obtain ⟨himages, hcontainers⟩ := counts_le_of_run hresult
    exact Reply.tells_prepared (isSigned_of_run hstore hrequests hresult)
      ⟨Nat.le_trans himages hstore.count, Nat.le_trans hcontainers hstore.count⟩
  | error failure => exact Reply.tells_failed failure

/-! ## The command -/

/-- With a store in memory, a run that succeeds is printed and one that fails is not. -/
theorem Command.run_tells {path : String} {config : Config} (hstore : store.InRange)
    (hbackend : config.store.backend = .memory)
    (hseed : store = if config.store.loadSeedData then LinkStore.empty.loadDemonstration
      else .empty)
    (htext : batchOfText? text = some requests) :
    Command.Tells (Command.run (some ⟨path, some text⟩) (some config))
      (FilesetBatch.run store.service config.operations requests []).result := by
  have hread : readBatch (some ⟨path, some text⟩) = .ok requests := by
    simp only [readBatch, htext]
  have hfound : storeFor config = .ok store := by
    rw [storeFor, hbackend, hseed]
  have hended : Command.run (some ⟨path, some text⟩) (some config) =
      match (FilesetBatch.run store.service config.operations requests []).result with
      | .ok batch => .ok (report batch)
      | .error failure => .error (.aborted failure) := by
    rw [Command.run, hread]
    change Except.bind (storeFor config) _ = _
    rw [hfound]
    rfl
  rw [hended]
  cases hresult : (FilesetBatch.run store.service config.operations requests []).result with
  | ok prepared =>
    have hprepared := isSigned_of_run hstore (Request.isSigned_of_batchOfText? htext) hresult
    exact ⟨(Request.written_batch_reads_back prepared.requests hprepared).2.2.1 _ _, rfl⟩
  | error failure =>
    have hfails : (1 : UInt32) ≠ 0 := by decide
    exact ⟨rfl, hfails⟩

/-! ## The three ways -/

/-- A batch is prepared alike on the three ways. The service answers a call with it as the
run of the library on the store ends, and puts the queries of that run. Any call is answered
alike and puts the same queries, whatever calls came before. With a store in memory, the
command on a file with the batch ends as the run does. -/
theorem service_command_library_agree (store : LinkStore) (operations : List Operation)
    (requests : List Request) (hstore : store.InRange)
    (hrequests : ∀ request ∈ requests, request.IsSigned) :
    let outcome := run store.service operations requests []
    let web : WebService := ⟨store.service, operations⟩
    (∀ text, (text = (Body.ofBatch requests).compactText ∨
        text = (Body.ofBatch requests).prettyText) →
      text.utf8ByteSize ≤ WebService.bodyLimit → ∀ stamp earlier start,
        let call : Call := ⟨"POST", "/preprocess", some "application/json", text⟩
        let before := web.logAfter earlier start
        let answered := web.answer call before
        answered.1.Tells stamp outcome.result ∧ answered.2 = before ++ outcome.log) ∧
    (∀ call earlier start,
      let before := web.logAfter earlier start
      before = start ++ (earlier.flatMap fun call => (web.answer call []).2) ∧
        web.answer call before = ((web.answer call []).1, before ++ (web.answer call []).2)) ∧
    ∀ path text config, config.store.backend = .memory →
      store = (if config.store.loadSeedData then LinkStore.empty.loadDemonstration else .empty) →
      config.operations = operations → Command.batchOfText? text = some requests →
        Command.Tells (Command.run (some ⟨path, some text⟩) (some config)) outcome.result := by
  intro outcome web
  refine ⟨fun text htext hsize stamp earlier start => ?_,
    fun call earlier start => ⟨WebService.logAfter_eq operations earlier start,
      WebService.answer_after operations call _⟩,
    fun path text config hbackend hseed hoperations htext => ?_⟩
  · intro call before answered
    have hanswered : answered = (.ofResult outcome.result, before ++ outcome.log) :=
      WebService.answer_batch operations hrequests htext hsize before
    rw [hanswered]
    exact ⟨Reply.tells_of_run hstore hrequests, rfl⟩
  · subst hoperations
    exact Command.run_tells hstore hbackend hseed htext

/-- To delete dataset 11 and image 103 of the demonstration : the service, asked before for
its health and for the same batch, tells that fileset 1001 is to be deleted and then the
dataset, after the same five queries; the command, on a file with the batch, tells it too. -/
theorem service_command_library_agree_demonstration :
    let store := LinkStore.empty.loadDemonstration
    let requests := [.deleteTarget ⟨.dataset, 11⟩, .deleteTarget (.image 103)]
    let prepared : Prepared :=
      ⟨[.deleteTarget (.fileset 1001), .deleteTarget ⟨.dataset, 11⟩], 3, 2⟩
    let queries : List Query := [⟨"dataset_images", 11⟩, ⟨"image_fileset", 101⟩,
      ⟨"fileset_images", 1001⟩, ⟨"image_fileset", 102⟩, ⟨"image_fileset", 103⟩]
    let web : WebService := ⟨store.service, [.delete]⟩
    let health : Call := ⟨"GET", "/health", none, ""⟩
    let call : Call :=
      ⟨"POST", "/preprocess", some "application/json", (Body.ofBatch requests).compactText⟩
    let answered := web.answer call (web.logAfter [health, call] [])
    let config : Config :=
      { Config.standard with store := ⟨.memory, true⟩, operations := [.delete] }
    let file : Command.BatchFile :=
      ⟨"batch.json", some (Request.batchToJson requests).prettyText⟩
    (∀ stamp, answered.1.Tells stamp (.ok prepared)) ∧ answered.2 = queries ++ queries ∧
      Command.Tells (Command.run (some file) (some config)) (.ok prepared) := by
  intro store requests prepared queries web health call answered config file
  have hsigned : ∀ request ∈ requests, request.IsSigned := by decide
  have hresult : (run store.service [.delete] requests []).result = .ok prepared := by
    decide +kernel
  have hlog : (run store.service [.delete] requests []).log = queries := by decide +kernel
  obtain ⟨hservice, -, hcommand⟩ := service_command_library_agree store [.delete] requests
    ⟨by decide +kernel, by decide +kernel⟩ hsigned
  rw [hresult] at hservice hcommand
  rw [hlog] at hservice
  have hsize : (Body.ofBatch requests).compactText.utf8ByteSize ≤ WebService.bodyLimit := by
    decide +kernel
  have hcall : ∀ earlier stamp, (web.answer call (web.logAfter earlier [])).1.Tells stamp
      (.ok prepared) ∧ (web.answer call (web.logAfter earlier [])).2 =
        web.logAfter earlier [] ++ queries :=
    fun earlier stamp => hservice _ (.inl rfl) hsize stamp earlier []
  have hbefore : web.logAfter [health, call] [] = queries := by
    have hhealth : web.logAfter [health] [] = [] := by decide +kernel
    have hlast : web.logAfter [health, call] [] = (web.answer call (web.logAfter [health] [])).2 :=
      rfl
    rw [hlast, (hcall [health] ⟨"", ""⟩).2, hhealth, List.nil_append]
  refine ⟨fun stamp => (hcall [health, call] stamp).1, ?_, ?_⟩
  · exact (hcall [health, call] ⟨"", ""⟩).2.trans (by rw [hbefore])
  · exact hcommand _ _ config rfl rfl rfl (Request.batchOfText?_of_lexemes hsigned
      (lexemes_prettyText (Request.plain_batchToJson hsigned)))

end FilesetBatch
