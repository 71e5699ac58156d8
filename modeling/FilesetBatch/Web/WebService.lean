import FilesetBatch.Batch.Prepared
import FilesetBatch.Web.Address
import FilesetBatch.Web.Body
import FilesetBatch.Web.MediaType

/-!
# The web service

The service answers two calls: it tells that it is healthy, and it prepares the batch in the
body of a call. Every call is answered from the query service and the operations alone; the
calls before it leave nothing behind but the log of queries (`WebService.answer`).
-/

namespace FilesetBatch

/-- A call to the service. -/
structure Call where
  method : String
  address : String
  contentType : Option String
  body : String

/-- What a call is answered with. -/
inductive Reply
  /-- The call is not taken, for the reason in its status. -/
  | rejected (status : Nat)
  /-- The service is healthy; the answer may have to go without a body. -/
  | healthy (withBody : Bool)
  | prepared (batch : Prepared)
  | failed (failure : Failure)

/-- The name of a run and the time of an answer, which the answer itself does not fix. -/
structure Stamp where
  runId : String
  time : String

namespace Reply

/-- The status of an answer: a broken rule is the fault of the batch and its data, a failed
query is not. -/
def status : Reply → Nat
  | rejected status => status
  | healthy _ => 200
  | prepared _ => 200
  | failed failure => if failure.isInvariantViolation then 422 else 500

/-- The body of an answer, if it has one in JSON. -/
def body? (stamp : Stamp) : Reply → Option Json
  | rejected _ => none
  | healthy false => none
  | healthy true =>
    some (.object [("status", .string "healthy"), ("timestamp", .string stamp.time)])
  | prepared batch =>
    some (.object
      [("run_id", .string stamp.runId),
        ("requests", Request.batchToJson batch.requests),
        ("image_count", .integer batch.imageCount),
        ("container_count", .integer batch.containerCount),
        ("processed_at", .string stamp.time)])
  | failed failure => some (.object [("error", .string failure.fullMessage)])

end Reply

/-- A query service and the operations to prepare batches for. -/
structure WebService where
  queries : QueryService
  operations : List Operation

namespace WebService

/-- The most bytes of a body. -/
def bodyLimit : Nat := 2097152

/-- Prepare the batch in the body of a call. -/
def prepareBody (web : WebService) (call : Call) (log : QueryLog) : Reply × QueryLog :=
  if !call.contentType.any MediaType.isJson then (.rejected 415, log)
  else if bodyLimit < call.body.utf8ByteSize then (.rejected 413, log)
  else
    match Body.parse call.body with
    | .error .malformed => (.rejected 400, log)
    | .error .misshapen => (.rejected 422, log)
    | .ok requests =>
      match run web.queries web.operations requests log with
      | ⟨.ok batch, log⟩ => (.prepared batch, log)
      | ⟨.error failure, log⟩ => (.failed failure, log)

/-- Answer a call. -/
def answer (web : WebService) (call : Call) (log : QueryLog) : Reply × QueryLog :=
  match Address.path? call.address, call.method with
  | some "/health", "GET" => (.healthy true, log)
  | some "/health", "HEAD" => (.healthy false, log)
  | some "/health", _ => (.rejected 405, log)
  | some "/preprocess", "POST" => web.prepareBody call log
  | some "/preprocess", _ => (.rejected 405, log)
  | some _, _ => (.rejected 404, log)
  | none, _ => (.rejected 400, log)

end WebService

end FilesetBatch
