import FilesetBatch.Containment.Schema

/-!
# Query services

A query service answers templates. It may answer what it likes: lists with repetitions,
lists that contradict each other, and different lists for one question at different times.
All that its answer can depend on is the question and the questions before it, so a service
is a function of the log of queries. Every query is logged before it is answered, whether
or not the answer is a failure (`QueryService.ask`).
-/

namespace FilesetBatch

/-- A question that was put to a service: a template, by name, and a number. -/
structure Query where
  template : String
  id : Int
deriving DecidableEq, Repr

/-- The queries that were put to a service, the first one first. -/
abbrev QueryLog := List Query

namespace QueryLog

/-- The numbers that a template was asked for, in order. -/
def idsFor (log : QueryLog) (template : String) : List Int :=
  (log.filter fun query => query.template = template).map (·.id)

end QueryLog

/-- A service, given by its answers: after the queries of a log, a template and a number get
a list of numbers, or the reason of a failure. -/
structure QueryService where
  answer : QueryLog → Template → Int → Except String (List Int)

namespace QueryService

/-- The service that always answers a question in the same way. -/
def ofAnswers (answers : Template → Int → Except String (List Int)) : QueryService :=
  ⟨fun _ => answers⟩

/-- Put a question to the service. It is logged in any case. -/
def ask (service : QueryService) (template : Template) (id : Int) :
    EStateM String QueryLog (List Int) :=
  fun log =>
    match service.answer log template id with
    | .ok ids => .ok ids (log ++ [⟨template.name, id⟩])
    | .error reason => .error reason (log ++ [⟨template.name, id⟩])

end QueryService

end FilesetBatch
