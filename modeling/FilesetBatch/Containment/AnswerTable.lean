import FilesetBatch.Containment.QueryService

/-!
# A table of answers

A query service can be written down as a table, with a row of numbers for each question. The
rows need not fit together: what one row says that an entity contains, another may deny.
-/

namespace FilesetBatch

/-- Answers written down: for a template and a number the numbers that it is answered with,
just as they are listed. -/
structure AnswerTable where
  rows : List (Query × List Int)
  failing : List String

namespace AnswerTable

/-- What the table answers. A failing template answers nothing at all, and a number that is
not listed has no related entities. -/
def answer (table : AnswerTable) (template : Template) (id : Int) :
    Except String (List Int) :=
  if template.name ∈ table.failing then
    .error ("table " ++ template.name ++ " failed")
  else
    .ok ((table.rows.lookup ⟨template.name, id⟩).getD [])

/-- The service that answers from the table. -/
def service (table : AnswerTable) : QueryService :=
  .ofAnswers table.answer

end AnswerTable

end FilesetBatch
