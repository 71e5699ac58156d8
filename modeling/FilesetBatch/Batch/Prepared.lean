import FilesetBatch.Batch.Reached
import FilesetBatch.Batch.Substitution

/-!
# Preparing a batch

A batch is prepared for one operation after another: what the operation reaches is collected,
plans are made for the filesets in it, and the plans are carried out (`prepareFor`). All
operations share one cache, which starts empty. The outcome of a run is the prepared batch
or the failure that ended it, and in either case the queries that were asked (`run`).
-/

namespace FilesetBatch

/-- Prepare a batch for one operation. -/
def prepareFor (service : QueryService) (requests : List Request) (operation : Operation) :
    LookupM (List Request) := do
  let reached ← collect service requests operation
  let plans ← MonadExcept.ofExcept (plans (← get).cache reached)
  MonadExcept.ofExcept (substituteAll plans operation requests)

/-- Prepare a batch for these operations, in this order. -/
def prepare (service : QueryService) (operations : List Operation) (requests : List Request) :
    LookupM (List Request) :=
  operations.foldlM (prepareFor service) requests

/-- A prepared batch, with how many entities were found to be contained in something and how
many to contain something. -/
structure Prepared where
  requests : List Request
  imageCount : Nat
  containerCount : Nat
deriving DecidableEq

/-- How a run ended, and the log of the queries up to its end. -/
structure Outcome where
  result : Except Failure Prepared
  log : QueryLog

/-- Prepare a batch with an empty cache, after the queries of a log. -/
def run (service : QueryService) (operations : List Operation) (requests : List Request)
    (log : QueryLog) : Outcome :=
  match prepare service operations requests ⟨.fresh, log⟩ with
  | .ok requests ⟨cache, log⟩ =>
    ⟨.ok ⟨requests, cache.containedCount, cache.containerCount⟩, log⟩
  | .error failure ⟨_, log⟩ => ⟨.error failure, log⟩

end FilesetBatch
