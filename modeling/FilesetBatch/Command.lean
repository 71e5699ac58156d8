import FilesetBatch.Batch.Prepared
import FilesetBatch.Config.Basic
import FilesetBatch.Containment.LinkStore
import FilesetBatch.Json.Reader
import FilesetBatch.Json.Writer
import FilesetBatch.Request.Codec

/-!
# The command

The command prepares the batch in a file and prints it (`Command.run`). It fails, in this
order, if it is given no file, if the file cannot be read, if it holds no batch, if the
configuration cannot be put together, or if the batch cannot be prepared; then it prints no
batch.
-/

namespace FilesetBatch

namespace Command

/-- Why the command failed. -/
inductive Mishap
  | noArgument
  | unreadable (path : String)
  | noBatch (path : String)
  | badConfiguration
  /-- The configuration asks for a store that the command cannot use. -/
  | noStore
  | aborted (failure : Failure)
deriving DecidableEq

/-- The first line of the message that tells why the command failed. -/
def Mishap.message : Mishap → String
  | noArgument => "Error: usage: preprocess-batch <requests.json>"
  | unreadable path => "Error: Failed to read " ++ path
  | noBatch path => "Error: Failed to parse request batch in " ++ path
  | badConfiguration => "Error: the configuration cannot be loaded"
  | noStore => "Error: no database is available"
  | aborted _ => "Error: Preprocessing aborted"

/-- The lines under it that tell the causes. -/
def Mishap.causes : Mishap → List String
  | aborted failure => failure.message :: failure.reason?.toList
  | _ => []

/-- What the command writes if it succeeds. -/
structure Report where
  /-- The prepared batch. -/
  output : String
  /-- How much was looked up. -/
  summary : String
deriving DecidableEq

/-- The file that the command is given: its path, and its text if it can be read. -/
structure BatchFile where
  path : String
  text : Option String

/-- The batch that a text is. -/
def batchOfText? (text : String) : Option (List Request) :=
  (Json.parse? text).bind Request.batchOfJson?

/-- The batch in a file. -/
def readBatch (file : Option BatchFile) : Except Mishap (List Request) :=
  match file with
  | none => .error .noArgument
  | some ⟨path, none⟩ => .error (.unreadable path)
  | some ⟨path, some text⟩ =>
    match batchOfText? text with
    | some requests => .ok requests
    | none => .error (.noBatch path)

/-- The store in memory that a configuration asks for. -/
def storeFor (config : Config) : Except Mishap LinkStore :=
  match config.store.backend with
  | .memory => .ok (if config.store.loadSeedData then LinkStore.empty.loadDemonstration else .empty)
  | .postgres => .error .noStore

/-- What is written for a prepared batch. -/
def report (batch : Prepared) : Report where
  output := (Request.batchToJson batch.requests).prettyText ++ "\n"
  summary :=
    "Resolved " ++ toString batch.imageCount ++ " image(s) and " ++
      toString batch.containerCount ++ " container(s)"

/-- Prepare the batch in a file under a configuration. -/
def run (file : Option BatchFile) (config : Option Config) : Except Mishap Report := do
  let requests ← readBatch file
  let config ← config.elim (.error .badConfiguration) .ok
  let store ← storeFor config
  match (FilesetBatch.run store.service config.operations requests []).result with
  | .ok batch => .ok (report batch)
  | .error failure => .error (.aborted failure)

/-! ## How the command ends -/

/-- What the command prints : the prepared batch, and nothing if it failed. -/
def printed : Except Mishap Report → String
  | .ok report => report.output
  | .error _ => ""

/-- The code that the command exits with. -/
def exitCode : Except Mishap Report → UInt32
  | .ok _ => 0
  | .error _ => 1

end Command

end FilesetBatch
