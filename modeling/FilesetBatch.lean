import FilesetBatch.Target.Set
import FilesetBatch.Request.Basic
import FilesetBatch.Request.Codec
import FilesetBatch.Containment.Schema
import FilesetBatch.Containment.AnswerTable
import FilesetBatch.Containment.LinkStore
import FilesetBatch.Containment.Lookup
import FilesetBatch.Batch.Prepared
import FilesetBatch.Json.Reader
import FilesetBatch.Json.Writer
import FilesetBatch.Web.WebService
import FilesetBatch.Config.Basic
import FilesetBatch.Command
import FilesetBatch.Main
import FilesetBatch.Proofs.Answers.Conserved
import FilesetBatch.Proofs.Store.AnyOrder
import FilesetBatch.Proofs.Store.SharedImages
import FilesetBatch.Proofs.Store.WholeFilesets
import FilesetBatch.Proofs.Containment.History
import FilesetBatch.Proofs.Answers.Queries
import FilesetBatch.Proofs.Json.Scalars
import FilesetBatch.Proofs.Json.Layout
import FilesetBatch.Proofs.Json.Reading
import FilesetBatch.Proofs.Request.Codec
import FilesetBatch.Proofs.Web.Body
import FilesetBatch.Proofs.Answers.LogBlind
import FilesetBatch.Proofs.Store.InRange
import FilesetBatch.Proofs.Web.Agreement
import FilesetBatch.Proofs.Containment.Direction
import FilesetBatch.Proofs.Store.Collecting
import FilesetBatch.Proofs.Batch.AnyCache
import FilesetBatch.Proofs.Batch.CarryingOut
import FilesetBatch.Proofs.Containment.Climbing
import FilesetBatch.Proofs.Request.Decoding
import FilesetBatch.Proofs.Store.Calls
import FilesetBatch.Proofs.Config.ReadBack
