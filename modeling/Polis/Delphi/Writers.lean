import Polis.Delphi.Foundation
import Polis.Delphi.Jsonb
import Polis.Delphi.Results

/-!
# Writers

A writer run is admitted for a conversation and a scope over what is served there. When it ends, its
sealed batch becomes the artifact that is served, one generation on. `pd_finalize` publishes the results
that the manifest names.

Reference: `server/postgres/migrations/000027_create_sealed_job_graphs.sql`,
`server/postgres/migrations/000030_create_delphi_writers.sql`.
-/

namespace Polis.Delphi.Writers

open Queue Results

/-! ## Tables -/

/-- The stages `graph_%`, which the queue tables of 000024 do not have. -/
inductive GraphStage
  | embed
  | cluster
  | topics
  | narrative
deriving DecidableEq, Repr

def graphStageText : GraphStage → String
  | .embed => "graph_embed"
  | .cluster => "graph_cluster"
  | .topics => "graph_topics"
  | .narrative => "graph_narrative"

/-- A row of `delphi_graphs`. -/
structure Graph where
  id : Uuid
  zid : ℤ
  scope_key : String
  root_job : Uuid
deriving DecidableEq, Repr

/-- A row of `delphi_graph_nodes`. -/
structure GraphNode extends Node where
  job : Uuid
  graph : Uuid
  node_key : String
deriving DecidableEq, Repr

/-- A row of `delphi_graph_edges`. -/
structure Edge where
  consumer : Uuid
  producer : Uuid
  input_role : String
  artifact : Option Uuid
deriving DecidableEq, Repr

/-- A row of `delphi_writer_runs`. -/
structure WriterRun where
  job : Uuid
  zid : ℤ
  scope_key : String
  base_generation : ℕ
  base_artifact : Option Uuid
deriving DecidableEq, Repr

/-- A row of `delphi_graph_served`. -/
structure Served where
  zid : ℤ
  scope_key : String
  generation : ℕ
  artifact : Uuid
deriving DecidableEq, Repr

/-- The tables of one environment; the queue tables hold every environment. -/
structure Store where
  env : String
  queue : Database
  graphStages : Uuid → Option GraphStage
  graphs : List Graph
  nodes : List GraphNode
  edges : List Edge
  reports : List (ℤ × String)
  batches : List Batch
  families : List Family
  rows : List ResultRow
  artifacts : List Artifact
  writerRuns : List WriterRun
  served : List Served

namespace Store

variable (w : Store)

def node (job : Uuid) : Option GraphNode := w.nodes.find? (·.job = job)

def artifact (id : Uuid) : Option Artifact := w.artifacts.find? (·.id = id)

def writerRun (job : Uuid) : Option WriterRun := w.writerRuns.find? (·.job = job)

/-- The stage of a job as text. -/
def stageOf (j : JobRow) : String :=
  ((w.graphStages j.jobId).map graphStageText).getD (stageText j.stage)

def servedAt (zid : ℤ) (scope : String) : Option Served :=
  w.served.find? fun s => s.zid = zid ∧ s.scope_key = scope

/-- What the result calls read and write. -/
def results : Results.Store where
  jobs id := w.queue.jobs.find (w.env, id)
  nodes id := (w.node id).map (·.toNode)
  attempts id := (w.queue.attempts.find (w.env, id)).map (·.jobId)
  reports := w.reports
  batches := w.batches
  families := w.families
  rows := w.rows
  artifacts := w.artifacts

/-- The tables after a result call. -/
def setResults (r : Results.Store) : Store :=
  { w with batches := r.batches, families := r.families, rows := r.rows, artifacts := r.artifacts }

def setQueue (queue : Database) : Store := { w with queue }

/-- `INSERT INTO delphi_graph_served .. ON CONFLICT .. DO UPDATE` -/
def serve (s : Served) : Store :=
  { w with served :=
      w.served.filter (fun s' => ¬(s'.zid = s.zid ∧ s'.scope_key = s.scope_key)) ++ [s] }

end Store

/-! ## Publication -/

/-- What a result call raises, as an error of the queue. -/
def raising {α : Type} (x : Raises α) : Except DbError α :=
  match x with
  | .ok a => .ok a
  | .error message => .error (.raised message)

/-- Raises unless the condition holds. -/
def demand (p : Bool) (message : String) : Except DbError Unit :=
  if p then .ok () else .error (.raised message)

/-- The row, or the error that there is none. -/
def strictly {α : Type} (row : Option α) : Except DbError α := raising (strict row)

/-- The seal as `pd_result_seal` returns it. -/
def sealJson (s : Seal) : Json :=
  .object [("schema", .string "delphi-result-batch/1"), ("batch_id", .string (uuidText s.batch_id)),
    ("sha256", .string s.sha256), ("families", .array (s.families.map .string))]

section Calls

variable (b : Builtins)

/-- The control files of the artifact that the run was admitted over. -/
def legacyControlFiles (w : Store) (base : Option Uuid) : Raises Json :=
  match base.bind w.artifact with
  | some a => do
    let doc ← parse b a.payload
    pure ((doc.member "legacy_control_files").getD (.object []))
  | none => pure (.object [])

/-- The payload of a writer's artifact. -/
def writerPayload (results legacy : Json) : Json :=
  .object [("schema", .string "delphi-writer-result/1"), ("results", results),
    ("legacy_control_files", legacy)]

/-- `pd_writer_publish`; the new artifact has the id `aid`. -/
def pd_writer_publish (w : Store) (job attempt : Uuid) (results : Option Json) (aid : Uuid) :
    Except DbError Store := do
  let r ← strictly (w.writerRun job)
  let j ← strictly (w.queue.jobs.find (w.env, job))
  demand (((w.servedAt r.zid r.scope_key).map (·.generation)).getD 0 = r.base_generation)
    "writer publication conflict"
  let (s, rs) ← raising (pd_result_seal_internal b w.results attempt)
  demand (results.any (isReference s)) "writer result seal mismatch"
  let legacy ← raising (legacyControlFiles b w r.base_artifact)
  let wire := b.jsonText (writerPayload (sealJson s) legacy)
  let rs ← raising (insertArtifact b rs ⟨aid, job, j.runId, attempt, wire⟩)
  pure ((w.setResults rs).serve ⟨r.zid, r.scope_key, r.base_generation + 1, aid⟩)

/-! ## The manifest of a finished process -/

def schemaText : String := "polis-jobs.output-manifest/1"

def writerSchemaText : String := "polis-jobs.output-manifest/2"

/-- An output is a table in the store of its schema that says where its rows are and how many. -/
def outputAccepted (writer : Bool) (o : Json) : Bool :=
  o.field b "store" = some (if writer then "postgres" else "dynamodb") &&
    (o.field b "table").getD "" ≠ "" && (o.has "keys" || o.has "key_prefix") &&
    isDigits ((o.field b "rows").getD "")

/-- The manifest is that of the attempt and lists its outputs. -/
def manifestAccepted (m : Json) (job attempt : Uuid) (stage : Stage) : Bool :=
  (m.field b "schema" = some schemaText || m.field b "schema" = some writerSchemaText) &&
    m.field b "job_id" = some (uuidText job) && m.field b "attempt_id" = some (uuidText attempt) &&
    m.field b "stage" = some (stageText stage) && m.field b "outcome" = some "succeeded" &&
    ["submit", "recheck", "run"].contains ((m.field b "phase").getD "") &&
    ((m.member "outputs").bind Json.items?).any
      (·.all (outputAccepted b (m.field b "schema" = some writerSchemaText))) &&
    (m.member "inputs").any Json.isObject && (m.member "models").any Json.isObject &&
    (m.member "cost").any Json.isObject &&
    (m.member "artifacts").all fun a => a.items?.any List.isEmpty

/-- The manifest that the receipt names, if it passes the checks. -/
def receipt (db : Database) (j : JobRow) (attempt : Uuid) (uri sha : Option String) :
    Except DbError (Option (Json × String × String)) :=
  match uri, sha with
  | some uri, some sha =>
    if !isFileUri uri || 2048 < uri.length || !isSha256 sha then .ok none
    else match manifestLine b db j.env attempt sha with
      | none => .ok none
      | some raw => match b.jsonb raw with
        | .ok m => .ok (if manifestAccepted b m j.jobId attempt j.stage then some (m, uri, sha)
            else none)
        | .error .invalidText => .ok none
        | .error (.other message) => .error (.raised message)
  | _, _ => .ok none

/-- The results of a writer are published before its job ends; another job has none. `none` is an
`invalid_output`. -/
def publishResults (w : Store) (j : JobRow) (attempt : Uuid) (m : Json) (aid : Uuid) :
    Except DbError (Option Store) :=
  match w.writerRun j.jobId with
  | some _ =>
    if m.field b "schema" ≠ some writerSchemaText || !m.has "results" || m.has "family_spool" then
      .ok none
    else (pd_writer_publish b w j.jobId attempt (m.member "results") aid).map some
  | none => .ok (if m.field b "schema" = some schemaText then some w else none)

/-- The end of an attempt whose exit is confirmed. -/
def finishOwned (w : Store) (clock : Clock) (j : JobRow) (attempt : Uuid) (uri sha : Option String)
    (aid : Uuid) : Except DbError (Reply × Store) :=
  let refused := (pqResult w.queue .invalidOutput (some j) false, w)
  match receipt b w.queue j attempt uri sha with
  | .error e => .error e
  | .ok none => .ok refused
  | .ok (some (m, uri, sha)) =>
    if hasRequest w.queue j.key ProviderState.open then
      .error (.raised "provider request unresolved")
    else match publishResults b w j attempt m aid with
      | .error e => .error e
      | .ok none => .ok refused
      | .ok (some w) =>
        (finishProcess w.queue clock j attempt uri sha).map fun (r, db) => (r, w.setQueue db)

/-- `pd_finalize` of 000030; a publication gives its artifact the id `aid`. -/
def pd_finalize (w : Store) (clock : Clock) (job : Uuid) (token : Token) (uri sha : Option String)
    (aid : Uuid) : Except DbError (Reply × Store) :=
  match w.queue.jobs.find (w.env, job) with
  | none => .ok (pqResult w.queue .fenced none false, w)
  | some j =>
    let a := attemptOf w.queue w.env job token
    let r := w.queue.runs.find (w.env, j.runId)
    if (w.graphStages job).isSome then .error (.raised "graph manifest required")
    else if j.state = .succeeded ∧ sqlEq j.terminalAttemptId token.attempt ∧
        sqlEq (a.map (·.ownerId)) token.owner ∧ sqlEq (a.map (·.leaseEpoch)) token.epoch then
      let same := sqlEq (a.bind (·.outputSha256)) sha && sqlEq (r.map (·.expectedOutputUri)) uri
      .ok (pqResult w.queue (if same then .alreadySucceeded else .invalidOutput) (some j) false, w)
    else if !pqOwns j token (clock.read 0) then .ok (pqResult w.queue .fenced (some j) false, w)
    else match a with
      | some a =>
        if a.processExitConfirmedAt.isNone then .error (.raised "process exit proof required")
        else finishOwned b w clock j a.attemptId uri sha aid
      | none => .error (.raised "process exit proof required")

end Calls

end Polis.Delphi.Writers
