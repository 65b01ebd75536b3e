import Polis.Common.Hex
import Polis.Common.Table
import Mathlib.Data.Int.Order.Basic

/-!
# The tables of the queue

The queue tables of 000019 with the columns that 000023 adds, and the Delphi tables. Ids are numbers
(the last byte of a UUID is its remainder by 256), times are microseconds and counters have no upper
bound. Columns that no call reads are left out. A foreign key is checked where a call can break it.

Reference: `server/postgres/migrations/000019_create_polis_queue.sql`,
`server/postgres/migrations/000023_create_delphi_foundation.sql`,
`server/postgres/migrations/000024_create_polis_queue_large_class.sql`.
-/

namespace Polis.Queue

abbrev Uuid := ℕ

abbrev Time := ℤ

/-- `make_interval(secs => n)` -/
def seconds (n : ℤ) : Time := 1000000 * n

/-- `~ '^[0-9a-f]{64}$'` -/
def isSha256 (s : String) : Bool :=
  s.length = 64 && s.toList.all fun c => ('0' ≤ c && c ≤ '9') || ('a' ≤ c && c ≤ 'f')

/-- A digest is checked by its bytes. -/
instance (s : String) : Decidable (isSha256 s = true) :=
  decidable_of_iff _ (hexText_iff s 64).symm

/-! ## States -/

inductive JobState
  | queued
  | running
  | retryWait
  | parked
  | succeeded
  | dead
  | cancelled
deriving DecidableEq, Repr

/-- `succeeded`, `dead` and `cancelled`. -/
def JobState.terminal : JobState → Bool
  | .succeeded | .dead | .cancelled => true
  | _ => false

/-- The states in which a job can be claimed. -/
def JobState.waiting : JobState → Bool
  | .queued | .retryWait => true
  | _ => false

inductive RunState
  | pending
  | succeeded
  | dead
  | cancelled
deriving DecidableEq, Repr

inductive AttemptOutcome
  | running
  | succeeded
  | retryWait
  | parked
  | dead
  | cancelled
  | expired
deriving DecidableEq, Repr

inductive Stage
  | noop
  | fullPipeline
  | narrative
  | mathRebuild
deriving DecidableEq, Repr

inductive WorkerClass
  | noop
  | delphi
  | large
deriving DecidableEq, Repr

/-- `polis-queue/1`, `polis-queue/2` and `polis-queue/3`. -/
inductive ContractVersion
  | queue1
  | queue2
  | queue3
deriving DecidableEq, Repr

/-- The kinds that admission writes. -/
inductive JobKind
  | fullPipeline
  | narrative
  | mathRebuild
deriving DecidableEq, Repr

inductive JobOrigin
  | queued
  | legacyImport
deriving DecidableEq, Repr

inductive ProviderState
  | intent
  | submissionUnknown
  | submitted
  | completed
  | failed
deriving DecidableEq, Repr

/-- `intent`, `submission_unknown` and `submitted`. -/
def ProviderState.open : ProviderState → Bool
  | .intent | .submissionUnknown | .submitted => true
  | _ => false

/-- `intent` and `submission_unknown`. -/
def ProviderState.unresolved : ProviderState → Bool
  | .intent | .submissionUnknown => true
  | _ => false

inductive LogStream
  | stdout
  | stderr
  | manifest
  | truncated
deriving DecidableEq, Repr

/-! ## Rows -/

/-- `polis_queue_runs` -/
structure RunRow where
  env : String
  runId : Uuid
  zid : ℤ
  productKey : String
  requestedGeneration : ℤ
  inputUri : String
  inputSha256 : String
  expectedOutputUri : String
  expectedOutputSha256 : String
  configSha256 : String
  codeImageDigest : String
  contractVersion : ContractVersion
  state : RunState := .pending
  outputSha256 : Option String := none
  createdAt : Time
deriving DecidableEq, Repr

/-- `polis_queue_heads` -/
structure HeadRow where
  env : String
  productKey : String
  zid : ℤ
  requestedGeneration : ℤ := 0
  desiredRunId : Option Uuid := none
  publishedRunId : Option Uuid := none
  publishedGeneration : ℤ := 0
  publishedSha256 : Option String := none
  version : ℤ := 0
deriving DecidableEq, Repr

/-- `polis_queue_jobs` -/
structure JobRow where
  env : String
  jobId : Uuid
  runId : Uuid
  stage : Stage
  stageInstance : Option String := none
  workerClass : WorkerClass := .noop
  state : JobState := .queued
  priority : ℤ
  eligibleAt : Time
  createdAt : Time
  updatedAt : Time
  attemptCount : ℤ := 0
  parkedAttemptCount : ℤ := 0
  maxAttempts : ℤ
  leaseEpoch : ℤ := 0
  version : ℤ := 0
  mgmtVersion : ℤ := 0
  ownerId : Option Uuid := none
  attemptId : Option Uuid := none
  lockedUntil : Option Time := none
  terminalAttemptId : Option Uuid := none
  firstParkedAt : Option Time := none
  lastErrorCode : Option String := none
  outputSha256 : Option String := none
deriving DecidableEq, Repr

/-- `polis_queue_attempts` -/
structure AttemptRow where
  env : String
  attemptId : Uuid
  jobId : Uuid
  ownerId : Uuid
  leaseEpoch : ℤ
  startedAt : Time
  endedAt : Option Time := none
  outcome : AttemptOutcome
  errorCode : Option String := none
  outputSha256 : Option String := none
  processExitConfirmedAt : Option Time := none
deriving DecidableEq, Repr

/-- `polis_queue_requests` -/
structure RequestRow where
  env : String
  actorScope : String
  productKey : String
  requestKey : String
  requestSha256 : String
  runId : Uuid
  jobId : Uuid
  bindingExpiresAt : Option Time := none
deriving DecidableEq, Repr

/-- `delphi_jobs`; the manifest digest is in hex. -/
structure DelphiJobRow where
  jobId : Uuid
  env : String
  zid : ℤ
  reportId : Option String
  kind : JobKind
  parentJobId : Option Uuid := none
  runId : Option Uuid
  origin : JobOrigin
  status : JobState
  outputManifestDigest : Option String := none
  completedAt : Option Time := none
  error : Option String := none
deriving DecidableEq, Repr

/-- What `pd_sync_status` writes to the logical job of a queue row. -/
def DelphiJobRow.sync (d : DelphiJobRow) (j : JobRow) (now : Time) : DelphiJobRow :=
  { d with
    status := j.state
    completedAt := if j.state.terminal then some now else none
    error := j.lastErrorCode }

/-- `delphi_job_inputs`; the digest is in hex. -/
structure InputRow where
  consumerJobId : Uuid
  producerJobId : Uuid
  producerOutputDigest : String
deriving DecidableEq, Repr

/-- `delphi_job_guards` -/
structure GuardRow where
  env : String
  scopeKey : String
  zid : ℤ
  rootJobId : Uuid
  requestSha256 : String
deriving DecidableEq, Repr

/-- `delphi_provider_requests` -/
structure ProviderRow where
  requestId : Uuid
  env : String
  jobId : Uuid
  attemptId : Uuid
  provider : String
  providerBatchId : Option String := none
  state : ProviderState
  requestDigest : List UInt8
deriving DecidableEq, Repr

/-- `polis_queue_logs` -/
structure LogRow where
  env : String
  attemptId : Uuid
  seq : ℤ
  stream : LogStream
  line : String
deriving DecidableEq, Repr

/-! ## Constraints -/

instance : Row RunRow (String × Uuid) (String × String × ℤ) where
  key r := (r.env, r.runId)
  unique r := some (r.env, r.productKey, r.requestedGeneration)
  check r := r.env ≠ "" ∧ r.productKey ≠ "" ∧ 0 < r.requestedGeneration ∧
    1 ≤ r.inputUri.length ∧ r.inputUri.length ≤ 2048 ∧ isSha256 r.inputSha256 ∧
    1 ≤ r.expectedOutputUri.length ∧ r.expectedOutputUri.length ≤ 2048 ∧
    isSha256 r.expectedOutputSha256 ∧ isSha256 r.configSha256
  decidableCheck _ := inferInstance

instance : Row HeadRow (String × String) Unit where
  key h := (h.env, h.productKey)
  unique _ := none
  check h := 0 ≤ h.requestedGeneration ∧ 0 ≤ h.version ∧
    (h.publishedRunId = none ∧ h.publishedGeneration = 0 ∧ h.publishedSha256 = none ∨
      h.publishedRunId.isSome ∧ 0 < h.publishedGeneration ∧ h.publishedSha256.any isSha256) ∧
    h.publishedGeneration ≤ h.requestedGeneration
  decidableCheck _ := inferInstance

/-- A running job has an owner, an attempt and a lease; no other job has one of them. -/
def JobRow.leased (j : JobRow) : Prop :=
  j.state = .running ∧ j.ownerId.isSome ∧ j.attemptId.isSome ∧ j.lockedUntil.isSome ∨
  j.state ≠ .running ∧ j.ownerId = none ∧ j.attemptId = none ∧ j.lockedUntil = none

/-- The attempts within and beyond the budget. -/
def JobRow.counted (j : JobRow) : Prop :=
  0 ≤ j.parkedAttemptCount ∧ j.parkedAttemptCount ≤ j.attemptCount ∧ 1 ≤ j.maxAttempts ∧
    j.maxAttempts ≤ 100 ∧ j.attemptCount - j.parkedAttemptCount ≤ j.maxAttempts

/-- The remaining checks of a job. -/
def JobRow.ranged (j : JobRow) : Prop :=
  0 ≤ j.priority ∧ j.priority ≤ 2 ∧ 0 ≤ j.leaseEpoch ∧ 0 ≤ j.version ∧ 0 ≤ j.mgmtVersion ∧
    (j.stage = .noop ↔ j.workerClass = .noop) ∧ (j.stage = .mathRebuild ↔ j.workerClass = .large)

instance (j : JobRow) : Decidable j.leased := inferInstanceAs (Decidable (_ ∨ _))

instance (j : JobRow) : Decidable j.counted := inferInstanceAs (Decidable (_ ∧ _))

instance (j : JobRow) : Decidable j.ranged := inferInstanceAs (Decidable (_ ∧ _))

instance : Row JobRow (String × Uuid) (String × Uuid × Stage × Option String) where
  key j := (j.env, j.jobId)
  unique j := some (j.env, j.runId, j.stage, j.stageInstance)
  check j := j.leased ∧ j.counted ∧ j.ranged
  decidableCheck _ := inferInstance

instance : Row AttemptRow (String × Uuid) (String × Uuid × ℤ) where
  key a := (a.env, a.attemptId)
  unique a := some (a.env, a.jobId, a.leaseEpoch)
  check a := 0 < a.leaseEpoch
  decidableCheck _ := inferInstance

instance : Row RequestRow (String × String × String × String) Unit where
  key q := (q.env, q.actorScope, q.productKey, q.requestKey)
  unique _ := none
  check q := isSha256 q.requestSha256 ∧ 1 ≤ q.actorScope.length ∧ q.actorScope.length ≤ 256 ∧
    1 ≤ q.requestKey.length ∧ q.requestKey.length ≤ 256
  decidableCheck _ := inferInstance

instance : Row DelphiJobRow Uuid Unit where
  key d := d.jobId
  unique _ := none
  check d := d.env ≠ "" ∧ d.parentJobId ≠ some d.jobId ∧
    (d.origin ≠ .legacyImport ∨ d.runId = none ∧ d.status.terminal)
  decidableCheck _ := inferInstance

instance : Row GuardRow (String × String) Unit where
  key g := (g.env, g.scopeKey)
  unique _ := none
  check g := g.scopeKey ≠ "" ∧ isSha256 g.requestSha256
  decidableCheck _ := inferInstance

instance : Row ProviderRow Uuid (String × String) where
  key r := r.requestId
  unique r := r.providerBatchId.map (r.provider, ·)
  check r := r.provider ≠ "" ∧ r.requestDigest.length = 32 ∧
    ((r.state ≠ .submitted ∧ r.state ≠ .completed) ∨ r.providerBatchId.isSome)
  decidableCheck _ := inferInstance

instance : Row LogRow (String × Uuid × ℤ) Unit where
  key l := (l.env, l.attemptId, l.seq)
  unique _ := none
  check l := 0 ≤ l.seq ∧ l.line.utf8ByteSize ≤ 1048576
  decidableCheck _ := inferInstance

/-! ## The database -/

/-- Why a call fails; a failed call is rolled back. -/
inductive DbError
  | raised (message : String)
  | constraint (violation : Violation)
  | notNull
  | foreignKey
  /-- `pq_no_regression` -/
  | pointerRegression
deriving DecidableEq, Repr

/-- The tables, and the conversations by id. No call writes `inputs`. -/
structure Database where
  conversations : List ℤ
  runs : Table RunRow := .empty
  heads : Table HeadRow := .empty
  jobs : Table JobRow := .empty
  attempts : Table AttemptRow := .empty
  requests : Table RequestRow := .empty
  delphiJobs : Table DelphiJobRow := .empty
  inputs : List InputRow := []
  guards : Table GuardRow := .empty
  providerRequests : Table ProviderRow := .empty
  logs : Table LogRow := .empty

/-- The clock of one call: `statement_timestamp()` and the successive readings of
`clock_timestamp()`. -/
structure Clock where
  statement : Time
  read : ℕ → Time

/-- The clock does not run backwards within the call. -/
structure Clock.Monotone (clock : Clock) : Prop where
  statement_le : clock.statement ≤ clock.read 0
  read_le : ∀ i j, i ≤ j → clock.read i ≤ clock.read j

/-- A write to one table of the database. -/
def write {ρ κ υ : Type} [Row ρ κ υ] (x : Except Violation (Table ρ)) (set : Table ρ → Database) :
    Except DbError Database :=
  match x with
  | .ok t => .ok (set t)
  | .error violation => .error (.constraint violation)

theorem write_eq_ok {ρ κ υ : Type} [Row ρ κ υ] {x : Except Violation (Table ρ)}
    {set : Table ρ → Database} {db : Database} :
    write x set = .ok db ↔ ∃ t, x = .ok t ∧ db = set t := by
  cases x with
  | error violation => simp [write]
  | ok t => simp [write, eq_comm]

namespace Database

variable (db : Database)

def insertRun (r : RunRow) : Except DbError Database :=
  write (db.runs.insert r) fun runs => { db with runs }

def updateRun (k : String × Uuid) (f : RunRow → RunRow) : Except DbError Database :=
  write (db.runs.update k f) fun runs => { db with runs }

def insertHead (h : HeadRow) : Except DbError Database :=
  write (db.heads.insert h) fun heads => { db with heads }

/-- `UPDATE polis_queue_heads`, with the `pq_no_regression` trigger before it. -/
def updateHead (k : String × String) (f : HeadRow → HeadRow) : Except DbError Database :=
  match db.heads.find k with
  | none => .ok db
  | some h =>
    if (f h).requestedGeneration < h.requestedGeneration ∨
        (f h).publishedGeneration < h.publishedGeneration then .error .pointerRegression
    else write (db.heads.update k f) fun heads => { db with heads }

def insertJob (j : JobRow) : Except DbError Database :=
  write (db.jobs.insert j) fun jobs => { db with jobs }

def updateJob (k : String × Uuid) (f : JobRow → JobRow) : Except DbError Database :=
  write (db.jobs.update k f) fun jobs => { db with jobs }

def insertAttempt (a : AttemptRow) : Except DbError Database :=
  write (db.attempts.insert a) fun attempts => { db with attempts }

def updateAttempt (k : String × Uuid) (f : AttemptRow → AttemptRow) : Except DbError Database :=
  write (db.attempts.update k f) fun attempts => { db with attempts }

def insertRequest (q : RequestRow) : Except DbError Database :=
  write (db.requests.insert q) fun requests => { db with requests }

def updateRequest (k : String × String × String × String) (f : RequestRow → RequestRow) :
    Except DbError Database :=
  write (db.requests.update k f) fun requests => { db with requests }

def insertDelphiJob (d : DelphiJobRow) : Except DbError Database :=
  write (db.delphiJobs.insert d) fun delphiJobs => { db with delphiJobs }

/-- `UPDATE delphi_jobs .. WHERE env=.. AND job_id=..` -/
def updateDelphiJob (k : String × Uuid) (f : DelphiJobRow → DelphiJobRow) :
    Except DbError Database :=
  write (db.delphiJobs.update k.2 fun d => if d.env = k.1 then f d else d) fun delphiJobs =>
    { db with delphiJobs }

def insertGuard (g : GuardRow) : Except DbError Database :=
  write (db.guards.insert g) fun guards => { db with guards }

def insertProviderRequest (r : ProviderRow) : Except DbError Database :=
  write (db.providerRequests.insert r) fun providerRequests => { db with providerRequests }

def updateProviderRequest (k : Uuid) (f : ProviderRow → ProviderRow) : Except DbError Database :=
  write (db.providerRequests.update k f) fun providerRequests => { db with providerRequests }

def insertLog (l : LogRow) : Except DbError Database :=
  write (db.logs.insert l) fun logs => { db with logs }

/-- `UPDATE polis_queue_jobs SET state=..`. 000023 adds the `pd_sync_status` trigger after it, which
leaves a noop job alone; `now` is its clock reading. -/
def updateJobState (k : String × Uuid) (now : Time) (f : JobRow → JobRow) :
    Except DbError Database := do
  let db ← db.updateJob k f
  match db.jobs.find k with
  | none => .ok db
  | some j => if j.stage = .noop then .ok db else db.updateDelphiJob k (·.sync j now)

end Database

end Polis.Queue
