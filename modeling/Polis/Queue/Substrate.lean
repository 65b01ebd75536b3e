import Polis.Queue.Schema
import Mathlib.Data.List.Sort
import Mathlib.Algebra.Group.Int.Defs

/-!
# The queue calls

The calls of contract polis-queue/1 as 000019 defines them. A call is one serialized transaction: it
gets every lock it asks for, and what it raises undoes what it wrote. A NULL key finds no row, as a
key that is not there.

Reference: `server/postgres/migrations/000019_create_polis_queue.sql`.
-/

namespace Polis.Queue

/-- What a call returns and the database after it. -/
abbrev After (α : Type) := α × Database

/-- The readings after the first `n`. -/
def Clock.later (clock : Clock) (n : ℕ) : Clock := { clock with read i := clock.read (n + i) }

/-! ## Replies -/

inductive Outcome
  | none
  | owned
  | fenced
  | existing
  | conflict
  | enqueued
  | invalidOutput
  | alreadySucceeded
  /-- The text of the state that the job is now in. -/
  | state (state : JobState)
  | terminal
  | exitConfirmed
  | poisoned
deriving DecidableEq, Repr

structure JobInput where
  uri : String
  sha256 : String
  configSha256 : String
  codeImageDigest : String
deriving DecidableEq, Repr

structure Reply where
  schemaVersion : ContractVersion
  outcome : Outcome
  job : Option JobRow
  attemptId : Option Uuid
  published : Bool
  input : Option JobInput
deriving DecidableEq, Repr

/-- `pq_result`, with the versions that 000023 and 000024 add for their stages. -/
def pqResult (db : Database) (outcome : Outcome) (j : Option JobRow) (published : Bool) :
    Reply where
  schemaVersion := match j.map JobRow.stage with
    | none | some .noop => .queue1
    | some .mathRebuild => .queue3
    | some _ => .queue2
  outcome := outcome
  job := j
  attemptId := j.bind fun j => j.attemptId <|> j.terminalAttemptId
  published := published
  input := j.bind fun j => (db.runs.find (j.env, j.runId)).map fun r =>
    ⟨r.inputUri, r.inputSha256, r.configSha256, r.codeImageDigest⟩

/-! ## Ownership -/

/-- What a worker shows to prove that it holds a job. -/
structure Token where
  owner : Option Uuid
  attempt : Option Uuid
  epoch : Option ℤ
deriving DecidableEq, Repr

def pqBackoff (attempt : Uuid) (count : ℤ) : ℤ :=
  min 300 (5 * 2 ^ (min (max (count - 1) 0) 6).toNat) + ((attempt % 256 % 5 : ℕ) : ℤ)

def pqLock (db : Database) (env : String) (job : Uuid) : Option JobRow := db.jobs.find (env, job)

def pqOwns (j : JobRow) (token : Token) (now : Time) : Bool :=
  j.state = .running && sqlEq j.ownerId token.owner && sqlEq j.attemptId token.attempt &&
    sqlEq (some j.leaseEpoch) token.epoch && j.lockedUntil.any (now < ·)

/-! ## What the calls write to a job -/

namespace JobRow

def key (j : JobRow) : String × Uuid := (j.env, j.jobId)

/-- The attempts that count against the budget. -/
def spent (j : JobRow) : ℤ := j.attemptCount - j.parkedAttemptCount

def claimed (clock : Clock) (owner attempt : Uuid) (lease : Option ℤ) (j : JobRow) : JobRow :=
  { j with
    state := .running
    ownerId := some owner
    attemptId := some attempt
    lockedUntil := lease.map (clock.read 0 + seconds ·)
    leaseEpoch := j.leaseEpoch + 1
    version := j.version + 1
    mgmtVersion := j.mgmtVersion + 1
    attemptCount := j.attemptCount + 1
    updatedAt := clock.read 1 }

def renewed (clock : Clock) (lease : Option ℤ) (j : JobRow) : JobRow :=
  { j with
    lockedUntil := lease.map (clock.read 1 + seconds ·)
    version := j.version + 1
    updatedAt := clock.read 2 }

def succeeded (clock : Clock) (attempt : Option Uuid) (outputSha : Option String) (j : JobRow) :
    JobRow :=
  { j with
    state := .succeeded
    terminalAttemptId := attempt
    ownerId := none
    attemptId := none
    lockedUntil := none
    version := j.version + 1
    mgmtVersion := j.mgmtVersion + 1
    updatedAt := clock.read 2
    outputSha256 := outputSha }

/-- The write of `pq_terminate_attempt`. -/
def terminated (clock : Clock) (state : JobState) (error : Option String) (immediate : Bool)
    (j : JobRow) : JobRow :=
  { j with
    state := state
    terminalAttemptId := j.attemptId
    ownerId := none
    attemptId := none
    lockedUntil := none
    leaseEpoch := j.leaseEpoch + 1
    version := j.version + 1
    mgmtVersion := j.mgmtVersion + 1
    parkedAttemptCount := j.parkedAttemptCount + if state = .parked then 1 else 0
    firstParkedAt := if state = .parked then j.firstParkedAt <|> some (clock.read 1)
      else j.firstParkedAt
    lastErrorCode := error
    updatedAt := clock.read 2
    -- A running job has an attempt, so the backoff is that of its attempt.
    eligibleAt := clock.read 3 +
      seconds (if immediate then 0 else pqBackoff (j.attemptId.getD 0) j.spent) }

def woken (state : JobState) (now : Time) (j : JobRow) : JobRow :=
  { j with
    state := state
    version := j.version + 1
    mgmtVersion := j.mgmtVersion + 1
    updatedAt := now }

def exhausted (now : Time) (j : JobRow) : JobRow :=
  { j with
    state := .dead
    version := j.version + 1
    mgmtVersion := j.mgmtVersion + 1
    lastErrorCode := some "attempt_budget_exhausted"
    updatedAt := now }

def cancelled (now : Time) (j : JobRow) : JobRow :=
  { j with
    state := .cancelled
    terminalAttemptId := j.attemptId <|> j.terminalAttemptId
    ownerId := none
    attemptId := none
    lockedUntil := none
    leaseEpoch := j.leaseEpoch + 1
    version := j.version + 1
    mgmtVersion := j.mgmtVersion + 1
    updatedAt := now }

end JobRow

/-! ## Enqueue -/

/-- The arguments of `pq_enqueue`. -/
structure Admission where
  env : String
  zid : ℤ
  productKey : String
  actorScope : String
  requestKey : String
  requestSha256 : String
  runId : Uuid
  jobId : Uuid
  inputUri : String
  inputSha256 : String
  configSha256 : String
  codeImageDigest : String
  priority : ℤ
  maxAttempts : ℤ
deriving DecidableEq, Repr

/-- A product's head after a new request. -/
def HeadRow.request (generation : ℤ) (runId : Uuid) (h : HeadRow) : HeadRow :=
  { h with
    requestedGeneration := generation
    desiredRunId := some runId
    version := h.version + 1 }

namespace Admission

variable (a : Admission)

def requestPk : String × String × String × String :=
  (a.env, a.actorScope, a.productKey, a.requestKey)

def request : RequestRow where
  env := a.env
  actorScope := a.actorScope
  productKey := a.productKey
  requestKey := a.requestKey
  requestSha256 := a.requestSha256
  runId := a.runId
  jobId := a.jobId

def run (generation : ℤ) (clock : Clock) : RunRow where
  env := a.env
  runId := a.runId
  zid := a.zid
  productKey := a.productKey
  requestedGeneration := generation
  inputUri := a.inputUri
  inputSha256 := a.inputSha256
  expectedOutputUri := a.inputUri
  expectedOutputSha256 := a.inputSha256
  configSha256 := a.configSha256
  codeImageDigest := a.codeImageDigest
  contractVersion := .queue1
  createdAt := clock.read 0

def job (clock : Clock) : JobRow where
  env := a.env
  jobId := a.jobId
  runId := a.runId
  stage := .noop
  priority := a.priority
  eligibleAt := clock.read 1
  createdAt := clock.read 2
  updatedAt := clock.read 3
  maxAttempts := a.maxAttempts

/-- The head of the product, which the first request reserves. -/
def reserveHead (db : Database) : Except DbError Database :=
  match db.heads.find (a.env, a.productKey) with
  | some _ => .ok db
  | none => db.insertHead { env := a.env, productKey := a.productKey, zid := a.zid }

/-- The run and the job of a new request. -/
def createRun (db : Database) (clock : Clock) (h : HeadRow) : Except DbError (After Reply) := do
  let db ← db.insertRun (a.run (h.requestedGeneration + 1) clock)
  let db ← db.insertJob (a.job clock)
  let db ← db.updateHead (a.env, a.productKey) (HeadRow.request (h.requestedGeneration + 1) a.runId)
  .ok (pqResult db .enqueued (some (a.job clock)) false, db)

/-- The answer to a request whose key is already bound. -/
def replay (db : Database) (q : RequestRow) : Reply :=
  pqResult db (if q.requestSha256 = a.requestSha256 then .existing else .conflict)
    (db.jobs.find (a.env, q.jobId)) false

end Admission

def pqEnqueue (db : Database) (clock : Clock) (a : Admission) : Except DbError (After Reply) :=
  if a.zid ∉ db.conversations then .error (.raised "unknown conversation")
  else match db.requests.find a.requestPk with
    -- The checks of the row come before its conflict.
    | some q =>
      if Row.check a.request then .ok (a.replay db q, db) else .error (.constraint .check)
    | none => do
      let db ← db.insertRequest a.request
      let db ← a.reserveHead db
      match db.heads.find (a.env, a.productKey) with
      | none => .error (.raised "missing reserved product head")
      | some h =>
        if h.zid ≠ a.zid then .error (.raised "product conversation mismatch")
        else a.createRun db clock h

/-! ## Claim -/

/-- `ORDER BY eligible_at,created_at,job_id` -/
def claimOrder (a b : JobRow) : Prop :=
  a.eligibleAt < b.eligibleAt ∨ a.eligibleAt = b.eligibleAt ∧
    (a.createdAt < b.createdAt ∨ a.createdAt = b.createdAt ∧ a.jobId ≤ b.jobId)

instance : DecidableRel claimOrder := fun _ _ => inferInstanceAs (Decidable (_ ∨ _))

/-- The jobs that `pq_claim` may take. -/
def JobRow.Claimable (j : JobRow) (env : String) (priority : ℤ) (now : Time) : Prop :=
  j.env = env ∧ j.priority = priority ∧ j.state.waiting ∧ j.eligibleAt ≤ now ∧
    j.spent < j.maxAttempts

instance (j : JobRow) (env : String) (priority : ℤ) (now : Time) :
    Decidable (j.Claimable env priority now) := inferInstanceAs (Decidable (_ ∧ _))

/-- The first job in the order of claims. -/
def firstJob (db : Database) (p : JobRow → Bool) : Option JobRow :=
  ((db.jobs.rows.filter p).insertionSort claimOrder).head?

/-- The attempt that a claim opens. -/
def AttemptRow.opened (j : JobRow) (owner attempt : Uuid) (now : Time) : AttemptRow where
  env := j.env
  attemptId := attempt
  jobId := j.jobId
  ownerId := owner
  leaseEpoch := j.leaseEpoch + 1
  startedAt := now
  outcome := .running

/-- The two writes of a claim. -/
def claimJob (db : Database) (clock : Clock) (j : JobRow) (owner attempt : Uuid)
    (lease : Option ℤ) : Except DbError (After Reply) := do
  let db ← db.updateJobState j.key (clock.read 2) (JobRow.claimed clock owner attempt lease)
  let db ← db.insertAttempt (.opened j owner attempt (clock.read 3))
  .ok (pqResult db .owned (some (j.claimed clock owner attempt lease)) false, db)

/-- `NOT BETWEEN 10 AND 900`, which is not true of NULL. -/
def badLease (lease : Option ℤ) : Bool := lease.any fun s => s < 10 || 900 < s

def pqClaim (db : Database) (clock : Clock) (env : String) (priority : ℤ)
    (owner attempt : Option Uuid) (lease : Option ℤ) : Except DbError (After Reply) :=
  match owner, attempt with
  | some owner, some attempt =>
    if badLease lease then .error (.raised "invalid claim arguments")
    else match firstJob db fun j => j.Claimable env priority clock.statement with
      | none => .ok (pqResult db .none none false, db)
      | some j => claimJob db clock j owner attempt lease
  | _, _ => .error (.raised "invalid claim arguments")

/-! ## Heartbeat -/

def pqHeartbeat (db : Database) (clock : Clock) (env : String) (job : Uuid) (token : Token)
    (lease : Option ℤ) : Except DbError (After Reply) :=
  if badLease lease then .error (.raised "invalid lease interval")
  else match db.jobs.find (env, job) with
    | none => .ok (pqResult db .fenced none false, db)
    | some j =>
      if !pqOwns j token (clock.read 0) then .ok (pqResult db .fenced (some j) false, db)
      else do
        let db ← db.updateJob (env, job) (JobRow.renewed clock lease)
        .ok (pqResult db .owned (some (j.renewed clock lease)) false, db)

/-! ## Finalize -/

def pqPublishAllowed (h : HeadRow) (r : RunRow) : Bool :=
  h.desiredRunId = some r.runId && h.requestedGeneration = r.requestedGeneration &&
    h.publishedGeneration ≤ r.requestedGeneration

/-- The head after the run's output is published. -/
def HeadRow.publish (r : RunRow) (outputSha : Option String) (h : HeadRow) : HeadRow :=
  { h with
    publishedRunId := some r.runId
    publishedGeneration := r.requestedGeneration
    publishedSha256 := outputSha
    version := h.version + 1 }

/-- The attempt of a token. -/
def Token.findAttempt (token : Token) (db : Database) (env : String) : Option AttemptRow :=
  token.attempt.bind fun id => db.attempts.find (env, id)

/-- The token is that of the attempt which succeeded. -/
def readsBack (j : JobRow) (a : Option AttemptRow) (token : Token) : Bool :=
  j.state = .succeeded && sqlEq j.terminalAttemptId token.attempt && a.any fun a =>
    a.jobId = j.jobId && sqlEq (some a.ownerId) token.owner &&
      sqlEq (some a.leaseEpoch) token.epoch && a.outcome = .succeeded

/-- `UPDATE polis_queue_attempts .. WHERE attempt_id=..`, where NULL finds no row. -/
def updateAttemptOf (db : Database) (env : String) (attempt : Option Uuid)
    (f : AttemptRow → AttemptRow) : Except DbError Database :=
  match attempt with
  | none => .ok db
  | some id => db.updateAttempt (env, id) f

def AttemptRow.succeed (outputSha : Option String) (now : Time) (a : AttemptRow) : AttemptRow :=
  { a with outcome := .succeeded, endedAt := some now, outputSha256 := outputSha }

/-- The head moves to a run that is the newest request. -/
def publish (db : Database) (h : Option HeadRow) (r : RunRow) (outputSha : Option String) :
    Except DbError (After Bool) :=
  if h.any (pqPublishAllowed · r) then do
    let db ← db.updateHead (r.env, r.productKey) (HeadRow.publish r outputSha)
    .ok (true, db)
  else .ok (false, db)

/-- The writes of a finalize that the fence lets through. -/
def finishJob (db : Database) (clock : Clock) (j : JobRow) (r : RunRow) (h : Option HeadRow)
    (attempt : Option Uuid) (outputSha : Option String) : Except DbError (After Reply) := do
  let db ← updateAttemptOf db j.env attempt (AttemptRow.succeed outputSha (clock.read 1))
  let db ← db.updateJobState j.key (clock.read 3) (JobRow.succeeded clock attempt outputSha)
  let db ← db.updateRun (j.env, r.runId) fun r =>
    { r with state := .succeeded, outputSha256 := outputSha }
  let (moved, db) ← publish db h r outputSha
  .ok (pqResult db (.state .succeeded) (some (j.succeeded clock attempt outputSha)) moved, db)

def pqFinalize (db : Database) (clock : Clock) (env : String) (job : Uuid) (token : Token)
    (outputUri outputSha : Option String) : Except DbError (After Reply) :=
  match pqLock db env job with
  | none => .ok (pqResult db .fenced none false, db)
  | some j => match db.runs.find (env, j.runId) with
    -- The run of a job is there by its foreign key.
    | none => .error .foreignKey
    | some r =>
      let h := db.heads.find (env, r.productKey)
      let a := token.findAttempt db env
      if readsBack j a token then
        if a.bind (·.outputSha256) ≠ outputSha ∨ some r.expectedOutputUri ≠ outputUri then
          .ok (pqResult db .invalidOutput (some j) false, db)
        else .ok (pqResult db .alreadySucceeded (some j)
          (h.any fun h => h.publishedRunId = some r.runId), db)
      else if !pqOwns j token (clock.read 0) then .ok (pqResult db .fenced (some j) false, db)
      else if outputSha ≠ some r.expectedOutputSha256 ∨ outputUri ≠ some r.expectedOutputUri then
        .ok (pqResult db .invalidOutput (some j) false, db)
      else finishJob db clock j r h token.attempt outputSha

/-! ## Ending an attempt -/

def AttemptRow.terminate (outcome : AttemptOutcome) (error : Option String) (now : Time)
    (a : AttemptRow) : AttemptRow :=
  { a with outcome := outcome, errorCode := error, endedAt := some now }

def RunRow.die (r : RunRow) : RunRow := { r with state := .dead }

/-- The run of a job that is now dead. -/
def killRun (db : Database) (j : JobRow) : Except DbError Database :=
  if j.state = .dead then db.updateRun (j.env, j.runId) RunRow.die else .ok db

def pqTerminateAttempt (db : Database) (clock : Clock) (j : JobRow) (state : JobState)
    (outcome : AttemptOutcome) (error : Option String) (immediate : Bool) :
    Except DbError (After JobRow) := do
  let db ← updateAttemptOf db j.env j.attemptId (AttemptRow.terminate outcome error (clock.read 0))
  let db ← db.updateJobState j.key (clock.read 4) (JobRow.terminated clock state error immediate)
  let j := j.terminated clock state error immediate
  let db ← killRun db j
  .ok (j, db)

inductive EndAction
  | confirmExit
  | retry
  | permanent
  | release
  | park
  /-- Any other text. -/
  | unknown
deriving DecidableEq, Repr

/-- The state of a job whose attempt ends. -/
def endState (j : JobRow) (action : EndAction) : JobState :=
  if action = .park then .parked
  else if action = .permanent ∨ j.maxAttempts ≤ j.spent then .dead
  else .retryWait

/-- The outcome of an attempt that ends in a state of its job. -/
def JobState.outcome : JobState → AttemptOutcome
  | .queued | .running => .running
  | .retryWait => .retryWait
  | .parked => .parked
  | .succeeded => .succeeded
  | .dead => .dead
  | .cancelled => .cancelled

def pqEndAttempt (db : Database) (clock : Clock) (env : String) (job : Uuid) (token : Token)
    (action : EndAction) (error : Option String) : Except DbError (After Reply) :=
  match pqLock db env job with
  | none => .ok (pqResult db .fenced none false, db)
  | some j =>
    if !pqOwns j token (clock.read 0) then .ok (pqResult db .fenced (some j) false, db)
    else if action = .confirmExit ∨ action = .unknown then .error (.raised "invalid transition")
    else do
      let s := endState j action
      let (j, db) ← pqTerminateAttempt db (clock.later 1) j s s.outcome error
        (action = .release)
      .ok (pqResult db (.state s) (some j) false, db)

def pqFail (db : Database) (clock : Clock) (env : String) (job : Uuid) (token : Token)
    (permanent : Option Bool) (error : Option String) : Except DbError (After Reply) :=
  pqEndAttempt db clock env job token (if permanent = some true then .permanent else .retry) error

def pqRelease (db : Database) (clock : Clock) (env : String) (job : Uuid) (token : Token) :
    Except DbError (After Reply) :=
  pqEndAttempt db clock env job token .release none

def pqPark (db : Database) (clock : Clock) (env : String) (job : Uuid) (token : Token)
    (error : Option String) : Except DbError (After Reply) :=
  pqEndAttempt db clock env job token .park error

/-! ## Reaping -/

/-- The jobs that `pq_due` lists. -/
def JobRow.Due (j : JobRow) (now : Time) : Prop :=
  j.state = .running ∧ j.lockedUntil.any (· ≤ now) ∨ j.state = .parked ∧ j.eligibleAt ≤ now ∨
    j.state.waiting ∧ j.maxAttempts ≤ j.spent

instance (j : JobRow) (now : Time) : Decidable (j.Due now) := inferInstanceAs (Decidable (_ ∨ _))

/-- The ids of the chosen jobs after `after`, in order, at most `limit`. -/
def jobPage (db : Database) (env : String) (after : Option Uuid) (limit : ℕ) (p : JobRow → Bool) :
    List Uuid :=
  (((db.jobs.rows.filter fun j => j.env = env ∧ (∀ id ∈ after, id < j.jobId) ∧ p j).map
    (·.jobId)).insertionSort (· ≤ ·)).take limit

/-- `LEAST(GREATEST(p_limit,0),100)`, where NULL counts as nothing. -/
def dueLimit (limit : Option ℤ) : ℕ := (min (max (limit.getD 0) 0) 100).toNat

def pqDue (db : Database) (clock : Clock) (env : String) (after : Option Uuid)
    (limit : Option ℤ) : List Uuid :=
  jobPage db env after (dueLimit limit) fun j => j.Due clock.statement

/-- A job without budget dies where another goes to `state`. -/
def JobRow.unlessSpent (j : JobRow) (state : JobState) : JobState :=
  if j.maxAttempts ≤ j.spent then .dead else state

/-- A write of the reaper that ends no attempt. -/
def reapJob (db : Database) (j : JobRow) (now : Time) (f : JobRow → JobRow) :
    Except DbError (After (Option Reply)) := do
  let db ← db.updateJobState j.key now f
  let db ← killRun db (f j)
  .ok (some (pqResult db (.state (f j).state) (some (f j)) false), db)

def pqReapOne (db : Database) (clock : Clock) (env : String) (job : Uuid) :
    Except DbError (After (Option Reply)) :=
  match pqLock db env job with
  | none => .ok (none, db)
  | some j =>
    if j.state = .running ∧ j.lockedUntil.any (· ≤ clock.read 0) then do
      let s := j.unlessSpent .retryWait
      -- The run of a dead job is already dead when the last statement writes it again.
      let (j, db) ←
        pqTerminateAttempt db (clock.later 1) j s .expired (some "lease_expired") false
      .ok (some (pqResult db (.state s) (some j) false), db)
    else if j.state = .parked ∧ j.eligibleAt ≤ clock.read 1 then
      reapJob db j (clock.read 3) (JobRow.woken (j.unlessSpent .queued) (clock.read 2))
    else if j.state.waiting ∧ j.maxAttempts ≤ j.spent then
      reapJob db j (clock.read 3) (JobRow.exhausted (clock.read 2))
    else .ok (none, db)

structure ReapPage where
  nextAfterJobId : Option Uuid
  transitions : List Reply
deriving DecidableEq, Repr

/-- One `pq_reap_one` for each id, each with its own readings of the clock. -/
def reapEach (reap : Database → Clock → Uuid → Except DbError (After (Option Reply)))
    (db : Database) (clock : Clock) : List Uuid → Except DbError (After (List Reply))
  | [] => .ok ([], db)
  | id :: ids => do
    let (reply, db) ← reap db clock id
    let (replies, db) ← reapEach reap db (clock.later 8) ids
    .ok (reply.toList ++ replies, db)

/-- The page that ends with the last of the ids, if they fill the limit. -/
def reapPage (limit : Option ℤ) (ids : List Uuid) (transitions : List Reply) : ReapPage where
  nextAfterJobId := if limit.any ((ids.length : ℤ) < ·) then none else ids.getLast?
  transitions := transitions

def pqReap (db : Database) (clock : Clock) (env : String) (after : Option Uuid)
    (limit : Option ℤ) : Except DbError (After ReapPage) :=
  if limit.any fun n => n < 1 || 100 < n then .error (.raised "invalid reap bound")
  else do
    let ids := pqDue db clock env after limit
    let (replies, db) ← reapEach (pqReapOne · · env ·) db clock ids
    .ok (reapPage limit ids replies, db)

/-! ## Cancel -/

def AttemptRow.cancel (now : Time) (a : AttemptRow) : AttemptRow :=
  { a with outcome := .cancelled, endedAt := some now }

def pqCancel (db : Database) (clock : Clock) (env : String) (job : Uuid)
    (expectedMgmtVersion : Option ℤ) : Except DbError (After Reply) :=
  match pqLock db env job with
  | none => .ok (pqResult db .conflict none false, db)
  | some j =>
    if some j.mgmtVersion ≠ expectedMgmtVersion then
      .ok (pqResult db .conflict (some j) false, db)
    else if j.state.terminal then .ok (pqResult db .terminal (some j) false, db)
    else do
      let db ← updateAttemptOf db env j.attemptId (AttemptRow.cancel (clock.read 0))
      let db ← db.updateJobState (env, job) (clock.read 2) (JobRow.cancelled (clock.read 1))
      let db ← db.updateRun (env, j.runId) fun r => { r with state := .cancelled }
      .ok (pqResult db (.state .cancelled) (some (j.cancelled (clock.read 1))) false, db)

/-! ## Runs -/

/-- The calls of the contract with their arguments. -/
inductive Call
  | enqueue (a : Admission)
  | claim (env : String) (priority : ℤ) (owner attempt : Option Uuid) (lease : Option ℤ)
  | heartbeat (env : String) (job : Uuid) (token : Token) (lease : Option ℤ)
  | finalize (env : String) (job : Uuid) (token : Token) (outputUri outputSha : Option String)
  | fail (env : String) (job : Uuid) (token : Token) (permanent : Option Bool)
      (error : Option String)
  | release (env : String) (job : Uuid) (token : Token)
  | park (env : String) (job : Uuid) (token : Token) (error : Option String)
  | due (env : String) (after : Option Uuid) (limit : Option ℤ)
  | reapOne (env : String) (job : Uuid)
  | reap (env : String) (after : Option Uuid) (limit : Option ℤ)
  | cancel (env : String) (job : Uuid) (expectedMgmtVersion : Option ℤ)
deriving DecidableEq, Repr

inductive Answer
  | reply (reply : Reply)
  | none
  | ids (ids : List Uuid)
  | page (page : ReapPage)
deriving DecidableEq, Repr

/-- A call that gives one kind of answer. -/
def answering {α : Type} (f : α → Answer) (x : Except DbError (After α)) :
    Except DbError (After Answer) :=
  x.map fun (a, db) => (f a, db)

/-- The answer to a reply that may be NULL. -/
def Answer.ofOption : Option Reply → Answer
  | .none => .none
  | some r => .reply r

def Call.exec (call : Call) (db : Database) (clock : Clock) : Except DbError (After Answer) :=
  match call with
  | .enqueue a => answering .reply (pqEnqueue db clock a)
  | .claim env priority owner attempt lease =>
    answering .reply (pqClaim db clock env priority owner attempt lease)
  | .heartbeat env job token lease =>
    answering .reply (pqHeartbeat db clock env job token lease)
  | .finalize env job token uri sha =>
    answering .reply (pqFinalize db clock env job token uri sha)
  | .fail env job token permanent error =>
    answering .reply (pqFail db clock env job token permanent error)
  | .release env job token => answering .reply (pqRelease db clock env job token)
  | .park env job token error => answering .reply (pqPark db clock env job token error)
  | .due env after limit => .ok (.ids (pqDue db clock env after limit), db)
  | .reapOne env job => answering .ofOption (pqReapOne db clock env job)
  | .reap env after limit => answering .page (pqReap db clock env after limit)
  | .cancel env job version => answering .reply (pqCancel db clock env job version)

/-- A call, the clock during it and what it came back with. -/
structure Event where
  clock : Clock
  call : Call
  answer : Except DbError Answer

/-- The call answers and leaves its writes, or it fails and leaves none. -/
def Step (db : Database) (e : Event) (db' : Database) : Prop :=
  (∃ answer, e.answer = .ok answer ∧ e.call.exec db e.clock = .ok (answer, db')) ∨
    ∃ error, e.answer = .error error ∧ e.call.exec db e.clock = .error error ∧ db' = db

/-- The database when the tables are created. -/
def Database.fresh (conversations : List ℤ) : Database where conversations := conversations

end Polis.Queue
