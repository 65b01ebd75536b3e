import Polis.Common.Closure
import Polis.Delphi.Manifest
import Polis.Queue.JobMachine

/-!
# The calls of the Delphi foundation

The calls of contract polis-queue/2 as 000023 defines them, and of polis-queue/3 where 000024 replaces
them. A job that is not a noop stands for a process: it is claimed by its class, ends with a proof that
its process has exited, and is admitted under a guard of its scope.

Reference: `server/postgres/migrations/000023_create_delphi_foundation.sql`,
`server/postgres/migrations/000024_create_polis_queue_large_class.sql`.
-/

namespace Polis.Delphi

open Queue

/-- The last migration that is applied. -/
inductive Installed
  /-- 000023 -/
  | foundation
  /-- 000024 -/
  | largeClass
deriving DecidableEq, Repr

/-- The worker classes that claim and reap. -/
def Installed.classes : Installed → List WorkerClass
  | .foundation => [.delphi]
  | .largeClass => [.delphi, .large]

/-- The stages that admission takes. -/
def Installed.stages : Installed → List Stage
  | .foundation => [.fullPipeline, .narrative]
  | .largeClass => [.fullPipeline, .narrative, .mathRebuild]

/-- An argument of a text type that is NULL or none of the known texts is `none`. -/
abbrev Arg (α : Type) := Option α

/-! ## What is open -/

/-- An attempt of the job has no confirmed exit. -/
def unconfirmed (db : Database) (k : JobKey) : Bool :=
  (db.view k).attempts.any (·.processExitConfirmedAt.isNone)

/-- A provider request of the job is in one of the states. -/
def hasRequest (db : Database) (k : JobKey) (p : ProviderState → Bool) : Bool :=
  (db.view k).requests.any (p ·.state)

/-! ## Claim -/

/-- `pq_claim` with five arguments, which takes noops only. -/
def pqClaim (db : Database) (clock : Clock) (env : String) (priority : ℤ)
    (owner attempt : Option Uuid) (lease : Option ℤ) : Except DbError (After Reply) :=
  match owner, attempt with
  | some owner, some attempt =>
    if badLease lease then .error (.raised "invalid claim arguments")
    else match firstJob db fun j => j.stage = .noop ∧ j.Claimable env priority clock.statement with
      | none => .ok (pqResult db .none none false, db)
      | some j => claimJob db clock j owner attempt lease
  | _, _ => .error (.raised "invalid claim arguments")

/-- The jobs whose outputs a job consumes have succeeded with these outputs. -/
def inputsReady (db : Database) (job : Uuid) : Bool :=
  (db.inputs.filter (·.consumerJobId = job)).all fun i =>
    (db.delphiJobs.find i.producerJobId).all fun p =>
      p.status = .succeeded && p.outputManifestDigest = some i.producerOutputDigest

/-- The jobs that the claim of a class may take. -/
def ClassClaimable (db : Database) (j : JobRow) (env : String) (priority : ℤ) (cls : WorkerClass)
    (now : Time) : Prop :=
  j.Claimable env priority now ∧ j.workerClass = cls ∧ (db.view j.key).delphi.isSome ∧
    inputsReady db j.jobId ∧ unconfirmed db j.key = false ∧
    hasRequest db j.key ProviderState.unresolved = false

instance (db : Database) (j : JobRow) (env : String) (priority : ℤ) (cls : WorkerClass)
    (now : Time) : Decidable (ClassClaimable db j env priority cls now) :=
  inferInstanceAs (Decidable (_ ∧ _))

/-- The contract of a class. -/
def classVersion : WorkerClass → ContractVersion
  | .large => .queue3
  | _ => .queue2

/-- The reply where there is no job to claim. -/
def noJob (cls : WorkerClass) : Reply where
  schemaVersion := classVersion cls
  outcome := .none
  job := none
  attemptId := none
  published := false
  input := none

/-- `pq_claim` with six arguments. -/
def pqClaimClass (inst : Installed) (db : Database) (clock : Clock) (env : String) (priority : ℤ)
    (owner attempt : Option Uuid) (lease : Option ℤ) (cls : Arg WorkerClass) :
    Except DbError (After Reply) :=
  match owner, attempt, lease, cls with
  | some owner, some attempt, some lease, some cls =>
    if badLease (some lease) || cls ∉ inst.classes then .error (.raised "invalid claim")
    else match firstJob db fun j => ClassClaimable db j env priority cls clock.statement with
      | none => .ok (noJob cls, db)
      | some j => claimJob db clock j owner attempt (some lease)
  | _, _, _, _ => .error (.raised "invalid claim")

/-! ## Finalize -/

/-- The attempt of a token, if it is one of the job. -/
def attemptOf (db : Database) (env : String) (job : Uuid) (token : Token) : Option AttemptRow :=
  (token.findAttempt db env).filter (·.jobId = job)

/-- The writes of a finalize. No head moves. -/
def finishProcess (db : Database) (clock : Clock) (j : JobRow) (attempt : Uuid) (uri sha : String) :
    Except DbError (After Reply) := do
  let db ← db.updateAttempt (j.env, attempt) (AttemptRow.succeed (some sha) (clock.read 1))
  let db ← db.updateJobState j.key (clock.read 3)
    (JobRow.succeeded clock (some attempt) (some sha))
  let db ← db.updateDelphiJob j.key fun d => { d with outputManifestDigest := some sha }
  let db ← db.updateRun (j.env, j.runId) fun r =>
    { r with
      state := .succeeded
      expectedOutputUri := uri
      expectedOutputSha256 := sha
      outputSha256 := some sha }
  .ok (pqResult db (.state .succeeded) (some (j.succeeded clock (some attempt) (some sha))) false, db)

def pdFinalize (b : Builtins) (db : Database) (clock : Clock) (j : JobRow) (token : Token)
    (uri sha : Option String) : Except DbError (After Reply) :=
  let a := attemptOf db j.env j.jobId token
  let r := db.runs.find (j.env, j.runId)
  if j.state = .succeeded ∧ sqlEq j.terminalAttemptId token.attempt ∧
      sqlEq (a.map (·.ownerId)) token.owner ∧ sqlEq (a.map (·.leaseEpoch)) token.epoch then
    let same := sqlEq (a.bind (·.outputSha256)) sha && sqlEq (r.map (·.expectedOutputUri)) uri
    .ok (pqResult db (if same then .alreadySucceeded else .invalidOutput) (some j) false, db)
  else if !pqOwns j token (clock.read 0) then .ok (pqResult db .fenced (some j) false, db)
  else match a with
    -- The attempt of a token that owns the job is there by its foreign key.
    | none => .error .foreignKey
    | some a =>
      if a.processExitConfirmedAt.isNone then .error (.raised "process exit proof required")
      else do
        match ← receiptAccepted b db j a.attemptId uri sha, uri, sha with
        | true, some uri, some sha =>
          if hasRequest db j.key ProviderState.open then
            .error (.raised "provider request unresolved")
          else finishProcess db clock j a.attemptId uri sha
        | _, _, _ => .ok (pqResult db .invalidOutput (some j) false, db)

def pqFinalize (b : Builtins) (db : Database) (clock : Clock) (env : String) (job : Uuid)
    (token : Token) (uri sha : Option String) : Except DbError (After Reply) :=
  match (db.jobs.find (env, job)).filter (·.stage ≠ .noop) with
  | some j => pdFinalize b db clock j token uri sha
  | none => Queue.pqFinalize db clock env job token uri sha

/-! ## Ending an attempt -/

/-- `pq_end_attempt` with seven arguments. -/
def pqEndAttempt (db : Database) (clock : Clock) (env : String) (job : Uuid) (token : Token)
    (action : EndAction) (error : Option String) : Except DbError (After Reply) :=
  match (pqLock db env job).filter (·.stage ≠ .noop) with
  | some _ => .error (.raised "use /2 exit-proof transition")
  | none => Queue.pqEndAttempt db clock env job token action error

/-- The state of a job whose attempt ends with a proof of exit: a request that the provider may hold
parks the job. -/
def provenState (db : Database) (j : JobRow) (action : EndAction) : JobState :=
  if hasRequest db j.key ProviderState.unresolved then .parked else endState j action

/-- A park that no worker asked for is not counted. -/
def parkFree (db : Database) (k : JobKey) (free : Bool) : Except DbError Database :=
  if free then db.updateJob k JobRow.unpark else .ok db

/-- A parked job waits for the time that the worker gave. -/
def parkUntil (db : Database) (k : JobKey) (eligibleAt : Option Time) : Except DbError Database :=
  match eligibleAt with
  | some eligibleAt => db.updateJob k fun j => { j with eligibleAt }
  | none => .ok db

/-- The end of an attempt that still owns its job. -/
def endOwned (db : Database) (clock : Clock) (j : JobRow) (action : EndAction)
    (error : Option String) (eligibleAt : Option Time) : Except DbError (After Reply) := do
  let s := provenState db j action
  let error := if hasRequest db j.key ProviderState.unresolved then some "provider_unresolved"
    else error
  let (_, db) ← pqTerminateAttempt db clock j s s.outcome error (action = .release)
  let db ← parkFree db j.key (s = .parked && action ≠ .park)
  let db ← parkUntil db j.key (if s = .parked then eligibleAt else none)
  .ok (pqResult db (.state s) (db.jobs.find j.key) false, db)

/-- `pq_end_attempt` with nine arguments: the exit of the attempt is confirmed for its own token, whether
or not the token still owns the job. -/
def pqEndAttemptProven (db : Database) (clock : Clock) (env : String) (job : Uuid) (token : Token)
    (action : Arg EndAction) (error : Option String) (exitConfirmed : Option Bool)
    (eligibleAt : Option Time) : Except DbError (After Reply) :=
  match pqLock db env job with
  | none => .ok (pqResult db .fenced none false, db)
  | some j =>
    if j.stage = .noop then .ok (pqResult db .fenced (some j) false, db)
    else match attemptOf db env job token with
      | none => .ok (pqResult db .fenced (some j) false, db)
      | some a =>
        if token.owner ≠ some a.ownerId ∨ token.epoch ≠ some a.leaseEpoch then
          .ok (pqResult db .fenced (some j) false, db)
        else match action, exitConfirmed with
          | none, _ | some .unknown, _ | _, none | _, some false =>
            .error (.raised "process exit proof required")
          | some action, some true => do
            let db ← db.updateAttempt (env, a.attemptId)
              (AttemptRow.confirmExit (clock.read 0))
            if action = .confirmExit then
              .ok (pqResult db .exitConfirmed (some j) false, db)
            else if !pqOwns j token (clock.read 1) then
              .ok (pqResult db .fenced (some j) false, db)
            else endOwned db (clock.later 2) j action error eligibleAt

def pqFailProven (db : Database) (clock : Clock) (env : String) (job : Uuid) (token : Token)
    (permanent : Option Bool) (error : Option String) (exitConfirmed : Option Bool) :
    Except DbError (After Reply) :=
  pqEndAttemptProven db clock env job token
    (some (if permanent = some true then .permanent else .retry)) error exitConfirmed none

def pqReleaseProven (db : Database) (clock : Clock) (env : String) (job : Uuid) (token : Token)
    (exitConfirmed : Option Bool) : Except DbError (After Reply) :=
  pqEndAttemptProven db clock env job token (some .release) none exitConfirmed none

def pqParkProven (db : Database) (clock : Clock) (env : String) (job : Uuid) (token : Token)
    (error : Option String) (exitConfirmed : Option Bool) (eligibleAt : Option Time) :
    Except DbError (After Reply) :=
  pqEndAttemptProven db clock env job token (some .park) error exitConfirmed eligibleAt

/-! ## Reaping -/

/-- `pq_due`, which lists noops only. -/
def pqDue (db : Database) (clock : Clock) (env : String) (after : Option Uuid) (limit : Option ℤ) :
    List Uuid :=
  jobPage db env after (dueLimit limit) fun j => j.stage = .noop ∧ j.Due clock.statement

/-- The lease of a process has expired, which does not prove that the process has stopped. -/
def parkExpired (db : Database) (clock : Clock) (j : JobRow) :
    Except DbError (After (Option Reply)) := do
  let (_, db) ← pqTerminateAttempt db clock j .parked .expired (some "exit_unconfirmed") false
  let db ← parkFree db j.key true
  .ok (some (pqResult db (.state .parked) (db.jobs.find j.key) false), db)

def pqReapOne (db : Database) (clock : Clock) (env : String) (job : Uuid) :
    Except DbError (After (Option Reply)) :=
  match (pqLock db env job).filter (·.stage ≠ .noop) with
  | some j =>
    if j.state = .running ∧ j.lockedUntil.any (· ≤ clock.read 0) then
      parkExpired db (clock.later 1) j
    else if unconfirmed db j.key || hasRequest db j.key ProviderState.unresolved then .ok (none, db)
    else Queue.pqReapOne db (clock.later 1) env job
  | none => Queue.pqReapOne db (clock.later 1) env job

/-- `pq_reap` with three arguments. -/
def pqReap (db : Database) (clock : Clock) (env : String) (after : Option Uuid) (limit : Option ℤ) :
    Except DbError (After ReapPage) :=
  if limit.any fun n => n < 1 || 100 < n then .error (.raised "invalid reap bound")
  else do
    let ids := pqDue db clock env after limit
    let (replies, db) ← reapEach (pqReapOne · · env ·) db clock ids
    .ok (reapPage limit ids replies, db)

/-- A page of the reaper of a class. -/
structure ClassPage where
  schemaVersion : ContractVersion
  page : ReapPage
deriving DecidableEq, Repr

/-- The due jobs of a class. -/
def classDue (db : Database) (clock : Clock) (env : String) (after : Option Uuid) (limit : ℤ)
    (cls : WorkerClass) : List Uuid :=
  jobPage db env after limit.toNat fun j => j.workerClass = cls ∧ j.Due clock.statement

/-- `pq_reap` with four arguments. -/
def pqReapClass (inst : Installed) (db : Database) (clock : Clock) (env : String)
    (after : Option Uuid) (limit : Option ℤ) (cls : Arg WorkerClass) :
    Except DbError (After ClassPage) :=
  match limit, cls with
  | some limit, some cls =>
    if cls ∉ inst.classes ∨ limit < 1 ∨ 100 < limit then
      .error (.raised "invalid reap bound or worker class")
    else do
      let ids := classDue db clock env after limit cls
      let (replies, db) ← reapEach (pqReapOne · · env ·) db clock ids
      .ok (⟨classVersion cls, reapPage (some limit) ids replies⟩, db)
  | _, _ => .error (.raised "invalid reap bound or worker class")

/-! ## Admission -/

/-- The arguments of `pd_enqueue`. -/
structure Admission extends Queue.Admission where
  stage : Arg Stage
  reportId : Option String
  scope : Option String
  config : Option Json

def kindOf : Stage → JobKind
  | .narrative => .narrative
  | .mathRebuild => .mathRebuild
  | _ => .fullPipeline

def classOf : Stage → WorkerClass
  | .mathRebuild => .large
  | _ => .delphi

def contractOf (stage : Stage) : ContractVersion := classVersion (classOf stage)

/-- How long a request key stays bound to its job: 24 hours. -/
def bindingTime : Time := seconds 86400

/-- The contract of the new run. -/
def withContract (contractVersion : ContractVersion) (r : RunRow) : RunRow :=
  { r with contractVersion }

/-- The stage of the new job, which `pq_enqueue` makes a noop. -/
def withStage (stage : Stage) (j : JobRow) : JobRow :=
  { j with stage, workerClass := classOf stage }

namespace Admission

variable (a : Admission)

def valid (inst : Installed) : Bool :=
  a.stage.any (· ∈ inst.stages) && a.scope.any (· ≠ "") && a.config.any Json.isObject &&
    !(a.stage = some .narrative && a.reportId.getD "" = "") &&
    !(a.stage = some .mathRebuild && a.reportId.isSome)

/-- The request key bound to the job that holds the scope. -/
def binding (j : JobRow) (now : Time) : RequestRow :=
  { a.request with
    runId := j.runId
    jobId := j.jobId
    bindingExpiresAt := some (now + bindingTime) }

def delphiJob (stage : Stage) : DelphiJobRow where
  jobId := a.jobId
  env := a.env
  zid := a.zid
  reportId := a.reportId
  kind := kindOf stage
  runId := some a.runId
  origin := .queued
  status := .queued

def guard (scope : String) : GuardRow where
  env := a.env
  scopeKey := scope
  zid := a.zid
  rootJobId := a.jobId
  requestSha256 := a.requestSha256

/-- The guard was admitted for the same conversation, report, kind and product. -/
def boundTo (db : Database) (stage : Stage) (g : GuardRow) (j : JobRow) : Bool :=
  g.zid = a.zid && (db.delphiJobs.find g.rootJobId).any (fun d =>
    d.reportId = a.reportId && d.kind = kindOf stage) &&
    (db.runs.find (a.env, j.runId)).any (·.productKey = a.productKey)

/-- The answer where the scope has a guard. -/
def meetGuard (db : Database) (clock : Clock) (stage : Stage) (g : GuardRow) :
    Except DbError (After Reply) :=
  match db.jobs.find (a.env, g.rootJobId) with
  | none => .error (.raised "scope binding mismatch")
  | some j =>
    if !a.boundTo db stage g j then .error (.raised "scope binding mismatch")
    else if g.requestSha256 ≠ a.requestSha256 then .ok (pqResult db .conflict (some j) false, db)
    else do
      let db ← db.insertRequest (a.binding j (clock.read 0))
      .ok (pqResult db .existing (some j) false, db)

/-- The last three jobs of the product, the latest first. -/
def lastJobs (db : Database) : List (RunRow × JobRow) :=
  let runs := db.runs.rows.filter fun r =>
    r.env = a.env ∧ r.zid = a.zid ∧ r.productKey = a.productKey
  let jobs := runs.flatMap fun r =>
    (db.jobs.rows.filter fun j => j.env = r.env ∧ j.runId = r.runId).map fun j => (r, j)
  (jobs.insertionSort fun x y => y.1.createdAt < x.1.createdAt ∨
    y.1.createdAt = x.1.createdAt ∧ y.1.runId ≤ x.1.runId).take 3

/-- The last three jobs died under the image that is admitted now. -/
def poisoned (db : Database) : Bool :=
  3 ≤ ((a.lastJobs db).filter fun x =>
    x.2.state = .dead ∧ x.1.codeImageDigest = a.codeImageDigest).length

/-- A new root job under a new guard. -/
def enterRoot (db : Database) (clock : Clock) (stage : Stage) (scope : String) :
    Except DbError (After Reply) := do
  let (reply, db) ← pqEnqueue db clock a.toAdmission
  if reply.outcome ≠ .enqueued then .error (.raised "unexpected admission conflict")
  else do
    let db ← db.updateRun (a.env, a.runId) (withContract (contractOf stage))
    let db ← db.insertDelphiJob (a.delphiJob stage)
    let db ← db.updateJob (a.env, a.jobId) (withStage stage)
    let db ← db.insertGuard (a.guard scope)
    let db ← db.updateRequest a.requestPk fun q =>
      { q with bindingExpiresAt := some (clock.read 4 + bindingTime) }
    .ok (pqResult db .enqueued (db.jobs.find (a.env, a.jobId)) false, db)

/-- The answer to a request whose key is not bound. -/
def enterScope (inst : Installed) (db : Database) (clock : Clock) (stage : Stage) (scope : String) :
    Except DbError (After Reply) :=
  match db.guards.find (a.env, scope) with
  | some g => a.meetGuard db clock stage g
  | none =>
    if inst = .largeClass ∧ a.poisoned db then
      .ok (pqResult db .poisoned ((a.lastJobs db).head?.map Prod.snd) false, db)
    else a.enterRoot db clock stage scope

end Admission

def pdEnqueue (inst : Installed) (db : Database) (clock : Clock) (a : Admission) :
    Except DbError (After Reply) :=
  match a.stage, a.scope with
  | some stage, some scope =>
    if !a.valid inst then .error (.raised "invalid admission")
    else if a.zid ∉ db.conversations then .error (.raised "unknown conversation")
    else match db.requests.find a.requestPk with
      | none => a.enterScope inst db (clock.later 1) stage scope
      | some q => match q.bindingExpiresAt with
        | none => .error (.raised "legacy request binding")
        | some expires =>
          if clock.read 0 < expires then .ok (a.replay db q, db)
          else a.enterScope inst { db with requests := db.requests.delete a.requestPk }
            (clock.later 1) stage scope
  | _, _ => .error (.raised "invalid admission")

/-! ## Releasing a scope -/

/-- A logical job and its parent. -/
def parentEdges (db : Database) : List (Uuid × Uuid) :=
  db.delphiJobs.rows.filterMap fun d => d.parentJobId.map (·, d.jobId)

/-- The root, its children, theirs and so on. -/
def descendants (db : Database) (root : Uuid) : List Uuid :=
  spread (parentEdges db) (parentEdges db).length [root]

/-- Every job of the tree has ended. -/
def treeEnded (db : Database) (ids : List Uuid) : Bool :=
  db.delphiJobs.rows.all fun d => d.jobId ∉ ids || d.status.terminal

def pdReleaseScope (db : Database) (env scope : String) : After Bool :=
  match db.guards.find (env, scope) with
  | none => (false, db)
  | some g =>
    let ids := descendants db g.rootJobId
    if !treeEnded db ids || ids.any (fun id => unconfirmed db (env, id)) ||
        ids.any (fun id => hasRequest db (env, id) ProviderState.open) then (false, db)
    else (true, { db with guards := db.guards.delete (env, scope) })

/-! ## Provider requests -/

/-- The answer to a call about a provider request. -/
structure ProviderReply where
  /-- Where it was `recorded`, or else `existing`. -/
  recorded : Bool
  state : ProviderState
  requestId : Uuid
deriving DecidableEq, Repr

def intentRow (env : String) (job attempt id : Uuid) (provider : String) (digest : List UInt8) :
    ProviderRow where
  requestId := id
  env := env
  jobId := job
  attemptId := attempt
  provider := provider
  state := .intent
  requestDigest := digest

def pdProviderIntent (db : Database) (clock : Clock) (env : String) (job : Uuid) (token : Token)
    (request : Option Uuid) (provider : Option String) (digest : Option (List UInt8)) :
    Except DbError (After ProviderReply) :=
  match (pqLock db env job).filter fun j => j.stage ≠ .noop ∧ pqOwns j token (clock.read 0) with
  | none => .error (.raised "fenced provider intent")
  | some _ => match request.bind db.providerRequests.find with
    | some previous =>
      if previous.env = env ∧ previous.jobId = job ∧
          sqlEq (some previous.attemptId) token.attempt ∧
          sqlEq (some previous.provider) provider ∧ sqlEq (some previous.requestDigest) digest then
        .ok (⟨false, previous.state, previous.requestId⟩, db)
      else .error (.raised "provider request conflict")
    | none =>
      if hasRequest db (env, job) ProviderState.open then
        .error (.raised "provider request unresolved")
      else match request, token.attempt, provider, digest with
        | some id, some attempt, some provider, some digest => do
          let db ← db.insertProviderRequest (intentRow env job attempt id provider digest)
          .ok (⟨true, .intent, id⟩, db)
        | _, _, _, _ => .error .notNull

/-- A text that names a provider state, or another text. -/
inductive StateText
  | known (state : ProviderState)
  | other
deriving DecidableEq, Repr

/-- The transitions of a provider request. -/
def mayBecome : ProviderState → ProviderState → Bool
  | .intent, .submissionUnknown | .intent, .submitted | .intent, .failed => true
  | .submissionUnknown, .submitted | .submissionUnknown, .failed => true
  | .submitted, .completed | .submitted, .failed => true
  | s, s' => s = s'

/-- `a = b`, where it is not false: it is true, or a NULL makes it unknown. -/
def maybeEq {α : Type} [DecidableEq α] (a : α) (b : Option α) : Bool := b.all (a = ·)

/-- The call may be the late acknowledgement of the worker that submitted. Only a test that is false
fences the call, so a NULL in the token passes for a match. -/
def mayAcknowledge (a : Option AttemptRow) (token : Token) (state : Option StateText) : Bool :=
  a.all (fun a => maybeEq a.attemptId token.attempt && maybeEq a.ownerId token.owner &&
    maybeEq a.leaseEpoch token.epoch) &&
    state.all fun s => s = .known .submissionUnknown || s = .known .submitted

/-- What an update writes to a provider request. -/
def recordState (state : ProviderState) (batch : Option String) (r : ProviderRow) : ProviderRow :=
  { r with state, providerBatchId := batch }

def pdProviderUpdate (db : Database) (clock : Clock) (env : String) (job : Uuid) (token : Token)
    (request : Option Uuid) (state : Option StateText) (batch : Option String) :
    Except DbError (After ProviderReply) :=
  match (request.bind db.providerRequests.find).filter fun r => r.env = env ∧ r.jobId = job with
  | none => .error (.raised "unknown provider request")
  | some r =>
    let owned := (pqLock db env job).any (pqOwns · token (clock.read 0))
    let late := mayAcknowledge (db.attempts.find (env, r.attemptId)) token state
    if !owned && !late then .error (.raised "fenced provider update")
    else if r.providerBatchId.isSome ∧ r.providerBatchId ≠ batch then
      .error (.raised "immutable provider batch")
    else match state with
      | some (.known s) =>
        if !mayBecome r.state s then .error (.raised "invalid provider transition")
        else do
          let db ← db.updateProviderRequest r.requestId (recordState s batch)
          .ok (⟨true, s, r.requestId⟩, db)
      | _ => .error (.raised "invalid provider transition")

/-! ## Logs -/

/-- `INSERT INTO polis_queue_logs`, the one table that an executor writes itself. -/
def insertLog (db : Database) (l : LogRow) : Except DbError (After Unit) :=
  if (db.attempts.find (l.env, l.attemptId)).isNone then .error .foreignKey
  else do
    let db ← db.insertLog l
    .ok ((), db)

/-! ## Runs -/

/-- `pd_queue_binding`: a job that is not a noop is bound to its logical job and its run. -/
def queueBound (db : Database) (j : JobRow) : Bool :=
  j.stage = .noop || match (db.view j.key).delphi, (db.view j.key).run with
    | some d, some r => d.zid = r.zid && d.origin = .queued && d.runId = some j.runId &&
        r.contractVersion = contractOf j.stage && d.kind = kindOf j.stage &&
        (j.stage ≠ .mathRebuild || j.workerClass = .large && d.reportId.isNone)
    | _, _ => false

/-- The rows of the queue that a transaction wrote are bound when it commits. -/
def bindingsHold (db db' : Database) : Bool :=
  db'.jobs.rows.all fun j => j ∈ db.jobs.rows || queueBound db' j

/-- The calls of the contract with their arguments. -/
inductive Call
  /-- A call with a signature of 000019. -/
  | queue (call : Queue.Call)
  | claimClass (env : String) (priority : ℤ) (owner attempt : Option Uuid) (lease : Option ℤ)
      (cls : Arg WorkerClass)
  | endAttempt (env : String) (job : Uuid) (token : Token) (action : Arg EndAction)
      (error : Option String) (exitConfirmed : Option Bool) (eligibleAt : Option Time)
  | failProven (env : String) (job : Uuid) (token : Token) (permanent : Option Bool)
      (error : Option String) (exitConfirmed : Option Bool)
  | releaseProven (env : String) (job : Uuid) (token : Token) (exitConfirmed : Option Bool)
  | parkProven (env : String) (job : Uuid) (token : Token) (error : Option String)
      (exitConfirmed : Option Bool) (eligibleAt : Option Time)
  | reapClass (env : String) (after : Option Uuid) (limit : Option ℤ) (cls : Arg WorkerClass)
  | enqueue (a : Admission)
  | releaseScope (env scope : String)
  | providerIntent (env : String) (job : Uuid) (token : Token) (request : Option Uuid)
      (provider : Option String) (digest : Option (List UInt8))
  | providerUpdate (env : String) (job : Uuid) (token : Token) (request : Option Uuid)
      (state : Option StateText) (batch : Option String)
  | log (l : LogRow)

inductive Answer
  | queue (answer : Queue.Answer)
  | classPage (page : ClassPage)
  | released (released : Bool)
  | provider (reply : ProviderReply)
  | logged
deriving DecidableEq, Repr

/-- The answer of a call that gives a reply. -/
def replying (x : Except DbError (After Reply)) : Except DbError (After Answer) :=
  x.map fun (r, db) => (.queue (.reply r), db)

/-- A call of 000019 under the definitions of 000023. -/
def queueBody (b : Builtins) (db : Database) (clock : Clock) :
    Queue.Call → Except DbError (After Queue.Answer)
  | .enqueue a => answering .reply (pqEnqueue db clock a)
  | .claim env priority owner attempt lease =>
    answering .reply (pqClaim db clock env priority owner attempt lease)
  | .heartbeat env job token lease =>
    answering .reply (pqHeartbeat db clock env job token lease)
  | .finalize env job token uri sha =>
    answering .reply (pqFinalize b db clock env job token uri sha)
  | .fail env job token permanent error => answering .reply (pqEndAttempt db clock env job token
      (if permanent = some true then .permanent else .retry) error)
  | .release env job token =>
    answering .reply (pqEndAttempt db clock env job token .release none)
  | .park env job token error =>
    answering .reply (pqEndAttempt db clock env job token .park error)
  | .due env after limit => .ok (.ids (pqDue db clock env after limit), db)
  | .reapOne env job => answering .ofOption (pqReapOne db clock env job)
  | .reap env after limit => answering .page (pqReap db clock env after limit)
  | .cancel env job version => answering .reply (pqCancel db clock env job version)

variable (inst : Installed) (b : Builtins)

/-- What a call does before it commits. -/
def Call.body (call : Call) (db : Database) (clock : Clock) : Except DbError (After Answer) :=
  match call with
  | .queue call => (queueBody b db clock call).map fun (answer, db) => (.queue answer, db)
  | .claimClass env priority owner attempt lease cls =>
    replying (pqClaimClass inst db clock env priority owner attempt lease cls)
  | .endAttempt env job token action error exitConfirmed eligibleAt =>
    replying (pqEndAttemptProven db clock env job token action error exitConfirmed eligibleAt)
  | .failProven env job token permanent error exitConfirmed =>
    replying (pqFailProven db clock env job token permanent error exitConfirmed)
  | .releaseProven env job token exitConfirmed =>
    replying (pqReleaseProven db clock env job token exitConfirmed)
  | .parkProven env job token error exitConfirmed eligibleAt =>
    replying (pqParkProven db clock env job token error exitConfirmed eligibleAt)
  | .reapClass env after limit cls =>
    (pqReapClass inst db clock env after limit cls).map fun (page, db) => (.classPage page, db)
  | .enqueue a => replying (pdEnqueue inst db clock a)
  | .releaseScope env scope => .ok (.released (pdReleaseScope db env scope).1,
      (pdReleaseScope db env scope).2)
  | .providerIntent env job token request provider digest =>
    (pdProviderIntent db clock env job token request provider digest).map fun (reply, db) =>
      (.provider reply, db)
  | .providerUpdate env job token request state batch =>
    (pdProviderUpdate db clock env job token request state batch).map fun (reply, db) =>
      (.provider reply, db)
  | .log l => (insertLog db l).map fun (_, db) => (.logged, db)

/-- A call with its commit. -/
def Call.exec (call : Call) (db : Database) (clock : Clock) : Except DbError (After Answer) := do
  let (answer, db') ← call.body inst b db clock
  if bindingsHold db db' then .ok (answer, db')
  else .error (.raised "invalid logical execution binding")

/-- A call, the clock during it and what it came back with. -/
structure Event where
  clock : Clock
  call : Call
  answer : Except DbError Answer

/-- The call answers and leaves its writes, or it fails and leaves none. -/
def Step (db : Database) (e : Event) (db' : Database) : Prop :=
  (∃ answer, e.answer = .ok answer ∧ e.call.exec inst b db e.clock = .ok (answer, db')) ∨
    ∃ error, e.answer = .error error ∧ e.call.exec inst b db e.clock = .error error ∧ db' = db

end Polis.Delphi
