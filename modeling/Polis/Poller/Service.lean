import Polis.Poller.Engine
import Mathlib.Data.Finset.Sort

/-!
# The live service

Two poll threads and the reconciler hand messages to the worker pool, unparking a zid before they
submit for it. A run of the pool looks up or loads the conversation, computes, writes and then
caches; when anything in it raises, the batch is requeued or the zid parked. Routing and backfill
are off, and the pool is not shut down.

Reference: `polismath/poller/service.py`.
-/

namespace Polis.Poller

open Clustering Function

variable {K : Type*} [Field K] [LinearOrder K] [Numerics K]

/-- The settings of the service that its live path reads. -/
structure ServiceConfig where
  voteOverlapMs : ℤ
  retryCap : ℤ
  coordinatorRebuild : Bool
  accepts : ℤ → Bool

/-- A queued message of the service. -/
abbrev ServiceMessage : Type := Message VoteRow CommentRow

/-- `_group_by_zid`: the zids in order of first appearance, each with its rows in order. -/
def groupByZid {ρ : Type*} (zid : ρ → ℤ) (rows : List ρ) : List (ℤ × List ρ) :=
  (appendNew [] (rows.map zid)).map fun z => (z, rows.filter fun row => zid row = z)

/-- What a poll submits: a message for every zid with rows that the service accepts. -/
def submissions {ρ : Type*} (config : ServiceConfig) (zid : ρ → ℤ)
    (message : List ρ → ServiceMessage) (rows : List ρ) : List (ℤ × ServiceMessage) :=
  ((groupByZid zid rows).filter fun group => config.accepts group.1).map fun group =>
    (group.1, message group.2)

/-! ## One run of the engine -/

/-- Where `_handle_zid` stands: entered, past the parked check, past the cache lookup, with a
computed conversation, written, cached; with an error raised, submitting what is left to requeue,
about to park; or with its result. -/
inductive EngineStage (K : Type*)
  | begun
  | checked
  | lookedUp (conv : Option (Conversation K))
  | computed (conv : Conversation K)
  | written (conv : Conversation K)
  | remembered
  | raised
  | requeueing (messages : List ServiceMessage)
  | parking
  | done (liveOk : Bool)

/-- Inside the `try` of `_handle_zid`, where anything may raise. -/
def EngineStage.inTry : EngineStage K → Bool
  | .checked | .lookedUp _ | .computed _ | .written _ | .remembered => true
  | _ => false

/-- The messages `_requeue` submits: every kind the batch holds. -/
def requeueMessages (batch : Batch) : List ServiceMessage :=
  (if batch.rebuild then [.rebuild] else []) ++
    (if batch.votes.isEmpty then [] else [.votes batch.votes]) ++
    (if batch.moderation.isEmpty then [] else [.moderation batch.moderation])

/-- What a run reads and writes beside the pool: its place, the entries of its zid in `_convs` and
`_retry_counts`, and the conversations whose write for the zid has committed, the last one being the
bundle in the database. -/
structure EngineState (K : Type*) where
  stage : EngineStage K
  conv : Option (Conversation K)
  published : List (Conversation K)
  retries : Option ℤ

/-- A step of a run. The results of the queries are arguments. A write that raises before its commit
is a `raise` from `computed`, one that raises after it a `raise` from `written`. -/
inductive EngineEvent (K : Type*)
  | isParked
  | lookup
  | load (row : Option (MathRow K)) (history : List VoteRow) (mods : Moderation)
  | update (mods : Moderation)
  | write
  | remember
  | succeed
  | raise
  | countFailure
  | requeued

/-- One step of `_handle_zid` on a batch, with the committed votes and whether the zid is parked. -/
def EngineState.Step (config : ServiceConfig) (zid : ℤ) (committed : List VoteRow) (parked : Bool)
    (batch : Batch) (s : EngineState K) : EngineEvent K → EngineState K → Prop
  | .isParked, s' =>
    s.stage = .begun ∧ s' = { s with stage := if parked then .done false else .checked }
  | .lookup, s' =>
    s.stage = .checked ∧
      s' = { s with stage := .lookedUp (if batch.rebuild then none else s.conv) }
  | .load row history mods, s' =>
    s.stage = .lookedUp none ∧ history.Perm (ofZid zid committed) ∧
      s' = { s with stage := .computed (loadOrInit zid row history mods config.coordinatorRebuild) }
  | .update mods, s' =>
    ∃ conv, s.stage = .lookedUp (some conv) ∧
      s' = { s with stage := .computed (computeUpdate conv batch mods) }
  | .write, s' =>
    ∃ conv, s.stage = .computed conv ∧
      s' = { s with stage := .written conv, published := s.published ++ [conv] }
  | .remember, s' =>
    ∃ conv, s.stage = .written conv ∧ s' = { s with stage := .remembered, conv := some conv }
  | .succeed, s' => s.stage = .remembered ∧ s' = { s with stage := .done true, retries := none }
  | .raise, s' => s.stage.inTry = true ∧ s' = { s with stage := .raised }
  | .countFailure, s' =>
    -- `_on_engine_error`
    s.stage = .raised ∧
      s' = { s with
        stage := if s.retries.getD 0 + 1 ≤ config.retryCap then .requeueing (requeueMessages batch)
          else .parking
        retries := some (s.retries.getD 0 + 1) }
  | .requeued, s' => s.stage = .requeueing [] ∧ s' = { s with stage := .done false }

/-! ## Unparking and submitting -/

/-- The threads that unpark a zid before they submit for it. -/
inductive Feeder
  | votePoll
  | modPoll
  | reconciler
deriving DecidableEq, Repr

/-- Where a feeder stands with its next message: before `_unpark`, after each of its four steps, or
past a check that found the zid not parked. -/
inductive UnparkPhase
  | start
  | parkedSeen
  | retriesPopped
  | cacheDropped
  | unparked
  | notParked
deriving DecidableEq, Repr

/-- The messages a feeder has still to submit, the phase being that of the first. -/
structure FeederState where
  todo : List (ℤ × ServiceMessage)
  phase : UnparkPhase
deriving DecidableEq

/-- The service: the vote poll, the worker pool, `_convs`, `_retry_counts` and the feeders; with the
conversations whose write committed and the votes submitted by the vote poll, for each zid. -/
structure ServiceState (K : Type*) where
  votePoll : PollState VoteRow VoteKey VoteCell
  pool : PoolState VoteRow CommentRow (EngineStage K)
  convs : ℤ → Option (Conversation K)
  retryCounts : ℤ → Option ℤ
  feeders : Feeder → FeederState
  published : ℤ → List (Conversation K)
  delivered : ℤ → List VoteRow

namespace ServiceState

/-- The service when it starts. -/
def init (watermark : ℤ) : ServiceState K :=
  ⟨.init watermark, .init, fun _ => none, fun _ => none, fun _ => ⟨[], .start⟩, fun _ => [],
    fun _ => []⟩

/-- What a run of the zid in the given stage sees. -/
def engineState (s : ServiceState K) (zid : ℤ) (stage : EngineStage K) : EngineState K :=
  ⟨stage, s.convs zid, s.published zid, s.retryCounts zid⟩

/-- A run of the zid has taken a step. -/
def setEngine (s : ServiceState K) (zid : ℤ)
    (runs : ℤ → List (Stage VoteRow CommentRow (EngineStage K))) (after : EngineState K) :
    ServiceState K :=
  { s with
    pool := { s.pool with runs := runs }
    convs := update s.convs zid after.conv
    published := update s.published zid after.published
    retryCounts := update s.retryCounts zid after.retries }

/-- A feeder has new messages to submit. -/
def assign (s : ServiceState K) (f : Feeder) (todo : List (ℤ × ServiceMessage)) : ServiceState K :=
  { s with feeders := update s.feeders f ⟨todo, .start⟩ }

/-- The next step of a feeder with its first message: a step of `_unpark`, or the submit. -/
def feed (s : ServiceState K) (f : Feeder) (zid : ℤ) (message : ServiceMessage)
    (rest : List (ℤ × ServiceMessage)) (now : ℤ) : ServiceState K :=
  let goto := fun phase => update s.feeders f ⟨(zid, message) :: rest, phase⟩
  match (s.feeders f).phase with
  | .start =>
    { s with feeders := goto (if zid ∈ s.pool.parked then .parkedSeen else .notParked) }
  | .parkedSeen =>
    { s with retryCounts := PoolState.pop s.retryCounts zid, feeders := goto .retriesPopped }
  | .retriesPopped => { s with convs := PoolState.pop s.convs zid, feeders := goto .cacheDropped }
  | .cacheDropped => { s with pool := s.pool.unpark zid, feeders := goto .unparked }
  | .unparked | .notParked =>
    { s with
      pool := s.pool.submit zid message now
      delivered := update s.delivered zid (s.delivered zid ++ message.voteRows)
      feeders := update s.feeders f ⟨rest, .start⟩ }

end ServiceState

/-! ## Steps -/

/-- What can happen in the service. -/
inductive ServiceEvent (K : Type*)
  | commitVote (row : VoteRow)
  | pollVotes (cycle : Cycle VoteRow VoteKey VoteCell)
  | pollModeration (rows : List CommentRow)
  | reconcile
  | feed (f : Feeder) (now : ℤ)
  | submitRebuild (zid now : ℤ)
  | evict (zid : ℤ)
  | drain (zid now : ℤ)
  | engine (zid : ℤ) (e : EngineEvent K)
  | requeue (zid now : ℤ)
  | park (zid : ℤ)
  | finish (zid : ℤ)
  | settle (zid : ℤ)
  | release (zid : ℤ)

/-- One event. A poll moves its window when it reads, which only the thread that submits its rows
could tell. The moderation poll may find any rows, and a cache entry may be evicted at any time. -/
def ServiceState.Step (config : ServiceConfig) (s : ServiceState K) :
    ServiceEvent K → ServiceState K → Prop
  | .commitVote row, s' =>
    ∃ poll, s.votePoll.Step voteKind config.voteOverlapMs (.commit row) poll ∧
      s' = { s with votePoll := poll }
  | .pollVotes cycle, s' =>
    (s.feeders .votePoll).todo = [] ∧
    ∃ poll, s.votePoll.Step voteKind config.voteOverlapMs (.poll cycle) poll ∧
      s' = { s with votePoll := poll }.assign .votePoll
        (submissions config VoteRow.zid .votes cycle.fresh)
  | .pollModeration rows, s' =>
    (s.feeders .modPoll).todo = [] ∧
      s' = s.assign .modPoll (submissions config CommentRow.zid .moderation rows)
  | .reconcile, s' =>
    (s.feeders .reconciler).todo = [] ∧
      s' = s.assign .reconciler (s.pool.parked.sort.map fun zid => (zid, .rebuild))
  | .feed f now, s' =>
    ∃ zid message rest, (s.feeders f).todo = (zid, message) :: rest ∧
      s' = s.feed f zid message rest now
  | .submitRebuild zid now, s' => s' = { s with pool := s.pool.submit zid .rebuild now }
  | .evict zid, s' => s' = { s with convs := PoolState.pop s.convs zid }
  | .drain zid now, s' =>
    ∃ messages pool, s.pool.Step .begun (.drain zid now messages) pool ∧
      s' = { s with pool := pool }
  | .engine zid e, s' =>
    ∃ batch live stage after runs',
      s.pool.Moves zid (.processing batch live stage) (.processing batch live after.stage) runs' ∧
      (s.engineState zid stage).Step config zid s.votePoll.committed (decide (zid ∈ s.pool.parked))
        batch e after ∧
      s' = s.setEngine zid runs' after
  | .requeue zid now, s' =>
    ∃ batch live message rest runs',
      s.pool.Moves zid (.processing batch live (.requeueing (message :: rest)))
        (.processing batch live (.requeueing rest)) runs' ∧
      s' = { s with pool := { s.pool with runs := runs' }.submit zid message now }
  | .park zid, s' =>
    ∃ batch live runs',
      s.pool.Moves zid (.processing batch live .parking) (.processing batch live (.done false))
        runs' ∧
      s' = { s with pool := { s.pool with runs := runs' }.park zid }
  | .finish zid, s' =>
    ∃ batch live liveOk runs',
      s.pool.Moves zid (.processing batch live (.done liveOk)) (.returned (some liveOk) live)
        runs' ∧
      s' = { s with pool := { s.pool with runs := runs' } }
  | .settle zid, s' =>
    ∃ outcome live pool, s.pool.Step .begun (.settle zid outcome live) pool ∧
      s' = { s with pool := pool }
  | .release zid, s' =>
    ∃ pool, s.pool.Step .begun (.release zid) pool ∧ s' = { s with pool := pool }

end Polis.Poller
