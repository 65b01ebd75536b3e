import Mathlib.Data.Finset.Basic

/-!
# The worker pool

Each zid has a queue of messages and at most one run of `_run`, which drains the queue, processes
the merged batch and looks again. Every method is one critical section of the pool's lock. A run may
take its next step at any time: the bound of the executor only removes interleavings.

Reference: `polismath/poller/worker_pool.py`.
-/

namespace Polis.Poller

open Function

variable {ν μ σ : Type*}

/-! ## Messages -/

/-- A queued message: its type, with the batch of rows that `coalesce_messages` reads. -/
inductive Message (ν μ : Type*)
  | votes (batch : List ν)
  | moderation (batch : List μ)
  | rebuild
  | backfill
deriving DecidableEq, Repr

/-- Anything but a backfill request. -/
def Message.isLive : Message ν μ → Bool
  | .backfill => false
  | _ => true

/-- The vote rows of a message. -/
def Message.voteRows : Message ν μ → List ν
  | .votes batch => batch
  | _ => []

/-- The moderation rows of a message. -/
def Message.moderationRows : Message ν μ → List μ
  | .moderation batch => batch
  | _ => []

/-- `CoalescedBatch` -/
structure CoalescedBatch (ν μ : Type*) where
  votes : List ν := []
  moderation : List μ := []
  rebuild : Bool := false
  backfill : Bool := false
deriving DecidableEq, Repr

/-- `has_live_work` -/
def CoalescedBatch.hasLiveWork (b : CoalescedBatch ν μ) : Bool :=
  !b.votes.isEmpty || !b.moderation.isEmpty || b.rebuild

/-- `has_work` -/
def CoalescedBatch.hasWork (b : CoalescedBatch ν μ) : Bool :=
  !b.votes.isEmpty || !b.moderation.isEmpty || b.rebuild || b.backfill

/-- One message merged into a batch. -/
def CoalescedBatch.add (b : CoalescedBatch ν μ) : Message ν μ → CoalescedBatch ν μ
  | .votes batch => { b with votes := b.votes ++ batch }
  | .moderation batch => { b with moderation := b.moderation ++ batch }
  | .rebuild => { b with rebuild := true }
  | .backfill => { b with backfill := true }

/-- `coalesce_messages` -/
def coalesceMessages (messages : List (Message ν μ)) : CoalescedBatch ν μ :=
  messages.foldl CoalescedBatch.add {}

/-! ## The pool -/

/-- Where a run of `_run` stands: about to take the lock, inside `process_fn` (with that function's
own state), or back from it with an outcome (`False` when it raised). -/
inductive Stage (ν μ σ : Type*)
  | waiting
  | processing (batch : CoalescedBatch ν μ) (live : Bool) (work : σ)
  | returned (outcome : Option Bool) (live : Bool)

/-- The stage after a drain: `process_fn` is called on a batch with work, else the outcome stays
`None`. -/
def Stage.afterDrain (begin : σ) (messages : List (Message ν μ)) : Stage ν μ σ :=
  let coalesced := coalesceMessages messages
  let live := messages.any Message.isLive
  if coalesced.hasWork then .processing coalesced live begin else .returned none live

/-- The batch in `process_fn`, if the run is there. -/
def Stage.batch? : Stage ν μ σ → Option (CoalescedBatch ν μ)
  | .processing batch _ _ => some batch
  | _ => none

@[simp] theorem Stage.batch?_waiting : (.waiting : Stage ν μ σ).batch? = none := rfl

@[simp] theorem Stage.batch?_processing (batch : CoalescedBatch ν μ) (live : Bool) (work : σ) :
    (Stage.processing batch live work).batch? = some batch := rfl

@[simp] theorem Stage.batch?_returned (outcome : Option Bool) (live : Bool) :
    (.returned outcome live : Stage ν μ σ).batch? = none := rfl

/-- `ConversationWorkerPool`. An absent queue is an empty one; `runs` are the runs handed to the
executor that have not ended. -/
structure PoolState (ν μ σ : Type*) where
  queues : ℤ → List (Message ν μ)
  active : Finset ℤ
  parked : Finset ℤ
  queuedLive : ℤ → Option ℤ
  queuedBackfill : ℤ → Option ℤ
  runningSince : ℤ → Option (ℤ × Bool)
  unresolvedLive : ℤ → Option ℤ
  closed : Bool
  runs : ℤ → List (Stage ν μ σ)

/-- `__init__` -/
def PoolState.init : PoolState ν μ σ where
  queues _ := []
  active := ∅
  parked := ∅
  queuedLive _ := none
  queuedBackfill _ := none
  runningSince _ := none
  unresolvedLive _ := none
  closed := false
  runs _ := []

namespace PoolState

/-- `marks.setdefault(zid, now)` -/
def setDefault (marks : ℤ → Option ℤ) (zid now : ℤ) : ℤ → Option ℤ :=
  update marks zid (some ((marks zid).getD now))

/-- `marks.pop(zid, None)` -/
def pop {α : Type*} (marks : ℤ → Option α) (zid : ℤ) : ℤ → Option α :=
  update marks zid none

/-- `park` -/
def park (s : PoolState ν μ σ) (zid : ℤ) : PoolState ν μ σ :=
  { s with
    parked := insert zid s.parked
    queues := update s.queues zid []
    queuedLive := pop s.queuedLive zid
    queuedBackfill := pop s.queuedBackfill zid }

/-- `unpark` -/
def unpark (s : PoolState ν μ σ) (zid : ℤ) : PoolState ν μ σ :=
  { s with parked := s.parked.erase zid }

/-- Whether `submit` queues its message. -/
def accepts (s : PoolState ν μ σ) (zid : ℤ) : Prop := s.closed = false ∧ zid ∉ s.parked

instance (s : PoolState ν μ σ) (zid : ℤ) : Decidable (s.accepts zid) :=
  inferInstanceAs (Decidable (_ ∧ _))

/-- `submit`: a dropped message changes nothing. -/
def submit (s : PoolState ν μ σ) (zid : ℤ) (message : Message ν μ) (now : ℤ) : PoolState ν μ σ :=
  if s.accepts zid then
    { s with
      queues := update s.queues zid (s.queues zid ++ [message])
      queuedLive := if message.isLive then setDefault s.queuedLive zid now else s.queuedLive
      queuedBackfill :=
        if message.isLive then s.queuedBackfill else setDefault s.queuedBackfill zid now
      unresolvedLive :=
        if message.isLive then setDefault s.unresolvedLive zid now else s.unresolvedLive
      active := insert zid s.active
      runs :=
        if zid ∈ s.active then s.runs
        else update s.runs zid (s.runs zid ++ [.waiting]) }
  else s

/-- `dispose_unresolved` -/
def disposeUnresolved (s : PoolState ν μ σ) (zid : ℤ) : PoolState ν μ σ :=
  { s with unresolvedLive := pop s.unresolvedLive zid }

/-- `shutdown`, as far as the pool's own state goes. -/
def shutdown (s : PoolState ν μ σ) : PoolState ν μ σ := { s with closed := true }

/-- The exit of `_run`: nothing left, or parked in flight. The run ends. -/
def release (s : PoolState ν μ σ) (zid : ℤ) : PoolState ν μ σ :=
  { s with
    queues := update s.queues zid []
    queuedLive := pop s.queuedLive zid
    queuedBackfill := pop s.queuedBackfill zid
    runningSince := pop s.runningSince zid
    active := s.active.erase zid }

/-- When the oldest drained message was queued, else now. -/
def startedAt (s : PoolState ν μ σ) (zid now : ℤ) : ℤ :=
  match s.queuedLive zid, s.queuedBackfill zid with
  | some live, some backfill => min live backfill
  | some live, none => live
  | none, some backfill => backfill
  | none, none => now

/-- The drain of `_run`. -/
def drain (s : PoolState ν μ σ) (zid now : ℤ) : PoolState ν μ σ :=
  { s with
    queues := update s.queues zid []
    queuedLive := pop s.queuedLive zid
    queuedBackfill := pop s.queuedBackfill zid
    runningSince :=
      update s.runningSince zid
        (some (s.startedAt zid now, (s.queues zid).any Message.isLive)) }

/-- The bookkeeping of `_run` after live work: a resolved mark goes, or becomes that of the live
messages that arrived meanwhile. -/
def settle (s : PoolState ν μ σ) (zid : ℤ) (outcome : Option Bool) (live : Bool) :
    PoolState ν μ σ :=
  if live = true ∧ outcome ≠ some false ∧ zid ∉ s.parked then
    { s with unresolvedLive := update s.unresolvedLive zid (s.queuedLive zid) }
  else s

end PoolState

/-! ## Steps -/

/-- What can happen in the pool. The methods are called by any thread; `drain`, `release`, `finish`
and `settle` are the steps of a run, and `work` is a step inside `process_fn`. -/
inductive PoolEvent (ν μ σ : Type*)
  | submit (zid : ℤ) (message : Message ν μ) (now : ℤ) (queued : Bool)
  | park (zid : ℤ) (dropped : List (Message ν μ))
  | unpark (zid : ℤ)
  | disposeUnresolved (zid : ℤ)
  | shutdown
  | drain (zid now : ℤ) (messages : List (Message ν μ))
  | release (zid : ℤ)
  | work (zid : ℤ)
  | finish (zid : ℤ) (batch : CoalescedBatch ν μ) (outcome : Option Bool)
  | settle (zid : ℤ) (outcome : Option Bool) (live : Bool)

/-- A run of the zid goes from one stage to another. -/
def PoolState.Moves (s : PoolState ν μ σ) (zid : ℤ) (stage stage' : Stage ν μ σ)
    (runs' : ℤ → List (Stage ν μ σ)) : Prop :=
  ∃ before after, s.runs zid = before ++ stage :: after ∧
    runs' = update s.runs zid (before ++ stage' :: after)

/-- One event. `begin` is the state in which `process_fn` starts. -/
def PoolState.Step (begin : σ) (s : PoolState ν μ σ) :
    PoolEvent ν μ σ → PoolState ν μ σ → Prop
  | .submit zid message now queued, s' =>
    queued = decide (s.accepts zid) ∧ s' = s.submit zid message now
  | .park zid dropped, s' => dropped = s.queues zid ∧ s' = s.park zid
  | .unpark zid, s' => s' = s.unpark zid
  | .disposeUnresolved zid, s' => s' = s.disposeUnresolved zid
  | .shutdown, s' => s' = s.shutdown
  | .drain zid now messages, s' =>
    messages = s.queues zid ∧ messages ≠ [] ∧ zid ∉ s.parked ∧
    ∃ runs', s.Moves zid .waiting (Stage.afterDrain begin messages) runs' ∧
      s' = { s.drain zid now with runs := runs' }
  | .release zid, s' =>
    (s.queues zid = [] ∨ zid ∈ s.parked) ∧
    ∃ before after, s.runs zid = before ++ .waiting :: after ∧
      s' = { s.release zid with runs := update s.runs zid (before ++ after) }
  | .work zid, s' =>
    ∃ batch live work work' runs',
      s.Moves zid (.processing batch live work) (.processing batch live work') runs' ∧
      s' = { s with runs := runs' }
  | .finish zid batch outcome, s' =>
    ∃ live work runs', s.Moves zid (.processing batch live work) (.returned outcome live) runs' ∧
      s' = { s with runs := runs' }
  | .settle zid outcome live, s' =>
    ∃ runs', s.Moves zid (.returned outcome live) .waiting runs' ∧
      s' = { s.settle zid outcome live with runs := runs' }

/-! ## Histories -/

/-- The messages for a zid that were queued. -/
def accepted (zid : ℤ) (es : List (PoolEvent ν μ σ)) : List (Message ν μ) :=
  es.filterMap fun
    | .submit zid' message _ queued => if zid' = zid ∧ queued = true then some message else none
    | _ => none

/-- The queues of a zid that a drain or a park took away, each with whether it was a drain. -/
def taken (zid : ℤ) (es : List (PoolEvent ν μ σ)) : List (Bool × List (Message ν μ)) :=
  es.filterMap fun
    | .drain zid' _ messages => if zid' = zid then some (true, messages) else none
    | .park zid' dropped => if zid' = zid then some (false, dropped) else none
    | _ => none

/-- The queues of a zid that its runs drained. -/
def drained (zid : ℤ) (es : List (PoolEvent ν μ σ)) : List (List (Message ν μ)) :=
  ((taken zid es).filter Prod.fst).map Prod.snd

/-- The batches of a zid for which `process_fn` returned. -/
def processed (zid : ℤ) (es : List (PoolEvent ν μ σ)) : List (CoalescedBatch ν μ) :=
  es.filterMap fun
    | .finish zid' batch _ => if zid' = zid then some batch else none
    | _ => none

/-- The batches that the runs of a zid are processing. -/
def PoolState.inProcess (s : PoolState ν μ σ) (zid : ℤ) : List (CoalescedBatch ν μ) :=
  (s.runs zid).filterMap Stage.batch?

end Polis.Poller
