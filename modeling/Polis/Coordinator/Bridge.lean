import Polis.Coordinator.Readback

/-!
# Dispatch

The control process arms its lease and admits an operation in one transaction, gives the operation to a
Python process, reads the lines that the process replies, and then reads the operation back, whatever the
process has replied. The exit status of the process only decides what the metrics report.

Reference: `coordinator-rs/src/bridge.rs` (`dispatch`), `coordinator-rs/src/fault.rs` (`STAGES`).
-/

namespace Polis.Coordinator

open Json
open Queue (Time Clock)

/-- `anyhow::ensure!` -/
def ensure (p : Prop) [Decidable p] (message : String) : Except BridgeError Unit :=
  if p then .ok () else .error (.token message)

variable (b : Builtins) (w : Wire)

/-! ## Admission -/

/-- The arguments of `dispatch`, what it takes from its configuration, and what it draws: an identifier
for an operation that the checkpoint does not name, and the capability. -/
structure Dispatch where
  env : String
  zid : ℤ
  owner : String
  epoch : ℤ
  expected : Option ℤ
  checkpoint : Json Decimal
  sourceSha256 : String
  reservationBytes : ℤ
  marginMs : ℤ
  credential : Bool
  uuid : String
  capability : Bytes
  fault : Bool

/-- `as_str` -/
def asStr : Json Decimal → Option String
  | .string s => some s
  | _ => none

def Dispatch.operation (d : Dispatch) : String :=
  ((member d.checkpoint "operation_id").bind asStr).getD d.uuid

/-- The checkpoint without the identity of its operation, which has its own column. -/
def Dispatch.base (d : Dispatch) : Json Decimal :=
  .object (((members? d.checkpoint).getD []).filter fun m => m.1 ≠ "operation_id")

def Dispatch.conv (d : Dispatch) : ConvKey := (d.env, d.zid)

def Dispatch.op (d : Dispatch) : OpKey := (d.env, d.zid, d.operation)

/-- What the lease records of the dispatch. -/
def Dispatch.columns (d : Dispatch) : DispatchColumns where
  operationId := d.operation
  capabilitySha256 := b.sha256 d.capability
  checkpointSha256 := checkpointDigest b d.base
  expectedTick := d.expected
  marginMs := d.marginMs

/-- The arguments of its `pc_admit`. -/
def Dispatch.admission (d : Dispatch) : AdmitArgs where
  env := d.env
  zid := d.zid
  owner := d.owner
  epoch := d.epoch
  operation := d.operation
  sourceSha256 := d.sourceSha256
  reservedBytes := d.reservationBytes

/-- The checks before the admission. -/
def Dispatch.prepare (d : Dispatch) : Except BridgeError Unit := do
  ensure (0 < d.reservationBytes) "RECEIPT_RESERVATION_REQUIRED"
  ensure (d.credential = true) "PUBLISHER_CREDENTIAL_REQUIRED"
  ensure ((members? d.checkpoint).isSome = true) "CHECKPOINT_OBJECT_REQUIRED"
  ensure (∀ key ∈ ["publisher_epoch", "original_digests", "payload_digests"],
    member d.checkpoint key = none) "RECEIPT_FIELDS_IN_CHECKPOINT"
  ensure (1 ≤ d.marginMs ∧ d.marginMs ≤ 60000) "INVALID_DISPATCH_MARGIN"

/-- What the transaction of the admission comes to. -/
inductive Begun
  | admitted
  | conflict
  | refused (state : LeaseState)
deriving DecidableEq, Repr

/-- The lease update and `pc_admit`, in one transaction. -/
def Dispatch.begin (d : Dispatch) (db : Database) (s : Session) (clock clock' : Clock) :
    Except BridgeError (Begun × Database) :=
  match dispatchLease db s clock d.conv d.owner d.epoch (d.columns b) with
  | .error e => .error (.database e)
  | .ok (some state, _) => .ok (.refused state, db)
  | .ok (none, armed) =>
    match pcAdmit armed s clock' d.admission with
    | .ok (_, db') => .ok (.admitted, { db' with xid := db.xid + 1 })
    | .error (.raised code message) =>
      if code = "P2020" ∧ message = "ADMISSION_TICK_CONFLICT" then .ok (.conflict, db)
      else if code = "P2005" then .ok (.refused .expired, db)
      else .error (.database (.raised code message))
    | .error e => .error (.database e)

/-! ## The lines of the process -/

/-- The members of a line that are read, where they are strings; `publish_retries` where it is `u64`. -/
structure BridgeReply where
  protocol : Option String := none
  phase : Option String := none
  stage : Option String := none
  outcome : Option String := none
  code : Option String := none
  publishRetries : Option ℕ := none
deriving DecidableEq, Repr

def protocol : String := "polis-poller-bridge/1"

def stages : List String :=
  ["after_source_selection", "after_input_checkpoint", "before_worker_apply", "after_worker_compute",
    "after_lease", "before_ticks", "after_ticks", "before_bidtopid", "after_bidtopid",
    "before_ptptstats", "after_ptptstats", "before_main", "after_main", "before_commit",
    "after_commit", "after_ack", "before_restore", "after_restore", "before_cursor", "after_cursor",
    "before_sweep", "after_sweep", "bundle_pinned", "before_companion_join",
    "cache_eviction_contends_with_same_zid_update"]

/-- What one wait for a line brings; a line that does not parse has no reply, and a stage is resumed
unless its hook or the pipe fails. -/
inductive Received
  | line (reply : Option BridgeReply) (resumed : Bool)
  | idle
  | disconnected

/-- One turn of the loop: the deadline has passed, or the heartbeat has lost the lease, or it waits. -/
structure Turn where
  overdue : Bool := false
  lost : Option LeaseState := none
  received : Received

/-- The loop over the lines: whether publication has begun, and the last reply. The deadline ends it. -/
def replies (fault publishing : Bool) : List Turn → Bool × Except BridgeError BridgeReply
  | [] => (publishing, .error (.token "BRIDGE_DEADLINE"))
  | turn :: turns =>
    if turn.overdue then (publishing, .error (.token "BRIDGE_DEADLINE"))
    else match if publishing then none else turn.lost, turn.received with
      | some state, _ => (publishing, .error (.lease state))
      | none, .idle => replies fault publishing turns
      | none, .disconnected => (publishing, .error (.token "BRIDGE_REPLY_LOST"))
      | none, .line none _ => (publishing, .error .transport)
      | none, .line (some reply) resumed =>
        if reply.protocol ≠ some protocol then
          (publishing, .error (.token "BRIDGE_REPLY_PROTOCOL"))
        else if reply.phase = some "publication" then
          if publishing then (publishing, .error (.token "DUPLICATE_PUBLICATION_PHASE"))
          else replies fault true turns
        else match reply.stage with
          | none => (publishing, .ok reply)
          | some stage =>
            if !fault then (publishing, .error (.token "UNREQUESTED_BRIDGE_FAULT"))
            else if stage ∉ stages then (publishing, .error (.token "UNKNOWN_BRIDGE_STAGE"))
            else if !resumed then (publishing, .error .transport)
            else replies fault publishing turns

/-! ## The outcome -/

inductive Publication
  | committed (tick : ℤ)
  | conflict
  | refused (state : LeaseState)
deriving DecidableEq, Repr

/-- The codes of a definite refusal. -/
def refusalOf : String → Option LeaseState
  | "FENCED" => some .fenced
  | "LEASE-EXPIRED" => some .expired
  | "WRITER_AUTHORITY_REQUIRED" => some .unavailable
  | _ => none

/-- `receipt?.map_or(publication,Publication::Committed)` -/
def committedOr (receipt : Except BridgeError (Option ℤ)) (publication : Publication) :
    Except BridgeError Publication :=
  receipt.map fun tick => (tick.map .committed).getD publication

/-- The outcome when the reply decides nothing. -/
def unanswered (publishing : Bool) (result : Except BridgeError BridgeReply) :
    Option ℤ → Except BridgeError Publication
  | some tick => .ok (.committed tick)
  | none =>
    match result with
    | .error e => .error e
    | .ok _ =>
      .error (if publishing then .commitLost else .token "BRIDGE_COMPUTE_OR_ADMISSION_FAILED")

/-- The outcome of a dispatch, from the last reply and the readback. -/
def conclude (publishing : Bool) (result : Except BridgeError BridgeReply)
    (receipt : Except BridgeError (Option ℤ)) : Except BridgeError Publication :=
  match result with
  | .error e => receipt.bind (unanswered publishing (.error e))
  | .ok reply =>
    if (reply.outcome = some "committed" ∨ reply.outcome = some "already_committed") ∧
        ¬(∃ n ∈ reply.publishRetries, n ≤ 2) then
      .error (.token "INVALID_PUBLICATION_RETRY_COUNT")
    else if reply.outcome = some "conflict" then committedOr receipt .conflict
    else match reply.code.bind refusalOf with
      | some state => committedOr receipt (.refused state)
      | none => receipt.bind (unanswered publishing (.ok reply))

/-- The readback on its own connection: it answers, it fails, or its `COMMIT` is not acknowledged. -/
inductive Readback (s : Session) (k : OpKey) (db : Database) :
    Except BridgeError (Option ℤ) → Database → Prop
  | answered {clock : Clock} {tick : Option ℤ} {db' : Database} :
      reconcileOne b w db s clock k = .ok (tick, db') → Readback s k db (.ok tick) db'
  | failed {e : BridgeError} : Readback s k db (.error e) db
  | lost {clock : Clock} {tick : Option ℤ} {db' : Database} :
      reconcileOne b w db s clock k = .ok (tick, db') → Readback s k db (.error .transport) db'

/-- A dispatch from its first statement on: the calls of all others between its admission and its
readback, its outcome, and the database that it leaves. -/
inductive Dispatches (d : Dispatch) (s : Session) (db : Database) :
    List Event → Except BridgeError Publication → Database → Prop
  /-- A check or a statement fails before the admission is committed. -/
  | failed {e : BridgeError} : Dispatches d s db [] (.error e) db
  | conflict {clock clock' : Clock} {db' : Database} : d.prepare = .ok () →
      d.begin b db s clock clock' = .ok (.conflict, db') → Dispatches d s db [] (.ok .conflict) db'
  | refused {clock clock' : Clock} {state : LeaseState} {db' : Database} : d.prepare = .ok () →
      d.begin b db s clock clock' = .ok (.refused state, db') →
      Dispatches d s db [] (.ok (.refused state)) db'
  /-- The admission is committed, but not acknowledged, or the process cannot be launched. -/
  | unlaunched {clock clock' : Clock} {e : BridgeError} {db' : Database} : d.prepare = .ok () →
      d.begin b db s clock clock' = .ok (.admitted, db') → Dispatches d s db [] (.error e) db'
  /-- The process runs, with any lines in reply, and the operation is read back. -/
  | concluded {clock clock' : Clock} {turns : List Turn} {receipt : Except BridgeError (Option ℤ)}
      {es : List Event} {db₁ db₂ db₃ : Database} : d.prepare = .ok () →
      d.begin b db s clock clock' = .ok (.admitted, db₁) → Run (Step b) db₁ es db₂ →
      Readback b w s d.op db₂ receipt db₃ →
      Dispatches d s db es
        (conclude (replies d.fault false turns).1 (replies d.fault false turns).2 receipt) db₃

end Polis.Coordinator
