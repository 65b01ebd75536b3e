import Polis.Common.Freshness
import Polis.Common.Run
import Polis.Poller.Bundle
import Polis.Poller.Capacity

/-!
# The hand-off to the large class

A routed conversation is rebuilt by a child, which reads the committed rows when it starts and writes the
staged bundle later. The promotion pass compares the time of that write with the newest input that the record
was told of, promotes, settles the record, and asks the queue for a job. The conversation is fixed; a bundle
is known by the rows that it was computed from.

Reference: `delphi/polismath/poller/promotion.py` (`_promotion_pass`),
`delphi/polismath/poller/rebuild_child.py` (`run`), `delphi/polismath/poller/service.py`
(`_route_before_reserve`, `_capacity_refusal`, `_handle_zid`), `delphi/polismath/poller/capacity_queue.py`
(`enqueue_routed`).
-/

namespace Polis.Poller.Handoff

open Capacity Function

/-! ## Rows and bundles -/

inductive Input
  | vote
  | moderation
deriving DecidableEq, Repr

/-- A row of the conversation with its `created` or `modified`, the time at which its transaction began. -/
structure Row where
  id : ℕ
  kind : Input
  stamp : ℤ
deriving DecidableEq, Repr

/-- The newest vote among the rows: the `last_vote_timestamp` of a bundle. -/
def newestVote (rows : List Row) : ℤ := Freshness.newest Row.stamp (·.kind = .vote) rows

/-- `_newest_input_ms` -/
def newestInput : List Row → Option ℤ
  | [] => none
  | r :: rows => some (rows.foldl (fun m r => max m r.stamp) r.stamp)

/-- A published bundle: the rows that it was computed from, its fingerprint, and when the computation that it
comes from was written first; a promotion copies a bundle later than that. -/
structure Built where
  rows : List Row
  fp : Fingerprint
  computed : ℤ
deriving DecidableEq, Repr

/-- The two labels: `staged_label`, which the child writes, and the poller's own. -/
inductive Side
  | staged
  | own
deriving DecidableEq, Repr

/-- A computation: it has read the rows, or published what it computed from them. -/
inductive Compute
  | reading (side : Side) (rows : List Row)
  | published (side : Side)
deriving DecidableEq, Repr

/-! ## The pass -/

/-- The record that the pass has copied, and what the record was told of by then. -/
structure Demand where
  record : Disposition
  told : List Row
deriving DecidableEq, Repr

/-- Where the pass stands with the conversation. -/
inductive Pass
  | idle
  | recorded (d : Demand)
  | sighted (d : Demand) (staged target : Option Built)
  | promoting (d : Demand) (staged : Built) (target : Option Built)
  | promoted (d : Demand) (staged : Built)
  | judging (d : Demand) (staged target : Option Built)
  | asking (d : Demand)
deriving DecidableEq, Repr

def MAX_ENQUEUE_PER_TICK : ℕ := 20

/-- `usable` -/
def usable (staged : Option Fingerprint) : Bool := staged.any (·.complete)

/-- `usable and staged_newer(staged, target)` -/
def isNewer (staged target : Option Fingerprint) : Bool :=
  usable staged && staged.any fun f => staged_newer f target

/-- `covers` -/
def covers (d : Disposition) (staged : Option Fingerprint) : Bool :=
  usable staged && staged.any fun f => d.inputThroughMs.all (· ≤ f.modified)

/-- Whether the staged bundle waits. -/
def waits (d : Disposition) (staged target : Option Fingerprint) : Bool :=
  covers d staged && isNewer staged target

/-- Whether the record is resolved. -/
def resolves (d : Disposition) (staged target : Option Fingerprint) : Bool :=
  covers d staged && !isNewer staged target && target.isSome

/-! ## The system -/

/-- The database, the computations, the router with its state file, and the pass. `told` are the rows that the
record was told of, and `asks` counts what the pass has asked of the queue. -/
structure State (ι : Type) where
  clock : ℤ
  rows : List Row
  computes : ι → Option Compute
  staged : Option Built
  target : Option Built
  stagedTick : ℤ
  targetTick : ℤ
  router : Router
  file : StateFile
  told : List Row
  pass : Pass
  asks : ℕ

/-- What the queue answers an admission. -/
inductive Answer
  | job (jobId : String)
  | poisoned (jobId : String)
deriving DecidableEq, Repr

inductive Event (ι : Type)
  /-- The clock of the database. -/
  | tick (now : ℤ)
  /-- The transaction of a row ends. -/
  | commit (r : Row)
  /-- A child, or this poller's own computation, reads the rows. -/
  | start (i : ι) (side : Side)
  /-- It publishes its bundle. -/
  | write (i : ι)
  /-- It ends without a bundle, or has ended: its job is terminal. -/
  | stop (i : ι)
  /-- The record is closed after a publication of this poller. -/
  | resolve (i : ι) (saved : Bool)
  /-- A batch is sized and classified; `saved` says that the state file could be written. -/
  | observe (batch : List Row) (sizes : Option (ℤ × ℤ × ℤ)) (need : Option ℤ) (refused : Bool) (now : ℤ)
      (saved : Bool)
  /-- A batch only advances the record. -/
  | advance (batch : List Row) (now : ℤ) (saved : Bool)
  /-- A record of another binding is sized again. -/
  | resize (sizes : ℤ × ℤ × ℤ) (now : ℤ) (saved : Bool)
  /-- The nonce is applied with a mark that the clock of the database gave. -/
  | restage (nonce : String) (mark now : ℤ) (saved : Bool)
  /-- There are more than `MAX_RECORDS`. -/
  | trim (saved : Bool)
  /-- The queue answers an admission, by a pool thread or by the pass. -/
  | answer (a : Answer) (sourceCommit : Option String) (saved : Bool)
  /-- The poller starts again. -/
  | restart
  /-- The pass copies the record. -/
  | passRecord
  | passRead
  /-- It looks at the disposition again and asks for the receipt. -/
  | passCheck (receipt : Bool)
  /-- `promote_bundle`, which other reasons than the fingerprints may refuse. -/
  | passPromote (accepted : Bool)
  | passReread
  | passSettle (saved : Bool)
  /-- `asked` jobs were asked for in this pass before; `enqueue_routed` refuses without a commit. -/
  | passAsk (asked : ℕ) (sourceCommit : Option String)

namespace State

variable {ι : Type} [DecidableEq ι] (s : State ι)

def init (clock : ℤ) : State ι where
  clock
  rows := []
  computes _ := none
  staged := none
  target := none
  stagedTick := -1
  targetTick := -1
  router := ⟨none, false, none⟩
  file := ⟨none, none⟩
  told := []
  pass := .idle
  asks := 0

/-- The bundle of a read that is published now. -/
def built (rows : List Row) (tick : ℤ) : Built := ⟨rows, ⟨tick, newestVote rows, s.clock, true⟩, s.clock⟩

/-- The computation publishes its bundle under its label. -/
def publish (i : ι) (side : Side) (rows : List Row) : State ι :=
  let s' := { s with computes := update s.computes i (some (.published side)) }
  match side with
  | .staged => { s' with
      staged := some (s.built rows (s.stagedTick + 1))
      stagedTick := s.stagedTick + 1 }
  | .own => { s' with
      target := some (s.built rows (s.targetTick + 1))
      targetTick := s.targetTick + 1 }

/-- The router after an operation that says whether it writes the state file. -/
def route (op : Router × Bool) (saved : Bool) : State ι :=
  { s with
    router := op.1
    file := if op.2 && saved then op.1.save else s.file
    told := if op.1.record.isSome then s.told else [] }

/-- The record, if there is one, is told of the batch. -/
def tell (batch : List Row) : State ι :=
  { s with told := if s.router.record.isSome then s.told ++ batch else [] }

/-- The staged bundle becomes the target, later than it was computed. -/
def promote (staged : Built) : State ι :=
  { s with
    target := some ⟨staged.rows, ⟨s.targetTick + 1, staged.fp.lvt, s.clock, staged.fp.complete⟩,
      staged.computed⟩
    targetTick := s.targetTick + 1 }

/-- What `promote_bundle` requires of the committed bundles. -/
def promotable (staged : Built) (target : Option Built) : Bool :=
  s.staged.map (·.fp.key) = some staged.fp.key &&
    fingerprint_key (s.target.map (·.fp)) = fingerprint_key (target.map (·.fp)) &&
      isNewer (s.staged.map (·.fp)) (s.target.map (·.fp))

end State

variable {ι : Type} [DecidableEq ι]

/-- The steps of the pass. -/
def nextPass (s : State ι) : Event ι → Option (State ι)
  | .passRecord =>
    match s.pass, s.router.record with
    | .idle, some d =>
      if d.disposition = .large then some { s with pass := .recorded ⟨d, s.told⟩ } else none
    | _, _ => none
  | .passRead =>
    match s.pass with
    | .recorded d => some { s with pass := .sighted d s.staged s.target }
    | _ => none
  | .passCheck receipt =>
    match s.pass with
    | .sighted d staged target =>
      if s.router.disposition ≠ some .large then some { s with pass := .idle }
      else match staged with
        | some b =>
          if isNewer (some b.fp) (target.map (·.fp)) && d.record.jobId.isSome && receipt then
            some { s with pass := .promoting d b target }
          else some { s with pass := .judging d (some b) target }
        | none => some { s with pass := .judging d none target }
    | _ => none
  | .passPromote accepted =>
    match s.pass with
    | .promoting d b target =>
      match s.staged with
      | some current =>
        if accepted && s.promotable b target then
          some { s.promote current with pass := .promoted d b }
        else some { s with pass := .judging d (some b) target }
      | none => some { s with pass := .judging d (some b) target }
    | _ => none
  | .passReread =>
    match s.pass with
    | .promoted d b => some { s with pass := .judging d (some b) s.target }
    | _ => none
  | .passSettle saved =>
    match s.pass with
    | .judging d staged target =>
      let staged := staged.map (·.fp)
      let target := target.map (·.fp)
      let op := s.router.settle (waits d.record staged target) (resolves d.record staged target)
        (some d.record.inputThroughMs)
      some { s.route op saved with pass := if covers d.record staged then .idle else .asking d }
    | _ => none
  | .passAsk asked sourceCommit =>
    match s.pass with
    | .asking _ =>
      let asks := decide (asked < MAX_ENQUEUE_PER_TICK) && !s.router.poisoned sourceCommit &&
        s.router.disposition = some .large && sourceCommit.any (· ≠ "")
      some { s with pass := .idle, asks := if asks then s.asks + 1 else s.asks }
    | _ => none
  | _ => none

/-- The state after the event, if it can happen. -/
def next (z : Sizing) (s : State ι) : Event ι → Option (State ι)
  | .tick now => if s.clock ≤ now then some { s with clock := now } else none
  | .commit r => if r ∉ s.rows ∧ r.stamp ≤ s.clock then some { s with rows := s.rows ++ [r] } else none
  | .start i side =>
    if s.computes i = none then
      some { s with computes := update s.computes i (some (.reading side s.rows)) }
    else none
  | .write i =>
    match s.computes i with
    | some (.reading side rows) => some (s.publish i side rows)
    | _ => none
  | .stop i => some { s with computes := update s.computes i none }
  | .resolve i saved =>
    match s.computes i with
    | some (.published .own) =>
      some ({ s with computes := update s.computes i none }.route s.router.resolved saved)
    | _ => none
  | .observe batch sizes need refused now saved =>
    if ∀ r ∈ batch, r ∈ s.rows then
      (s.router.observe z sizes need (newestInput batch) refused true now).map fun (r, saves, _) =>
        (s.route (r, saves) saved).tell batch
    else none
  | .advance batch now saved =>
    if ∀ r ∈ batch, r ∈ s.rows then
      some ((s.route (s.router.advance (newestInput batch) now) saved).tell batch)
    else none
  | .resize sizes now saved =>
    (s.router.observe z (some sizes) none none false false now).map fun (r, saves, _) =>
      s.route (r, saves) saved
  | .restage nonce mark now saved =>
    if mark ≤ s.clock then some (s.route (s.router.apply_restage nonce mark now) saved) else none
  | .trim saved => some (s.route s.router.trim saved)
  | .answer a sourceCommit saved =>
    match a with
    | .job j => some (s.route (s.router.set_job (some j)) saved)
    | .poisoned j => some (s.route (s.router.park_poisoned (some j) sourceCommit) saved)
  | .restart =>
    some { s with
      router := s.file.load
      told := if s.file.load.record.isSome then s.told else []
      pass := .idle }
  | e => nextPass s e

def Step (z : Sizing) (s : State ι) (e : Event ι) (s' : State ι) : Prop := next z s e = some s'

end Polis.Poller.Handoff
