import Polis.Common.RowLocks
import Polis.Common.Run
import Polis.Poller.Bundle
import Polis.Queue.JobMachine

/-!
# Publication and promotion

A publication mints the tick of its label first, and the row lock of the tick orders the publications of the
label. A backfill checks behind that lock that nothing was published since it looked; a promotion copies the
bundle of a staged label, whose tick it locks in shared mode, and needs the receipt of the job that made it.

Reference: `delphi/polismath/database/postgres.py` (`increment_math_tick`, `promote_bundle`),
`delphi/polismath/poller/math_writer.py` (`write_conv_updates`), `delphi/polismath/poller/promotion.py`
(`_promotion_pass`, `_receipt_binds`), `delphi/polismath/poller/capacity_queue.py` (`receipt_of`),
`delphi/polismath/poller/backfill.py` (`_execute`).
-/

namespace Polis.Poller.Publications

open Sql

/-! ## Receipts -/

/-- A number that `json.loads` gives. -/
inductive PyNumber
  | int (n : ℤ)
  | float (repr : String)
deriving DecidableEq, Repr

/-- `m.get(key)` of a dict. -/
def dictGet (v : Json PyNumber) (key : String) : Option (Json PyNumber) :=
  match v with
  | .object m => m.lookup key
  | _ => none

/-- `pq_job_status`, as far as a receipt reads it. -/
structure JobStatus where
  state : Queue.JobState
  outputSha256 : Option String
  attemptId : Option String
deriving DecidableEq, Repr

/-- A row of `pq_attempt_logs`. -/
structure LogRow where
  seq : ℤ
  stream : String
  line : String
deriving DecidableEq, Repr

/-- `Receipt` -/
structure Receipt where
  jobId : String
  state : Queue.JobState
  outputSha256 : Option String
  mathEnv : Option String := none
  mathTick : Option ℤ := none
  voteHwm : Option ℤ := none
deriving DecidableEq, Repr

namespace Receipt

variable (r : Receipt)

def finalized : Bool := r.state = .succeeded && r.outputSha256.isSome && r.mathTick.isSome

/-- The receipt names this staged bundle. -/
def binds (staged : Fingerprint) (label : String) : Bool :=
  r.finalized && r.mathEnv = some label && r.mathTick = some staged.mathTick &&
    r.voteHwm = some staged.lvt

end Receipt

def MANIFEST_STREAM : String := "manifest"

def MANIFEST_SCHEMA : String := "polis-jobs.output-manifest/1"

def STAGE_MATH_REBUILD : String := "math_rebuild"

def LOG_PAGE : ℕ := 1000

def LOG_PAGES : ℕ := 64

section Manifests

variable (sha256Hex : String → String) (loads : String → Option (Json PyNumber))

/-- The loop of `_manifest_line` over the pages that the queue answers. -/
def manifestRow (sha : String) : List (List LogRow) → Option String
  | [] => none
  | rows :: pages =>
    match rows.find? fun r => r.stream = MANIFEST_STREAM && sha256Hex r.line = sha with
    | some r => some r.line
    | none => if rows.length < LOG_PAGE then none else manifestRow sha pages

/-- `_manifest_line` -/
def manifestLine (sha : String) (pages : List (List LogRow)) : Option String :=
  manifestRow sha256Hex sha (pages.take LOG_PAGES)

/-- What the manifest names: its label, tick and newest vote, if it is one of the job. -/
def manifestInputs (jobId : String) (m : Json PyNumber) : Option (String × ℤ × ℤ) :=
  match dictGet m "schema", dictGet m "job_id", dictGet m "stage", dictGet m "outcome",
    dictGet m "inputs" with
  | some (.string schema), some (.string job), some (.string stage), some (.string outcome),
    some (.object inputs) =>
      if schema = MANIFEST_SCHEMA ∧ job = jobId ∧ stage = STAGE_MATH_REBUILD ∧
          outcome = "succeeded" then
        match inputs.lookup "math_env", inputs.lookup "math_tick", inputs.lookup "vote_hwm" with
        | some (.string env), some (.number (.int tick)), some (.number (.int hwm)) =>
          some (env, tick, hwm)
        | _, _, _ => none
      else none
  | _, _, _, _, _ => none

/-- `receipt_of` -/
def receipt_of (jobId : String) (status : JobStatus) (manifest : Option String) : Receipt :=
  let bare : Receipt := ⟨jobId, status.state, status.outputSha256, none, none, none⟩
  match status.outputSha256, manifest with
  | some sha, some line =>
    if status.state ≠ .succeeded ∨ sha256Hex line ≠ sha then bare
    else match (loads line).bind (manifestInputs jobId) with
      | some (env, tick, hwm) => { bare with mathEnv := env, mathTick := tick, voteHwm := hwm }
      | none => bare
  | _, _ => bare

/-- `QueueClient.receipt`, for the status and the pages of log rows that the queue answers. -/
def receipt (jobId : String) (status : JobStatus) (pages : List (List LogRow)) : Receipt :=
  match status.outputSha256, status.attemptId with
  | some sha, some _ =>
    if status.state = .succeeded then
      receipt_of sha256Hex loads jobId status (manifestLine sha256Hex sha pages)
    else receipt_of sha256Hex loads jobId status none
  | _, _ => receipt_of sha256Hex loads jobId status none

end Manifests

/-! ## Tables -/

/-- `math_bidtopid` and `math_ptptstats` -/
inductive Companion
  | bidtopid
  | ptptstats
deriving DecidableEq, Repr

/-- The four tables of a bundle. -/
inductive Tbl
  | ticks
  | main
  | companion (c : Companion)
deriving DecidableEq, Repr

def Tbl.Row : Tbl → Type
  | .ticks => TicksRow
  | .main => MainRow
  | .companion _ => CompanionRow

/-- A label and a table; the conversation is fixed. -/
abbrev Key := String × Tbl

abbrev Tables (τ : Type) := Rows Key (fun k => k.2.Row) τ

/-- The bundle of a label among the rows that a statement sees. -/
def bundleOf (rows : ∀ k : Key, Option k.2.Row) (env : String) : Bundle where
  m := rows (env, .main)
  b := rows (env, .companion .bidtopid)
  p := rows (env, .companion .ptptstats)
  k := rows (env, .ticks)

/-- What a publication writes. -/
structure Payloads where
  main : Jsonb
  lastVoteTimestamp : ℤ
  bidtopid : Jsonb
  ptptstats : Jsonb

def Payloads.companion (y : Payloads) : Companion → Jsonb
  | .bidtopid => y.bidtopid
  | .ptptstats => y.ptptstats

/-! ## Statements -/

section Statements

variable {τ : Type} [DecidableEq τ] (rows : Tables τ) (t : τ)

/-- A write that has to wait is not executed. -/
def upsert (k : Key) (v : k.2.Row) : Option (Tables τ) :=
  if rows.Writable t k then some (rows.put t k v) else none

/-- The row that the upsert of the tick leaves. -/
def minted (old : Option TicksRow) (now : ℤ) : TicksRow :=
  match old with
  | none => ⟨0, now⟩
  | some k => ⟨k.mathTick + 1, now⟩

/-- `increment_math_tick` -/
def increment_math_tick (env : String) (now : ℤ) : Option (Tables τ × ℤ) :=
  let row := minted (rows.view t (env, .ticks)) now
  (upsert rows t (env, .ticks) row).map fun rows' => (rows', row.mathTick)

/-- `write_math_bidtopid` and `write_participant_stats` -/
def writeCompanion (env : String) (c : Companion) (data : Jsonb) (tick now : ℤ) : Option (Tables τ) :=
  upsert rows t (env, .companion c) (⟨tick, data, some now⟩ : CompanionRow)

/-- `write_math_main`, with the caching tick that its subquery allocates. -/
def write_math_main (env : String) (data : Jsonb) (lvt tick now caching : ℤ) : Option (Tables τ) :=
  upsert rows t (env, .main) (⟨lvt, tick, data, caching, some now⟩ : MainRow)

/-- `_COPY_COMPANION_SQL`, which inserts nothing without a source row. -/
def copyCompanion (c : Companion) (src dst : String) (tick now : ℤ) : Option (Tables τ) :=
  match rows.view t (src, .companion c) with
  | none => some rows
  | some (r : CompanionRow) => writeCompanion rows t dst c r.data tick now

/-- `COPY_MAIN_SQL` -/
def copyMain (src dst : String) (tick now caching : ℤ) : Option (Tables τ) :=
  match rows.view t (src, .main) with
  | none => some rows
  | some (r : MainRow) => write_math_main rows t dst r.data r.lastVoteTimestamp tick now caching

/-- `SELECT 1 FROM math_ticks … FOR SHARE`, which does not wait for a row that it does not see. -/
def shareTick (env : String) : Option (Tables τ) :=
  if (rows.view t (env, .ticks)).isNone ∨ rows.Shareable t (env, .ticks) then
    some (rows.share t (env, .ticks))
  else none

end Statements

/-! ## Threads -/

/-- Who publishes: live ingestion, or the backfill with the mark that it read. Beside the mark stands how
many publications of the label were committed when it was read. -/
inductive Origin
  | live
  | backfill (seen : Option (ℤ × ℤ)) (published : ℕ)
deriving DecidableEq, Repr

/-- `before_publish` does not raise. -/
def Origin.allows (o : Origin) (target : Bundle) : Bool :=
  match o with
  | .live => true
  | .backfill seen _ => target.mark = seen

/-- A call of `write_conv_updates` without a coordinator; `now` is the time of its transaction. -/
structure Publication where
  label : String
  payloads : Payloads
  now : ℤ
  origin : Origin

/-- What the caller of `promote_bundle` has seen, and how many publications of the two labels were
committed then. -/
structure Sight where
  src : String
  dst : String
  staged : Fingerprint
  target : Option Fingerprint
  stagedPublished : ℕ
  targetPublished : ℕ
deriving DecidableEq, Repr

/-- Who calls `promote_bundle`: the pass does it for a record, which may have a job. -/
inductive Caller
  | pass (job : Option String)
  | other
deriving DecidableEq, Repr

/-- A call of `promote_bundle`. -/
structure Promotion where
  sight : Sight
  now : ℤ
  caller : Caller
deriving DecidableEq, Repr

/-- What `promote_bundle` requires of the two bundles that it reads. -/
def Sight.promotable (numericIn : String → Option ℚ) (zid : ℤ) (x : Sight) (staged target : Bundle) : Bool :=
  fingerprint_key target.fingerprint = fingerprint_key x.target &&
    match staged.fingerprint with
    | none => false
    | some f => f.key = x.staged.key && f.complete &&
        decide (Holds (VALID_BUNDLE_SQL numericIn zid staged)) && staged_newer f target.fingerprint

/-- The last statement that a transaction has executed; from the first one on it has a tick. -/
inductive Stage
  | begun
  | minted (tick : ℤ)
  | shared (tick : ℤ)
  | checked (tick : ℤ)
  | bidtopid (tick : ℤ)
  | ptptstats (tick : ℤ)
  | main (tick caching : ℤ)
  | verified (tick caching : ℤ)
deriving DecidableEq, Repr

inductive Thread
  | idle
  /-- A backfill job between its state read and its publication. -/
  | rebuilding (label : String) (seen : Option (ℤ × ℤ)) (published : ℕ)
  | publishing (w : Publication) (stage : Stage)
  /-- A caller of `promote_bundle` that has read the fingerprints. -/
  | sighted (sight : Sight) (caller : Caller)
  /-- The receipt of the job binds the staged bundle. -/
  | bound (sight : Sight) (job : String)
  | promoting (p : Promotion) (stage : Stage)

/-- The tables, the threads, what the queue says of its jobs, and how many publications of each label are
committed. -/
structure State (τ : Type) where
  rows : Tables τ
  threads : τ → Thread
  queue : String → Option JobStatus
  published : String → ℕ

inductive Event (τ : Type)
  /-- Live ingestion opens its publication. -/
  | publish (t : τ) (label : String) (payloads : Payloads) (now : ℤ)
  /-- A backfill job reads the state of the label. -/
  | readState (t : τ) (label : String)
  /-- The backfill job opens its publication. -/
  | republish (t : τ) (payloads : Payloads) (now : ℤ)
  /-- The fingerprints of two labels are read. -/
  | readFingerprints (t : τ) (src dst : String) (caller : Caller)
  /-- The pass asks for the receipt of the job; `pages` are the log rows that the queue answers. -/
  | askReceipt (t : τ) (pages : List (List LogRow))
  /-- `promote_bundle` is called. -/
  | promote (t : τ) (now : ℤ)
  /-- The next statement of the transaction; `caching` is the caching tick that it allocates, if it
  writes the main row. -/
  | next (t : τ) (caching : ℤ)
  /-- An error, a timeout or the end of the process. -/
  | rollback (t : τ)
  /-- The queue changes a job that has not ended. -/
  | queue (job : String) (status : JobStatus)

namespace State

variable {τ : Type} [DecidableEq τ] (s : State τ) (t : τ)

/-- The committed bundle of a label. -/
def bundle (env : String) : Bundle := bundleOf s.rows.committed env

/-- The bundle of a label as the transaction sees it. -/
def seen (env : String) : Bundle := bundleOf (s.rows.view t) env

def setThread (x : Thread) : State τ := { s with threads := Function.update s.threads t x }

/-- The statement has changed the rows, and the thread goes on. -/
def goOn (rows : Tables τ) (x : Thread) : State τ := { s with rows }.setThread t x

/-- The transaction is rolled back. -/
def abort : State τ := s.goOn t (s.rows.rollback t) .idle

/-- The transaction commits a publication of the label. -/
def finish (label : String) : State τ :=
  { s.goOn t (s.rows.commit t) .idle with
    published := Function.update s.published label (s.published label + 1) }

/-- The next statement of `write_conv_updates`. -/
def nextWrite (w : Publication) (caching : ℤ) : Stage → Option (State τ)
  | .begun => (increment_math_tick s.rows t w.label w.now).map fun (rows, tick) =>
    s.goOn t rows (.publishing w (.minted tick))
  | .minted tick =>
    if w.origin.allows (s.seen t w.label) then some (s.setThread t (.publishing w (.checked tick)))
    else some (s.abort t)
  | .checked tick =>
    (writeCompanion s.rows t w.label .bidtopid w.payloads.bidtopid tick w.now).map fun rows =>
      s.goOn t rows (.publishing w (.bidtopid tick))
  | .bidtopid tick =>
    (writeCompanion s.rows t w.label .ptptstats w.payloads.ptptstats tick w.now).map fun rows =>
      s.goOn t rows (.publishing w (.ptptstats tick))
  | .ptptstats tick =>
    (write_math_main s.rows t w.label w.payloads.main w.payloads.lastVoteTimestamp tick w.now
      caching).map fun rows => s.goOn t rows (.publishing w (.main tick caching))
  | .main _ _ => some (s.finish t w.label)
  | .shared _ | .verified _ _ => none

/-- The next statement of `promote_bundle`. -/
def nextPromote (numericIn : String → Option ℚ) (zid : ℤ) (p : Promotion) (caching : ℤ) :
    Stage → Option (State τ)
  | .begun => (increment_math_tick s.rows t p.sight.dst p.now).map fun (rows, tick) =>
    s.goOn t rows (.promoting p (.minted tick))
  | .minted tick => (shareTick s.rows t p.sight.src).map fun rows =>
    s.goOn t rows (.promoting p (.shared tick))
  | .shared tick =>
    if p.sight.promotable numericIn zid (s.seen t p.sight.src) (s.seen t p.sight.dst) then
      some (s.setThread t (.promoting p (.checked tick)))
    else some (s.abort t)
  | .checked tick =>
    (copyCompanion s.rows t .bidtopid p.sight.src p.sight.dst tick p.now).map fun rows =>
      s.goOn t rows (.promoting p (.bidtopid tick))
  | .bidtopid tick =>
    (copyCompanion s.rows t .ptptstats p.sight.src p.sight.dst tick p.now).map fun rows =>
      s.goOn t rows (.promoting p (.ptptstats tick))
  | .ptptstats tick =>
    (copyMain s.rows t p.sight.src p.sight.dst tick p.now caching).map fun rows =>
      s.goOn t rows (.promoting p (.main tick caching))
  | .main tick caching =>
    if (s.seen t p.sight.dst).atTick tick then
      some (s.setThread t (.promoting p (.verified tick caching)))
    else some (s.abort t)
  | .verified _ _ => some (s.finish t p.sight.dst)

end State

/-! ## The system -/

/-- What the system does not define itself: how PostgreSQL reads a number, SHA-256 and `json.loads`; and the
conversation. -/
structure World where
  numericIn : String → Option ℚ
  sha256Hex : String → String
  loads : String → Option (Json PyNumber)
  zid : ℤ

section System

variable {τ : Type} [DecidableEq τ]

/-- What the caller sees, if there is a staged row. -/
def State.sight (s : State τ) (src dst : String) : Option Sight :=
  (s.bundle src).fingerprint.map fun staged =>
    ⟨src, dst, staged, (s.bundle dst).fingerprint, s.published src, s.published dst⟩

/-- `_promotion_pass` and `_receipt_binds`, for the status that the queue answers. -/
def World.passes (world : World) (x : Sight) (job : String) (status : JobStatus)
    (pages : List (List LogRow)) : Bool :=
  x.staged.complete && staged_newer x.staged x.target &&
    (receipt world.sha256Hex world.loads job status pages).binds x.staged x.src

/-- The call refuses two labels that are one. -/
def callPromote (x : Sight) (now : ℤ) (caller : Caller) : Thread :=
  if x.src = x.dst then .idle else .promoting ⟨x, now, caller⟩ .begun

/-- The state after the event, if it can happen. -/
def next (world : World) (s : State τ) : Event τ → Option (State τ)
  | .publish t label payloads now =>
    match s.threads t with
    | .idle => some (s.setThread t (.publishing ⟨label, payloads, now, .live⟩ .begun))
    | _ => none
  | .readState t label =>
    match s.threads t with
    | .idle => some (s.setThread t (.rebuilding label (s.bundle label).mark (s.published label)))
    | _ => none
  | .republish t payloads now =>
    match s.threads t with
    | .rebuilding label seen n =>
      some (s.setThread t (.publishing ⟨label, payloads, now, .backfill seen n⟩ .begun))
    | _ => none
  | .readFingerprints t src dst caller =>
    match s.threads t with
    | .idle => (s.sight src dst).map fun x => s.setThread t (.sighted x caller)
    | _ => none
  | .askReceipt t pages =>
    match s.threads t with
    | .sighted x (.pass (some job)) =>
      if (s.queue job).any fun status => world.passes x job status pages then
        some (s.setThread t (.bound x job))
      else some (s.setThread t .idle)
    | _ => none
  | .promote t now =>
    match s.threads t with
    | .sighted x .other => some (s.setThread t (callPromote x now .other))
    | .bound x job => some (s.setThread t (callPromote x now (.pass (some job))))
    | _ => none
  | .next t caching =>
    match s.threads t with
    | .publishing w stage => s.nextWrite t w caching stage
    | .promoting p stage => s.nextPromote t world.numericIn world.zid p caching stage
    | _ => none
  | .rollback t => some (s.abort t)
  | .queue job status =>
    if (s.queue job).all fun old => !old.state.terminal || status = old then
      some { s with queue := Function.update s.queue job (some status) }
    else none

def Step (world : World) (s : State τ) (e : Event τ) (s' : State τ) : Prop := next world s e = some s'

/-- Nothing runs, and the bundle of every label is at one tick. -/
structure Start (s : State τ) : Prop where
  written : ∀ t k, s.rows.written t k = none
  owner : ∀ k, s.rows.owner k = none
  threads : ∀ t, s.threads t = .idle
  published : ∀ label, s.published label = 0
  oneTick : ∀ label, (s.bundle label).OneTick

end System

end Polis.Poller.Publications
