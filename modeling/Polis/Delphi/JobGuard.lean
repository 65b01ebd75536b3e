import Polis.Common.Reading
import Mathlib.Algebra.Order.Ring.Int

/-!
# Whether paid work is outstanding

A guard is released, and a client stops to poll, when a job is reported as no longer live. The answer comes
from reads that are no snapshot: the row of the job, and a scan of the queue page by page, while workers go on
to write. The queue is the DynamoDB table, whose scans are in the order of its keys.

Reference: `server/src/routes/delphi/jobGuard.ts` (`baseTableSweep`, `assessJobLiveness`,
`assessConversationLiveness`, `rowAnchor`).
-/

namespace Polis.Delphi.JobGuard

/-! ## Rows -/

/-- The parts of a row's anchor, whose JSON is another text for other parts. -/
structure Anchor where
  status : Option String
  version : Option ℤ
  updated_at : Option String
  completed_at : Option String
  process_exit_confirmed : Option Bool
  checker_schedule_failed : Option Bool
deriving DecidableEq, Repr

/-- The attributes of a queue row that liveness is judged by. -/
structure JobRow where
  job_id : String
  status : Option String
  version : Option ℤ
  updated_at : Option String
  completed_at : Option String
  process_exit_confirmed : Option Bool
  checker_schedule_failed : Option Bool
  batch_job_id : Option String
  conversation_id : Option String
deriving DecidableEq, Repr

namespace JobRow

variable (r : JobRow)

/-- `TERMINAL_STATUSES.has(row.status)` -/
def isTerminal : Bool := r.status = some "COMPLETED" || r.status = some "FAILED"

/-- `terminalWriteIsResolved` -/
def terminalWriteIsResolved : Bool :=
  if r.process_exit_confirmed = some false then false
  else if r.status = some "FAILED" then r.process_exit_confirmed = some true
  else true

/-- `rowAnchor` -/
def rowAnchor : Anchor :=
  ⟨r.status, r.version, r.updated_at, r.completed_at, r.process_exit_confirmed, r.checker_schedule_failed⟩

/-- `readJob` gives a row without a status the status `UNKNOWN`. -/
def normalised : JobRow :=
  if r.status = none ∨ r.status = some "" then { r with status := some "UNKNOWN" } else r

/-- The row of a checker of the job. -/
def isCheckerOf (jobId : String) : Prop := r.batch_job_id = some jobId

instance (jobId : String) : Decidable (r.isCheckerOf jobId) :=
  inferInstanceAs (Decidable (r.batch_job_id = some jobId))

end JobRow

/-! ## The queue and its workers -/

/-- The rows, and the ids that were ever used with their conversations. -/
structure Queue where
  rows : List JobRow
  used : List (String × Option String)

inductive Change
  | create (r : JobRow)
  | write (r : JobRow)
  | remove (jobId : String)

/-- What producers and workers do: an id is used once; a checker is created while its root is not terminal,
and in the conversation of the root; a write keeps the lineage of a row, and a row that is durably finished
stays so. -/
def Queue.change (q : Queue) : Change → Option Queue
  | .create r =>
    if r.job_id ≠ "" ∧ (∀ u ∈ q.used, u.1 ≠ r.job_id) ∧ (∀ p ∈ r.batch_job_id, p ≠ "" →
        ∃ root ∈ q.rows, root.job_id = p ∧ root.isTerminal = false ∧ root.conversation_id = r.conversation_id) then
      some ⟨q.rows ++ [r], (r.job_id, r.conversation_id) :: q.used⟩
    else none
  | .write r =>
    match q.rows.find? (·.job_id = r.job_id) with
    | some old =>
      if r.batch_job_id = old.batch_job_id ∧ r.conversation_id = old.conversation_id ∧
          (old.isTerminal = true → r.isTerminal = true) then
        some { q with rows := q.rows.map fun old => if old.job_id = r.job_id then r else old }
      else none
    | none => none
  | .remove jobId => some { q with rows := q.rows.filter (·.job_id ≠ jobId) }

/-- The rows and the used ids fit together. -/
structure Queue.WellFormed (q : Queue) : Prop where
  keyed : ∀ r ∈ q.rows, ∀ r' ∈ q.rows, r.job_id = r'.job_id → r = r'
  named : ∀ r ∈ q.rows, r.job_id ≠ "" ∧ (r.job_id, r.conversation_id) ∈ q.used
  single : ∀ u ∈ q.used, ∀ v ∈ q.used, u.1 = v.1 → u = v
  lineage : ∀ r ∈ q.rows, ∀ j, r.isCheckerOf j → j ≠ "" → (j, r.conversation_id) ∈ q.used

/-! ## Reads -/

structure ReadError where
  name : String
  text : String
deriving DecidableEq, Repr

/-- `isSubstrateMissing` -/
def ReadError.isSubstrateMissing (e : ReadError) : Bool := e.name = "ResourceNotFoundException"

/-- How a read is answered; a page goes up to a key, or to the end, and says how many items it looked at. -/
inductive Served
  | ok (last : Option ℤ) (scannedCount : ℕ)
  | error (e : ReadError)

structure Page where
  items : List JobRow
  scannedCount : ℕ
  last : Option ℤ

/-- `readJob` -/
def Queue.readJob (q : Queue) (jobId : String) : Served → Except ReadError (Option JobRow)
  | .ok _ _ => .ok ((q.rows.find? (·.job_id = jobId)).map JobRow.normalised)
  | .error e => .error e

/-- The key is on the page. -/
def onPage (start last : Option ℤ) (key : ℤ) : Bool := start.all (· < key) && last.all (key ≤ ·)

/-- A page of `scan`, by the place of each id in the order of the keys. -/
def Queue.scan (pos : String → ℤ) (q : Queue) (keep : JobRow → Bool) (start : Option ℤ) :
    Served → Except ReadError Page
  | .ok last scannedCount =>
    .ok ⟨q.rows.filter fun r => keep r && onPage start last (pos r.job_id), scannedCount, last⟩
  | .error e => .error e

/-! ## Sweeps -/

def SCAN_MAX_PAGES : ℕ := 40

def SCAN_MAX_SCANNED_ITEMS : ℕ := 20000

inductive SweepResult
  | found (value : List JobRow)
  | none
  | unknown (reason : String)
deriving DecidableEq, Repr

/-- The loop of `baseTableSweep` before a page. -/
structure Scan where
  page : ℕ := 0
  scanned : ℕ := 0
  found : List JobRow := []
  start : Option ℤ := none
deriving DecidableEq, Repr

/-- After a page the loop goes on, returns or throws. -/
inductive Scan.Result
  | more (scan : Scan)
  | ended (r : SweepResult)
  | thrown (e : ReadError)

/-- One turn of the loop of `baseTableSweep`. -/
def Scan.resume (what : String) (s : Scan) : Except ReadError Page → Scan.Result
  | .ok p =>
    let found := s.found ++ p.items
    let scanned := s.scanned + p.scannedCount
    match p.last with
    | none => .ended (if found = [] then .none else .found found)
    | some last =>
      if SCAN_MAX_SCANNED_ITEMS ≤ scanned then .ended (.unknown (what ++ ": scanned-item cap reached"))
      else if s.page + 1 = SCAN_MAX_PAGES then .ended (.unknown (what ++ ": page cap reached"))
      else .more ⟨s.page + 1, scanned, found, some last⟩
  | .error e =>
    if e.isSubstrateMissing then .thrown e
    else .ended (.unknown (what ++ ": " ++ if e.name = "" then "read failed" else e.name))

/-! ## One job -/

structure Liveness where
  status : String
  live : Bool
  reason : String
deriving DecidableEq, Repr

/-- Where `assessJobLiveness` stands. -/
inductive Assess
  | reading
  | sweeping (row : Option JobRow) (scan : Scan)
  | rereading (row : JobRow)
  | answered (l : Liveness)
  | thrown (e : ReadError)

/-- The filter of `sweepLiveDescendants`. -/
def isLiveDescendant (rootJobId : String) (r : JobRow) : Bool := r.batch_job_id = some rootJobId && !r.isTerminal

namespace Assess

/-- `row?.status || "UNKNOWN"` -/
def statusOf (row : Option JobRow) : String :=
  match row.bind (·.status) with
  | some s => if s = "" then "UNKNOWN" else s
  | none => "UNKNOWN"

def afterRoot : Except ReadError (Option JobRow) → Assess
  | .ok row => .sweeping row {}
  | .error e =>
    if e.isSubstrateMissing then .thrown e
    else .answered ⟨"UNKNOWN", true, "root unreadable (" ++ (if e.name = "" then e.text else e.name) ++ ")"⟩

def afterSweep (row : Option JobRow) : SweepResult → Assess
  | .found _ => .answered ⟨statusOf row, true, "a descendant is still non-terminal"⟩
  | .unknown reason => .answered ⟨statusOf row, true, reason⟩
  | .none =>
    match row with
    | none => .answered
        ⟨"UNKNOWN", true, "root row absent; clear the guard by hand if this was a reset"⟩
    | some row =>
      -- `rootWasTerminalBeforeSweep` is this same test.
      if row.isTerminal then .rereading row
      else .answered ⟨statusOf (some row), true, "root is not terminal"⟩

def afterPage (row : Option JobRow) : Scan.Result → Assess
  | .more scan => .sweeping row scan
  | .ended r => afterSweep row r
  | .thrown e => .thrown e

def afterReread (row : JobRow) (reply : Except ReadError (Option JobRow)) : Assess :=
  let after : Option JobRow := match reply with
    | .ok after => after
    | .error _ => none
  if after.map (·.rowAnchor) ≠ some row.rowAnchor then
    .answered ⟨statusOf (some row), true, "the root changed while its descendants were being swept"⟩
  else if row.checker_schedule_failed = some true then
    .answered ⟨statusOf (some row), true, "the root could not schedule its checker after submitting work"⟩
  else if row.terminalWriteIsResolved then .answered ⟨statusOf (some row), false, "terminal and childless"⟩
  else .answered ⟨statusOf (some row), true,
    "terminal without a confirmed process-tree exit; the worker may still be running"⟩

/-- `assessJobLiveness`, read by read -/
def ask (pos : String → ℤ) (jobId : String) : Assess → Option (Queue → Served → Assess)
  | .reading => some fun q how => afterRoot (q.readJob jobId how)
  | .sweeping row scan => some fun q how => afterPage row
      (scan.resume "descendants of a terminal root" (q.scan pos (isLiveDescendant jobId) scan.start how))
  | .rereading row => some fun q how => afterReread row (q.readJob jobId how)
  | .answered _ | .thrown _ => none

end Assess

/-! ## One conversation -/

/-- `liveChildParents` -/
def liveChildParents (all : List JobRow) : List String :=
  all.filterMap fun r => if r.isTerminal then none else r.batch_job_id.filter (· ≠ "")

/-- What a sweep says of a row. -/
def isLive (all : List JobRow) (row : JobRow) : Bool :=
  (liveChildParents all).contains row.job_id || !row.isTerminal || row.checker_schedule_failed = some true ||
    !row.terminalWriteIsResolved

/-- The last row of the id, which the maps of a sweep keep. -/
def rowOf (all : List JobRow) (jobId : String) : Option JobRow := all.reverse.find? (·.job_id = jobId)

/-- The ids of a sweep. -/
def jobIds (all : List JobRow) : List String := (all.map (·.job_id)).eraseDups

/-- `live` -/
def liveMap (all : List JobRow) : List (String × Bool) :=
  (jobIds all).map fun j => (j, ((rowOf all j).map (isLive all)).getD true)

/-- Both sweeps say the same of the job, and its row has not moved. -/
def agreed (first second : List JobRow) (jobId : String) : Bool :=
  (rowOf first jobId).map (isLive first) = (rowOf second jobId).map (isLive second) &&
    (rowOf first jobId).map JobRow.rowAnchor = (rowOf second jobId).map JobRow.rowAnchor

/-- `liveByJobId` after two sweeps. -/
def confirmed (first second : List JobRow) : List (String × Bool) :=
  (liveMap second).map (fun p => (p.1, if agreed first second p.1 then p.2 else true)) ++
    ((jobIds first).filter (· ∉ jobIds second)).map (·, true)

/-- Where `assessConversationLiveness` stands. -/
inductive Converse
  | first (scan : Scan)
  | second (rows : List JobRow) (scan : Scan)
  | answered (complete : Bool) (liveByJobId : List (String × Bool)) (rowsByJobId : List JobRow)
  | thrown (e : ReadError)

namespace Converse

/-- The rows of a sweep, if it is one. -/
def rowsOf : SweepResult → Option (List JobRow)
  | .found all => some all
  | .none => some []
  | .unknown _ => none

def afterFirst : Scan.Result → Converse
  | .more scan => .first scan
  | .thrown e => .thrown e
  | .ended r =>
    match rowsOf r with
    | none => .answered false [] []
    | some all => if (liveMap all).any (!·.2) then .second all {} else .answered true (liveMap all) all

def afterSecond (first : List JobRow) : Scan.Result → Converse
  | .more scan => .second first scan
  | .thrown e => .thrown e
  | .ended r =>
    match rowsOf r with
    | none => .answered false [] first
    | some all => .answered true (confirmed first all) first

/-- The filter of `sweepConversation`. -/
def isInConversation (conversationId : String) (r : JobRow) : Bool := r.conversation_id = some conversationId

/-- `assessConversationLiveness`, page by page -/
def ask (pos : String → ℤ) (conversationId : String) : Converse → Option (Queue → Served → Converse)
  | .first scan => some fun q how => afterFirst
      (scan.resume "conversation liveness" (q.scan pos (isInConversation conversationId) scan.start how))
  | .second rows scan => some fun q how => afterSecond rows
      (scan.resume "conversation liveness" (q.scan pos (isInConversation conversationId) scan.start how))
  | .answered .. | .thrown _ => none

end Converse

end Polis.Delphi.JobGuard
