import Polis.Poller.Window
import Mathlib.Data.Prod.Lex

/-!
# The vote convention

Votes are stored with a sign for agree that the database may state in its `vote_convention` row. The
source asks the database once in a poll cycle and keeps the answer; where it came from the row, every
vote statement joins the row, and each vote is converted by the sign it was read with.

Reference: `polismath/utils/vote_convention.py`, `polismath/database/postgres.py`,
`polismath/poller/service.py`.
-/

namespace Polis.Poller

/-! ## The convention -/

/-- A column of a result row, as Python receives it. -/
inductive ColumnValue
  | null
  | int (value : ℤ)
  | bool (value : Bool)
  | float (repr : String)
  | str (value : String)
deriving DecidableEq, Repr

/-- What a read raises: `VoteConventionError`, the `TypeError` of a NULL vote, or the database. -/
inductive ReadError
  | agreeValue
  | version
  | rowCount (count : ℕ)
  | contradiction (declared row : ℤ)
  | nullVote
  | typeError
  | database
deriving DecidableEq, Repr

/-- `STORAGE_AGREE_VALUE` -/
def storageAgreeValue : ℤ := -1

/-- The two admissible signs, `ADMISSIBLE_STORAGE_AGREE_VALUES`. -/
def Admissible (value : ℤ) : Prop := value = -1 ∨ value = 1

instance (value : ℤ) : Decidable (Admissible value) :=
  inferInstanceAs (Decidable (value = -1 ∨ value = 1))

/-- `validate_storage_agree_value` -/
def validateStorageAgreeValue : ColumnValue → Except ReadError ℤ
  | .int value => if Admissible value then .ok value else .error .agreeValue
  | _ => .error .agreeValue

/-- Where an answer came from. -/
inductive Origin
  | database
  | databaseAbsent
deriving DecidableEq, Repr

/-- `StorageConvention`, with what `__post_init__` checks. -/
structure StorageConvention where
  agreeValue : ℤ
  version : Option ℤ
  origin : Origin
  admissible : Admissible agreeValue
  version_nonneg : ∀ v ∈ version, 0 ≤ v
deriving DecidableEq, Repr

/-- `StorageConvention(...)` over the values of a row. -/
def StorageConvention.ofRow (agreeValue version : ColumnValue) : Except ReadError StorageConvention :=
  match agreeValue with
  | .int a =>
    if ha : Admissible a then
      match version with
      | .null => .ok ⟨a, none, .database, ha, by simp⟩
      | .int v => if hv : 0 ≤ v then .ok ⟨a, some v, .database, ha, by simpa using hv⟩ else .error .version
      | _ => .error .version
    else .error .agreeValue
  | _ => .error .agreeValue

/-- `ABSENT_CONVENTION` -/
def absentConvention : StorageConvention :=
  ⟨storageAgreeValue, some 0, .databaseAbsent, .inl rfl, by simp⟩

/-! ## The database -/

/-- A row of the `votes` table, in the stored sign. -/
structure StoredVote where
  zid : ℤ
  pid : ℤ
  tid : ℤ
  vote : Option ℤ
  created : ℤ
deriving DecidableEq, Repr

/-- A row of `vote_convention_current()`. -/
structure ConventionRow where
  version : ColumnValue
  agreeValue : ColumnValue
deriving DecidableEq, Repr

/-- The votes, and what `vote_convention_current()` returns where the function exists. -/
structure VoteDatabase where
  votes : List StoredVote
  convention : Option (List ConventionRow)

/-- The conversation or stamp a vote statement asks for: the `WHERE` of `poll_votes` and of
`poll_votes_since`. -/
inductive VoteRead
  | history (zid : ℤ) (since : Option ℤ)
  | recent (since : ℤ)
deriving DecidableEq, Repr

/-- `WHERE` -/
def VoteRead.selects : VoteRead → StoredVote → Bool
  | .history zid none, row => row.zid = zid
  | .history zid (some since), row => row.zid = zid && since < row.created
  | .recent since, row => since < row.created

/-- A fetched vote, with the columns of `CONVENTION_COLUMNS_SQL` when they were joined. -/
structure FetchedVote where
  row : StoredVote
  convention : Option ConventionRow
deriving DecidableEq, Repr

/-- `CONVENTION_JOIN_SQL`: a vote beside each convention row, beside NULLs where there is none. -/
def joinConvention (conventions : List ConventionRow) (row : StoredVote) : List FetchedVote :=
  match conventions with
  | [] => [⟨row, some ⟨.null, .null⟩⟩]
  | conventions => conventions.map fun c => ⟨row, some c⟩

/-- The rows the statement of `_vote_rows` finds, in the order of the table. -/
def VoteDatabase.found (db : VoteDatabase) (read : VoteRead) (joined : Bool) :
    Except ReadError (List FetchedVote) :=
  let votes := db.votes.filter read.selects
  if joined then
    match db.convention with
    | none => .error .database
    | some conventions => .ok (votes.flatMap (joinConvention conventions))
  else .ok (votes.map fun row => ⟨row, none⟩)

/-- Whether a row may stand before another: `ORDER BY zid, tid, pid, created`. -/
def FetchedVote.before (a b : FetchedVote) : Prop :=
  toLex (a.row.zid, toLex (a.row.tid, toLex (a.row.pid, a.row.created))) ≤
    toLex (b.row.zid, toLex (b.row.tid, toLex (b.row.pid, b.row.created)))

instance : DecidableRel FetchedVote.before := fun _ _ => inferInstanceAs (Decidable (_ ≤ _))

/-- The rows at the given places. -/
def picked (order : List ℕ) (rows : List FetchedVote) : List FetchedVote :=
  order.filterMap fun i => rows[i]?

/-- The found rows in the order the database chose, given by their places in the table; ties are in
any order. -/
def arranged (order : List ℕ) (rows : List FetchedVote) : Option (List FetchedVote) :=
  if order.Perm (List.range rows.length) ∧ (picked order rows).Pairwise FetchedVote.before then
    some (picked order rows)
  else none

/-! ## Converting the votes -/

/-- `semantic_vote` -/
def semanticVote (raw : Option ℤ) (s : ℤ) : Except ReadError ℤ :=
  match raw with
  | none => .error .nullVote
  | some raw => .ok (raw * s)

/-- The sign of one row in `load_semantic_votes`: its own, or the fallback. -/
def rowSign (declared : Option ℤ) (fallback : ℤ) (convention : Option ConventionRow) :
    Except ReadError ℤ := do
  match convention with
  | some c =>
    let s ← validateStorageAgreeValue c.agreeValue
    match declared with
    | some d => if d ≠ s then .error (.contradiction d s) else .ok s
    | none => .ok s
  | none => .ok (declared.getD fallback)

/-- One row of `load_semantic_votes`. -/
def loadSemanticVote (declared : Option ℤ) (fallback : ℤ) (fetched : FetchedVote) :
    Except ReadError VoteRow := do
  let s ← rowSign declared fallback fetched.convention
  let vote ← semanticVote fetched.row.vote s
  .ok ⟨fetched.row.zid, fetched.row.pid, fetched.row.tid, vote, fetched.row.created⟩

/-- `load_semantic_votes` with `null_policy` "refuse". `fallback` is the sign of the module's source,
for rows without their own when none is declared. -/
def loadSemanticVotes (rows : List FetchedVote) (storageAgreeValue : Option ColumnValue)
    (fallback : ℤ) : Except ReadError (List VoteRow) := do
  let declared ← storageAgreeValue.mapM validateStorageAgreeValue
  rows.mapM (loadSemanticVote declared fallback)

/-- `{**r, "vote": int(r["vote"])}` -/
def intVote (fetched : FetchedVote) : Except ReadError FetchedVote :=
  match fetched.row.vote with
  | none => .error .typeError
  | some _ => .ok fetched

/-- `_vote_rows` on the answer of the source and the rows its statement returned. -/
def voteRows (convention : StorageConvention) (fallback : ℤ) (rows : List FetchedVote) :
    Except ReadError (List VoteRow) := do
  let rows ← rows.mapM intVote
  loadSemanticVotes rows
    (if convention.origin = .database then none else some (.int convention.agreeValue)) fallback

/-- `fetch` of `database_row_fetcher` once the function is known to exist, and the answer
`current` builds from it. -/
def conventionOf (rows : List ConventionRow) : Except ReadError StorageConvention :=
  match rows with
  | [row] => StorageConvention.ofRow row.agreeValue row.version
  | rows => .error (.rowCount rows.length)

/-! ## The readers -/

/-- Who reads: the vote poll, or a worker loading a full history. -/
inductive Reader
  | poll
  | worker (id : ℕ)
deriving DecidableEq, Repr

/-- Where a reader stands: idle, at a poll whose cycle has begun, inside `current` before and after it
learned that the function exists, or with an answer and its vote statement to run. -/
inductive ReadStage
  | idle
  | begun
  | asking (read : VoteRead)
  | found (read : VoteRead)
  | answered (read : VoteRead) (convention : StorageConvention)

/-- What a reader got: the rows of a read, or what it raised. -/
structure Returned where
  reader : Reader
  result : Except ReadError (List VoteRow)

/-- The database and the service: `_cached` and `_lock` of the source, the readers, `_vote_wm` and
`_vote_window`, what the reads returned, and the cycles of the vote poll. -/
structure ReadState where
  db : VoteDatabase
  cached : Option StorageConvention
  lock : Option Reader
  stage : Reader → ReadStage
  watermark : ℤ
  window : Option (PollWindow VoteKey VoteCell)
  returned : List Returned
  cycles : List (Cycle VoteRow VoteKey VoteCell)

/-- What happens: a vote commits, the storage sign flips in one transaction that raises the version, or
a reader takes its next step. `order` is the order in which the database returns a statement's rows. -/
inductive ReadEvent
  | insert (row : StoredVote)
  | flip (raised : ℕ)
  | beginCycle
  | askPoll
  | askHistory (id : ℕ) (zid : ℤ) (since : Option ℤ)
  | askPresent (reader : Reader)
  | askRow (reader : Reader)
  | readVotes (reader : Reader) (order : List ℕ)
  | fail (reader : Reader)

/-- A vote in the other sign. -/
def StoredVote.negate (row : StoredVote) : StoredVote := { row with vote := row.vote.map Neg.neg }

/-- The convention row in the other sign, under a higher version. -/
def ConventionRow.flip (raised : ℕ) : ConventionRow → ConventionRow
  | ⟨.int v, .int a⟩ => ⟨.int (v + raised + 1), .int (-a)⟩
  | row => row

/-- One transaction that negates every stored vote with the row's `agree_value`. -/
def VoteDatabase.flip (raised : ℕ) (db : VoteDatabase) : VoteDatabase :=
  ⟨db.votes.map StoredVote.negate, db.convention.map (List.map (ConventionRow.flip raised))⟩

namespace ReadState

/-- The service over a database, at its starting watermark. -/
def init (db : VoteDatabase) (watermark : ℤ) : ReadState :=
  ⟨db, none, none, fun _ => .idle, watermark, none, [], []⟩

/-- The window the vote poll works with. -/
def polling (s : ReadState) : PollState VoteRow VoteKey VoteCell := ⟨[], s.watermark, s.window⟩

/-- A reader moves on. -/
def setStage (s : ReadState) (reader : Reader) (stage : ReadStage) : ReadState :=
  { s with stage := fun r => if r = reader then stage else s.stage r }

/-- `current`: the cached answer, or the lock is held while the database is asked. -/
def ask (s : ReadState) (reader : Reader) (read : VoteRead) : Option ReadState :=
  match s.lock, s.cached with
  | none, some convention => some (s.setStage reader (.answered read convention))
  | none, none => some { s.setStage reader (.asking read) with lock := some reader }
  | some _, _ => none

/-- The answer is cached and the lock released. -/
def answer (s : ReadState) (reader : Reader) (read : VoteRead) (convention : StorageConvention) :
    ReadState :=
  { s.setStage reader (.answered read convention) with cached := some convention, lock := none }

/-- A read raises, out of the lock if it holds it. -/
def raise (s : ReadState) (reader : Reader) (error : ReadError) : ReadState :=
  { s.setStage reader .idle with
    lock := if s.lock = some reader then none else s.lock
    returned := s.returned ++ [⟨reader, .error error⟩] }

/-- A read returns its rows; the vote poll divides them and goes on to its next window. -/
def deliver (overlapMs : ℤ) (s : ReadState) (reader : Reader) (rows : List VoteRow) : ReadState :=
  let s := { s.setStage reader .idle with returned := s.returned ++ [⟨reader, .ok rows⟩] }
  match reader with
  | .poll =>
    let cycle := s.polling.cycle voteKind overlapMs rows
    { s with
      watermark := cycle.next.watermark
      window := some cycle.next
      cycles := s.cycles ++ [cycle] }
  | .worker _ => s

/-- The vote statement of a reader that has its answer. -/
def readVotes (overlapMs fallback : ℤ) (s : ReadState) (reader : Reader) (read : VoteRead)
    (convention : StorageConvention) (order : List ℕ) : Option ReadState :=
  match s.db.found read (convention.origin = .database) with
  | .error e => some (s.raise reader e)
  | .ok found => (arranged order found).map fun rows =>
    match voteRows convention fallback rows with
    | .error e => s.raise reader e
    | .ok rows => s.deliver overlapMs reader rows

/-- One event, where it is possible. -/
def step (overlapMs fallback : ℤ) (s : ReadState) : ReadEvent → Option ReadState
  | .insert row => some { s with db := { s.db with votes := s.db.votes ++ [row] } }
  | .flip raised => some { s with db := s.db.flip raised }
  | .beginCycle =>
    match s.stage .poll, s.lock with
    | .idle, none => some { s.setStage .poll .begun with cached := none }
    | _, _ => none
  | .askPoll =>
    match s.stage .poll with
    | .begun => s.ask .poll (.recent s.polling.currentWindow.lower)
    | _ => none
  | .askHistory id zid since =>
    match s.stage (.worker id) with
    | .idle => s.ask (.worker id) (.history zid since)
    | _ => none
  | .askPresent reader =>
    match s.stage reader, s.db.convention with
    | .asking read, none => some (s.answer reader read absentConvention)
    | .asking read, some _ => some (s.setStage reader (.found read))
    | _, _ => none
  | .askRow reader =>
    match s.stage reader, s.db.convention with
    | .found _, none => some (s.raise reader .database)
    | .found read, some rows =>
      match conventionOf rows with
      | .error e => some (s.raise reader e)
      | .ok convention => some (s.answer reader read convention)
    | _, _ => none
  | .readVotes reader order =>
    match s.stage reader with
    | .answered read convention => s.readVotes overlapMs fallback reader read convention order
    | _ => none
  | .fail reader =>
    -- a query of the reader fails
    match s.stage reader with
    | .idle | .begun => none
    | _ => some (s.raise reader .database)

/-- The events in order, as far as each is possible. -/
def run (overlapMs fallback : ℤ) (s : ReadState) (es : List ReadEvent) : Option ReadState :=
  es.foldlM (step overlapMs fallback) s

end ReadState

end Polis.Poller
