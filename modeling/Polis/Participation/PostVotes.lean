import Polis.Participation.Votes

/-!
# The vote writer

`handle` checks a request, spawns its `dispatch` and answers with what that returns, or at a deadline
with the receipt if there is one. `dispatch` appends the vote in one transaction, publishes the receipt
and goes on to the star, the notification and the next statement, none of which writes a vote.
-/

namespace Polis.Participation

/-! ## The request -/

/-- `VoteChoice` -/
inductive VoteChoice
  | agree
  | disagree
  | pass
deriving DecidableEq, Repr

namespace VoteChoice

/-- The value on the wire. -/
def wire : VoteChoice → ℤ
  | agree => -1
  | disagree => 1
  | pass => 0

/-- `StorageConvention::CURRENT.encode` -/
def stored_vote : VoteChoice → ℤ
  | agree => -1
  | disagree => 1
  | pass => 0

end VoteChoice

/-- The participant that admission found. -/
structure Admitted where
  zid : ℤ
  pid : ℤ
  active : Bool
deriving DecidableEq, Repr

/-- The parsed fields of the body. -/
structure ParsedFields where
  tid : ℤ
  vote : VoteChoice
  starred : Option Bool
  high_priority : Bool
  lang : Option String
deriving DecidableEq, Repr

/-! ## Answers -/

/-- `AcceptedVote` -/
structure AcceptedVote where
  tid : ℤ
  vote : ℤ
  created : ℤ
  replayed : Bool
deriving DecidableEq, Repr

inductive FollowOnState
  | absent
  | complete
  | degraded
deriving DecidableEq, Repr

inductive NotificationState
  | bestEffort
  | degraded
deriving DecidableEq, Repr

/-- `FollowOn` -/
structure FollowOn where
  star : FollowOnState
  next_comment : FollowOnState
  notifications : NotificationState
deriving DecidableEq, Repr

/-- The receipt in the body of a 200. -/
structure DurableSuccess where
  current_pid : ℤ
  vote : AcceptedVote
  follow_on : FollowOn
deriving DecidableEq, Repr

/-- The answer to a request. -/
inductive Answer
  /-- 502, for Node to serve the request. -/
  | handback
  /-- 400 -/
  | parameterError
  /-- 403 `polis_err_conversation_is_closed` -/
  | closed
  /-- 200 -/
  | accepted (body : DurableSuccess)
  | failure (status : ℕ) (code : String)
  /-- 202 `acceptance: unknown` -/
  | unknown
deriving DecidableEq, Repr

/-- What `handle` finds before it dispatches. -/
structure Preflight where
  /-- The writer is configured and the request is one it reads. -/
  readable : Bool
  verified : Bool
  admin : Bool
  admission : Option Admitted
  fields : Option ParsedFields
deriving DecidableEq, Repr

/-- The answer before dispatch, or the vote to dispatch. -/
def Preflight.check (p : Preflight) : Answer ⊕ Admitted × ParsedFields :=
  if !p.readable then .inl .handback
  else if !p.verified then .inl .handback
  else if p.admin then .inl .handback
  else
    match p.admission with
    | none => .inl .handback
    | some admitted =>
      match p.fields with
      | none => .inl .parameterError
      | some fields =>
        if fields.lang.any (· ≠ "") ∨ ¬(-2147483648 ≤ fields.tid ∧ fields.tid ≤ 2147483647) then
          .inl .handback
        else if !admitted.active then .inl .closed
        else .inr (admitted, fields)

/-- `degraded` -/
def degraded (pid : ℤ) (vote : AcceptedVote) (star : Bool) : DurableSuccess :=
  ⟨pid, vote, ⟨if star then .degraded else .absent, .degraded, .bestEffort⟩⟩

/-! ## The append -/

/-- The vote of an append: its key and the row that it inserts unless it repeats the choice. -/
structure Append where
  key : VoteKey
  choice : VoteChoice
  row : VoteRow
deriving DecidableEq, Repr

/-- The row that a dispatched vote inserts. -/
def appendOf (a : Admitted) (f : ParsedFields) (now : ℤ) (inserted : ℕ) : Append :=
  ⟨⟨a.zid, a.pid, f.tid⟩, f.vote, ⟨f.vote.stored_vote, 0, f.high_priority, now, inserted⟩⟩

/-- The receipt of an append. -/
def Append.accepted (a : Append) (created : ℤ) (replayed : Bool) : AcceptedVote :=
  ⟨a.key.tid, a.choice.wire, created, replayed⟩

/-- One append at a time, as the claim on both tables: a choice that is the latest leaves them, any
other adds one row. -/
def KeyVotes.append (v : KeyVotes) (a : Append) : KeyVotes × AcceptedVote :=
  match v.latest with
  | some l =>
    if l.vote = some a.row.vote then (v, a.accepted l.modified true)
    else (v.write (.insert a.row), a.accepted a.row.created false)
  | none => (v.write (.insert a.row), a.accepted a.row.created false)

/-! ## Dispatch -/

/-- What a spawned `dispatch` ends with; `none` is an error or a panic. -/
abbrev TaskResult := Option (DurableSuccess ⊕ ℕ × String)

/-- What `dispatch` makes of an error of `append`, by its SQLSTATE. -/
def appendError : Option String → TaskResult
  | some "23505" => some (.inr (406, "polis_err_vote_duplicate"))
  | some _ => some (.inr (500, "polis_err_vote"))
  | none => none

/-- How the work after the append goes: whether the notification was scheduled, whether the star was
stored, what the next statement was (`none` for an error, else whether there is one), and whether the
event of a participant without a next statement was scheduled. -/
structure FollowUps where
  notified : Bool
  star : Bool
  next : Option Bool
  scheduled : Bool
deriving DecidableEq, Repr

/-- The body that `dispatch` returns after the append. -/
def followUp (pid : ℤ) (vote : AcceptedVote) (starred : Option Bool) (f : FollowUps) :
    DurableSuccess :=
  let body := degraded pid vote starred.isSome
  let notifications := if f.notified then body.follow_on.notifications else .degraded
  if starred.isSome && !f.star then
    { body with follow_on := { body.follow_on with notifications } }
  else
    let star := if starred.isSome then .complete else body.follow_on.star
    match f.next with
    | none => { body with follow_on := { body.follow_on with star, notifications } }
    | some true => { body with follow_on := ⟨star, .complete, notifications⟩ }
    | some false =>
      { body with
        follow_on := ⟨star, .absent, if f.scheduled then notifications else .degraded⟩ }

/-- Where `dispatch` is. -/
inductive Phase
  | acquiring
  | opened (now : ℤ)
  | provisioned (now : ℤ) (inserted : Bool)
  | selected (now : ℤ) (inserted : Bool) (latest : LatestRow)
  | appended (a : Append) (vote : AcceptedVote)
  | acknowledged (vote : AcceptedVote)
  | published (vote : AcceptedVote)
  | finished (result : TaskResult)
deriving DecidableEq, Repr

/-- A dispatched request. In `limbo` is the append whose commit failed with an unknown outcome, until
the server has made it durable or rolled it back. -/
structure Dispatch where
  admitted : Admitted
  fields : ParsedFields
  phase : Phase
  limbo : Option Append
  receipt : Option AcceptedVote
  answer : Option Answer
deriving DecidableEq, Repr

/-- The key of the vote. -/
def Dispatch.key (d : Dispatch) : VoteKey := ⟨d.admitted.zid, d.admitted.pid, d.fields.tid⟩

/-- The answer of `handle` once the task has ended or the deadline has passed (`none`). -/
def Dispatch.reply (d : Dispatch) (result : Option TaskResult) : Answer :=
  match result with
  | some (some (.inl body)) => .accepted body
  | some (some (.inr (status, code))) => .failure status code
  | some none | none =>
    match d.receipt with
    | some vote => .accepted (degraded d.admitted.pid vote d.fields.starred.isSome)
    | none => .unknown

/-! ## The writer and its database -/

/-- The votes and the requests, by number. -/
structure Writer where
  db : Locked VoteKey ℕ VoteWrite
  inserts : ℕ
  refused : ℕ → Option Answer
  dispatched : ℕ → Option Dispatch

/-- What happens next. -/
inductive PostEvent
  | receive (r : ℕ) (p : Preflight)
  | begin (r : ℕ) (now : ℤ)
  | provision (r : ℕ)
  | select (r : ℕ)
  | insert (r : ℕ)
  | commit (r : ℕ) (a : Append)
  /-- The commit is not acknowledged. -/
  | commitLost (r : ℕ)
  /-- The server has made the transaction of an unacknowledged commit durable, or rolled it back. -/
  | settle (r : ℕ) (a : Append) (durable : Bool)
  /-- An error before the commit, with its SQLSTATE if the server reported one. -/
  | fail (r : ℕ) (sqlstate : Option String)
  | publish (r : ℕ)
  | complete (r : ℕ) (f : FollowUps)
  /-- The task ends without a result after the commit. -/
  | lose (r : ℕ)
  | respond (r : ℕ)
  | deadline (r : ℕ)
deriving DecidableEq, Repr

namespace Writer

variable (start : VoteKey → KeyVotes)

/-- The writes that a key's tables allow. -/
def allowed (k : VoteKey) (ws : List VoteWrite) : VoteWrite → Prop :=
  writable (votesAfter (start k) ws)

instance (k : VoteKey) (ws : List VoteWrite) : DecidablePred (allowed start k ws) :=
  inferInstanceAs (DecidablePred (writable (votesAfter (start k) ws)))

/-- No request yet. -/
def init : Writer := ⟨.init, 0, fun _ => none, fun _ => none⟩

/-- The tables of a key that a statement of the request sees. -/
def view (w : Writer) (r : ℕ) (k : VoteKey) : KeyVotes := votesAfter (start k) (w.db.view r k)

/-- What is committed of a key. -/
def committed (w : Writer) (k : VoteKey) : KeyVotes := votesAfter (start k) (w.db.committed k)

/-- The request is at another place. -/
def put (w : Writer) (r : ℕ) (d : Dispatch) : Writer :=
  { w with dispatched := fun q => if q = r then some d else w.dispatched q }

/-- The state after events of the transactions underneath. -/
def lift (w : Writer) (es : List (Locked.Event VoteKey ℕ VoteWrite)) : Option Writer :=
  (es.foldlM (Locked.next (allowed start)) w.db).map fun db => { w with db }

/-- The transaction of a phase has yet to end. -/
def Phase.isOpen : Phase → Bool
  | .acquiring | .opened _ | .provisioned _ _ | .selected _ _ _ | .appended _ _ => true
  | .acknowledged _ | .published _ | .finished _ => false

/-- The state after the event, if it can happen. -/
def next (w : Writer) : PostEvent → Option Writer
  | .receive r p =>
    if w.refused r = none ∧ w.dispatched r = none then
      match p.check with
      | .inl answer =>
        some { w with refused := fun q => if q = r then some answer else w.refused q }
      | .inr (admitted, fields) => some (w.put r ⟨admitted, fields, .acquiring, none, none, none⟩)
    else none
  | .begin r now => do
    let d ← w.dispatched r
    match d.phase with
    | .acquiring => some (w.put r { d with phase := .opened now })
    | _ => none
  | .provision r => do
    let d ← w.dispatched r
    match d.phase with
    | .opened now =>
      -- The statement waits for a row that is not committed, and skips one that is.
      if (w.view start r d.key).latest = none then
        (w.put r { d with phase := .provisioned now true }).lift start
          [.lock r d.key, .write r d.key (.provisional d.fields.vote.stored_vote now)]
      else some (w.put r { d with phase := .provisioned now false })
    | _ => none
  | .select r => do
    let d ← w.dispatched r
    match d.phase, (w.view start r d.key).latest with
    | .provisioned now inserted, some latest =>
      (w.put r { d with phase := .selected now inserted latest }).lift start [.lock r d.key]
    | _, _ => none
  | .insert r => do
    let d ← w.dispatched r
    match d.phase with
    | .selected now inserted latest =>
      let a := appendOf d.admitted d.fields now w.inserts
      let replayed := !inserted && decide (latest.vote = some d.fields.vote.stored_vote)
      if replayed then
        some (w.put r { d with phase := .appended a (a.accepted latest.modified true) })
      else
        let w' := w.put r { d with phase := .appended a (a.accepted now false) }
        { w' with inserts := w.inserts + 1 }.lift start [.write r d.key (.insert a.row)]
    | _ => none
  | .commit r a => do
    let d ← w.dispatched r
    match d.phase with
    | .appended a' vote =>
      if a = a' then (w.put r { d with phase := .acknowledged vote }).lift start [.commit r]
      else none
    | _ => none
  | .commitLost r => do
    let d ← w.dispatched r
    match d.phase with
    | .appended a _ =>
      some (w.put r { d with phase := .finished (appendError none), limbo := some a })
    | _ => none
  | .settle r a durable => do
    let d ← w.dispatched r
    if d.limbo = some a then
      (w.put r { d with limbo := none }).lift start
        [if durable then .commit r else .rollback r]
    else none
  | .fail r sqlstate => do
    let d ← w.dispatched r
    if Phase.isOpen d.phase then
      (w.put r { d with phase := .finished (appendError sqlstate) }).lift start [.rollback r]
    else none
  | .publish r => do
    let d ← w.dispatched r
    match d.phase with
    | .acknowledged vote =>
      some (w.put r { d with phase := .published vote, receipt := some vote })
    | _ => none
  | .complete r f => do
    let d ← w.dispatched r
    match d.phase with
    | .published vote =>
      some (w.put r { d with
        phase := .finished (some (.inl (followUp d.admitted.pid vote d.fields.starred f))) })
    | _ => none
  | .lose r => do
    let d ← w.dispatched r
    match d.phase with
    | .acknowledged _ | .published _ => some (w.put r { d with phase := .finished none })
    | _ => none
  | .respond r => do
    let d ← w.dispatched r
    match d.phase, d.answer with
    | .finished result, none => some (w.put r { d with answer := some (d.reply (some result)) })
    | _, _ => none
  | .deadline r => do
    let d ← w.dispatched r
    match d.answer with
    | none => some (w.put r { d with answer := some (d.reply none) })
    | some _ => none

/-- One step of the requests and the database. -/
def Step (w : Writer) (e : PostEvent) (w' : Writer) : Prop := w.next start e = some w'

end Writer

end Polis.Participation
