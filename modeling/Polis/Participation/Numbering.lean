import Polis.Common.Locking
import Mathlib.Data.List.Range

/-!
# Numbering participants and statements

`pid_auto` and `tid_auto` run before each row that an `INSERT` into `participants` or `comments`
proposes. They take the advisory lock of the table and the conversation until the transaction ends,
and number the row `MAX + 1`. `pid_auto` also copies the count to the conversation. Only then does the
row meet the unique indexes: it is stored, skipped by a conflict clause, or the statement fails.
-/

namespace Polis.Participation.Numbering

/-! ## Rows -/

/-- A participant of a conversation. -/
structure Participant where
  pid : ℕ
  uid : ℕ
deriving DecidableEq, Repr

/-- A statement of a conversation. -/
structure Comment where
  tid : ℕ
  txt : String
deriving DecidableEq, Repr

/-- What the tables hold of one conversation. -/
structure Conversation where
  participants : List Participant
  comments : List Comment
  participant_count : ℕ
deriving DecidableEq, Repr

/-- A conversation as it is created. -/
def Conversation.new : Conversation := ⟨[], [], 0⟩

/-! ## The triggers -/

/-- An `INTEGER`, or the error that it is out of range. -/
def int4 (n : ℕ) : Option ℕ := if n ≤ 2147483647 then some n else none

/-- `COALESCE(MAX(number) + 1, 0)` -/
def nextNumber (numbers : List ℕ) : Option ℕ :=
  match numbers.max? with
  | some m => int4 (m + 1)
  | none => some 0

/-- The number of a new participant, and the conversation with the count that goes with it. -/
def pid_auto (c : Conversation) : Option (ℕ × Conversation) := do
  let pid ← nextNumber (c.participants.map (·.pid))
  let count ← int4 (pid + 1)
  pure (pid, { c with participant_count := count })

/-- The number of a new statement. -/
def tid_auto (c : Conversation) : Option ℕ := nextNumber (c.comments.map (·.tid))

/-! ## Inserting a row -/

/-- The unique indexes of both tables: on the conversation and the number, and on the conversation and
the user or the text. -/
inductive UniqueIndex
  | number
  | value
deriving DecidableEq, Repr

/-- `ON CONFLICT DO NOTHING`, with the index that it names or for all of them. -/
inductive ConflictClause
  | raise
  | doNothing (target : Option UniqueIndex)
deriving DecidableEq, Repr

/-- Whether the row is stored, or `none` if the statement fails. -/
def ConflictClause.stores (clause : ConflictClause) (number value : Bool) : Option Bool :=
  match clause with
  | .raise => if number || value then none else some true
  | .doNothing none => some !(number || value)
  | .doNothing (some .number) => if number then some false else if value then none else some true
  | .doNothing (some .value) => if value then some false else if number then none else some true

/-- A row that an `INSERT` proposes. -/
inductive NewRow
  | participant (uid : ℕ)
  | comment (txt : String)
deriving DecidableEq, Repr

/-- A proposed row, with the clause of its statement. -/
structure Proposal where
  row : NewRow
  clause : ConflictClause
deriving DecidableEq, Repr

/-- Whether another row has the value that the new one must not share. -/
def taken (c : Conversation) : NewRow → Bool
  | .participant uid => c.participants.any (·.uid = uid)
  | .comment txt => c.comments.any (·.txt = txt)

/-- The conversation after the row was proposed, or `none` if the statement fails. -/
def insert (c : Conversation) (p : Proposal) : Option Conversation :=
  match p.row with
  | .participant uid => do
    let (pid, counted) ← pid_auto c
    let stored ← p.clause.stores (c.participants.any (·.pid = pid)) (taken c p.row)
    pure <| if stored then
        { counted with participants := c.participants ++ [⟨pid, uid⟩] }
      else counted
  | .comment txt => do
    let tid ← tid_auto c
    let stored ← p.clause.stores (c.comments.any (·.tid = tid)) (taken c p.row)
    pure <| if stored then { c with comments := c.comments ++ [⟨tid, txt⟩] } else c

/-! ## Transactions -/

/-- The two keys of an advisory lock. -/
abbrev LockKey := ℕ × ℕ

/-- The lock that the trigger of the row takes. -/
def NewRow.lock (zid : ℕ) : NewRow → LockKey
  | .participant _ => (873791983, zid)
  | .comment _ => (873791984, zid)

/-- The rows of a conversation after the proposals, oldest first. -/
def tables (h : List Proposal) : Option Conversation := h.foldlM insert Conversation.new

/-- Under the lock the row may be proposed after the proposals that its trigger sees. -/
def allowed (k : LockKey) (h : List Proposal) (p : Proposal) : Prop :=
  p.row.lock k.2 = k ∧ ((tables h).bind (insert · p)).isSome

instance (k : LockKey) (h : List Proposal) : DecidablePred (allowed k h) :=
  fun p => inferInstanceAs (Decidable (p.row.lock k.2 = k ∧ ((tables h).bind (insert · p)).isSome))

/-- Transactions, by their numbers, that propose rows under the advisory locks. -/
abbrev Transactions := Locked LockKey ℕ Proposal

/-- What a transaction does next. -/
abbrev Event := Locked.Event LockKey ℕ Proposal

/-- One step of the transactions. -/
abbrev Step : Transactions → Event → Transactions → Prop := Locked.Step allowed

/-- No conversation has rows. -/
abbrev init : Transactions := Locked.init

/-- The participants of a conversation after the proposals under a lock, and the others alike. -/
def tablesOf (h : List Proposal) : Conversation := (tables h).getD .new

/-- What is committed of a conversation. -/
def committed (s : Transactions) (zid : ℕ) : Conversation :=
  { tablesOf (s.committed (873791983, zid)) with
    comments := (tablesOf (s.committed (873791984, zid))).comments }

end Polis.Participation.Numbering
