import Polis.Common.Locking
import Polis.Conversation.VotesTheorems

/-!
# Vote transactions

An `INSERT INTO votes` puts a row into the history, stamped with the start of its transaction, and its
rule then upserts `votes_latest_unique` under the lock of that row. A first vote of the Rust writer
puts a provisional row there before, which locks the key.
-/

namespace Polis.Participation

/-! ## Rows -/

/-- The conversation, the participant and the statement of a vote. -/
structure VoteKey where
  zid : ℤ
  pid : ℤ
  tid : ℤ
deriving DecidableEq, Repr

/-- A row of `votes`, with its place in the order of the inserts. -/
structure VoteRow where
  vote : ℤ
  weight_x_32767 : ℤ
  high_priority : Bool
  created : ℤ
  inserted : ℕ
deriving DecidableEq, Repr

/-- The row of a key in `votes_latest_unique`. -/
structure LatestRow where
  vote : Option ℤ
  weight_x_32767 : ℤ
  modified : ℤ
deriving DecidableEq, Repr

/-- What both tables hold of a key. -/
structure KeyVotes where
  history : List VoteRow
  latest : Option LatestRow
deriving DecidableEq, Repr

/-- Nobody has voted. -/
def KeyVotes.new : KeyVotes := ⟨[], none⟩

/-! ## Statements -/

/-- `on_vote_insert_update_unique_table` -/
def on_vote_insert_update_unique_table (latest : Option LatestRow) (row : VoteRow) : LatestRow :=
  match latest with
  | none => ⟨some row.vote, row.weight_x_32767, row.created⟩
  | some l => { l with vote := some row.vote, modified := row.created }

/-- What a transaction writes to a key: the provisional row, or a vote with its rule. -/
inductive VoteWrite
  | provisional (vote now : ℤ)
  | insert (row : VoteRow)
deriving DecidableEq, Repr

/-- The tables after a write. -/
def KeyVotes.write (v : KeyVotes) : VoteWrite → KeyVotes
  | .provisional vote now => { v with latest := v.latest.or (some ⟨some vote, 0, now⟩) }
  | .insert row =>
    ⟨v.history ++ [row], some (on_vote_insert_update_unique_table v.latest row)⟩

/-- The tables after the writes, oldest first. -/
def votesAfter (v : KeyVotes) (ws : List VoteWrite) : KeyVotes := ws.foldl KeyVotes.write v

/-- A provisional row needs a key without one. -/
def writable (v : KeyVotes) : VoteWrite → Prop
  | .provisional _ _ => v.latest = none
  | .insert _ => True

instance (v : KeyVotes) : DecidablePred (writable v)
  | .provisional _ _ => inferInstanceAs (Decidable (v.latest = none))
  | .insert _ => isTrue trivial

@[simp] theorem votesAfter_snoc (v : KeyVotes) (ws : List VoteWrite) (w : VoteWrite) :
    votesAfter v (ws ++ [w]) = (votesAfter v ws).write w := by
  simp [votesAfter]

/-! ## Transactions -/

/-- The votes of every key, and the open transactions: their start, the rows that are in the history
and whose rule has yet to run, and the provisional row that a vote has yet to follow. -/
structure VoteState where
  db : Locked VoteKey ℕ VoteWrite
  clock : ℤ
  inserts : ℕ
  started : ℕ → Option ℤ
  staged : ℕ → List (VoteKey × VoteRow)
  provisional : ℕ → Option VoteKey

/-- What a transaction does next. -/
inductive VoteEvent
  | begin (t : ℕ) (now : ℤ)
  | lock (t : ℕ) (k : VoteKey)
  | provisional (t : ℕ) (k : VoteKey) (vote : ℤ)
  | insert (t : ℕ) (k : VoteKey) (vote weight : ℤ) (high_priority : Bool)
  | rule (t : ℕ)
  | commit (t : ℕ)
  | rollback (t : ℕ)
deriving DecidableEq, Repr

namespace VoteState

/-- Nobody has voted. -/
def init : VoteState := ⟨.init, 0, 0, fun _ => none, fun _ => [], fun _ => none⟩

/-- The writes that the key's tables allow. -/
def allowed (_ : VoteKey) (ws : List VoteWrite) : VoteWrite → Prop := writable (votesAfter .new ws)

instance (k : VoteKey) (ws : List VoteWrite) : DecidablePred (allowed k ws) :=
  inferInstanceAs (DecidablePred (writable (votesAfter .new ws)))

/-- The tables of a key that a statement of the transaction sees. -/
def view (s : VoteState) (t : ℕ) (k : VoteKey) : KeyVotes := votesAfter .new (s.db.view t k)

/-- What is committed of a key. -/
def committed (s : VoteState) (k : VoteKey) : KeyVotes := votesAfter .new (s.db.committed k)

/-- The value of the transaction, changed. -/
def set {α : Type*} (f : ℕ → α) (t : ℕ) (a : α) (u : ℕ) : α := if u = t then a else f u

/-- The transaction is over. -/
def finish (s : VoteState) (t : ℕ) : VoteState :=
  { s with
    started := set s.started t none
    staged := set s.staged t []
    provisional := set s.provisional t none }

/-- The state after an event of the transactions underneath. -/
def lift (s : VoteState) (e : Locked.Event VoteKey ℕ VoteWrite) : Option VoteState :=
  (Locked.next allowed s.db e).map fun db => { s with db }

/-- The state after the event, if it can happen. -/
def next (s : VoteState) : VoteEvent → Option VoteState
  | .begin t now =>
    if s.started t = none ∧ s.clock ≤ now then
      some { s with started := set s.started t (some now), clock := now }
    else none
  | .lock t k => if s.started t = none then none else s.lift (.lock t k)
  | .provisional t k vote =>
    match s.started t with
    | none => none
    | some now =>
      if s.provisional t = none then
        { s with provisional := set s.provisional t (some k) }.lift
          (.write t k (.provisional vote now))
      else none
  | .insert t k vote weight high_priority =>
    match s.started t with
    | none => none
    | some now =>
      some { s with
        staged := set s.staged t
          (s.staged t ++ [(k, ⟨vote, weight, high_priority, now, s.inserts⟩)])
        inserts := s.inserts + 1 }
  | .rule t =>
    match s.staged t with
    | [] => none
    | (k, row) :: rest =>
      { s with
        staged := set s.staged t rest
        provisional := if s.provisional t = some k then set s.provisional t none
          else s.provisional }.lift (.write t k (.insert row))
  | .commit t =>
    -- `append_in_transaction` commits no provisional row without the vote that follows it.
    if s.staged t = [] ∧ s.provisional t = none then (s.finish t).lift (.commit t) else none
  | .rollback t => (s.finish t).lift (.rollback t)

/-- One step of the transactions. -/
def Step (s : VoteState) (e : VoteEvent) (s' : VoteState) : Prop := s.next e = some s'

end VoteState

/-! ## The latest choice -/

/-- The row of greatest stamp, the later insert among equal ones. -/
def newestRow (history : List VoteRow) : Option VoteRow :=
  newest VoteRow.created (fun _ => true) (sortByStamp (fun r => (r.inserted : ℤ)) history)

/-- `semantic_vote` -/
def semantic_vote (raw_vote storage_agree_value : ℤ) : ℤ := raw_vote * storage_agree_value

/-- A row of `votes` as the engine's payload has it. -/
def VoteRow.dict (storage_agree_value : ℤ) (k : VoteKey) (row : VoteRow) : VoteDict :=
  ⟨some k.pid, some k.tid, some (.num (semantic_vote row.vote storage_agree_value)),
    some row.created⟩

/-- The choice that the engine keeps for the participant and the statement after the rows of a
conversation. -/
def engineChoice (storage_agree_value now : ℤ) (rows : List (VoteKey × VoteRow)) (pid tid : ℤ) :
    Option Vote :=
  let payload : VotePayload := ⟨rows.map fun r => r.2.dict storage_agree_value r.1, none⟩
  ((Conversation.new 0 0 now : Conversation ℚ).ingestVotes payload).rawRatingMat.cell pid tid

end Polis.Participation
