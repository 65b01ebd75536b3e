import Polis.Conversation.State
import Polis.Common.Newest
import Polis.Common.AppendNew
import Mathlib.Algebra.Order.Field.Rat

/-!
# Vote ingestion and moderation

`update_votes` up to its optional recompute, `update_moderation` up to its optional recompute, and
`mod_update`.

Reference: `polismath/conversation/conversation.py`.
-/

namespace Polis

open Clustering

/-! ## Vote dictionaries -/

/-- What the `vote` entry of a vote dictionary holds. A string is given by what the string branch
of the engine makes of it: one of its three words, a numeric string, or neither. -/
inductive VoteValue
  | null
  | num (x : ℚ)
  | strAgree
  | strDisagree
  | strPass
  | strNum (x : ℚ)
  | strOther
  | other
deriving DecidableEq, Repr

/-- A vote dictionary; `none` is an absent key. A present null id reads as absent. -/
structure VoteDict where
  pid : Option ℤ
  tid : Option ℤ
  vote : Option VoteValue
  created : Option ℤ
deriving DecidableEq, Repr

/-- The payload of `update_votes`. -/
structure VotePayload where
  votes : List VoteDict
  lastVoteTimestamp : Option ℤ

/-- Normalize a number to -1, 0, 1. -/
def Vote.ofNum (x : ℚ) : Vote :=
  if 0 < x then .agree else if x < 0 then .disagree else .pass

/-- `vote_value` after the conversion block; `none` is Python's `None`. -/
def VoteValue.convert : VoteValue → Option Vote
  | .null => none
  | .num x => some (.ofNum x)
  | .strAgree => some .agree
  | .strDisagree => some .disagree
  | .strPass => none
  | .strNum x => some (.ofNum x)
  | .strOther => none
  | .other => none

/-- One entry of `vote_updates`: `(row, col, value, created)`, a `none` value clearing the cell. -/
structure VoteUpdate where
  row : ℤ
  col : ℤ
  value : Option Vote
  created : ℤ
deriving DecidableEq, Repr

/-- The update a vote contributes, if it is valid: both ids and the vote key are present, and the
value converts or is an explicit null. -/
def VoteDict.update? (lastVoteTimestamp : ℤ) (v : VoteDict) : Option VoteUpdate :=
  match v.pid, v.tid, v.vote with
  | some pid, some tid, some value =>
    let created := v.created.getD lastVoteTimestamp
    if value.convert = none ∧ value ≠ .null then none
    else some ⟨pid, tid, value.convert, created⟩
  | _, _, _ => none

/-- Whether the update addresses the cell. -/
def VoteUpdate.hits (p t : ℤ) (u : VoteUpdate) : Bool := u.row = p && u.col = t

/-- `drop_duplicates(subset=['row', 'col'], keep='last')` -/
def dropDuplicatesKeepLast : List VoteUpdate → List VoteUpdate
  | [] => []
  | u :: us =>
    if us.any (VoteUpdate.hits u.row u.col) then dropDuplicatesKeepLast us
    else u :: dropDuplicatesKeepLast us

/-! ## Moderation -/

variable {K : Type*}

/-- `_apply_moderation`: the raw matrix with the moderated-out columns zeroed. -/
def Conversation.applyModeration (c : Conversation K) : Conversation K :=
  { c with
    ratingMat := c.rawRatingMat.setColumns
      (c.rawRatingMat.columns.filter (· ∈ c.modOutTids)) .pass }

variable [Field K]

/-- Statistics of one row or column of votes. -/
def entryStats (votes : List (Option Vote)) : EntryStats K :=
  let nVotes := (votes.filter Option.isSome).length
  let nAgree := votes.count (some .agree)
  { nVotes, nAgree, nDisagree := votes.count (some .disagree)
    agreeRatio := (nAgree : K) / ((max nVotes 1 : ℕ) : K) }

/-- `_compute_vote_stats`, over the raw matrix on the rows of the rating matrix. `n_pass` counts the
empty cells, as the source does. -/
def Conversation.computeVoteStats (c : Conversation K) : Conversation K :=
  let pids := c.ratingMat.index
  let tids := c.rawRatingMat.columns
  let cells := pids.flatMap fun p => tids.map (c.rawRatingMat.cell p)
  { c with voteStats :=
    { nVotes := (cells.filter Option.isSome).length
      nAgree := cells.count (some .agree)
      nDisagree := cells.count (some .disagree)
      nPass := cells.count none
      commentStats := tids.map fun t => (t, entryStats (pids.map (c.rawRatingMat.cell · t)))
      participantStats := pids.map fun p => (p, entryStats (tids.map (c.rawRatingMat.cell p))) } }

/-- The moderation payload of `update_moderation`; an absent list is the empty one. -/
structure Moderation where
  modOutTids : List ℤ
  modInTids : List ℤ
  metaTids : List ℤ
  modOutPtpts : List ℤ
  lastModTimestamp : Option ℤ
deriving DecidableEq, Repr

/-- A set of `update_moderation`: an empty list leaves it unchanged. -/
def updateSet (current : Finset ℤ) (ids : List ℤ) : Finset ℤ :=
  if ids.isEmpty then current else ids.toFinset

/-- `update_moderation(moderation, recompute=False)` -/
def Conversation.setModeration (c : Conversation K) (m : Moderation) : Conversation K :=
  { c with
    moderationApplied := true
    lastModTimestamp := m.lastModTimestamp.or c.lastModTimestamp
    modOutTids := updateSet c.modOutTids m.modOutTids
    modInTids := updateSet c.modInTids m.modInTids
    metaTids := updateSet c.metaTids m.metaTids
    modOutPtpts := updateSet c.modOutPtpts m.modOutPtpts }.applyModeration.computeVoteStats

/-- A raw moderation row of `mod_update`. -/
structure ModRow where
  tid : ℤ
  isMeta : Bool
  mod : Option ℤ
  modified : ℤ

/-- `s.add(tid)` when the condition holds, else `s.discard(tid)`. -/
def addOrDiscard (keep : Bool) (tid : ℤ) (s : Finset ℤ) : Finset ℤ :=
  if keep then insert tid s else s.erase tid

/-- `mod_update`: reduce raw moderation rows over the current sets; no recompute. -/
def Conversation.modUpdate (c : Conversation K) (mods : List ModRow) : Conversation K :=
  { c with
    modOutTids := mods.foldl (fun s r => addOrDiscard (r.isMeta || r.mod = some (-1)) r.tid s)
      c.modOutTids
    modInTids := mods.foldl (fun s r => addOrDiscard (r.isMeta || r.mod = some 1) r.tid s)
      c.modInTids
    metaTids := mods.foldl (fun s r => addOrDiscard r.isMeta r.tid s) c.metaTids
    moderationApplied := true
    lastModTimestamp := some ((mods.map ModRow.modified).foldl max (c.lastModTimestamp.getD 0)) }

/-! ## Vote ingestion -/

/-- The matrix write of `update_votes`: rows and columns are extended in first-appearance order,
then the addressed cells are written. -/
def mergeUpdates (mat : NamedMat Vote) (arrival : List ℤ) (updates : List VoteUpdate) :
    NamedMat Vote :=
  let deduped := dropDuplicatesKeepLast (sortByStamp VoteUpdate.created updates)
  let newRows := (deduped.map VoteUpdate.row).filter (· ∉ mat.index)
  let newCols := (deduped.map VoteUpdate.col).filter (· ∉ mat.columns)
  let allRows := appendNew mat.index ((updates.map VoteUpdate.row).filter (· ∈ newRows))
  let allCols := mat.columns ++ arrival.filter (· ∈ newCols)
  deduped.foldl (fun m u => m.write u.row u.col u.value) (mat.reindex allRows allCols)

/-- `update_votes(votes, recompute=False)` -/
def Conversation.ingestVotes (c : Conversation K) (payload : VotePayload) : Conversation K :=
  if payload.votes.isEmpty then c
  else
    let lastVoteTimestamp := payload.lastVoteTimestamp.getD c.lastUpdated
    let updates := payload.votes.filterMap (VoteDict.update? lastVoteTimestamp)
    let tidArrivalOrder := appendNew c.tidArrivalOrder (updates.map VoteUpdate.col)
    let rawRatingMat := mergeUpdates c.rawRatingMat tidArrivalOrder updates
    { c with
      tidArrivalOrder
      rawRatingMat
      lastUpdated := max lastVoteTimestamp c.lastUpdated
      participantCount := rawRatingMat.index.length
      commentCount := rawRatingMat.columns.length }.applyModeration.computeVoteStats

end Polis
