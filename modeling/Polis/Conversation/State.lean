import Polis.Clustering.Pca
import Polis.Clustering.LegacyKmeans
import Polis.Clustering.GroupKSmoother
import Mathlib.Data.Finset.Basic

/-!
# The state of a conversation

Participant and comment ids are the database's integers. A rating matrix is its row labels, its
column labels and its cells, a missing cell being NaN. The representativeness and participant-info
fields are left out: no other field is computed from them.

Reference: `polismath/conversation/conversation.py`.
-/

namespace Polis

open Clustering

/-- A stored vote: `1.0`, `-1.0` or `0.0`. -/
inductive Vote
  | agree
  | disagree
  | pass
deriving DecidableEq, Repr

/-- The vote as a matrix entry. -/
def Vote.toNum {K : Type*} [Field K] : Vote → K
  | .agree => 1
  | .disagree => -1
  | .pass => 0

/-! ## Labelled matrices -/

/-- A data frame: row labels, column labels and cells (`none` is NaN). No cell lies outside the
labels. -/
structure NamedMat (α : Type*) where
  index : List ℤ
  columns : List ℤ
  cell : ℤ → ℤ → Option α
  support : ∀ p t, cell p t ≠ none → p ∈ index ∧ t ∈ columns

namespace NamedMat

variable {α : Type*}

/-- `pd.DataFrame(dtype='float64')` -/
def empty : NamedMat α := ⟨[], [], fun _ _ => none, fun _ _ h => absurd rfl h⟩

/-- `reindex(index, columns, fill_value=nan)` -/
def reindex (m : NamedMat α) (rows cols : List ℤ) : NamedMat α where
  index := rows
  columns := cols
  cell p t := if p ∈ rows ∧ t ∈ cols then m.cell p t else none
  support p t h := by
    by_contra hout
    exact h (if_neg hout)

/-- `values[row, col] = v` -/
def write (m : NamedMat α) (p t : ℤ) (v : Option α) : NamedMat α where
  index := m.index
  columns := m.columns
  cell p' t' :=
    if p' = p ∧ t' = t then if p ∈ m.index ∧ t ∈ m.columns then v else none else m.cell p' t'
  support p' t' h := by
    by_cases heq : p' = p ∧ t' = t
    · obtain ⟨rfl, rfl⟩ := heq
      by_contra hout
      simp [hout] at h
    · rw [if_neg heq] at h
      exact m.support p' t' h

/-- `mat[cols] = v`, on columns the frame has. -/
def setColumns (m : NamedMat α) (cols : List ℤ) (v : α) : NamedMat α where
  index := m.index
  columns := m.columns
  cell p t := if p ∈ m.index ∧ t ∈ m.columns ∧ t ∈ cols then some v else m.cell p t
  support p t h := by
    by_cases hin : p ∈ m.index ∧ t ∈ m.columns ∧ t ∈ cols
    · exact ⟨hin.1, hin.2.1⟩
    · rw [if_neg hin] at h
      exact m.support p t h

/-- `mat.size == 0` -/
def isEmpty (m : NamedMat α) : Bool := m.index.isEmpty || m.columns.isEmpty

/-- The row of a label, in column order. -/
def row (m : NamedMat α) (p : ℤ) : List (Option α) := m.columns.map (m.cell p)

/-- The rows in index order. -/
def rows (m : NamedMat α) : List (List (Option α)) := m.index.map m.row

/-- Two frames with the same labels and cells are the same. -/
theorem ext' {m m' : NamedMat α} (hindex : m.index = m'.index) (hcolumns : m.columns = m'.columns)
    (hcell : ∀ p t, m.cell p t = m'.cell p t) : m = m' := by
  have hcell : m.cell = m'.cell := funext fun p => funext fun t => hcell p t
  cases m
  cases m'
  obtain rfl := hindex
  obtain rfl := hcolumns
  obtain rfl := hcell
  rfl

end NamedMat

/-! ## Vote statistics and group votes -/

/-- Per-comment or per-participant statistics. -/
structure EntryStats (K : Type*) where
  nVotes : ℕ
  nAgree : ℕ
  nDisagree : ℕ
  agreeRatio : K

/-- `vote_stats` -/
structure VoteStats (K : Type*) where
  nVotes : ℕ := 0
  nAgree : ℕ := 0
  nDisagree : ℕ := 0
  nPass : ℕ := 0
  commentStats : List (ℤ × EntryStats K) := []
  participantStats : List (ℤ × EntryStats K) := []

/-- `{'A': .., 'D': .., 'S': ..}` -/
structure Tally where
  A : ℕ
  D : ℕ
  S : ℕ
deriving DecidableEq, Repr

/-- `{'n-members': .., 'votes': {tid: tally}}` -/
structure GroupVotes where
  nMembers : ℕ
  votes : List (ℤ × Tally)
deriving DecidableEq, Repr

/-! ## The conversation -/

/-- `Conversation` -/
structure Conversation (K : Type*) where
  conversationId : ℤ
  lastUpdated : ℤ
  rawRatingMat : NamedMat Vote := .empty
  ratingMat : NamedMat Vote := .empty
  participantCount : ℕ := 0
  commentCount : ℕ := 0
  modOutTids : Finset ℤ := ∅
  modInTids : Finset ℤ := ∅
  metaTids : Finset ℤ := ∅
  modOutPtpts : Finset ℤ := ∅
  moderationApplied : Bool := false
  lastModTimestamp : Option ℤ := none
  tidArrivalOrder : List ℤ := []
  pca : Option (Pca K) := none
  baseClusters : List (Cluster ℤ K) := []
  groupClusters : List (Cluster ℤ K) := []
  groupClusterings : List (ℕ × List (Cluster ℤ K)) := []
  groupKSmoother : GroupKSmoother := {}
  inConv : Finset ℤ := ∅
  proj : List (ℤ × List K) := []
  voteStats : VoteStats K := {}
  groupVotes : List (ℤ × GroupVotes) := []
  commentPriorities : List (ℤ × K) := []

variable {K : Type*}

/-- `Conversation(conversation_id, last_updated)`, with the wall clock for `last_updated or now`. -/
def Conversation.new (conversationId lastUpdated now : ℤ) : Conversation K :=
  { conversationId, lastUpdated := if lastUpdated = 0 then now else lastUpdated }

end Polis
