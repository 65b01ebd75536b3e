import Polis.Conversation.Votes
import Mathlib.Algebra.BigOperators.Group.List.Basic

/-!
# What the vote statistics add up to

The totals are counts over the cells, the figures of a comment or a participant counts over a column
or a row. `n_pass` counts the empty cells, which no vote is in.

Reference: `polismath/conversation/conversation.py`.
-/

namespace Polis

open List

/-! ## The statement -/

/-- The totals are the sums of the figures of the entries. -/
structure SumsOf {K : Type*} (stats : VoteStats K) (entries : List (ℤ × EntryStats K)) : Prop where
  nVotes : stats.nVotes = (entries.map fun e => e.2.nVotes).sum
  nAgree : stats.nAgree = (entries.map fun e => e.2.nAgree).sum
  nDisagree : stats.nDisagree = (entries.map fun e => e.2.nDisagree).sum

/-- Every vote is an agree, a disagree or a pass, and the totals are those of the comments and those
of the participants. -/
structure Balanced {K : Type*} (stats : VoteStats K) : Prop where
  total : stats.nAgree + stats.nDisagree + stats.nPass = stats.nVotes
  comments : SumsOf stats stats.commentStats
  participants : SumsOf stats stats.participantStats

/-- The cells the statistics are computed from. -/
def Conversation.statCells {K : Type*} (c : Conversation K) : List (Option Vote) :=
  c.ratingMat.index.flatMap fun p => c.rawRatingMat.columns.map (c.rawRatingMat.cell p)

/-! ## Counting a grid -/

section Grid

variable {α : Type*} (q : α → Bool) (f : ℤ → ℤ → α) (rows cols : List ℤ)

/-- Counting row by row. -/
theorem countP_grid_rows : (rows.flatMap fun p => cols.map (f p)).countP q =
    (rows.map fun p => (cols.map (f p)).countP q).sum :=
  countP_flatMap

/-- Counting column by column, by induction on the rows. -/
theorem countP_grid_columns : (rows.flatMap fun p => cols.map (f p)).countP q =
    (cols.map fun t => (rows.map (f · t)).countP q).sum := by
  induction rows with
  | nil => simp
  | cons p rows ih =>
    have hrow : (cols.map (f p)).countP q = (cols.map fun t => if q (f p t) then 1 else 0).sum := by
      clear ih
      induction cols with
      | nil => rfl
      | cons t cols ih => rw [map_cons, countP_cons, ih, map_cons, sum_cons, Nat.add_comm]
    simp only [flatMap_cons, countP_append, ih, hrow, map_cons, countP_cons,
      ← sum_map_add]
    simp only [Nat.add_comm]

end Grid

/-! ## The totals -/

variable {K : Type*} [Field K] (c : Conversation K)

/-- A vote is one of three. -/
theorem count_votes (cells : List (Option Vote)) : cells.count (some .agree) +
    cells.count (some .disagree) + cells.count (some .pass) = (cells.filter Option.isSome).length := by
  induction cells with
  | nil => rfl
  | cons cell cells ih =>
    rcases cell with - | - | - | - <;> simp <;> omega

theorem computeVoteStats_comments :
    SumsOf c.computeVoteStats.voteStats c.computeVoteStats.voteStats.commentStats := by
  have h := fun q => countP_grid_columns q c.rawRatingMat.cell c.ratingMat.index c.rawRatingMat.columns
  constructor <;> simp only [Conversation.computeVoteStats, entryStats, map_map,
    ← countP_eq_length_filter, List.count] <;> exact h _

theorem computeVoteStats_participants :
    SumsOf c.computeVoteStats.voteStats c.computeVoteStats.voteStats.participantStats := by
  have h := fun q => countP_grid_rows q c.rawRatingMat.cell c.ratingMat.index c.rawRatingMat.columns
  constructor <;> simp only [Conversation.computeVoteStats, entryStats, map_map,
    ← countP_eq_length_filter, List.count] <;> exact h _

/-- The statistics balance exactly where as many cells are empty as hold a pass. -/
theorem computeVoteStats_balanced_iff : Balanced c.computeVoteStats.voteStats ↔
    c.statCells.count none = c.statCells.count (some .pass) := by
  have hvotes := count_votes c.statCells
  constructor
  · intro h
    have htotal : c.statCells.count (some .agree) + c.statCells.count (some .disagree) +
        c.statCells.count none = (c.statCells.filter Option.isSome).length := h.total
    omega
  · intro h
    refine ⟨?_, computeVoteStats_comments c, computeVoteStats_participants c⟩
    show c.statCells.count (some .agree) + c.statCells.count (some .disagree) +
      c.statCells.count none = (c.statCells.filter Option.isSome).length
    omega

/-- One participant who agrees with one of two comments. -/
private def oneAgree : Conversation ℚ :=
  Conversation.ingestVotes (.new 1 1 1)
    { votes := [⟨some 0, some 0, some (.num 1), some 1⟩, ⟨some 0, some 1, some .null, some 1⟩]
      lastVoteTimestamp := some 1 }

/-- One vote is counted, and one pass besides it: the cell no vote is in. -/
theorem computeVoteStats_not_balanced : ¬ ∀ c : Conversation ℚ, Balanced c.computeVoteStats.voteStats := by
  intro h
  have htotal := (h oneAgree).total
  revert htotal
  decide

end Polis
