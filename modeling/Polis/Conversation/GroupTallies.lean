import Polis.Conversation.Blob

/-!
# The vote tallies

`group_vote_counts` as it runs over chunks of columns, the `group_votes` of `to_dynamo_dict`, and the
`votes-base` vectors. All three read the value array of the raw matrix by position.

Reference: `polismath/conversation/group_vote_counts.py`, `polismath/conversation/conversation.py`.
-/

namespace Polis

open Clustering

variable {K : Type*} [Field K] [LinearOrder K] [Numerics K]

/-! ## Reading by position -/

/-- `values[row, column]` -/
def NamedMat.at (m : NamedMat Vote) (row column : ℕ) : Option Vote :=
  (m.rows.getD row []).getD column none

/-- The votes of one column, tallied. -/
def columnTally (column : List (Option Vote)) : Tally :=
  ⟨column.count (some .agree), column.count (some .disagree), (column.filter Option.isSome).length⟩

/-- `{label: i for i, label in enumerate(labels)}.get(label)` -/
def enumerated (labels : List ℤ) (label : ℤ) : Option ℕ :=
  (labels.zipIdx.foldl (fun d e => dictSet d e.1 e.2) []).lookup label

/-! ## `group_vote_counts` -/

/-- One pass of the chunk loop: the columns of `part` are counted over the rows, and each count goes
to the place of its comment. -/
def countChunk (matrix : NamedMat Vote) (rows : List ℕ) (counts : List Tally)
    (part : List (ℕ × ℕ)) : List Tally :=
  let values := rows.map fun row => part.map fun e => matrix.at row e.2
  part.zipIdx.foldl (fun counts e =>
    counts.set e.1.1 (columnTally (values.map fun row => row.getD e.2 none))) counts

/-- `for start in range(0, len(positions), chunk)` -/
def countChunks (matrix : NamedMat Vote) (rows : List ℕ) (positions : List (ℕ × ℕ)) (chunk : ℕ)
    (counts : List Tally) : List Tally :=
  (List.range ((positions.length + chunk - 1) / chunk)).foldl (fun counts i =>
    countChunk matrix rows counts ((positions.drop (i * chunk)).take chunk)) counts

/-- The rows of the members; `none` is the `KeyError` of a member without one. -/
def memberRows (matrix : NamedMat Vote) (comments members : List ℤ) : Option (List ℕ) :=
  if comments.isEmpty then some [] else members.mapM fun member => matrix.index.idxOf? member

/-- The counts of the comments over the rows of a group's members; `none` is the `KeyError` of a
comment without a column. -/
def commentCounts (matrix : NamedMat Vote) (comments members : List ℤ) (rows : List ℕ)
    (chunk : ℕ) : Option (List Tally) :=
  let counts := List.replicate comments.length ⟨0, 0, 0⟩
  if members.isEmpty || comments.isEmpty then some counts
  else
    (comments.zipIdx.mapM fun e =>
      (matrix.columns.idxOf? e.1).map fun column => (e.2, column)).map fun positions =>
        countChunks matrix rows positions chunk counts

/-- `group_vote_counts(matrix, comments, groups, chunk)`; `none` is the `KeyError` of a label that
the matrix does not have. -/
def groupVoteCountsChunked (matrix : NamedMat Vote) (comments : List ℤ)
    (groups : List (Cluster ℤ K)) (chunk : ℕ) : Option (List (ℤ × GroupVotes)) :=
  groups.foldlM (fun result group =>
    let members := ((groups.find? fun g => g.id = group.id).map Cluster.members).getD []
    (memberRows matrix comments members).bind fun rows =>
      (commentCounts matrix comments members rows chunk).map fun counts =>
        dictSet result group.id ⟨group.members.length, comments.zip counts⟩) []

/-- `_compute_group_votes` with a chunk size; the source has 64. -/
def Conversation.computeGroupVotesChunked (c : Conversation K) (chunk : ℕ) :
    Option (List (ℤ × GroupVotes)) :=
  if c.groupClusters.isEmpty then some []
  else groupVoteCountsChunked c.rawRatingMat c.ratingMat.columns c.unfoldedGroupClusters chunk

/-! ## `to_dynamo_dict` -/

/-- `{'agree': .., 'disagree': .., 'total': ..}` -/
structure DynamoTally where
  agree : ℕ
  disagree : ℕ
  total : ℕ
deriving DecidableEq, Repr

/-- `{'member_count': .., 'votes': {tid: tally}}` -/
structure DynamoGroupVotes where
  memberCount : ℕ
  votes : List (ℤ × DynamoTally)
deriving DecidableEq, Repr

/-- A tally under the keys of `to_dynamo_dict`. -/
def Tally.toDynamo (t : Tally) : DynamoTally := ⟨t.A, t.D, t.S⟩

/-- The votes of a group under the keys of `to_dynamo_dict`. -/
def GroupVotes.toDynamo (g : GroupVotes) : DynamoGroupVotes :=
  ⟨g.nMembers, g.votes.map fun e => (e.1, e.2.toDynamo)⟩

/-- The `group_votes` of `to_dynamo_dict`: groups without a member in the raw matrix are skipped. -/
def Conversation.dynamoGroupVotes (c : Conversation K) : List (ℤ × DynamoGroupVotes) :=
  let mat := c.rawRatingMat
  if c.groupClusters.isEmpty then []
  else c.unfoldedGroupClusters.foldl (fun result group =>
    let memberIndices := group.members.filterMap (enumerated mat.index)
    if memberIndices.isEmpty then result
    else dictSet result group.id ⟨memberIndices.length,
      mat.columns.zipIdx.map fun e =>
        (e.1, (columnTally (memberIndices.map fun row => mat.at row e.2)).toDynamo)⟩) []

/-! ## `_compute_votes_base_buckets` -/

/-- `{'A': [per bucket], 'D': [..], 'S': [..]}` -/
structure BucketVotes where
  A : List ℕ
  D : List ℕ
  S : List ℕ
deriving DecidableEq, Repr

/-- `_compute_votes_base_buckets`: the buckets are the base clusters by id, with the members that
have a row. -/
def Conversation.computeVotesBaseBuckets (c : Conversation K) : List (ℤ × BucketVotes) :=
  let mat := c.rawRatingMat
  let bucketRows := (sortById c.baseClusters).map fun b => b.members.filterMap (enumerated mat.index)
  mat.columns.zipIdx.map fun e =>
    let perBucket := bucketRows.map fun rows => columnTally (rows.map fun row => mat.at row e.2)
    (e.1, ⟨perBucket.map Tally.A, perBucket.map Tally.D, perBucket.map Tally.S⟩)

end Polis
