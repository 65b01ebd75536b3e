import Polis.Conversation.Recompute

/-!
# The served blob

`to_dict` and `from_dict`, on the keys `from_dict` reads. The keys the engine never reads back
(representativeness, consensus, per-cluster votes, the math tick) are left out.

Reference: `polismath/conversation/conversation.py`, `polismath/utils/vote_convention.py`,
`polismath/empty_output.py`.
-/

set_option linter.unusedSectionVars false

namespace Polis

open Clustering

variable {K : Type*} [Field K] [LinearOrder K] [Numerics K]

/-! ## The geometry axis -/

/-- `ADMISSIBLE_STORAGE_AGREE_VALUES`: the sign of an agree, `-1` or `1`. -/
inductive AgreeValue
  | negative
  | positive
deriving DecidableEq, Repr

/-- `GEOMETRY_AXIS_AGREE_VALUE` -/
def geometryAxisAgreeValue : AgreeValue := .negative

/-- `_scale` by `_axis_factor`. -/
def scaleAxis (axisAgreeValue : AgreeValue) (values : List K) : List K :=
  match axisAgreeValue with
  | .positive => values
  | .negative => values.map (- ·)

/-- `emit_axis` -/
def emitAxis (axisAgreeValue : AgreeValue) (values : List K) : List K :=
  scaleAxis axisAgreeValue values

/-- `restore_axis` -/
def restoreAxis (axisAgreeValue : AgreeValue) (values : List K) : List K :=
  scaleAxis axisAgreeValue values

@[simp] theorem restoreAxis_emitAxis (axisAgreeValue : AgreeValue) (values : List K) :
    restoreAxis axisAgreeValue (emitAxis axisAgreeValue values) = values := by
  cases axisAgreeValue <;> simp [restoreAxis, emitAxis, scaleAxis]

/-! ## Folded base clusters -/

/-- Base clusters column by column. -/
structure FoldedBaseClusters (K : Type*) where
  id : List ℤ
  members : List (List ℤ)
  x : List K
  y : List K
  count : List ℕ

/-- `_fold_base_clusters` -/
def foldBaseClusters (clusters : List (Cluster ℤ K)) : FoldedBaseClusters K where
  id := clusters.map Cluster.id
  members := clusters.map Cluster.members
  x := clusters.map fun c => c.center.getD 0 0
  y := clusters.map fun c => c.center.getD 1 0
  count := clusters.map fun c => c.members.length

/-- `_unfold_base_clusters` -/
def unfoldBaseClusters (folded : FoldedBaseClusters K) : List (Cluster ℤ K) :=
  (((folded.id.zip folded.members).zip folded.x).zip folded.y).map
    fun (((id, members), x), y) => ⟨id, members, [x, y]⟩

/-! ## The blob -/

/-- The keys of the blob that `from_dict` reads. The moderation lists stand in no particular order;
`groupClustersAlias` is the key `group_clusters`, which older blobs lack. -/
structure MathBlob (K : Type*) where
  zid : ℤ
  lastUpdated : ℤ
  participantCount : ℕ
  commentCount : ℕ
  voteStats : VoteStats K
  modOutTids : Finset ℤ
  modInTids : Finset ℤ
  metaTids : Finset ℤ
  modOutPtpts : Finset ℤ
  lastModTimestamp : Option ℤ
  tids : List ℤ
  pca : Option (Pca K)
  proj : List (ℤ × List K)
  baseClusters : FoldedBaseClusters K
  groupClusters : List (Cluster ℤ K)
  groupClustersAlias : Option (List (Cluster ℤ K))
  groupVotes : List (ℤ × GroupVotes)
  commentPriorities : List (ℤ × K)

/-! ## Serialization -/

/-- The `group-votes` of `to_dict`: a fresh tally over the raw matrix, without the groups that have
no member in it. -/
def Conversation.emittedGroupVotes (c : Conversation K) : List (ℤ × GroupVotes) :=
  if c.groupClusters.isEmpty then []
  else c.unfoldedGroupClusters.foldl (fun groupVotes group =>
    let members := group.members.filter (· ∈ c.rawRatingMat.index)
    if members.isEmpty then groupVotes
    else dictSet groupVotes group.id ⟨members.length,
      c.rawRatingMat.columns.map fun tid => (tid, tallyVotes c.rawRatingMat members tid)⟩) []

/-- `values[perm]` -/
def permute (perm : List ℕ) (values : List K) : List K := perm.map fun i => values.getD i 0

/-- The emitted columns in arrival order; those that predate the tracker keep the emitted order. -/
def arrivalTids (tidArrivalOrder emittedTids : List ℤ) : List ℤ :=
  let arrival := tidArrivalOrder.filter (· ∈ emittedTids)
  arrival ++ emittedTids.filter (· ∉ arrival)

/-- The part of `_apply_legacy_blob_shape` on `tids` and the arrays aligned with them. -/
def emittedColumns (tidArrivalOrder emittedTids : List ℤ) (pca : Option (Pca K)) :
    List ℤ × Option (Pca K) :=
  let arrival := arrivalTids tidArrivalOrder emittedTids
  let perm := arrival.map fun t => emittedTids.idxOf t
  match pca with
  | none => (arrival, none)
  | some pca =>
    if perm.length = pca.center.length then
      (arrival, some ⟨emitAxis geometryAxisAgreeValue (permute perm pca.center),
        pca.comps.map (permute perm)⟩)
    else (emittedTids, some ⟨emitAxis geometryAxisAgreeValue pca.center, pca.comps⟩)

/-- `apply_empty_contract` -/
def applyEmptyContract (blob : MathBlob K) : MathBlob K :=
  { blob with
    tids := []
    groupClusters := []
    groupVotes := []
    pca := some ⟨[], (blob.pca.map Pca.comps).getD [[], []]⟩ }

/-- `to_dict` -/
def Conversation.toDict (c : Conversation K) : MathBlob K :=
  let (tids, pca) := emittedColumns c.tidArrivalOrder c.ratingMat.columns c.pca
  let baseClusters := foldBaseClusters c.baseClusters
  let blob : MathBlob K :=
    { zid := c.conversationId
      lastUpdated := c.lastUpdated
      participantCount := c.participantCount
      commentCount := c.commentCount
      voteStats := c.voteStats
      modOutTids := c.modOutTids
      modInTids := c.modInTids
      metaTids := c.metaTids
      modOutPtpts := c.modOutPtpts
      lastModTimestamp := c.lastModTimestamp
      tids
      pca
      proj := c.proj
      baseClusters :=
        { baseClusters with
          x := emitAxis geometryAxisAgreeValue baseClusters.x
          y := emitAxis geometryAxisAgreeValue baseClusters.y }
      groupClusters := c.groupClusters.map fun g =>
        { g with center := emitAxis geometryAxisAgreeValue g.center }
      groupClustersAlias := some c.unfoldedGroupClusters
      groupVotes := c.emittedGroupVotes
      commentPriorities := c.commentPriorities }
  if c.rawRatingMat.isEmpty then applyEmptyContract blob else blob

/-! ## Restoring -/

/-- `from_dict`; `geometryAxis` is the axis the blob's geometry was emitted in. The matrices restore
empty. -/
def MathBlob.fromDict (data : MathBlob K) (geometryAxis : AgreeValue) : Conversation K where
  conversationId := data.zid
  lastUpdated := data.lastUpdated
  participantCount := data.participantCount
  commentCount := data.commentCount
  voteStats := data.voteStats
  modOutTids := data.modOutTids
  modInTids := data.modInTids
  metaTids := data.metaTids
  modOutPtpts := data.modOutPtpts
  moderationApplied :=
    data.modOutTids ≠ ∅ ∨ data.modInTids ≠ ∅ ∨ data.metaTids ≠ ∅ ∨ data.modOutPtpts ≠ ∅
  lastModTimestamp := data.lastModTimestamp
  tidArrivalOrder := data.tids
  pca := data.pca.map fun pca => ⟨restoreAxis geometryAxis pca.center, pca.comps⟩
  proj := data.proj
  groupClusters := data.groupClustersAlias.getD data.groupClusters
  baseClusters := (unfoldBaseClusters data.baseClusters).map fun c =>
    { c with center := restoreAxis geometryAxis c.center }
  groupVotes := data.groupVotes
  commentPriorities := data.commentPriorities

end Polis
