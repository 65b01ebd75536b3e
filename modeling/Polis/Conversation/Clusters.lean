import Polis.Conversation.State
import Mathlib.Data.Finset.Card

/-!
# Two-level clustering

The in-conv participants are clustered into base clusters, and the base clusters into groups.

Reference: `polismath/conversation/conversation.py`, `polismath/pca_kmeans_rep/clusters.py`.
-/

namespace Polis

open Clustering

variable {K : Type*} [Field K] [LinearOrder K] [Numerics K]

/-! ## In-conv participants -/

/-- `_compute_user_vote_counts`: the votes of each row of the rating matrix, counted on the raw
matrix. -/
def Conversation.computeUserVoteCounts (c : Conversation K) : List (ℤ × ℕ) :=
  c.ratingMat.index.map fun p => (p, ((c.rawRatingMat.row p).filter Option.isSome).length)

/-- `IN_CONV_GREEDY_N` -/
def inConvGreedyN : ℕ := 15

/-- `_get_in_conv_participants`: the carried set and the participants over the threshold, filled up
with the top voters. The result is also the new carried set. -/
def Conversation.getInConvParticipants (c : Conversation K) : Finset ℤ :=
  let threshold := min 7 c.rawRatingMat.columns.length
  let voteCounts := c.computeUserVoteCounts
  let pids := voteCounts.map Prod.fst
  let thresholdSet := ((voteCounts.filter fun e => threshold ≤ e.2).map Prod.fst).toFinset
  let inConv := (c.inConv ∩ pids.toFinset) ∪ thresholdSet
  if inConv.card < inConvGreedyN then
    let count := fun p => (voteCounts.lookup p).getD 0
    let candidates := ((clojureHashMapKeyOrder pids).filter (· ∉ inConv)).insertionSort
      fun p q => count q ≤ count p
    inConv ∪ (candidates.take (inConvGreedyN - inConv.card)).toFinset
  else inConv

/-! ## Scoring a clustering -/

/-- Labels in row order; a name without a label gets the next unused one. -/
def labelRows (labelByName : ℤ → Option ℕ) : ℕ → List ℤ → List ℕ
  | _, [] => []
  | nextLabel, name :: names =>
    match labelByName name with
    | some label => label :: labelRows labelByName nextLabel names
    | none => nextLabel :: labelRows labelByName (nextLabel + 1) names

/-- `_labels_from_id_clusters`: the position of the last cluster that lists the name. -/
def labelsFromIdClusters (rowNames : List ℤ) (clusters : List (Cluster ℤ K)) : List ℕ :=
  let labelByName := fun name =>
    (clusters.zipIdx.filter fun e => name ∈ e.1.members).getLast?.map Prod.snd
  labelRows labelByName clusters.length rowNames

/-- `calculate_silhouette_sklearn` -/
def calculateSilhouetteSklearn (data : List (List K)) (labels : List ℕ) : K :=
  let nLabels := labels.dedup.length
  if nLabels ≤ 1 ∨ data.length ≤ nLabels then 0 else Numerics.silhouetteScore data labels

/-! ## The two levels -/

/-- `sort(key=lambda c: c['id'])` -/
def sortById (clusters : List (Cluster ℤ K)) : List (Cluster ℤ K) :=
  clusters.insertionSort fun c d => c.id ≤ d.id

/-- `BASE_K` -/
def baseK : ℕ := 100

/-- `BASE_ITERS` -/
def baseIters : ℕ := 100

/-- `GROUP_LEGACY_ITERS` -/
def groupLegacyIters : ℕ := 20

/-- The largest group count to try on `n` base clusters (`MAX_K = 5`). -/
def maxK (n : ℕ) : ℕ := max 2 (min (min 5 (2 + n / 12)) n)

/-- `range(2, max_k + 1)` -/
def groupKRange (n : ℕ) : List ℕ := List.range' 2 (maxK n - 1)

/-- The projections of the in-conv participants, in projection order: the rows of `base_data`. -/
def Conversation.inConvRows (c : Conversation K) : List (ℤ × List K) :=
  c.proj.filter fun e => e.1 ∈ c.inConv

/-- `in_conv_pids_list` -/
def Conversation.inConvPidsList (c : Conversation K) : List ℤ := c.inConvRows.map Prod.fst

/-- Base clustering of the in-conv rows. -/
def computeBaseClusters (rows : List (ℤ × List K)) (prevBaseClusters : List (Cluster ℤ K)) :
    List (Cluster ℤ K) :=
  sortById (kmeans ⟨false, rows⟩ (min baseK rows.length) prevBaseClusters none baseIters)

/-- `{c['id']: c for c in clusters}`: the last cluster of an id. -/
def clusterById (clusters : List (Cluster ℤ K)) (id : ℤ) : Option (Cluster ℤ K) :=
  clusters.reverse.find? fun c => c.id = id

/-- `base_weights_by_id` -/
def baseWeightsById (baseClusters : List (Cluster ℤ K)) (id : ℤ) : K :=
  (((clusterById baseClusters id).map fun c => c.members.length).getD 0 : ℕ)

/-- The base clusters as rows of the group data: their centers by id. -/
def groupData (baseClusters : List (Cluster ℤ K)) : NamedData ℤ K :=
  ⟨true, baseClusters.map fun c => (c.id, c.center)⟩

/-- The clustering of the base clusters into at most `k` groups, warm-started from the previous
clustering of the same `k`. -/
def groupClustering (baseClusters : List (Cluster ℤ K))
    (prevGroupClusterings : List (ℕ × List (Cluster ℤ K))) (k : ℕ) : List (Cluster ℤ K) :=
  sortById (kmeans (groupData baseClusters) k ((prevGroupClusterings.lookup k).getD [])
    (some (baseWeightsById baseClusters)) groupLegacyIters)

/-- The clusterings for every `k` of the range. -/
def computeGroupClusterings (baseClusters : List (Cluster ℤ K))
    (prevGroupClusterings : List (ℕ × List (Cluster ℤ K))) : List (ℕ × List (Cluster ℤ K)) :=
  (groupKRange baseClusters.length).map fun k =>
    (k, groupClustering baseClusters prevGroupClusterings k)

/-- `silhouettes_by_k` -/
def silhouettesByK (baseClusters : List (Cluster ℤ K))
    (groupClusterings : List (ℕ × List (Cluster ℤ K))) : List (ℕ × K) :=
  groupClusterings.map fun e =>
    (e.1, calculateSilhouetteSklearn (baseClusters.map Cluster.center)
      (labelsFromIdClusters (baseClusters.map Cluster.id) e.2))

/-- The two levels of `_compute_clusters` on the in-conv rows. -/
def Conversation.clusterInConvRows (c : Conversation K) (prevBaseClusters : List (Cluster ℤ K))
    (prevGroupClusterings : List (ℕ × List (Cluster ℤ K)))
    (prevGroupKSmoother : GroupKSmoother) : Conversation K :=
  let baseClusters := computeBaseClusters c.inConvRows prevBaseClusters
  let groupClusterings := computeGroupClusterings baseClusters prevGroupClusterings
  match groupKSmootherUpdate prevGroupKSmoother (silhouettesByK baseClusters groupClusterings)
      groupKBuffer with
  | none => c -- the map is never empty: `k = 2` is always scored
  | some (groupKSmoother, selectedK) =>
    { c with
      groupClusterings
      groupKSmoother
      baseClusters
      groupClusters := sortById ((groupClusterings.lookup selectedK).getD []) }

/-- `_compute_clusters` -/
def Conversation.computeClusters (c : Conversation K) (prevBaseClusters : List (Cluster ℤ K))
    (prevGroupClusterings : List (ℕ × List (Cluster ℤ K)))
    (prevGroupKSmoother : GroupKSmoother) : Conversation K :=
  if c.proj.isEmpty then { c with baseClusters := [], groupClusters := [] }
  else
    let c := { c with inConv := c.getInConvParticipants }
    if c.inConvRows.isEmpty then { c with baseClusters := [], groupClusters := [] }
    else c.clusterInConvRows prevBaseClusters prevGroupClusterings prevGroupKSmoother

/-! ## Unfolding -/

/-- The members of the base cluster with an id, none when there is no such cluster. -/
def baseMembers (baseClusters : List (Cluster ℤ K)) (id : ℤ) : List ℤ :=
  ((clusterById baseClusters id).map Cluster.members).getD []

/-- `_unfolded_group_clusters`: base-cluster ids expanded to participant ids. -/
def Conversation.unfoldedGroupClusters (c : Conversation K) : List (Cluster ℤ K) :=
  c.groupClusters.map fun g => { g with members := g.members.flatMap (baseMembers c.baseClusters) }

end Polis
