import Polis.Clustering.Numerics
import Polis.Clustering.CljHash

/-!
# K-means with cluster-identity lineage

Reference: `polismath/pca_kmeans_rep/legacy_kmeans.py`. A clustering is a list of clusters whose
members are row names; a prior clustering is matched against the current rows by name.
-/

namespace Polis.Clustering

variable {ν K : Type*} [DecidableEq ν] [Field K] [LinearOrder K] [Numerics K]

/-- A cluster: id, member names and center. -/
structure Cluster (ν K : Type*) where
  id : ℤ
  members : List ν
  center : List K

/-- `_NamedData`: one row vector for each row name. -/
structure NamedData (ν K : Type*) where
  matrixBacked : Bool
  rows : List (ν × List K)

namespace NamedData

def rowNames (data : NamedData ν K) : List ν := data.rows.map Prod.fst

def matrix (data : NamedData ν K) : List (List K) := data.rows.map Prod.snd

/-- `get_row` -/
def getRow (data : NamedData ν K) (name : ν) : Option (List K) :=
  (data.rows.find? fun r => r.1 = name).map Prod.snd

/-- `n_distinct_rows(bound)`: the elimination passes stop once `bound` classes are found. -/
def nDistinctRows (data : NamedData ν K) (bound : ℕ) : ℕ := min bound data.matrix.dedup.length

end NamedData

/-! ## Distances and means -/

/-- `_euclidean`: the dot-product form of the distance, clamped at 0. -/
def euclidean (a b : List K) : K :=
  let d2 := dot a a + dot b b - 2 * dot a b
  Numerics.sqrt (if d2 < 0 then 0 else d2)

/-- `_center_distance` and `_named_row_distance_col`: summed squared differences. -/
def centerDistance (a b : List K) : K :=
  Numerics.sqrt ((List.zipWith (fun x y => (x - y) * (x - y)) a b).sum)

/-- `weighted_mean`; `none` weights give the arithmetic mean. -/
def weightedMean (rows : List (List K)) (weights : Option (List K)) : List K :=
  let w := weights.getD (rows.map fun _ => 1)
  let n := (rows.head?.map List.length).getD 0
  scale (1 / w.sum) (columnSums n (List.zipWith scale w rows))

/-- `_cluster_weights`: the members' weights, `none` when there is no weight map. -/
def clusterWeights (members : List ν) (weights : Option (ν → K)) : Option (List K) :=
  weights.map members.map

/-! ## Seeding -/

/-- `_get_first_k_distinct_centers`: the first `k` distinct rows in encounter order. -/
def firstKDistinct (k : ℕ) (rows : List (List K)) : List (List K) :=
  (rows.foldl (fun acc r => if r ∈ acc then acc else acc ++ [r]) []).take k

/-- `init_clusters`: ids `0..k-1`, empty members. -/
def initClusters (data : NamedData ν K) (k : ℕ) : List (Cluster ν K) :=
  (firstKDistinct k data.matrix).zipIdx.map fun (center, i) => ⟨i, [], center⟩

/-! ## One Lloyd step -/

/-- The scan of `cluster_step` over cluster positions: a distance no larger than the best so far
takes the row, so ties go to the later cluster in scan order. -/
def scanNearest (dist : ℕ → K) (first : ℕ) (scan : List ℕ) : ℕ :=
  scan.foldl (fun best j => if dist j ≤ dist best then j else best) first

/-- The scan order of `cluster_step`: input order up to 8 clusters, hash-map order of the ids
above. -/
def scanOrder (ids : List ℤ) : List ℕ :=
  let positions := List.range ids.length
  if 8 < ids.length then
    let order := clojureHashMapKeyOrder ids
    let hashPos := fun j => order.idxOf (ids.getD j 0)
    positions.insertionSort fun i j => hashPos i ≤ hashPos j
  else positions

/-- The position of the cluster that captures a row. -/
def nearestCluster (clusters : List (Cluster ν K)) (row : List K) : ℕ :=
  let dist := fun j => euclidean row ((clusters.map Cluster.center).getD j [])
  match scanOrder (clusters.map Cluster.id) with
  | [] => 0
  | first :: scan => scanNearest dist first scan

/-- The rows that the cluster at position `j` captures, in row order. -/
def capturedRows (data : NamedData ν K) (clusters : List (Cluster ν K)) (j : ℕ) :
    List (ν × List K) :=
  data.rows.filter fun r => nearestCluster clusters r.2 = j

/-- `cluster_step`: reassign every row to its nearest center, drop empty clusters, recenter. -/
def clusterStep (data : NamedData ν K) (clusters : List (Cluster ν K)) (weights : Option (ν → K)) :
    List (Cluster ν K) :=
  clusters.zipIdx.filterMap fun (c, j) =>
    let rows := capturedRows data clusters j
    if rows.isEmpty then none
    else
      let members := rows.map Prod.fst
      some ⟨c.id, members, weightedMean (rows.map Prod.snd) (clusterWeights members weights)⟩

/-- `same_clustering`: the sorted centers agree within 0.01, on the common prefix. -/
def sameClustering (clusters₁ clusters₂ : List (Cluster ν K)) : Bool :=
  let sorted := fun cs : List (Cluster ν K) =>
    (cs.map Cluster.center).insertionSort fun a b => decide (a ≤ b) = true
  (List.zipWith centerDistance (sorted clusters₁) (sorted clusters₂)).all (· < 1 / 100)

/-! ## Warm start -/

/-- `_recenter_center`: the mean over the members that survive in the data, if any. -/
def recenterCenter (data : NamedData ν K) (members : List ν) (weights : Option (ν → K)) :
    Option (List K) :=
  match members.filter (· ∈ data.rowNames) with
  | [] => none
  | surviving =>
    some (weightedMean (surviving.filterMap data.getRow) (clusterWeights surviving weights))

/-- `max((c['id'] for c in clusters), default=-1)`. -/
def maxId (clusters : List (Cluster ν K)) : ℤ :=
  (clusters.map Cluster.id).max?.getD (-1)

/-- `safe_recenter_clusters`: drop the clusters whose members all vanished; if all did, one cluster
of all rows. -/
def safeRecenterClusters (data : NamedData ν K) (clusters : List (Cluster ν K))
    (weights : Option (ν → K)) : List (Cluster ν K) :=
  let out := clusters.filterMap fun c =>
    (recenterCenter data c.members weights).map fun center => { c with center }
  match out with
  | [] => [⟨maxId clusters + 1, data.rowNames,
      (recenterCenter data data.rowNames weights).getD []⟩]
  | out => out

/-- `recenter_clusters`: no dropping; a cluster without survivors keeps its center. -/
def recenterClusters (data : NamedData ν K) (clusters : List (Cluster ν K))
    (weights : Option (ν → K)) : List (Cluster ν K) :=
  clusters.map fun c =>
    { c with center := (recenterCenter data c.members weights).getD c.center }

/-- `merge_clusters`: the larger cluster's id, a tie going to the second. -/
def mergeClusters (c₁ c₂ : Cluster ν K) : Cluster ν K :=
  let n₁ := c₁.members.length
  let n₂ := c₂.members.length
  { id := if n₂ < n₁ then c₁.id else c₂.id
    members := c₁.members ++ c₂.members
    center := weightedMean [c₁.center, c₂.center] (some [(n₁ : K), (n₂ : K)]) }

/-- Merge `c` into the first accumulated cluster with an equal center, else append it. -/
def uniqifyInsert (c : Cluster ν K) : List (Cluster ν K) → List (Cluster ν K)
  | [] => [c]
  | e :: acc => if e.center = c.center then mergeClusters e c :: acc else e :: uniqifyInsert c acc

/-- `uniqify_clusters`: merge clusters with identical centers. -/
def uniqifyClusters (clusters : List (Cluster ν K)) : List (Cluster ν K) :=
  clusters.foldl (fun acc c => uniqifyInsert c acc) []

/-- The distance of a row to its nearest center, as `most_distal` measures it. -/
def nearDist (data : NamedData ν K) (clusters : List (Cluster ν K)) (row : List K) : K :=
  let distance := if data.matrixBacked then euclidean row else centerDistance row
  match clusters with
  | [] => 0
  | c :: cs => cs.foldl (fun near c => min near (distance c.center)) (distance c.center)

/-- `most_distal`: the row farthest from its nearest center, ties going to the later row, with that
distance; `none` on empty data. -/
def mostDistal (data : NamedData ν K) (clusters : List (Cluster ν K)) : Option (K × ν) :=
  data.rows.foldl (fun best r =>
    let d := nearDist data clusters r.2
    match best with
    | none => some (d, r.1)
    | some b => if b.1 ≤ d then some (d, r.1) else some b) none

omit [LinearOrder K] [Numerics K] in
@[simp] theorem length_recenterClusters (data : NamedData ν K) (clusters : List (Cluster ν K))
    (weights : Option (ν → K)) :
    (recenterClusters data clusters weights).length = clusters.length :=
  List.length_map _

/-- Pull the outlier out of its cluster into a new singleton with id `(inc (max ids))`. -/
def splitOff (data : NamedData ν K) (clusters : List (Cluster ν K)) (outlier : ν) :
    List (Cluster ν K) :=
  clusters.map (fun c => { c with members := c.members.filter (· ≠ outlier) }) ++
    [⟨maxId clusters + 1, [outlier], (data.getRow outlier).getD []⟩]

omit [Field K] [LinearOrder K] [Numerics K] in
@[simp] theorem length_splitOff (data : NamedData ν K) (clusters : List (Cluster ν K)) (o : ν) :
    (splitOff data clusters o).length = clusters.length + 1 := by
  simp [splitOff]

/-- The split loop of `clean_start_clusters`: until `possible` clusters are reached or no row lies
off its nearest center. -/
def splitLoop (data : NamedData ν K) (weights : Option (ν → K)) (possible : ℕ)
    (clusters : List (Cluster ν K)) : List (Cluster ν K) :=
  if possible ≤ clusters.length then recenterClusters data clusters weights
  else
    let clusters' := recenterClusters data clusters weights
    match mostDistal data clusters' with
    | none => clusters'
    | some (dist, outlier) =>
      if dist ≤ 0 then clusters'
      else splitLoop data weights possible (splitOff data clusters' outlier)
termination_by possible - clusters.length
decreasing_by
  simp only [length_splitOff, length_recenterClusters]
  omega

/-- `clean_start_clusters`: a prior clustering prepared as the seed of a new round. -/
def cleanStartClusters (data : NamedData ν K) (clusters : List (Cluster ν K)) (k : ℕ)
    (weights : Option (ν → K)) : List (Cluster ν K) :=
  match clusters with
  | [] => initClusters data k
  | clusters =>
    let clusters := uniqifyClusters (safeRecenterClusters data clusters weights)
    splitLoop data weights (min k (data.nDistinctRows k)) clusters

/-! ## The k-means loop -/

/-- Lloyd steps until the clustering stands still or the budget is spent; at least one is taken. -/
def kmeansLoop (data : NamedData ν K) (weights : Option (ν → K)) :
    ℕ → List (Cluster ν K) → List (Cluster ν K)
  | 0, clusters => clusterStep data clusters weights
  | iters + 1, clusters =>
    let new := clusterStep data clusters weights
    if sameClustering clusters new then new else kmeansLoop data weights iters new

/-- `kmeans`; an absent prior clustering is the empty one. -/
def kmeans (data : NamedData ν K) (k : ℕ) (lastClusters : List (Cluster ν K))
    (weights : Option (ν → K)) (maxIters : ℕ) : List (Cluster ν K) :=
  if data.rows.isEmpty then []
  else kmeansLoop data weights maxIters (cleanStartClusters data lastClusters k weights)

end Polis.Clustering
