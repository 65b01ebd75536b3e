import Polis.Clustering.KmeansTheorems
import Polis.Clustering.Vectors
import Polis.Clustering.RealNumerics

/-!
# Lloyd steps descend

Every row goes to a cluster whose center is nearest, and the weighted mean of the rows a cluster captures has the
least weighted sum of squared distances from them. A dropped cluster captures no row. A step that keeps all
clusters and moves a center descends, so that the steps come to an end: which cluster captures which row decides
the next clusters, and cannot be the same twice.

Reference: `polismath/pca_kmeans_rep/legacy_kmeans.py`.
-/

set_option linter.unusedSectionVars false

namespace Polis.Clustering

open List

variable {ν : Type*} {data : NamedData ν ℝ} {weights : Option (ν → ℝ)} {n : ℕ}

/-! ## The statement -/

/-- `|a - b|²`, multiplied out. -/
noncomputable def sqDist (a b : List ℝ) : ℝ := dot a a + dot b b - 2 * dot a b

/-- The weight of a row; one where there is no weight map. -/
def rowWeight (weights : Option (ν → ℝ)) (name : ν) : ℝ := weights.elim 1 (· name)

/-- The weighted sum over the rows of the squared distance to the nearest center. -/
noncomputable def potential (data : NamedData ν ℝ) (weights : Option (ν → ℝ)) (clusters : List (Cluster ν ℝ)) : ℝ :=
  (data.rows.map fun r => rowWeight weights r.1 * (clusters.map fun c => sqDist r.2 c.center).min?.getD 0).sum

/-! ## The nearest center -/

theorem scanNearest_le (dist : ℕ → ℝ) (first : ℕ) (scan : List ℕ) :
    ∀ j ∈ first :: scan, dist (scanNearest dist first scan) ≤ dist j := by
  induction scan generalizing first with
  | nil => simp [scanNearest]
  | cons i scan ih =>
    have hbest := ih (if dist i ≤ dist first then i else first)
    have hhead := hbest _ mem_cons_self
    intro j hj
    rw [scanNearest, foldl_cons]
    rcases mem_cons.1 hj with rfl | hj
    · refine hhead.trans ?_
      split <;> [assumption; exact le_rfl]
    · rcases mem_cons.1 hj with rfl | hj
      · refine hhead.trans ?_
        split <;> [exact le_rfl; exact (not_le.1 ‹_›).le]
      · exact hbest j (mem_cons_of_mem _ hj)

private theorem min?_getD_le {l : List ℝ} {x : ℝ} (hx : x ∈ l) : l.min?.getD 0 ≤ x := by
  cases hm : l.min? with
  | none => simp [min?_eq_none_iff.1 hm] at hx
  | some m => exact (min?_eq_some_iff.1 hm).2 x hx

/-! ## The mean -/

/-- The weighted squared distances of rows from a point, by the point's dot products. -/
theorem sum_sqDist (w : ν → ℝ) (l : List (ν × List ℝ)) (c : List ℝ) :
    (l.map fun r => w r.1 * sqDist r.2 c).sum = (l.map fun r => w r.1 * dot r.2 r.2).sum +
      (l.map fun r => w r.1).sum * dot c c - 2 * (l.map fun r => w r.1 * dot r.2 c).sum := by
  induction l with
  | nil => simp
  | cons r l ih =>
    simp only [map_cons, sum_cons]
    rw [ih, sqDist]
    ring

theorem weightedMean_eq (l : List (ν × List ℝ)) (weights : Option (ν → ℝ)) :
    weightedMean (l.map Prod.snd) (clusterWeights (l.map Prod.fst) weights) =
      scale (1 / (l.map fun r => rowWeight weights r.1).sum) (columnSums ((l.head?.map fun r => r.2.length).getD 0)
        (l.map fun r => scale (rowWeight weights r.1) r.2)) := by
  have hw : (clusterWeights (l.map Prod.fst) weights).getD ((l.map Prod.snd).map fun _ => 1) =
      l.map fun r => rowWeight weights r.1 := by
    cases weights <;> simp [clusterWeights, rowWeight, Function.comp_def]
  unfold weightedMean
  dsimp only
  rw [hw]
  simp [zipWith_map, zipWith_self, Function.comp_def]

/-- The mean is closer to its rows than any point, by its squared distance from the point times the weight of the
rows. -/
theorem weightedMean_closer {l : List (ν × List ℝ)} (hne : l ≠ []) (hl : ∀ r ∈ l, r.2.length = n)
    (hw : ∀ r ∈ l, 0 < rowWeight weights r.1) (c : List ℝ) :
    let mean := weightedMean (l.map Prod.snd) (clusterWeights (l.map Prod.fst) weights)
    (l.map fun r => rowWeight weights r.1 * sqDist r.2 mean).sum +
        (l.map fun r => rowWeight weights r.1).sum * sqDist mean c =
      (l.map fun r => rowWeight weights r.1 * sqDist r.2 c).sum := by
  have hpos : 0 < (l.map fun r => rowWeight weights r.1).sum :=
    sum_pos _ (forall_mem_map.2 hw) (by simpa using hne)
  have hhead : (l.head?.map fun r => r.2.length).getD 0 = n := by
    obtain ⟨r, l, rfl⟩ := exists_cons_of_ne_nil hne
    exact hl r mem_cons_self
  dsimp only
  rw [weightedMean_eq, hhead]
  set W := (l.map fun r => rowWeight weights r.1).sum
  set m := scale (1 / W) (columnSums n (l.map fun r => scale (rowWeight weights r.1) r.2))
  have hmean : ∀ u, (l.map fun r => rowWeight weights r.1 * dot r.2 u).sum = W * dot m u := fun u => by
    rw [dot_scale, dot_columnSums (forall_mem_map.2 fun r hr => by simpa [scale] using hl r hr), map_map]
    simp only [Function.comp_def, dot_scale]
    field_simp
  rw [sum_sqDist, sum_sqDist, hmean, hmean, sqDist]
  ring

/-- The mean is no farther from its rows than any point. -/
theorem weightedMean_optimal {l : List (ν × List ℝ)} (hne : l ≠ []) (hl : ∀ r ∈ l, r.2.length = n)
    (hw : ∀ r ∈ l, 0 < rowWeight weights r.1) (c : List ℝ) :
    (l.map fun r => rowWeight weights r.1 *
      sqDist r.2 (weightedMean (l.map Prod.snd) (clusterWeights (l.map Prod.fst) weights))).sum ≤
    (l.map fun r => rowWeight weights r.1 * sqDist r.2 c).sum := by
  rw [← weightedMean_closer hne hl hw c]
  have hweight : 0 ≤ (l.map fun r => rowWeight weights r.1).sum :=
    sum_nonneg (forall_mem_map.2 fun r hr => (hw r hr).le)
  exact le_add_of_nonneg_right (mul_nonneg hweight (sqDist_nonneg _ c))

/-! ## The step -/

variable [RealNumerics]

theorem euclidean_eq (a b : List ℝ) : euclidean a b = √(sqDist a b) := by
  rw [euclidean, RealNumerics.sqrt_eq, if_neg (sqDist_nonneg a b).not_gt, sqDist]

/-- The cluster that captures a row is one with the nearest center, in whatever order they are scanned. -/
theorem nearestCluster_le {clusters : List (Cluster ν ℝ)} (row : List ℝ) {j : ℕ} (hj : j < clusters.length) :
    sqDist row ((clusters.map Cluster.center).getD (nearestCluster clusters row) []) ≤
      sqDist row ((clusters.map Cluster.center).getD j []) := by
  have hmem : j ∈ scanOrder (clusters.map Cluster.id) :=
    (scanOrder_perm _).mem_iff.2 (mem_range.2 (by simpa using hj))
  have hle : euclidean row ((clusters.map Cluster.center).getD (nearestCluster clusters row) []) ≤
      euclidean row ((clusters.map Cluster.center).getD j []) := by
    unfold nearestCluster
    dsimp only
    cases hscan : scanOrder (clusters.map Cluster.id) with
    | nil => simp [hscan] at hmem
    | cons first scan =>
      exact scanNearest_le (fun i => euclidean row ((clusters.map Cluster.center).getD i [])) first scan j
        (hscan ▸ hmem)
  rw [euclidean_eq, euclidean_eq] at hle
  exact (Real.sqrt_le_sqrt_iff (sqDist_nonneg _ _)).1 hle

variable [DecidableEq ν] {clusters : List (Cluster ν ℝ)}

/-- The weighted squared distances of the rows from the points of the clusters that capture them. -/
noncomputable def assigned (data : NamedData ν ℝ) (weights : Option (ν → ℝ)) (clusters : List (Cluster ν ℝ))
    (point : ℕ → List ℝ) : ℝ :=
  (data.rows.map fun r => rowWeight weights r.1 * sqDist r.2 (point (nearestCluster clusters r.2))).sum

theorem assigned_eq (hne : clusters ≠ []) (point : ℕ → List ℝ) : assigned data weights clusters point =
    ((List.range clusters.length).map fun j => ((capturedRows data clusters j).map fun r =>
      rowWeight weights r.1 * sqDist r.2 (point j)).sum).sum := by
  have hperm := flatMap_fibers_perm (fun r : ν × List ℝ => nearestCluster clusters r.2)
    (nodup_range (n := clusters.length)) (l := data.rows) fun r _ => mem_range.2 (nearestCluster_lt hne r.2)
  rw [assigned, ← (hperm.map _).sum_eq, map_flatMap, flatMap_def, sum_flatten, map_map]
  refine congrArg List.sum (map_congr_left fun j _ => congrArg List.sum (map_congr_left fun r hr => ?_))
  rw [of_decide_eq_true (mem_filter.1 hr).2]

/-- A step lowers the potential or leaves it: the rows move to nearest centers, then the centers to the means of
their rows. -/
theorem clusterStep_descends (hdata : ∀ r ∈ data.rows, r.2.length = n)
    (hw : ∀ r ∈ data.rows, 0 < rowWeight weights r.1) (hne : clusters ≠ []) :
    potential data weights (clusterStep data clusters weights) ≤ potential data weights clusters := by
  calc potential data weights (clusterStep data clusters weights)
    _ ≤ assigned data weights clusters fun j => weightedMean ((capturedRows data clusters j).map Prod.snd)
          (clusterWeights ((capturedRows data clusters j).map Prod.fst) weights) := by
      refine sum_le_sum fun r hr => mul_le_mul_of_nonneg_left (min?_getD_le ?_) (hw r hr).le
      -- the cluster that captures the row is not dropped
      have hcaptured : r ∈ capturedRows data clusters (nearestCluster clusters r.2) := by simp [capturedRows, hr]
      have hlt := nearestCluster_lt hne r.2
      generalize nearestCluster clusters r.2 = j at hcaptured hlt ⊢
      exact mem_map.2 ⟨⟨clusters[j].id, _, _⟩, mem_filterMap.2 ⟨(clusters[j], j),
        mem_zipIdx_iff_getElem?.2 (getElem?_eq_getElem hlt),
        if_neg (by simpa using ne_nil_of_mem hcaptured)⟩, rfl⟩
    _ ≤ assigned data weights clusters fun j => (clusters.map Cluster.center).getD j [] := by
      rw [assigned_eq hne, assigned_eq hne]
      refine sum_le_sum fun j _ => ?_
      rcases eq_or_ne (capturedRows data clusters j) [] with hnil | hsome
      · simp [hnil]
      · exact weightedMean_optimal hsome (fun r hr => hdata r (mem_filter.1 hr).1)
          (fun r hr => hw r (mem_filter.1 hr).1) _
    _ ≤ potential data weights clusters := by
      refine sum_le_sum fun r hr => mul_le_mul_of_nonneg_left ?_ (hw r hr).le
      cases hm : (clusters.map fun c => sqDist r.2 c.center).min? with
      | none => simp [hne] at hm
      | some m =>
        obtain ⟨c, hc, rfl⟩ := mem_map.1 (min?_mem hm)
        obtain ⟨j, hj, rfl⟩ := mem_iff_getElem.1 hc
        simpa [hj] using nearestCluster_le r.2 hj

omit [RealNumerics] in
/-- The center of the only cluster moves between its two rows. -/
theorem clusterStep_descends_pair : let _ := RealNumerics.of (fun _ _ => 0) fun _ => 0
    let data : NamedData ℕ ℝ := ⟨false, [(0, [0]), (1, [2])]⟩
    potential data none (clusterStep data [⟨0, [], [0]⟩] none) ≤ potential data none [⟨0, [], [0]⟩] := by
  intro _ data
  exact clusterStep_descends (n := 1) (by simp [data]) (by simp [rowWeight]) (by simp)

/-! ## The loop -/

/-- The weighted sum over the rows of the squared distance to the center of the cluster that captures them. -/
noncomputable def inertia (data : NamedData ν ℝ) (weights : Option (ν → ℝ)) (clusters : List (Cluster ν ℝ)) : ℝ :=
  assigned data weights clusters fun j => (clusters.map Cluster.center).getD j []

/-- The center that a step gives to the cluster at a position. -/
noncomputable def newCenter (data : NamedData ν ℝ) (weights : Option (ν → ℝ)) (clusters : List (Cluster ν ℝ))
    (j : ℕ) : List ℝ :=
  weightedMean ((capturedRows data clusters j).map Prod.snd)
    (clusterWeights ((capturedRows data clusters j).map Prod.fst) weights)

/-- The weighted squared distances of the rows that a cluster captures. -/
noncomputable def capturedSum (data : NamedData ν ℝ) (weights : Option (ν → ℝ)) (clusters : List (Cluster ν ℝ))
    (j : ℕ) (point : List ℝ) : ℝ :=
  ((capturedRows data clusters j).map fun r => rowWeight weights r.1 * sqDist r.2 point).sum

theorem inertia_eq (hne : clusters ≠ []) : inertia data weights clusters = ((List.range clusters.length).map fun j =>
    capturedSum data weights clusters j ((clusters.map Cluster.center).getD j [])).sum :=
  assigned_eq hne _

/-- The new centers are not worse for where the rows are, and the rows then go to the nearest. -/
theorem inertia_clusterStep_le (hw : ∀ r ∈ data.rows, 0 < rowWeight weights r.1) (hne : clusters ≠ []) :
    inertia data weights (clusterStep data clusters weights) ≤ ((List.range clusters.length).map fun j =>
      capturedSum data weights clusters j (newCenter data weights clusters j)).sum := by
  refine le_of_le_of_eq (sum_le_sum fun r hr => mul_le_mul_of_nonneg_left ?_ (hw r hr).le)
    (assigned_eq hne (newCenter data weights clusters))
  have hcaptured : r ∈ capturedRows data clusters (nearestCluster clusters r.2) := by simp [capturedRows, hr]
  have hlt := nearestCluster_lt hne r.2
  generalize nearestCluster clusters r.2 = j at hcaptured hlt ⊢
  have hmem : ⟨clusters[j].id, _, newCenter data weights clusters j⟩ ∈ clusterStep data clusters weights :=
    mem_filterMap.2 ⟨(clusters[j], j), mem_zipIdx_iff_getElem?.2 (getElem?_eq_getElem hlt),
      if_neg (by simpa using ne_nil_of_mem hcaptured)⟩
  obtain ⟨i, hi, heq⟩ := mem_iff_getElem.1 hmem
  simpa [hi, heq] using nearestCluster_le r.2 hi

/-- Centers that stand still are the same clustering. -/
theorem sameClustering_of_centers {old new : List (Cluster ν ℝ)}
    (h : new.map Cluster.center = old.map Cluster.center) : sameClustering old new := by
  have hself : ∀ c : List ℝ, centerDistance c c = 0 := fun c => by
    rw [centerDistance, RealNumerics.sqrt_eq, zipWith_self]
    simp
  simp [sameClustering, h, zipWith_self, hself]

/-- A step depends on the ids and on which cluster captures each row. -/
theorem clusterStep_congr {old new : List (Cluster ν ℝ)} (hids : old.map Cluster.id = new.map Cluster.id)
    (hnearest : ∀ r ∈ data.rows, nearestCluster old r.2 = nearestCluster new r.2) :
    clusterStep data old weights = clusterStep data new weights := by
  have hcaptured : ∀ j, capturedRows data old j = capturedRows data new j := fun j =>
    filter_congr fun r hr => by rw [hnearest r hr]
  have hstep : ∀ clusters : List (Cluster ν ℝ), clusterStep data clusters weights =
      (clusters.map Cluster.id).zipIdx.filterMap fun e =>
        if (capturedRows data clusters e.2).isEmpty then none
        else some ⟨e.1, (capturedRows data clusters e.2).map Prod.fst, newCenter data weights clusters e.2⟩ := by
    intro clusters
    rw [zipIdx_map, filterMap_map]
    rfl
  rw [hstep, hstep, hids]
  simp only [hcaptured, newCenter]

/-- The loop without its test. -/
noncomputable def steps (data : NamedData ν ℝ) (weights : Option (ν → ℝ)) (clusters : List (Cluster ν ℝ)) (i : ℕ) :
    List (Cluster ν ℝ) :=
  (fun clusters => clusterStep data clusters weights)^[i] clusters

theorem steps_succ (i : ℕ) :
    steps data weights clusters (i + 1) = clusterStep data (steps data weights clusters i) weights :=
  Function.iterate_succ_apply' ..

theorem kmeansLoop_add_one (iters : ℕ) (clusters : List (Cluster ν ℝ)) :
    kmeansLoop data weights (iters + 1) clusters =
      if sameClustering clusters (clusterStep data clusters weights) then clusterStep data clusters weights
      else kmeansLoop data weights iters (clusterStep data clusters weights) := rfl

/-- A step more is one at the end, unless the loop has ended by then. -/
theorem kmeansLoop_last (iters : ℕ) (clusters : List (Cluster ν ℝ)) :
    kmeansLoop data weights (iters + 1) clusters = kmeansLoop data weights iters clusters ∨
      kmeansLoop data weights (iters + 1) clusters =
        clusterStep data (kmeansLoop data weights iters clusters) weights := by
  induction iters generalizing clusters with
  | zero =>
    rw [kmeansLoop_add_one]
    split
    · exact .inl rfl
    · exact .inr rfl
  | succ iters ih =>
    rw [kmeansLoop_add_one (iters + 1) clusters, kmeansLoop_add_one iters clusters]
    split
    · exact .inl rfl
    · exact ih _

/-- The loop ends no later than its test holds. -/
theorem kmeansLoop_settled (N : ℕ)
    (hsame : sameClustering (steps data weights clusters N) (steps data weights clusters (N + 1))) :
    ∃ prev, sameClustering prev (clusterStep data prev weights) ∧
      ∀ iters, N < iters → kmeansLoop data weights iters clusters = clusterStep data prev weights := by
  induction N generalizing clusters with
  | zero =>
    refine ⟨clusters, hsame, fun iters hiters => ?_⟩
    obtain ⟨iters, rfl⟩ := Nat.exists_eq_add_of_lt hiters
    rw [kmeansLoop_add_one]
    exact if_pos hsame
  | succ N ih =>
    by_cases hnow : sameClustering clusters (clusterStep data clusters weights)
    · refine ⟨clusters, hnow, fun iters hiters => ?_⟩
      obtain ⟨iters, rfl⟩ := Nat.exists_eq_add_of_lt hiters
      rw [kmeansLoop_add_one]
      exact if_pos hnow
    · obtain ⟨prev, hprev, hall⟩ := ih hsame
      refine ⟨prev, hprev, fun iters hiters => ?_⟩
      obtain ⟨iters, rfl⟩ := Nat.exists_eq_add_of_lt hiters
      rw [kmeansLoop_add_one, if_neg hnow]
      exact hall _ (by omega)

section

variable (hdata : ∀ r ∈ data.rows, r.2.length = n) (hw : ∀ r ∈ data.rows, 0 < rowWeight weights r.1)
include hdata hw

theorem capturedSum_le (j : ℕ) (c : List ℝ) :
    capturedSum data weights clusters j (newCenter data weights clusters j) ≤
      capturedSum data weights clusters j c := by
  unfold capturedSum
  rcases eq_or_ne (capturedRows data clusters j) [] with hnil | hsome
  · simp [hnil]
  · exact weightedMean_optimal hsome (fun r hr => hdata r (mem_filter.1 hr).1)
      (fun r hr => hw r (mem_filter.1 hr).1) c

theorem capturedSum_lt {j : ℕ} (hsome : capturedRows data clusters j ≠ []) {c : List ℝ} (hc : c.length = n)
    (hmoved : newCenter data weights clusters j ≠ c) :
    capturedSum data weights clusters j (newCenter data weights clusters j) <
      capturedSum data weights clusters j c := by
  have hrows : ∀ r ∈ capturedRows data clusters j, r.2.length = n := fun r hr => hdata r (mem_filter.1 hr).1
  have hweights : ∀ r ∈ capturedRows data clusters j, 0 < rowWeight weights r.1 :=
    fun r hr => hw r (mem_filter.1 hr).1
  have hlength : (newCenter data weights clusters j).length = c.length :=
    (length_weightedMean _ (by simpa using hsome) (forall_mem_map.2 hrows)).trans hc.symm
  rw [capturedSum, capturedSum, ← weightedMean_closer hsome hrows hweights c]
  refine lt_add_of_pos_right _ (mul_pos (sum_pos _ (forall_mem_map.2 hweights) (by simpa using hsome)) ?_)
  exact not_le.1 fun hle => hmoved (eq_of_sqDist hlength hle)

theorem inertia_antitone (clusters : List (Cluster ν ℝ)) :
    inertia data weights (clusterStep data clusters weights) ≤ inertia data weights clusters := by
  rcases eq_or_ne clusters [] with rfl | hne
  · exact le_rfl
  · rw [inertia_eq hne]
    exact (inertia_clusterStep_le hw hne).trans (sum_le_sum fun j _ => capturedSum_le hdata hw j _)

/-- A step loses a cluster, or leaves all centers, or descends. -/
theorem clusterStep_cases (hne : clusters ≠ []) (hcenters : ∀ c ∈ clusters, c.center.length = n) :
    (clusterStep data clusters weights).length < clusters.length ∨
      (clusterStep data clusters weights).map Cluster.center = clusters.map Cluster.center ∨
      inertia data weights (clusterStep data clusters weights) < inertia data weights clusters := by
  by_cases hlost : ∃ j < clusters.length, capturedRows data clusters j = []
  · obtain ⟨j, hj, hnil⟩ := hlost
    left
    rw [clusterStep, ← length_zipIdx (l := clusters) (i := 0)]
    exact length_filterMap_lt_length_iff_exists.2 ⟨(clusters[j], j),
      mem_zipIdx_iff_getElem?.2 (getElem?_eq_getElem hj), by simp [hnil]⟩
  push Not at hlost
  by_cases hstill : ∀ j, ∀ hj : j < clusters.length, newCenter data weights clusters j = clusters[j].center
  · right; left
    have hcenter : clusters.map Cluster.center = clusters.zipIdx.filterMap fun e => some e.1.center := by
      conv_lhs => rw [← zipIdx_map_fst 0 clusters, map_map]
      exact (congrFun filterMap_eq_map _).symm
    rw [clusterStep, map_filterMap, hcenter]
    refine filterMap_congr fun e he => ?_
    obtain ⟨hj, heq⟩ := List.getElem?_eq_some_iff.1 (mem_zipIdx_iff_getElem?.1 he)
    have hsame := hstill e.2 hj
    rw [newCenter, heq] at hsame
    simp [hlost e.2 hj, hsame]
  · right; right
    push Not at hstill
    obtain ⟨j, hj, hmoved⟩ := hstill
    rw [inertia_eq hne]
    refine (inertia_clusterStep_le hw hne).trans_lt
      (sum_lt_sum _ _ (fun j _ => capturedSum_le hdata hw j _) ⟨j, mem_range.2 hj, ?_⟩)
    have hpoint : (clusters.map Cluster.center).getD j [] = clusters[j].center := by simp [hj]
    rw [hpoint]
    exact capturedSum_lt hdata hw (hlost j hj) (hcenters _ (getElem_mem hj)) hmoved

/-- By pigeonhole on the ids and what captures which row: steps that agree on them lead to the same clusters, and
nothing would have descended between them. -/
theorem exists_sameClustering (hrows : data.rows ≠ []) (clusters : List (Cluster ν ℝ)) :
    ∃ N, sameClustering (steps data weights clusters N) (steps data weights clusters (N + 1)) := by
  rcases eq_or_ne clusters [] with rfl | hne
  · exact ⟨0, rfl⟩
  by_contra! hmoves
  have hsucc : ∀ i, steps data weights clusters (i + 1) = clusterStep data (steps data weights clusters i) weights :=
    steps_succ
  generalize hs : steps data weights clusters = s at hmoves hsucc
  have hseed : s 0 = clusters := hs ▸ rfl
  have hnil : ∀ i, s i ≠ [] := fun i => by
    induction i with
    | zero => rwa [hseed]
    | succ i ih =>
      rw [hsucc]
      exact clusterStep_ne_nil weights ih hrows
  have hids : ∀ i, (s i).map Cluster.id <+ clusters.map Cluster.id := fun i => by
    induction i with
    | zero => rw [hseed]
    | succ i ih =>
      rw [hsucc]
      exact (clusterStep_ids_sublist data (s i) weights).trans ih
  have hanti : StrictAnti fun i => toLex ((s (i + 1)).length, inertia data weights (s (i + 1))) := by
    refine strictAnti_nat_of_succ_lt fun i => Prod.Lex.toLex_lt_toLex.2 ?_
    have hcenters : ∀ c ∈ s (i + 1), c.center.length = n := by
      rw [hsucc]
      exact length_center_of_mem_clusterStep hdata (s i) weights
    have hle : (s (i + 2)).length ≤ (s (i + 1)).length := by
      simpa [hsucc (i + 1)] using (clusterStep_ids_sublist data (s (i + 1)) weights).length_le
    have hcases := clusterStep_cases hdata hw (hnil (i + 1)) hcenters
    rw [← hsucc] at hcases
    rcases hcases with hlost | hstill | hdown
    · exact .inl hlost
    · exact absurd (sameClustering_of_centers hstill) (hmoves (i + 1))
    · exact hle.lt_or_eq.imp id fun heq => ⟨heq, hdown⟩
  let key : ℕ → {l // l ∈ (clusters.map Cluster.id).sublists} × (Fin data.rows.length → Fin clusters.length) :=
    fun i => (⟨(s i).map Cluster.id, mem_sublists.2 (hids i)⟩, fun r => ⟨nearestCluster (s i) data.rows[r].2,
      (nearestCluster_lt (hnil i) _).trans_le (by simpa using (hids i).length_le)⟩)
  obtain ⟨i, j, hij, hkey⟩ := Finite.exists_ne_map_eq_of_infinite key
  obtain ⟨hkid, hkrow⟩ := Prod.mk.inj hkey
  have hsame : s (i + 1) = s (j + 1) := by
    rw [hsucc, hsucc]
    refine clusterStep_congr (congrArg Subtype.val hkid) fun r hr => ?_
    obtain ⟨k, hk, rfl⟩ := mem_iff_getElem.1 hr
    exact congrArg Fin.val (congrFun hkrow ⟨k, hk⟩)
  exact hij (hanti.injective (by simp only [hsame]))

/-- More steps never make the answer worse, and with enough of them the loop ends because the clustering stands
still: from then on the budget decides nothing. -/
theorem kmeans_settles (k : ℕ) (lastClusters : List (Cluster ν ℝ)) :
    (Antitone fun maxIters => inertia data weights (kmeans data k lastClusters weights maxIters)) ∧
    (∀ maxIters, inertia data weights (kmeans data k lastClusters weights maxIters) ≤
      inertia data weights (cleanStartClusters data lastClusters k weights)) ∧
    ∃ N prev, sameClustering prev (clusterStep data prev weights) ∧
      ∀ maxIters, N < maxIters → kmeans data k lastClusters weights maxIters = clusterStep data prev weights := by
  rcases eq_or_ne data.rows [] with hnil | hrows
  · have hkmeans : ∀ maxIters, kmeans data k lastClusters weights maxIters = [] := fun _ => if_pos (by simp [hnil])
    have hzero : ∀ clusters, inertia data weights clusters = 0 := fun _ => by simp [inertia, assigned, hnil]
    exact ⟨fun _ _ _ => by simp [hzero], fun _ => by simp [hzero], 0, [], rfl, fun _ _ => hkmeans _⟩
  have hkmeans : ∀ maxIters, kmeans data k lastClusters weights maxIters =
      kmeansLoop data weights maxIters (cleanStartClusters data lastClusters k weights) :=
    fun _ => if_neg (by simpa using hrows)
  simp only [hkmeans]
  generalize cleanStartClusters data lastClusters k weights = seeds
  have hanti : Antitone fun maxIters => inertia data weights (kmeansLoop data weights maxIters seeds) := by
    refine antitone_nat_of_succ_le fun i => ?_
    obtain heq | heq : kmeansLoop data weights (i + 1) seeds = kmeansLoop data weights i seeds ∨ _ :=
      kmeansLoop_last i seeds
    · rw [heq]
    · rw [heq]
      exact inertia_antitone hdata hw _
  obtain ⟨N, hsame⟩ := exists_sameClustering hdata hw hrows seeds
  obtain ⟨prev, hprev, hall⟩ := kmeansLoop_settled N hsame
  exact ⟨hanti, fun i => (hanti (Nat.zero_le i)).trans (inertia_antitone hdata hw seeds), N, prev, hprev, hall⟩

end

omit [RealNumerics] in
/-- One seed for two rows. -/
theorem kmeans_settles_pair : let _ := RealNumerics.of (fun _ _ => 0) fun _ => 0
    let data : NamedData ℕ ℝ := ⟨false, [(0, [0]), (1, [2])]⟩
    ∃ N prev, sameClustering prev (clusterStep data prev none) ∧
      ∀ maxIters, N < maxIters → kmeans data 1 [] none maxIters = clusterStep data prev none := by
  intro _ data
  exact (kmeans_settles (n := 1) (by simp [data]) (by simp [rowWeight]) 1 []).2.2

end Polis.Clustering
