import Polis.Clustering.LegacyKmeans
import Polis.Common.Partition
import Mathlib.Data.List.Range

/-!
# What k-means answers

Every answer is a partition of the row names, whatever the seed. Its ids are distinct, and it has no
more clusters than the seed and `k` allow, as long as the seed's ids are distinct.

Reference: `polismath/pca_kmeans_rep/legacy_kmeans.py`.
-/

set_option linter.unusedSectionVars false

namespace Polis.Clustering

open List Function

variable {ν K : Type*} [DecidableEq ν] [Field K] [LinearOrder K] [Numerics K]
variable {clusters : List (Cluster ν K)} {data : NamedData ν K} {n : ℕ}

/-- Distinct ids, and at most `n` clusters: what the next tick asks of a prior clustering. -/
structure Lineage (n : ℕ) (clusters : List (Cluster ν K)) : Prop where
  ids_nodup : (clusters.map Cluster.id).Nodup
  length_le : clusters.length ≤ n

theorem Lineage.nil (n : ℕ) : Lineage n ([] : List (Cluster ν K)) := ⟨by simp, by simp⟩

theorem Lineage.mono {m n : ℕ} (h : Lineage m clusters) (hmn : m ≤ n) : Lineage n clusters :=
  ⟨h.ids_nodup, h.length_le.trans hmn⟩

/-- A clustering whose ids are a sublist of a lineage's ids is one. -/
theorem Lineage.of_sublist {clusters new : List (Cluster ν K)} (h : Lineage n clusters)
    (hsub : (new.map Cluster.id).Sublist (clusters.map Cluster.id)) : Lineage n new where
  ids_nodup := h.ids_nodup.sublist hsub
  length_le := by simpa using hsub.length_le.trans (by simpa using h.length_le)

/-! ## One Lloyd step -/

theorem scanNearest_mem (dist : ℕ → K) (first : ℕ) (scan : List ℕ) :
    scanNearest dist first scan ∈ first :: scan := by
  unfold scanNearest
  induction scan generalizing first with
  | nil => simp
  | cons j scan ih =>
    rw [foldl_cons]
    by_cases hj : dist j ≤ dist first
    · rw [if_pos hj]
      exact mem_cons_of_mem _ (ih j)
    · rw [if_neg hj]
      rcases mem_cons.1 (ih first) with h | h
      · rw [h]
        exact mem_cons_self
      · exact mem_cons_of_mem _ (mem_cons_of_mem _ h)

/-- The scan visits every position once. -/
theorem scanOrder_perm (ids : List ℤ) : (scanOrder ids).Perm (List.range ids.length) := by
  unfold scanOrder
  dsimp only
  split
  · exact perm_insertionSort _ _
  · exact .refl _

/-- Every row is captured by one of the clusters. -/
theorem nearestCluster_lt (h : clusters ≠ []) (row : List K) :
    nearestCluster clusters row < clusters.length := by
  have hperm := scanOrder_perm (clusters.map Cluster.id)
  rw [length_map] at hperm
  unfold nearestCluster
  dsimp only
  cases hs : scanOrder (clusters.map Cluster.id) with
  | nil => exact length_pos_iff.2 h
  | cons first scan =>
    rw [hs] at hperm
    exact mem_range.1 (hperm.mem_iff.1 (scanNearest_mem _ first scan))

/-- The ids of a step are among the old ones, in their order. -/
theorem clusterStep_ids_sublist (data : NamedData ν K) (clusters : List (Cluster ν K))
    (weights : Option (ν → K)) :
    ((clusterStep data clusters weights).map Cluster.id).Sublist (clusters.map Cluster.id) := by
  have hids : clusters.map Cluster.id = clusters.zipIdx.map fun e => e.1.id := by
    rw [← zipIdx_map_fst 0 clusters, map_map]
    simp [comp_def]
  rw [hids, clusterStep]
  refine map_filterMap_sublist (fun e new hnew => ?_) _
  simp only [Option.ite_none_left_eq_some, Option.some.injEq] at hnew
  rw [← hnew.2]

/-- One step partitions the rows among the clusters, whatever clusters it starts from. -/
theorem clusterStep_partitions (data : NamedData ν K)
    (weights : Option (ν → K)) (h : clusters ≠ []) :
    Partitions Cluster.members (clusterStep data clusters weights) data.rowNames := by
  let cover := fun e : Cluster ν K × ℕ => (capturedRows data clusters e.2).map Prod.fst
  refine Partitions.of_filterMap_perm cover ?_ ?_ ?_
  · have hfibers := flatMap_fibers_perm (fun r : ν × List K => nearestCluster clusters r.2)
      (nodup_range (n := clusters.length))
      (l := data.rows) fun r _ => mem_range.2 (nearestCluster_lt h r.2)
    have hcover : clusters.zipIdx.flatMap cover =
        ((List.range clusters.length).flatMap (capturedRows data clusters)).map Prod.fst := by
      rw [map_flatMap, range_eq_range', ← zipIdx_map_snd 0 clusters,
        flatMap_map]
    rw [hcover]
    exact hfibers.map _
  · rintro ⟨c, j⟩ - hnone
    simpa [cover] using hnone
  · rintro ⟨c, j⟩ - new hnew
    simp only [Option.ite_none_left_eq_some, Option.some.injEq] at hnew
    obtain ⟨hne, rfl⟩ := hnew
    exact ⟨rfl, by simpa using hne⟩

/-- The mean of at least one row of length `n` has length `n`. -/
theorem length_weightedMean {rows : List (List K)} (weights : Option (List K))
    (hne : rows ≠ []) (h : ∀ r ∈ rows, r.length = n) : (weightedMean rows weights).length = n := by
  obtain ⟨r, rs, rfl⟩ := exists_cons_of_ne_nil hne
  have hr : r.length = n := h r mem_cons_self
  simp only [weightedMean, head?_cons, Option.map_some, Option.getD_some, hr]
  rw [scale, length_map, length_columnSums]
  intro row hrow
  obtain ⟨i, hi, rfl⟩ := mem_iff_getElem.1 hrow
  rw [getElem_zipWith, scale, length_map]
  exact h _ (getElem_mem _)

/-- The centers of a step have the length of the rows. -/
theorem length_center_of_mem_clusterStep
    (hdata : ∀ r ∈ data.rows, r.2.length = n) (clusters : List (Cluster ν K))
    (weights : Option (ν → K)) :
    ∀ c ∈ clusterStep data clusters weights, c.center.length = n := by
  intro c hc
  obtain ⟨⟨c', j⟩, -, hnew⟩ := mem_filterMap.1 hc
  simp only [Option.ite_none_left_eq_some, Option.some.injEq] at hnew
  obtain ⟨hne, rfl⟩ := hnew
  refine length_weightedMean _ (by simpa using hne) fun r hr => ?_
  obtain ⟨row, hrow, rfl⟩ := mem_map.1 hr
  exact hdata row (mem_of_mem_filter hrow)

/-- A step from at least one cluster, on data with rows, leaves a cluster. -/
theorem clusterStep_ne_nil
    (weights : Option (ν → K)) (h : clusters ≠ []) (hrows : data.rows ≠ []) :
    clusterStep data clusters weights ≠ [] := by
  intro hnil
  have hperm := (clusterStep_partitions data weights h).perm
  rw [hnil] at hperm
  exact hrows (map_eq_nil_iff.1 hperm.nil_eq.symm)

/-! ## The loop -/

/-- The ids of the loop's answer are among those of its seed, in their order. -/
theorem kmeansLoop_ids_sublist (data : NamedData ν K) (weights : Option (ν → K)) (iters : ℕ)
    (clusters : List (Cluster ν K)) :
    ((kmeansLoop data weights iters clusters).map Cluster.id).Sublist
      (clusters.map Cluster.id) := by
  induction iters generalizing clusters with
  | zero => exact clusterStep_ids_sublist data clusters weights
  | succ iters ih =>
    simp only [kmeansLoop]
    by_cases hsame : sameClustering clusters (clusterStep data clusters weights)
    · rw [if_pos hsame]
      exact clusterStep_ids_sublist data clusters weights
    · rw [if_neg hsame]
      exact (ih _).trans (clusterStep_ids_sublist data clusters weights)

/-- The loop answers with a partition of the rows. -/
theorem kmeansLoop_partitions (weights : Option (ν → K))
    (hrows : data.rows ≠ []) (iters : ℕ) (h : clusters ≠ []) :
    Partitions Cluster.members (kmeansLoop data weights iters clusters) data.rowNames := by
  induction iters generalizing clusters with
  | zero => exact clusterStep_partitions data weights h
  | succ iters ih =>
    simp only [kmeansLoop]
    by_cases hsame : sameClustering clusters (clusterStep data clusters weights)
    · rw [if_pos hsame]
      exact clusterStep_partitions data weights h
    · rw [if_neg hsame]
      exact ih (clusterStep_ne_nil weights h hrows)

/-! ## Seeds -/

/-- What `clean_start_clusters` hands to the loop: a lineage with at least one cluster. -/
structure Seed (n : ℕ) (clusters : List (Cluster ν K)) : Prop extends Lineage n clusters where
  ne_nil : clusters ≠ []

private theorem length_firstKDistinct_le (k : ℕ) (rows : List (List K)) :
    (firstKDistinct k rows).length ≤ k := by
  simp [firstKDistinct]

private theorem firstKDistinct_ne_nil {k : ℕ} (hk : 0 < k) {rows : List (List K)}
    (hrows : rows ≠ []) : firstKDistinct k rows ≠ [] := by
  have hgrow : ∀ (l acc : List (List K)), acc ≠ [] →
      l.foldl (fun acc r => if r ∈ acc then acc else acc ++ [r]) acc ≠ [] := by
    intro l
    induction l with
    | nil => exact fun _ h => h
    | cons r l ih =>
      intro acc hacc
      rw [foldl_cons]
      refine ih _ ?_
      split
      · exact hacc
      · simp
  cases rows with
  | nil => exact absurd rfl hrows
  | cons r rows =>
    have := hgrow rows [r] (by simp)
    simp only [firstKDistinct, foldl_cons, not_mem_nil, if_false, nil_append]
    simpa [take_eq_nil_iff, hk.ne'] using this

/-- The cold seed: `k` clusters at most, with ids counting from 0. -/
theorem initClusters_seed {k : ℕ} (hk : 0 < k) (hrows : data.rows ≠ []) :
    Seed k (initClusters data k) where
  ids_nodup := by
    have hids : (initClusters data k).map Cluster.id =
        ((firstKDistinct k data.matrix).zipIdx.map Prod.snd).map (Nat.cast : ℕ → ℤ) := by
      simp only [initClusters, map_map, comp_def]
    rw [hids, zipIdx_map_snd]
    exact (nodup_range').map fun _ _ h => Int.ofNat_inj.1 h
  length_le := by simpa [initClusters] using length_firstKDistinct_le k data.matrix
  ne_nil := by
    have hmatrix : data.matrix ≠ [] := by simpa [NamedData.matrix] using hrows
    simpa [initClusters] using firstKDistinct_ne_nil hk hmatrix

/-- Recentering on the survivors drops clusters; the reset cluster stands in for all of them. -/
theorem safeRecenterClusters_seed (data : NamedData ν K)
    (weights : Option (ν → K)) (hn : 0 < n) (h : Lineage n clusters) :
    Seed n (safeRecenterClusters data clusters weights) := by
  have hsub : ((clusters.filterMap fun c =>
      (recenterCenter data c.members weights).map fun center => { c with center }).map
        Cluster.id).Sublist (clusters.map Cluster.id) := by
    refine map_filterMap_sublist (fun c new hnew => ?_) _
    obtain ⟨center, -, rfl⟩ := Option.map_eq_some_iff.1 hnew
    rfl
  unfold safeRecenterClusters
  dsimp only
  split
  · exact ⟨⟨by simp, Nat.succ_le_of_lt hn⟩, by simp⟩
  · next out hout => exact ⟨h.of_sublist hsub, hout⟩

private theorem uniqifyInsert_ids {c : Cluster ν K} {acc : List (Cluster ν K)}
    (hacc : (acc.map Cluster.id).Nodup) (hc : c.id ∉ acc.map Cluster.id) :
    ((uniqifyInsert c acc).map Cluster.id).Nodup ∧
    (∀ i ∈ (uniqifyInsert c acc).map Cluster.id, i = c.id ∨ i ∈ acc.map Cluster.id) ∧
    (uniqifyInsert c acc).length ≤ acc.length + 1 := by
  induction acc with
  | nil => simp [uniqifyInsert]
  | cons e acc ih =>
    simp only [map_cons, nodup_cons, mem_cons, not_or] at hacc hc
    obtain ⟨hnodup, hmem, hlen⟩ := ih hacc.2 hc.2
    simp only [uniqifyInsert]
    by_cases hcenter : e.center = c.center
    · rw [if_pos hcenter]
      -- the merged cluster takes the id of one of the two sides
      have hid : (mergeClusters e c).id = e.id ∨ (mergeClusters e c).id = c.id := by
        simp only [mergeClusters]
        split
        · exact .inl rfl
        · exact .inr rfl
      have hnot : (mergeClusters e c).id ∉ acc.map Cluster.id := by
        rcases hid with h | h
        · rw [h]
          exact hacc.1
        · rw [h]
          exact hc.2
      refine ⟨nodup_cons.2 ⟨hnot, hacc.2⟩, fun i hi => ?_, by simp⟩
      rcases mem_cons.1 hi with rfl | hi
      · rcases hid with h | h <;> simp [h]
      · exact .inr (mem_cons_of_mem _ hi)
    · rw [if_neg hcenter]
      refine ⟨nodup_cons.2 ⟨fun he => ?_, hnodup⟩, fun i hi => ?_, by simpa using hlen⟩
      · rcases hmem _ he with h | h
        · exact hc.1 h.symm
        · exact hacc.1 h
      · rcases mem_cons.1 hi with rfl | hi
        · exact .inr mem_cons_self
        · exact (hmem i hi).imp_right (mem_cons_of_mem _)

private theorem uniqifyInsert_ne_nil (c : Cluster ν K) (acc : List (Cluster ν K)) :
    uniqifyInsert c acc ≠ [] := by
  cases acc with
  | nil => simp [uniqifyInsert]
  | cons e acc =>
    simp only [uniqifyInsert]
    split <;> simp

private theorem foldl_uniqifyInsert (l acc : List (Cluster ν K))
    (h : (acc.map Cluster.id ++ l.map Cluster.id).Nodup) :
    ((l.foldl (fun acc c => uniqifyInsert c acc) acc).map Cluster.id).Nodup ∧
    (l.foldl (fun acc c => uniqifyInsert c acc) acc).length ≤ acc.length + l.length ∧
    (acc ≠ [] → l.foldl (fun acc c => uniqifyInsert c acc) acc ≠ []) := by
  induction l generalizing acc with
  | nil => exact ⟨by simpa using h, le_rfl, id⟩
  | cons c l ih =>
    rw [map_cons, nodup_append] at h
    obtain ⟨hacc, hl, hdisj⟩ := h
    obtain ⟨hcl, hl⟩ := nodup_cons.1 hl
    have hc : c.id ∉ acc.map Cluster.id := fun hmem => hdisj _ hmem _ mem_cons_self rfl
    obtain ⟨hnodup, hmem, hlen⟩ := uniqifyInsert_ids hacc hc
    have hnext : ((uniqifyInsert c acc).map Cluster.id ++ l.map Cluster.id).Nodup := by
      refine nodup_append.2 ⟨hnodup, hl, fun i hi j hj hij => ?_⟩
      rcases hmem i hi with rfl | hi
      · exact hcl (hij ▸ hj)
      · exact hdisj i hi j (mem_cons_of_mem _ hj) hij
    obtain ⟨h₁, h₂, h₃⟩ := ih _ hnext
    rw [foldl_cons]
    exact ⟨h₁, by rw [length_cons]; omega, fun _ => h₃ (uniqifyInsert_ne_nil c acc)⟩

/-- Merging clusters of equal centers keeps the ids distinct. -/
theorem uniqifyClusters_seed (h : Seed n clusters) :
    Seed n (uniqifyClusters clusters) := by
  unfold uniqifyClusters
  cases clusters with
  | nil => exact absurd rfl h.ne_nil
  | cons c l =>
    obtain ⟨hnodup, hlen, hne⟩ := foldl_uniqifyInsert l [c] (by simpa using h.ids_nodup)
    have hn := h.length_le
    rw [length_cons] at hn
    refine ⟨⟨hnodup, hlen.trans ?_⟩, hne (by simp)⟩
    rw [length_singleton]
    omega

theorem recenterClusters_ids (data : NamedData ν K) (clusters : List (Cluster ν K))
    (weights : Option (ν → K)) :
    (recenterClusters data clusters weights).map Cluster.id = clusters.map Cluster.id := by
  simp [recenterClusters, comp_def]

theorem recenterClusters_seed (weights : Option (ν → K)) (h : Seed n clusters) :
    Seed n (recenterClusters data clusters weights) where
  ids_nodup := recenterClusters_ids data clusters weights ▸ h.ids_nodup
  length_le := (length_recenterClusters data clusters weights).trans_le h.length_le
  ne_nil := by simpa [recenterClusters] using h.ne_nil

/-- Every id is at most the maximum. -/
theorem le_maxId {i : ℤ} (h : i ∈ clusters.map Cluster.id) :
    i ≤ maxId clusters := by
  unfold maxId
  cases hm : (clusters.map Cluster.id).max? with
  | none => rw [max?_eq_none_iff.1 hm] at h; simp at h
  | some m => exact (max?_eq_some_iff.1 hm).2 i h

/-- A split mints an id above all the others. -/
theorem splitOff_seed (outlier : ν) (h : Seed n clusters) (hlt : clusters.length < n) :
    Seed n (splitOff data clusters outlier) where
  ids_nodup := by
    have hids : (splitOff data clusters outlier).map Cluster.id =
        clusters.map Cluster.id ++ [maxId clusters + 1] := by
      simp [splitOff, comp_def]
    rw [hids, nodup_append]
    refine ⟨h.ids_nodup, by simp, fun i hi j hj hij => ?_⟩
    have := le_maxId hi
    rw [mem_singleton.1 hj] at hij
    omega
  length_le := by rw [length_splitOff]; omega
  ne_nil := by simp [splitOff]

/-- The split loop stops at `possible` clusters, or leaves the seed's number. -/
theorem splitLoop_seed (weights : Option (ν → K)) {possible n : ℕ}
    (hpossible : possible ≤ n) (clusters : List (Cluster ν K)) (h : Seed n clusters) :
    Seed n (splitLoop data weights possible clusters) := by
  fun_induction splitLoop data weights possible clusters with
  | case1 | case2 | case3 => exact recenterClusters_seed weights h
  | case4 clusters hlt clusters' dist outlier hsome hdist ih =>
    refine ih (splitOff_seed outlier (recenterClusters_seed weights h) ?_)
    rw [length_recenterClusters]
    omega

/-- `clean_start_clusters` makes a seed of any lineage. -/
theorem cleanStartClusters_seed {k n : ℕ}
    (weights : Option (ν → K)) (hk : 0 < k) (hkn : k ≤ n) (hrows : data.rows ≠ [])
    (h : Lineage n clusters) : Seed n (cleanStartClusters data clusters k weights) := by
  unfold cleanStartClusters
  split
  · have hinit := initClusters_seed hk hrows
    exact ⟨hinit.toLineage.mono hkn, hinit.ne_nil⟩
  · refine splitLoop_seed weights ((min_le_left _ _).trans hkn) _ ?_
    exact uniqifyClusters_seed (safeRecenterClusters_seed data weights (hk.trans_le hkn) h)

/-! ## K-means -/

/-- The centers of k-means have the length of the rows. -/
theorem length_center_of_mem_kmeans
    (hdata : ∀ r ∈ data.rows, r.2.length = n) (k : ℕ) (last : List (Cluster ν K))
    (weights : Option (ν → K)) (iters : ℕ) :
    ∀ c ∈ kmeans data k last weights iters, c.center.length = n := by
  have hloop : ∀ clusters, ∀ c ∈ kmeansLoop data weights iters clusters, c.center.length = n := by
    induction iters with
    | zero => exact fun clusters => length_center_of_mem_clusterStep hdata clusters weights
    | succ iters ih =>
      intro clusters
      simp only [kmeansLoop]
      split
      · exact length_center_of_mem_clusterStep hdata clusters weights
      · exact ih _
  unfold kmeans
  split
  · simp
  · exact hloop _

/-- A clustering of `names`: a lineage in which every name has its one cluster, and no cluster is
empty. -/
structure IsClustering (names : List ν) (n : ℕ) (clusters : List (Cluster ν K)) : Prop
    extends Lineage n clusters where
  partition : Partitions Cluster.members clusters names

/-- The order of the clusters does not matter. -/
theorem IsClustering.of_perm {names : List ν} {clusters new : List (Cluster ν K)}
    (h : IsClustering names n clusters) (hperm : new.Perm clusters) : IsClustering names n new where
  ids_nodup := (hperm.map Cluster.id).nodup_iff.2 h.ids_nodup
  length_le := hperm.length_eq.trans_le h.length_le
  partition := h.partition.of_perm hperm

/-- K-means clusters the rows, from any prior lineage. -/
theorem kmeans_isClustering (data : NamedData ν K) {k n : ℕ} {last : List (Cluster ν K)}
    (weights : Option (ν → K)) (iters : ℕ) (hk : 0 < k) (hkn : k ≤ n) (h : Lineage n last) :
    IsClustering data.rowNames n (kmeans data k last weights iters) := by
  unfold kmeans
  by_cases hrows : data.rows = []
  · rw [if_pos (by simp [hrows])]
    exact ⟨.nil n, by simp [NamedData.rowNames, hrows], by simp⟩
  · rw [if_neg (by simpa using hrows)]
    have hseed := cleanStartClusters_seed weights hk hkn hrows h
    exact ⟨hseed.toLineage.of_sublist (kmeansLoop_ids_sublist data weights iters _),
      kmeansLoop_partitions weights hrows iters hseed.ne_nil⟩

end Polis.Clustering
