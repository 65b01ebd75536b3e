import Polis.Clustering.KmeansTheorems
import Polis.Clustering.Rational

/-!
# Cluster ids across a warm start

A warm start retires ids when clusters vanish or merge, and mints ids when it splits. The ids it
mints count up from the largest id that is still there, which need not be the largest prior one.

Reference: `polismath/pca_kmeans_rep/legacy_kmeans.py`.
-/

set_option linter.unusedSectionVars false

namespace Polis.Clustering

open List

variable {ν K : Type*} [DecidableEq ν] [Field K] [LinearOrder K] [Numerics K]
variable {last : List (Cluster ν K)}

/-! ## The lineage law -/

/-- The prior clusters as the split loop finds them: recentered on their survivors, then merged. -/
def mergedClusters (data : NamedData ν K) (last : List (Cluster ν K)) (weights : Option (ν → K)) :
    List (Cluster ν K) :=
  uniqifyClusters (safeRecenterClusters data last weights)

/-- The id of a prior cluster that has survivors, and whose members are in the seed of that id. -/
def Seeded (data : NamedData ν K) (last : List (Cluster ν K)) (weights : Option (ν → K))
    (id : ℤ) : Prop :=
  ∃ l ∈ last, l.id = id ∧ (∃ name ∈ l.members, name ∈ data.rowNames) ∧
    ∃ s ∈ mergedClusters data last weights, s.id = id ∧ l.members ⊆ s.members

/-- A prior id that vanished or was merged away. -/
def Retired (data : NamedData ν K) (last : List (Cluster ν K)) (weights : Option (ν → K))
    (id : ℤ) : Prop :=
  id ∈ last.map Cluster.id ∧ id ∉ (mergedClusters data last weights).map Cluster.id

/-- The ids of the newly split clusters: they stand behind the merged ones. -/
def splitIds (data : NamedData ν K) (k : ℕ) (last : List (Cluster ν K))
    (weights : Option (ν → K)) : List ℤ :=
  match last with
  | [] => []
  | last => ((cleanStartClusters data last k weights).map Cluster.id).drop
      (mergedClusters data last weights).length

/-- New ids strictly increase, in the answer and at every split, and no retired id comes back. -/
structure KeepsLineage (data : NamedData ν K) (k : ℕ) (last : List (Cluster ν K))
    (weights : Option (ν → K)) (maxIters : ℕ) : Prop where
  result : ∀ id ∈ (kmeans data k last weights maxIters).map Cluster.id,
    Seeded data last weights id ∨ ∀ l ∈ last, l.id < id
  retired : ∀ id ∈ splitIds data k last weights, ¬ Retired data last weights id
  increase : ∀ id ∈ splitIds data k last weights, ∀ l ∈ last, l.id < id

/-- The split loop has nothing to do: there are enough clusters, or every row lies on its nearest
center. -/
def Settled (data : NamedData ν K) (clusters : List (Cluster ν K)) (weights : Option (ν → K))
    (possible : ℕ) : Prop :=
  possible ≤ clusters.length ∨
    ∀ dist outlier, mostDistal data (recenterClusters data clusters weights) = some (dist, outlier) →
      dist ≤ 0

/-! ## Where the ids come from -/

theorem maxId_mem {clusters : List (Cluster ν K)} (h : clusters ≠ []) :
    maxId clusters ∈ clusters.map Cluster.id := by
  unfold maxId
  cases hm : (clusters.map Cluster.id).max? with
  | none => exact absurd (map_eq_nil_iff.1 (max?_eq_none_iff.1 hm)) h
  | some m => exact (max?_eq_some_iff.1 hm).1

theorem splitOff_ids (data : NamedData ν K) (clusters : List (Cluster ν K)) (outlier : ν) :
    (splitOff data clusters outlier).map Cluster.id =
      clusters.map Cluster.id ++ [maxId clusters + 1] := by
  simp [splitOff, Function.comp_def]

theorem maxId_splitOff (data : NamedData ν K) (clusters : List (Cluster ν K)) (outlier : ν) :
    maxId (splitOff data clusters outlier) = maxId clusters + 1 := by
  have hmax : ((splitOff data clusters outlier).map Cluster.id).max? =
      some (maxId clusters + 1) := by
    rw [splitOff_ids, max?_eq_some_iff]
    refine ⟨by simp, fun i hi => ?_⟩
    rcases mem_append.1 hi with hi | hi
    · have := le_maxId hi
      omega
    · exact (mem_singleton.1 hi).le
  rw [maxId, hmax]
  rfl

theorem maxId_recenterClusters (data : NamedData ν K) (clusters : List (Cluster ν K))
    (weights : Option (ν → K)) : maxId (recenterClusters data clusters weights) = maxId clusters := by
  rw [maxId, recenterClusters_ids, maxId]

/-- The split loop appends consecutive ids above the largest one, and none only when it has nothing
to do. -/
theorem splitLoop_ids (data : NamedData ν K) (weights : Option (ν → K)) (possible : ℕ)
    (clusters : List (Cluster ν K)) :
    ∃ n, (splitLoop data weights possible clusters).map Cluster.id =
        clusters.map Cluster.id ++ (List.range n).map (fun i : ℕ => maxId clusters + 1 + i) ∧
      (n = 0 ↔ Settled data clusters weights possible) := by
  fun_induction splitLoop data weights possible clusters with
  | case1 clusters hle =>
    exact ⟨0, by simp [recenterClusters_ids], iff_of_true rfl (.inl hle)⟩
  | case2 clusters hlt clusters' hnone =>
    refine ⟨0, by simp [clusters', recenterClusters_ids], iff_of_true rfl (.inr ?_)⟩
    intro dist outlier hsome
    rw [hnone] at hsome
    exact absurd hsome (by simp)
  | case3 clusters hlt clusters' dist outlier hsome hdist =>
    refine ⟨0, by simp [clusters', recenterClusters_ids], iff_of_true rfl (.inr ?_)⟩
    intro dist' outlier' hsome'
    rw [hsome] at hsome'
    obtain ⟨rfl, -⟩ := Prod.mk.inj (Option.some.inj hsome')
    exact hdist
  | case4 clusters hlt clusters' dist outlier hsome hdist ih =>
    obtain ⟨n, hids, -⟩ := ih
    refine ⟨n + 1, ?_, iff_of_false (by simp) ?_⟩
    · rw [hids, maxId_splitOff, splitOff_ids, maxId_recenterClusters, recenterClusters_ids,
        append_assoc, range_succ_eq_map, map_cons, map_map]
      have hshift : ∀ i : ℕ, maxId clusters + 1 + 1 + i = maxId clusters + 1 + (i + 1 : ℕ) := by
        intro i
        omega
      simp [Function.comp_def, hshift]
    · rintro (hle | hzero)
      · exact hlt hle
      · exact hdist (hzero dist outlier hsome)

/-- A merged cluster has the id, and at least the members, of one that went into it. -/
private theorem uniqifyInsert_origin {c s : Cluster ν K} {acc : List (Cluster ν K)}
    (h : s ∈ uniqifyInsert c acc) : ∃ e ∈ c :: acc, e.id = s.id ∧ e.members ⊆ s.members := by
  induction acc with
  | nil => exact ⟨s, h, rfl, List.Subset.refl _⟩
  | cons e acc ih =>
    simp only [uniqifyInsert] at h
    by_cases hcenter : e.center = c.center
    · rw [if_pos hcenter] at h
      rcases mem_cons.1 h with rfl | h
      · by_cases hlarger : c.members.length < e.members.length
        · exact ⟨e, by simp, by simp [mergeClusters, hlarger], subset_append_left _ _⟩
        · exact ⟨c, by simp, by simp [mergeClusters, hlarger], subset_append_right _ _⟩
      · exact ⟨s, by simp [h], rfl, List.Subset.refl _⟩
    · rw [if_neg hcenter] at h
      rcases mem_cons.1 h with rfl | h
      · exact ⟨s, by simp, rfl, List.Subset.refl _⟩
      · obtain ⟨o, ho, hid, hsub⟩ := ih h
        refine ⟨o, ?_, hid, hsub⟩
        rcases mem_cons.1 ho with rfl | ho
        · simp
        · simp [ho]

theorem uniqifyClusters_origin {clusters : List (Cluster ν K)} {s : Cluster ν K}
    (h : s ∈ uniqifyClusters clusters) :
    ∃ c ∈ clusters, c.id = s.id ∧ c.members ⊆ s.members := by
  have hfold : ∀ l acc : List (Cluster ν K),
      s ∈ l.foldl (fun acc c => uniqifyInsert c acc) acc →
      ∃ c ∈ acc ++ l, c.id = s.id ∧ c.members ⊆ s.members := by
    intro l
    induction l with
    | nil => exact fun acc h => ⟨s, by simpa using h, rfl, List.Subset.refl _⟩
    | cons c l ih =>
      intro acc h
      obtain ⟨o, ho, hid, hsub⟩ := ih _ h
      rcases mem_append.1 ho with ho | ho
      · -- `o` was in the accumulator after `c` went in
        obtain ⟨e, he, hid', hsub'⟩ := uniqifyInsert_origin ho
        refine ⟨e, ?_, hid'.trans hid, List.Subset.trans hsub' hsub⟩
        rcases mem_cons.1 he with rfl | he
        · simp
        · exact mem_append_left _ he
      · exact ⟨o, by simp [ho], hid, hsub⟩
  simpa using hfold clusters [] h

/-- Recentering keeps a cluster under its id as long as it has survivors. -/
theorem safeRecenterClusters_origin {data : NamedData ν K}
    {weights : Option (ν → K)} {c : Cluster ν K} (h : c ∈ safeRecenterClusters data last weights) :
    (∃ l ∈ last, l.id = c.id ∧ l.members = c.members ∧ ∃ name ∈ l.members, name ∈ data.rowNames) ∨
      c.id = maxId last + 1 := by
  unfold safeRecenterClusters at h
  dsimp only at h
  split at h
  · right
    rw [mem_singleton.1 h]
  · left
    obtain ⟨l, hl, hcenter⟩ := mem_filterMap.1 h
    obtain ⟨center, hcenter, rfl⟩ := Option.map_eq_some_iff.1 hcenter
    refine ⟨l, hl, rfl, rfl, ?_⟩
    by_contra hnone
    have hempty : l.members.filter (· ∈ data.rowNames) = [] := by
      simpa [filter_eq_nil_iff] using hnone
    simp [recenterCenter, hempty] at hcenter

/-- A merged cluster is seeded by survivors, or is the reset cluster with its fresh id. -/
theorem mergedClusters_origin {data : NamedData ν K} {weights : Option (ν → K)} {id : ℤ}
    (h : id ∈ (mergedClusters data last weights).map Cluster.id) :
    Seeded data last weights id ∨ ∀ l ∈ last, l.id < id := by
  obtain ⟨s, hs, rfl⟩ := mem_map.1 h
  obtain ⟨c, hc, hid, hsub⟩ := uniqifyClusters_origin hs
  rcases safeRecenterClusters_origin hc with ⟨l, hl, hlid, hmembers, hsurvives⟩ | hreset
  · exact .inl ⟨l, hl, hlid.trans hid, hsurvives, s, hs, rfl, hmembers ▸ hsub⟩
  · right
    intro l hl
    have := le_maxId (mem_map_of_mem (f := Cluster.id) hl)
    omega

/-- What the split loop appends to the merged ids. -/
theorem splitIds_eq (data : NamedData ν K) (k : ℕ) (weights : Option (ν → K)) (h : last ≠ []) :
    ∃ n, splitIds data k last weights =
        (List.range n).map (fun i : ℕ => maxId (mergedClusters data last weights) + 1 + i) ∧
      (cleanStartClusters data last k weights).map Cluster.id =
        (mergedClusters data last weights).map Cluster.id ++ splitIds data k last weights ∧
      (n = 0 ↔ Settled data (mergedClusters data last weights) weights
        (min k (data.nDistinctRows k))) := by
  obtain ⟨c, l, rfl⟩ := exists_cons_of_ne_nil h
  obtain ⟨n, hids, hsettled⟩ := splitLoop_ids data weights (min k (data.nDistinctRows k))
    (mergedClusters data (c :: l) weights)
  have hclean : (cleanStartClusters data (c :: l) k weights).map Cluster.id = _ := hids
  have hsplit : splitIds data k (c :: l) weights =
      (List.range n).map fun i : ℕ => maxId (mergedClusters data (c :: l) weights) + 1 + i := by
    simp only [splitIds]
    rw [hclean, drop_left' (length_map _)]
  exact ⟨n, hsplit, by rw [hclean, hsplit], hsettled⟩

/-- Ids are new in the order of the prior ones exactly when the largest prior id is still there
after merging, a larger one is, or nothing is split. -/
theorem keepsLineage_iff (data : NamedData ν K) (k : ℕ) (last : List (Cluster ν K))
    (weights : Option (ν → K)) (maxIters : ℕ) :
    KeepsLineage data k last weights maxIters ↔
      maxId last ≤ maxId (mergedClusters data last weights) ∨
      Settled data (mergedClusters data last weights) weights (min k (data.nDistinctRows k)) := by
  by_cases hlast : last = []
  · subst hlast
    have hreset : maxId ([] : List (Cluster ν K)) ≤ maxId (mergedClusters data [] weights) := by
      simp [maxId, mergedClusters, safeRecenterClusters, uniqifyClusters, uniqifyInsert]
    exact iff_of_true ⟨fun _ _ => .inr (by simp), by simp [splitIds], by simp [splitIds]⟩
      (.inl hreset)
  obtain ⟨n, hsplit, hclean, hsettled⟩ := splitIds_eq data k weights hlast
  constructor
  · intro h
    rw [or_iff_not_imp_right, ← hsettled]
    intro hn
    -- the first id that is minted is just above the largest one left
    have hfirst : maxId (mergedClusters data last weights) + 1 ∈ splitIds data k last weights := by
      rw [hsplit]
      exact mem_map.2 ⟨0, mem_range.2 (Nat.pos_of_ne_zero hn), by simp⟩
    obtain ⟨l, hl, hmax⟩ := mem_map.1 (maxId_mem hlast)
    have := h.increase _ hfirst l hl
    omega
  · intro h
    have hincrease : ∀ id ∈ splitIds data k last weights, ∀ l ∈ last, l.id < id := by
      intro id hid l hl
      rw [hsplit] at hid
      rcases h with hle | hzero
      · obtain ⟨i, -, rfl⟩ := mem_map.1 hid
        have := le_maxId (mem_map_of_mem (f := Cluster.id) hl)
        omega
      · rw [hsettled.2 hzero] at hid
        exact absurd hid (by simp)
    refine ⟨fun id hid => ?_, fun id hid hret => ?_, hincrease⟩
    · unfold kmeans at hid
      split at hid
      · exact absurd hid (by simp)
      · have hseed := (kmeansLoop_ids_sublist data weights maxIters _).subset hid
        rw [hclean] at hseed
        rcases mem_append.1 hseed with hmerged | hnew
        · exact mergedClusters_origin hmerged
        · exact .inr (hincrease id hnew)
    · obtain ⟨l, hl, hlid⟩ := mem_map.1 hret.1
      exact absurd hlid (hincrease id hid l hl).ne

/-- The largest prior id vanishes with `"b"`; the row of `"c"` is split off. -/
def dataWithoutLast : NamedData String ℚ := ⟨true, [("a", [0, 0]), ("c", [1, 1])]⟩

def lastTwo : List (Cluster String ℚ) := [⟨0, ["a"], [0, 0]⟩, ⟨1, ["b"], [2, 2]⟩]

/-- The new cluster of `"c"` takes the id that went with `"b"`, and keeps it in the answer. -/
theorem split_reuses_retired_id :
    (lastTwo.map Cluster.id).Nodup ∧
    ¬ (∀ id ∈ splitIds dataWithoutLast 2 lastTwo none, ¬ Retired dataWithoutLast lastTwo none id) ∧
    ¬ (∀ id ∈ (kmeans dataWithoutLast 2 lastTwo none 20).map Cluster.id,
      Seeded dataWithoutLast lastTwo none id ∨ ∀ l ∈ lastTwo, l.id < id) := by
  refine ⟨by decide, fun h => ?_, fun h => ?_⟩
  · exact h 1 (by decide +kernel) ⟨by decide, by decide +kernel⟩
  · rcases h 1 (by decide +kernel) with ⟨l, hl, hid, ⟨name, hname, hsurvives⟩, -⟩ | h
    · -- the prior cluster 1 has no survivors
      rcases mem_cons.1 hl with rfl | hl
      · exact absurd hid (by decide)
      · obtain rfl := mem_singleton.1 hl
        obtain rfl := mem_singleton.1 hname
        exact absurd hsurvives (by decide)
    · exact absurd (h ⟨1, ["b"], [2, 2]⟩ (by simp [lastTwo])) (by decide)

end Polis.Clustering
