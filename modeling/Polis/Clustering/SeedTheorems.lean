import Polis.Clustering.LloydTheorems

/-!
# The seed has a cluster for every distinct row, up to `k`

As long as the split loop has fewer clusters than there are distinct rows, some row is no center, and a row at
distance zero from a center is one. The centers a loop starts from may coincide or be averaged again; they count at
most as many rows as there are clusters.

Reference: `polismath/pca_kmeans_rep/legacy_kmeans.py`.
-/

set_option linter.unusedSectionVars false

namespace Polis.Clustering

open List

/-! ## Distinct rows -/

/-- `n_distinct_rows`: each pass takes the first row left and removes every row equal to it. -/
def eliminationPasses {α : Type*} [DecidableEq α] : ℕ → List α → ℕ
  | 0, _ => 0
  | _, [] => 0
  | bound + 1, r :: rows => eliminationPasses bound (rows.filter (· ≠ r)) + 1

/-- The passes count the distinct rows, up to the bound. -/
theorem eliminationPasses_eq {α : Type*} [DecidableEq α] (bound : ℕ) (rows : List α) :
    eliminationPasses bound rows = min bound rows.dedup.length := by
  induction bound generalizing rows with
  | zero => simp [eliminationPasses]
  | succ bound ih =>
    cases rows with
    | nil => simp [eliminationPasses]
    | cons r rows =>
      have hcard : (r :: rows).dedup.length = (rows.filter (· ≠ r)).dedup.length + 1 := by
        have hset : (r :: rows).toFinset = insert r (rows.filter (· ≠ r)).toFinset := by
          ext x
          by_cases hx : x = r <;> simp [hx]
        rw [← card_toFinset, ← card_toFinset, hset, Finset.card_insert_of_notMem (by simp)]
      rw [eliminationPasses, ih, hcard, Nat.add_min_add_right]

variable [RealNumerics] {ν : Type*} [DecidableEq ν] {data : NamedData ν ℝ} {clusters : List (Cluster ν ℝ)}
variable {weights : Option (ν → ℝ)} {n : ℕ}

/-! ## Centers -/

/-- Every center has `n` coordinates. -/
def Sized (n : ℕ) (clusters : List (Cluster ν ℝ)) : Prop := ∀ c ∈ clusters, c.center.length = n

section Sized

variable (hdata : ∀ r ∈ data.rows, r.2.length = n)
include hdata

theorem length_getRow {name : ν} {row : List ℝ} (h : data.getRow name = some row) : row.length = n := by
  obtain ⟨r, hr, rfl⟩ := Option.map_eq_some_iff.1 h
  exact hdata r (mem_of_find?_eq_some hr)

theorem length_recenterCenter {members : List ν} {center : List ℝ}
    (h : recenterCenter data members weights = some center) : center.length = n := by
  unfold recenterCenter at h
  split at h
  · cases h
  · next surviving hsome =>
      cases h
      refine length_weightedMean _ (fun hnil => hsome ?_) fun row hrow => ?_
      · rw [filterMap_eq_nil_iff] at hnil
        refine eq_nil_iff_forall_not_mem.2 fun m hm => ?_
        obtain ⟨r, hr, hname⟩ := mem_map.1 (of_decide_eq_true (mem_filter.1 hm).2)
        simpa [NamedData.getRow, hname] using find?_eq_none.1 (Option.map_eq_none_iff.1 (hnil m hm)) r hr
      · obtain ⟨m, -, hm⟩ := mem_filterMap.1 hrow
        exact length_getRow hdata hm

theorem sized_safeRecenterClusters (hrows : data.rows ≠ []) :
    Sized n (safeRecenterClusters data clusters weights) := by
  unfold safeRecenterClusters
  dsimp only
  split
  · intro c hc
    rw [mem_singleton.1 hc]
    cases hcenter : recenterCenter data data.rowNames weights with
    | none =>
      rw [recenterCenter, filter_eq_self.2 (by simp)] at hcenter
      split at hcenter
      · next hnil => exact absurd (map_eq_nil_iff.1 hnil) hrows
      · cases hcenter
    | some center => exact length_recenterCenter hdata hcenter
  · intro c hc
    obtain ⟨_, -, hnew⟩ := mem_filterMap.1 hc
    obtain ⟨center, hcenter, rfl⟩ := Option.map_eq_some_iff.1 hnew
    exact length_recenterCenter hdata hcenter

theorem sized_recenterClusters (h : Sized n clusters) : Sized n (recenterClusters data clusters weights) := by
  intro c hc
  obtain ⟨c, hmem, rfl⟩ := mem_map.1 hc
  cases hcenter : recenterCenter data c.members weights with
  | none => simpa [hcenter] using h c hmem
  | some center => simpa [hcenter] using length_recenterCenter hdata hcenter

theorem sized_splitOff (h : Sized n clusters) {outlier : ν} (hmem : outlier ∈ data.rowNames) :
    Sized n (splitOff data clusters outlier) := by
  intro c hc
  rcases mem_append.1 hc with hc | hc
  · obtain ⟨c, hmem, rfl⟩ := mem_map.1 hc
    exact h c hmem
  · rw [mem_singleton.1 hc]
    cases hrow : data.getRow outlier with
    | none =>
      obtain ⟨r, hr, rfl⟩ := mem_map.1 hmem
      simpa using find?_eq_none.1 (Option.map_eq_none_iff.1 hrow) r hr
    | some row => exact length_getRow hdata hrow

end Sized

theorem sized_uniqifyClusters (h : Sized n clusters) : Sized n (uniqifyClusters clusters) := by
  have hinsert : ∀ (c : Cluster ν ℝ) (acc : List (Cluster ν ℝ)), c.center.length = n → Sized n acc →
      Sized n (uniqifyInsert c acc) := by
    intro c acc hc hacc
    induction acc with
    | nil => simpa [uniqifyInsert, Sized] using hc
    | cons e acc ih =>
      obtain ⟨he, hacc⟩ := forall_mem_cons.1 hacc
      rw [uniqifyInsert]
      split
      · exact forall_mem_cons.2 ⟨length_weightedMean _ (by simp) (by simp [he, hc]), hacc⟩
      · exact forall_mem_cons.2 ⟨he, ih hacc⟩
  unfold uniqifyClusters
  exact foldlRecOn clusters _ (fun _ hc => absurd hc not_mem_nil) fun acc hacc c hc => hinsert c acc (h c hc) hacc

/-! ## The farthest row -/

/-- `most_distal` answers with a row, whose distance to its nearest center is the largest. -/
theorem mostDistal_spec (data : NamedData ν ℝ) (clusters : List (Cluster ν ℝ)) :
    (mostDistal data clusters).elim (data.rows = []) fun b =>
      b.2 ∈ data.rowNames ∧ ∀ r ∈ data.rows, nearDist data clusters r.2 ≤ b.1 := by
  unfold mostDistal NamedData.rowNames
  generalize nearDist data clusters = d
  induction data.rows using reverseRecOn with
  | nil => rfl
  | append_singleton rows r ih =>
    rw [foldl_append, foldl_cons, foldl_nil]
    generalize rows.foldl _ none = best at ih ⊢
    cases best with
    | none => simp [show rows = [] from ih]
    | some b =>
      obtain ⟨hmem, hle⟩ := ih
      dsimp only
      split
      · next hb =>
          refine ⟨by simp, fun s hs => ?_⟩
          rcases mem_append.1 hs with hs | hs
          · exact (hle s hs).trans hb
          · rw [mem_singleton.1 hs]
      · next hb =>
          refine ⟨by simpa using Or.inl (by simpa using hmem), fun s hs => ?_⟩
          rcases mem_append.1 hs with hs | hs
          · exact hle s hs
          · rw [mem_singleton.1 hs]
            exact (not_le.1 hb).le

/-- A row that lies on its nearest center is a center. -/
theorem exists_center (hsized : Sized n clusters) (hne : clusters ≠ []) {row : List ℝ} (hrow : row.length = n)
    (h : nearDist data clusters row ≤ 0) : row ∈ clusters.map Cluster.center := by
  set distance := if data.matrixBacked then euclidean row else centerDistance row with hdistance
  have hnear : nearDist data clusters row ∈ clusters.map fun c => distance c.center := by
    cases clusters with
    | nil => exact absurd rfl hne
    | cons c cs =>
      have hmin : ((c :: cs).map fun c => distance c.center).min? = some (nearDist data (c :: cs) row) := by
        rw [map_cons, min?_cons', foldl_map]
        rfl
      exact min?_mem hmin
  obtain ⟨c, hc, hdist⟩ := mem_map.1 hnear
  have hlen : row.length = c.center.length := hrow.trans (hsized c hc).symm
  have heq : distance c.center = √(sqDist row c.center) := by
    rw [hdistance]
    split
    · exact euclidean_eq row c.center
    · rw [centerDistance, sum_sub_mul_self hlen, RealNumerics.sqrt_eq, sqDist]
  rw [← hdist, heq] at h
  have hzero := Real.sqrt_eq_zero'.1 (h.antisymm (Real.sqrt_nonneg _))
  exact mem_map.2 ⟨c, hc, (eq_of_sqDist hlen hzero).symm⟩

/-- The loop stops at `possible` clusters or more: with fewer, a distinct row is left that is no center. -/
theorem splitLoop_reaches (hdata : ∀ r ∈ data.rows, r.2.length = n) (hrows : data.rows ≠ []) {possible : ℕ}
    (hpossible : possible ≤ data.matrix.dedup.length) (hne : clusters ≠ []) (h : Sized n clusters) :
    possible ≤ (splitLoop data weights possible clusters).length := by
  fun_induction splitLoop data weights possible clusters with
  | case1 clusters hle => simpa using hle
  | case2 clusters hlt clusters' hnone =>
    have hspec := mostDistal_spec data clusters'
    rw [hnone] at hspec
    exact absurd hspec hrows
  | case3 clusters hlt clusters' dist outlier hsome hdist =>
    have hspec := mostDistal_spec data clusters'
    rw [hsome] at hspec
    have hcenters : data.matrix.dedup ⊆ clusters'.map Cluster.center := fun row hrow => by
      obtain ⟨r, hr, rfl⟩ := mem_map.1 (mem_dedup.1 hrow)
      exact exists_center (sized_recenterClusters hdata h) (by simpa [clusters', recenterClusters] using hne)
        (hdata r hr) ((hspec.2 r hr).trans hdist)
    have := (nodup_dedup data.matrix).length_le_of_subset hcenters
    rw [length_map] at this
    exact hpossible.trans this
  | case4 clusters hlt clusters' dist outlier hsome hdist ih =>
    have hspec := mostDistal_spec data clusters'
    rw [hsome] at hspec
    exact ih (by simp [splitOff]) (sized_splitOff hdata (sized_recenterClusters hdata h) hspec.1)

/-- The split loop ends, with distinct ids and a cluster for every distinct row, up to `k`. The bound on the passes
that count the rows does not show. -/
theorem cleanStartClusters_reaches (hdata : ∀ r ∈ data.rows, r.2.length = n) (hrows : data.rows ≠ []) {k : ℕ}
    (hk : 0 < k) (hne : clusters ≠ []) (hids : (clusters.map Cluster.id).Nodup) :
    let seed := cleanStartClusters data clusters k weights
    (seed.map Cluster.id).Nodup ∧ min k data.matrix.dedup.length ≤ seed.length ∧
    seed.length ≤ max k clusters.length ∧
    data.nDistinctRows k = eliminationPasses k data.matrix ∧
    min k (eliminationPasses k data.matrix) = min k data.matrix.dedup.length := by
  have hlineage : Lineage (max k clusters.length) clusters := ⟨hids, le_max_right _ _⟩
  have hseed := cleanStartClusters_seed weights hk (le_max_left _ _) hrows hlineage
  have hstart := uniqifyClusters_seed
    (safeRecenterClusters_seed data weights (hk.trans_le (le_max_left _ _)) hlineage)
  refine ⟨hseed.ids_nodup, ?_, hseed.length_le, (eliminationPasses_eq k data.matrix).symm,
    by rw [eliminationPasses_eq, ← min_assoc, min_self]⟩
  have hloop : _ ≤ (splitLoop data weights (min k (data.nDistinctRows k)) _).length := splitLoop_reaches hdata hrows
    ((min_le_right k (data.nDistinctRows k)).trans (min_le_right _ _)) hstart.ne_nil
    (sized_uniqifyClusters (sized_safeRecenterClusters hdata hrows))
  cases clusters with
  | nil => exact absurd rfl hne
  | cons c cs => simpa [cleanStartClusters, NamedData.nDistinctRows] using hloop

omit [RealNumerics] in
/-- One prior cluster of both rows is split in two. -/
theorem cleanStartClusters_reaches_pair : let _ := RealNumerics.of (fun _ _ => 0) fun _ => 0
    let data : NamedData ℕ ℝ := ⟨false, [(0, [0]), (1, [2])]⟩
    2 ≤ (cleanStartClusters data [⟨0, [0, 1], [1]⟩] 2 none).length := by
  intro _ data
  have hdistinct : data.matrix.dedup.length = 2 := by simp [data, NamedData.matrix]
  have h := @cleanStartClusters_reaches _ ℕ _ data [⟨0, [0, 1], [1]⟩] none 1 (by simp [data]) (by simp [data]) 2
    (by simp) (by simp) (by simp)
  simpa [hdistinct] using h.2.1

end Polis.Clustering
