import Polis.Conversation.VotesTheorems
import Polis.Clustering.KmeansTheorems

/-!
# The clusters partition the participants

After every recompute the base clusters partition the in-conv participants, every stored group
clustering partitions the base clusters, and the groups are one of those clusterings. The bounds on
the numbers of clusters are carried from tick to tick: no step merges down to `k`.

Reference: `polismath/conversation/conversation.py`.
-/

set_option linter.unusedSectionVars false

namespace Polis

open Clustering List Conversation

variable {K : Type*} [Field K] [LinearOrder K] [Numerics K]
variable {c c' : Conversation K}

/-- The two levels of clusters of one tick. -/
structure Clustered (c : Conversation K) : Prop where
  pids_nodup : c.inConvPidsList.Nodup
  base : IsClustering c.inConvPidsList baseK c.baseClusters
  groups : ∀ e ∈ c.groupClusterings,
    IsClustering (c.baseClusters.map Cluster.id) e.1 e.2
  selected : ∃ k, (k, c.groupClusters) ∈ c.groupClusterings

/-! ## Unfolding -/

/-- With distinct ids the lookup finds the cluster of an id. -/
theorem clusterById_of_mem {clusters : List (Cluster ℤ K)} (h : (clusters.map Cluster.id).Nodup)
    {c : Cluster ℤ K} (hc : c ∈ clusters) : clusterById clusters c.id = some c := by
  unfold clusterById
  cases hfind : clusters.reverse.find? fun d => d.id = c.id with
  | none => simpa using find?_eq_none.1 hfind c (mem_reverse.2 hc)
  | some d =>
    have hd : d ∈ clusters := mem_reverse.1 (mem_of_find?_eq_some hfind)
    have hid : d.id = c.id := by simpa using find?_some hfind
    rw [inj_on_of_nodup_map h hd hc hid]

theorem baseMembers_of_mem {clusters : List (Cluster ℤ K)} (h : (clusters.map Cluster.id).Nodup)
    {c : Cluster ℤ K} (hc : c ∈ clusters) : baseMembers clusters c.id = c.members := by
  rw [baseMembers, clusterById_of_mem h hc]
  rfl

/-- The unfolded groups partition the participants. -/
theorem Clustered.unfolded (h : Clustered c) :
    Partitions Cluster.members c.unfoldedGroupClusters c.inConvPidsList := by
  obtain ⟨k, hk⟩ := h.selected
  have hmerge := h.base.partition.merge (h.groups _ hk).partition
    fun b hb => baseMembers_of_mem h.base.ids_nodup hb
  constructor
  · rw [unfoldedGroupClusters, flatMap_map]
    exact hmerge.perm
  · intro g hg
    obtain ⟨g', hg', rfl⟩ := mem_map.1 hg
    exact hmerge.nonempty g' hg'

/-! ## One tick -/

theorem sortById_perm (clusters : List (Cluster ℤ K)) : (sortById clusters).Perm clusters :=
  perm_insertionSort _ _

/-- Sorting by id again changes nothing. -/
theorem sortById_sortById (clusters : List (Cluster ℤ K)) :
    sortById (sortById clusters) = sortById clusters := by
  have : Std.Total fun c d : Cluster ℤ K => c.id ≤ d.id := ⟨fun c d => le_total c.id d.id⟩
  have : IsTrans (Cluster ℤ K) fun c d => c.id ≤ d.id := ⟨fun _ _ _ => le_trans⟩
  exact (pairwise_insertionSort _ clusters).insertionSort_eq

theorem computeBaseClusters_isClustering (rows : List (ℤ × List K))
    {prevBaseClusters : List (Cluster ℤ K)} (hrows : rows ≠ [])
    (h : Lineage baseK prevBaseClusters) :
    IsClustering (rows.map Prod.fst) baseK (computeBaseClusters rows prevBaseClusters) := by
  have hk : 0 < min baseK rows.length := lt_min (by decide) (length_pos_iff.2 hrows)
  exact (kmeans_isClustering ⟨false, rows⟩ none baseIters hk (min_le_left _ _) h).of_perm
    (sortById_perm _)

theorem groupClustering_isClustering (baseClusters : List (Cluster ℤ K))
    {prevGroupClusterings : List (ℕ × List (Cluster ℤ K))}
    (h : ∀ e ∈ prevGroupClusterings, Lineage e.1 e.2) {k : ℕ} (hk : 0 < k) :
    IsClustering (baseClusters.map Cluster.id) k
      (groupClustering baseClusters prevGroupClusterings k) := by
  have hlast : Lineage k ((prevGroupClusterings.lookup k).getD []) := by
    cases hl : prevGroupClusterings.lookup k with
    | none => exact .nil k
    | some last =>
      obtain ⟨l₁, l₂, rfl, -⟩ := lookup_eq_some_iff.1 hl
      exact h (k, last) (by simp)
  have hnames : (groupData baseClusters).rowNames = baseClusters.map Cluster.id := by
    simp [groupData, NamedData.rowNames, Function.comp_def]
  rw [← hnames]
  exact (kmeans_isClustering (groupData baseClusters) _ groupLegacyIters hk le_rfl hlast).of_perm
    (sortById_perm _)

/-- The clusterings stored at the end of a tick: what the next tick starts from. -/
structure Lineages (c : Conversation K) : Prop where
  base : Lineage baseK c.baseClusters
  groups : ∀ e ∈ c.groupClusterings, Lineage e.1 e.2

theorem Clustered.lineages (h : Clustered c) : Lineages c :=
  ⟨h.base.toLineage, fun e he => (h.groups e he).toLineage⟩

private theorem groupKRange_ne_nil (n : ℕ) : groupKRange n ≠ [] := by
  have : 2 ≤ maxK n := le_max_left _ _
  simp only [groupKRange, ne_eq, range'_eq_nil_iff]
  omega

theorem lookup_map_self {κ β : Type*} [DecidableEq κ] (f : κ → β) {ks : List κ} {k : κ}
    (hk : k ∈ ks) :
    (ks.map fun k => (k, f k)).lookup k = some (f k) := by
  induction ks with
  | nil => simp at hk
  | cons j ks ih =>
    rw [map_cons, lookup_cons]
    by_cases hkj : k = j
    · simp [hkj]
    · rw [beq_eq_false_iff_ne.2 hkj]
      exact ih ((mem_cons.1 hk).resolve_left hkj)

/-- The two levels on at least one row, from any earlier clusterings. -/
theorem clusterInConvRows_clustered (hproj : (c.proj.map Prod.fst).Nodup)
    {prevBase : List (Cluster ℤ K)} {prevGroup : List (ℕ × List (Cluster ℤ K))}
    (prevSmoother : GroupKSmoother) (hbase : Lineage baseK prevBase)
    (hgroups : ∀ e ∈ prevGroup, Lineage e.1 e.2) (hrows : c.inConvRows ≠ []) :
    Clustered (c.clusterInConvRows prevBase prevGroup prevSmoother) := by
  have hbase' := computeBaseClusters_isClustering c.inConvRows hrows hbase
  unfold clusterInConvRows
  dsimp only
  generalize computeBaseClusters c.inConvRows prevBase = baseClusters at hbase' ⊢
  have hkeys : (silhouettesByK baseClusters (computeGroupClusterings baseClusters prevGroup)).map
      Prod.fst = groupKRange baseClusters.length := by
    simp [silhouettesByK, computeGroupClusterings, Function.comp_def]
  have hne : silhouettesByK baseClusters (computeGroupClusterings baseClusters prevGroup) ≠ [] :=
    fun hnil => groupKRange_ne_nil baseClusters.length (by rw [← hkeys, hnil, map_nil])
  obtain ⟨st, k, hsmooth, hk⟩ := groupKSmootherUpdate_mem prevSmoother groupKBuffer hne
  rw [hkeys] at hk
  rw [hsmooth]
  exact {
    pids_nodup := hproj.sublist (filter_sublist.map _)
    base := hbase'
    groups := fun e he => by
      obtain ⟨j, hj, rfl⟩ := mem_map.1 he
      have := (mem_range'_1.1 hj).1
      exact groupClustering_isClustering baseClusters hgroups (by omega)
    selected := ⟨k, by
      -- sorting the selected clustering again leaves it as it is stored
      dsimp only
      rw [computeGroupClusterings, lookup_map_self _ hk, Option.getD_some, groupClustering,
        sortById_sortById, ← groupClustering]
      exact mem_map_of_mem hk⟩ }

/-- One run of `_compute_clusters`: it leaves lineages, and clusters whoever is in. -/
theorem computeClusters_spec (hproj : (c.proj.map Prod.fst).Nodup)
    {prevBase : List (Cluster ℤ K)} (prevSmoother : GroupKSmoother)
    (hbase : Lineage baseK prevBase) (hgroups : ∀ e ∈ c.groupClusterings, Lineage e.1 e.2) :
    let c' := c.computeClusters prevBase c.groupClusterings prevSmoother
    Lineages c' ∧ (c'.inConvPidsList ≠ [] → Clustered c') := by
  intro c'
  simp only [c', computeClusters]
  by_cases hempty : c.proj.isEmpty
  · rw [if_pos hempty]
    have hnil : c.proj = [] := by simpa using hempty
    refine ⟨⟨.nil _, hgroups⟩, fun hne => absurd ?_ hne⟩
    simp [inConvPidsList, Conversation.inConvRows, hnil]
  · rw [if_neg hempty]
    split
    · next hrows =>
        refine ⟨⟨.nil _, hgroups⟩, fun hne => absurd ?_ hne⟩
        exact map_eq_nil_iff.2 (isEmpty_iff.1 hrows)
    · next hrows =>
        have hclustered := clusterInConvRows_clustered
          (c := { c with inConv := c.getInConvParticipants }) hproj prevSmoother hbase hgroups
          fun hnil => hrows (isEmpty_iff.2 hnil)
        exact ⟨hclustered.lineages, fun _ => hclustered⟩

/-! ## Every tick -/

theorem Lineages.of_sameClusters (h : Lineages c)
    (h' : SameClusters c c') : Lineages c' :=
  ⟨h'.baseClusters ▸ h.base, h'.groupClusterings ▸ h.groups⟩

theorem SameClusters.inConvPidsList (h : SameClusters c c') :
    c'.inConvPidsList = c.inConvPidsList := by
  rw [Conversation.inConvPidsList, Conversation.inConvPidsList, Conversation.inConvRows,
    Conversation.inConvRows, h.proj, h.inConv]

theorem Clustered.of_sameClusters (h : Clustered c)
    (h' : SameClusters c c') : Clustered c' where
  pids_nodup := h'.inConvPidsList ▸ h.pids_nodup
  base := by rw [h'.inConvPidsList, h'.baseClusters]; exact h.base
  groups := by rw [h'.groupClusterings, h'.baseClusters]; exact h.groups
  selected := by rw [h'.groupClusterings, h'.groupClusters]; exact h.selected

/-- What every reachable conversation satisfies: whatever warm start it offers to the next tick is a
lineage, and whoever it has in is clustered. -/
structure Ticked (c : Conversation K) : Prop where
  shape : RawShape c
  labels : SameLabels c
  lineages : Lineages c
  clustered : c.inConvPidsList ≠ [] → Clustered c

theorem Ticked.new (id ts now : ℤ) : Ticked (new id ts now : Conversation K) where
  shape := RawShape.new id ts now
  labels := ⟨rfl, rfl⟩
  lineages := ⟨.nil _, fun _ he => absurd he not_mem_nil⟩
  clustered := fun h => absurd rfl h

/-- Ingestion and moderation keep the clusters of the last tick. -/
theorem Ticked.of_sameClusters (h : Ticked c) (hshape : RawShape c')
    (hlabels : SameLabels c') (h' : SameClusters c c') : Ticked c' where
  shape := hshape
  labels := hlabels
  lineages := h.lineages.of_sameClusters h'
  clustered := fun hne => (h.clustered (h'.inConvPidsList ▸ hne)).of_sameClusters h'

private theorem computePca_groupClusterings (c : Conversation K) (prevPca : Option (Pca K)) :
    (c.computePca prevPca).groupClusterings = c.groupClusterings := by
  unfold computePca
  dsimp only
  split <;> rfl

/-- The clusters a tick leaves. -/
theorem Ticked.recompute_clusters (h : Ticked c) :
    Lineages c.recompute ∧ (c.recompute.inConvPidsList ≠ [] → Clustered c.recompute) := by
  unfold recompute
  split
  · exact ⟨h.lineages, h.clustered⟩
  · have hproj : ((({ c with lastModTimestamp := none } : Conversation K).computePca
        c.pca).proj.map Prod.fst).Nodup := by
      rw [computePca_proj, h.labels.index]
      exact h.shape.index_nodup
    have hgroups := computePca_groupClusterings { c with lastModTimestamp := none } c.pca
    obtain ⟨hlin, hclus⟩ := computeClusters_spec hproj c.groupKSmoother h.lineages.base
      (by rw [hgroups]; exact h.lineages.groups)
    rw [hgroups] at hlin hclus
    -- the priorities that follow leave the clusters alone
    have hsame := computeCommentPriorities_sameClusters
      ((({ c with lastModTimestamp := none } : Conversation K).computePca c.pca).computeClusters
        c.baseClusters c.groupClusterings c.groupKSmoother) c.groupVotes
    exact ⟨hlin.of_sameClusters hsame, fun hne =>
      (hclus (hsame.inConvPidsList ▸ hne)).of_sameClusters hsame⟩

/-- One tick. -/
theorem Ticked.recompute (h : Ticked c) : Ticked c.recompute where
  shape := h.shape.of_sameRaw (recompute_sameInputs c).toSameRaw
  labels := h.labels.of_sameInputs (recompute_sameInputs c)
  lineages := h.recompute_clusters.1
  clustered := h.recompute_clusters.2

theorem Ticked.ingestVotes (h : Ticked c) (payload : VotePayload) :
    Ticked (c.ingestVotes payload) :=
  h.of_sameClusters (ingestVotes_spec h.shape payload).2 (ingestVotes_sameLabels h.labels payload)
    (ingestVotes_sameDerived c payload).toSameClusters

theorem Ticked.setModeration (h : Ticked c) (m : Moderation) :
    Ticked (c.setModeration m) :=
  h.of_sameClusters (h.shape.of_sameRaw (setModeration_sameRaw c m)) ⟨rfl, rfl⟩
    (setModeration_sameDerived c m).toSameClusters

/-- Every call keeps the conversation ticked. -/
theorem Ticked.apply (h : Ticked c) (op : Op) : Ticked (c.apply op) := by
  cases op with
  | recompute => exact h.recompute
  | modUpdate mods =>
    exact h.of_sameClusters (h.shape.of_sameRaw (modUpdate_sameRaw c mods))
      ⟨h.labels.index, h.labels.columns⟩ (modUpdate_sameDerived c mods).toSameClusters
  | updateModeration m recompute =>
    simp only [Conversation.apply, Conversation.updateModeration]
    split
    · exact (h.setModeration m).recompute
    · exact h.setModeration m
  | updateVotes payload recompute =>
    simp only [Conversation.apply, Conversation.updateVotes]
    split
    · exact h
    · split
      · exact (h.ingestVotes payload).recompute
      · exact h.ingestVotes payload

theorem run_ticked {id ts now : ℤ} {ops : List Op}
    (h : Run Conversation.Step (new id ts now) ops c) : Ticked c :=
  h.keeps Ticked (Ticked.new id ts now) fun c op c' hc hs => by
    rw [show c' = c.apply op from hs]
    exact hc.apply op

/-- In every reachable conversation that has a participant in, so after every recompute that
clusters one: the base clusters partition the in-conv participants, every stored group clustering
partitions the base-cluster ids into at most `k` clusters, and the groups are one of these
clusterings, so every in-conv participant unfolds into exactly one group. -/
theorem clusters_partition_participants {id ts now : ℤ} {ops : List Op} {c : Conversation K}
    (hrun : Run Conversation.Step (new id ts now) ops c)
    (hin : c.inConvPidsList ≠ []) :
    ((∀ pid, pid ∈ c.inConvPidsList ↔ pid ∈ c.inConv ∧ pid ∈ c.proj.map Prod.fst) ∧
      (∀ pid ∈ c.inConvPidsList, ∃! b, b ∈ c.baseClusters ∧ pid ∈ b.members) ∧
      (∀ b ∈ c.baseClusters, ∀ pid ∈ b.members, pid ∈ c.inConvPidsList) ∧
      (∀ b ∈ c.baseClusters, b.members ≠ [] ∧ b.members.Nodup) ∧
      (c.baseClusters.map Cluster.id).Nodup ∧ c.baseClusters.length ≤ 100) ∧
    (∀ e ∈ c.groupClusterings,
      (∀ i ∈ c.baseClusters.map Cluster.id, ∃! g, g ∈ e.2 ∧ i ∈ g.members) ∧
      (∀ g ∈ e.2, ∀ i ∈ g.members, i ∈ c.baseClusters.map Cluster.id) ∧
      (∀ g ∈ e.2, g.members ≠ [] ∧ g.members.Nodup) ∧
      (e.2.map Cluster.id).Nodup ∧ e.2.length ≤ e.1) ∧
    (∃ k, (k, c.groupClusters) ∈ c.groupClusterings) ∧
    (∀ pid ∈ c.inConvPidsList, ∃! g, g ∈ c.unfoldedGroupClusters ∧ pid ∈ g.members) := by
  have h := (run_ticked hrun).clustered hin
  have hpart := h.base.partition
  refine ⟨⟨fun pid => ?_, fun pid hpid => hpart.existsUnique h.pids_nodup hpid,
    fun b hb pid hpid => hpart.mem_iff.2 ⟨b, hb, hpid⟩,
    fun b hb => ⟨hpart.nonempty b hb, hpart.nodup h.pids_nodup hb⟩,
    h.base.ids_nodup, h.base.length_le⟩, fun e he => ?_, h.selected,
    fun pid hpid => h.unfolded.existsUnique h.pids_nodup hpid⟩
  · simp only [inConvPidsList, Conversation.inConvRows, mem_map,
      mem_filter, decide_eq_true_eq]
    constructor
    · rintro ⟨r, ⟨hr, hin⟩, rfl⟩
      exact ⟨hin, r, hr, rfl⟩
    · rintro ⟨hin, r, hr, rfl⟩
      exact ⟨r, ⟨hr, hin⟩, rfl⟩
  · have hg := (h.groups e he).partition
    have hids := h.base.ids_nodup
    exact ⟨fun i hi => hg.existsUnique hids hi, fun g hgm i hi => hg.mem_iff.2 ⟨g, hgm, hi⟩,
      fun g hgm => ⟨hg.nonempty g hgm, hg.nodup hids hgm⟩, (h.groups e he).ids_nodup,
      (h.groups e he).length_le⟩

/-- Two participants who disagree on one comment: one tick clusters both. -/
private def firstTick : Conversation ℚ :=
  (new 1 1 1).updateVotes
    ⟨[⟨some 1, some 0, some (.num 1), some 10⟩, ⟨some 2, some 0, some (.num (-1)), some 11⟩], none⟩
    true

theorem clusters_partition_first_tick :
    firstTick.inConvPidsList = [1, 2] ∧
    (∃! b, b ∈ firstTick.baseClusters ∧ (1 : ℤ) ∈ b.members) ∧
    (∃! g, g ∈ firstTick.unfoldedGroupClusters ∧ (2 : ℤ) ∈ g.members) := by
  have hrun : Run Conversation.Step (new 1 1 1)
      [Op.updateVotes ⟨[⟨some 1, some 0, some (.num 1), some 10⟩,
        ⟨some 2, some 0, some (.num (-1)), some 11⟩], none⟩ true] firstTick :=
    .snoc .nil rfl
  have hin : firstTick.inConvPidsList = [1, 2] := by decide +kernel
  obtain ⟨⟨-, hbase, -⟩, -, -, hgroup⟩ := clusters_partition_participants hrun (by simp [hin])
  exact ⟨hin, hbase 1 (by simp [hin]), hgroup 2 (by simp [hin])⟩

end Polis
