import Polis.Conversation.Blob
import Polis.Conversation.ClusterPartition

/-!
# What a restart keeps

A served conversation restores its PCA, columns, moderation, base clusters and priorities. The group
clusters restore with participant ids for members where base-cluster ids stood, and the group votes
restore as tallied at emission.

Reference: `polismath/conversation/conversation.py`.
-/

set_option linter.unusedSectionVars false

namespace Polis

open Clustering List Conversation

variable {K : Type*} [Field K] [LinearOrder K] [Numerics K] {c : Conversation K}

/-! ## Base clusters -/

/-- Folding, emitting and restoring planar base clusters gives them back. -/
theorem restore_foldBaseClusters (axis : AgreeValue) {clusters : List (Cluster ℤ K)}
    (h : ∀ c ∈ clusters, c.center.length = 2) :
    (unfoldBaseClusters { foldBaseClusters clusters with
      x := emitAxis axis (foldBaseClusters clusters).x
      y := emitAxis axis (foldBaseClusters clusters).y }).map
        (fun c => { c with center := restoreAxis axis c.center }) = clusters := by
  have hemit : ∀ f : Cluster ℤ K → K, emitAxis axis (clusters.map f) =
      clusters.map fun c => (emitAxis axis [f c]).getD 0 0 := by
    intro f
    cases axis <;> simp [emitAxis, scaleAxis, Function.comp_def]
  simp only [unfoldBaseClusters, foldBaseClusters, hemit, zip_map', map_map,
    Function.comp_def]
  refine (map_congr_left fun c hc => ?_).trans (map_id clusters)
  obtain ⟨id, members, center⟩ := c
  obtain ⟨x, y, rfl⟩ := length_eq_two.1 (h _ hc)
  cases axis <;> simp [restoreAxis, emitAxis, scaleAxis]

/-! ## Columns -/

/-- Columns already in arrival order keep their places. -/
private theorem arrivalTids_self (tids : List ℤ) : arrivalTids tids tids = tids := by
  have hall : tids.filter (· ∈ tids) = tids := filter_eq_self.2 fun t ht => by simpa using ht
  simp only [arrivalTids, hall]
  rw [filter_eq_nil_iff.2 fun t ht => by simpa using ht, append_nil]

private theorem permute_range (values : List K) :
    permute (List.range values.length) values = values := by
  refine ext_getElem (by simp [permute]) fun i h₁ h₂ => ?_
  simp [permute, h₂]

private theorem map_idxOf_self {tids : List ℤ} (h : tids.Nodup) :
    tids.map (fun t => tids.idxOf t) = List.range tids.length := by
  refine ext_getElem (by simp) fun i h₁ h₂ => ?_
  rw [getElem_map, getElem_range, h.idxOf_getElem]

/-- Nothing is permuted in a conversation whose columns stand in arrival order. -/
theorem emittedColumns_self {tids : List ℤ} (h : tids.Nodup) {pca : Option (Pca K)}
    (hpca : ∀ p, pca = some p → ∀ pc ∈ p.comps, pc.length = p.center.length) :
    emittedColumns tids tids pca =
      (tids, pca.map fun p => ⟨emitAxis geometryAxisAgreeValue p.center, p.comps⟩) := by
  unfold emittedColumns
  dsimp only
  rw [arrivalTids_self, map_idxOf_self h]
  cases pca with
  | none => rfl
  | some p =>
    dsimp only
    rw [length_range]
    split
    · next hlen =>
        have hcomps : p.comps.map (permute (List.range tids.length)) = p.comps := by
          refine (map_congr_left fun pc hpc => ?_).trans (map_id _)
          rw [hlen, ← hpca p rfl pc hpc, permute_range]
          rfl
        rw [hcomps, hlen, permute_range]
        rfl
    · rfl

/-! ## Group votes -/

/-- With distinct ids the first group of an id is the group itself. -/
theorem find?_id_of_mem {groups : List (Cluster ℤ K)} (h : (groups.map Cluster.id).Nodup)
    {g : Cluster ℤ K} (hg : g ∈ groups) : groups.find? (fun g' => g'.id = g.id) = some g := by
  have hnodup : (groups.reverse.map Cluster.id).Nodup := by
    rw [map_reverse, nodup_reverse]
    exact h
  have hfind := clusterById_of_mem hnodup (mem_reverse.2 hg)
  rwa [clusterById, reverse_reverse] at hfind

/-- The emitted tally is the engine's, when every group is somewhere in the matrix and nowhere
outside. -/
theorem emittedGroupVotes_eq (hlabels : SameLabels c)
    (hids : (c.groupClusters.map Cluster.id).Nodup)
    (hne : ∀ g ∈ c.unfoldedGroupClusters, g.members ≠ [])
    (hindex : ∀ g ∈ c.unfoldedGroupClusters, ∀ p ∈ g.members, p ∈ c.rawRatingMat.index) :
    c.emittedGroupVotes = c.computeGroupVotes := by
  have hids' : (c.unfoldedGroupClusters.map Cluster.id).Nodup := by
    simpa [unfoldedGroupClusters, Function.comp_def] using hids
  unfold emittedGroupVotes computeGroupVotes groupVoteCounts
  split
  · rfl
  · refine foldl_ext _ _ _ fun groupVotes g hg => ?_
    have hall : g.members.filter (· ∈ c.rawRatingMat.index) = g.members :=
      filter_eq_self.2 fun p hp => by simpa using hindex g hg p hp
    dsimp only
    rw [hall, if_neg (by simpa using hne g hg), find?_id_of_mem hids' hg, hlabels.columns]
    congr 2
    exact map_congr_left fun tid htid => by simp [htid]

/-! ## Reachable conversations -/

/-- What serialization relies on: planar geometry, components over the center's columns, and groups
only among projected participants of a matrix with comments. -/
structure Serializable (c : Conversation K) : Prop extends Ticked c where
  proj_index : ∀ e ∈ c.proj, e.1 ∈ c.rawRatingMat.index
  proj_planar : ∀ e ∈ c.proj, e.2.length = 2
  base_planar : ∀ b ∈ c.baseClusters, b.center.length = 2
  pca_shape : ∀ p, c.pca = some p → ∀ pc ∈ p.comps, pc.length = p.center.length
  grouped : c.groupClusters ≠ [] → c.inConvPidsList ≠ [] ∧ c.rawRatingMat.columns ≠ []

theorem Serializable.new (id ts now : ℤ) :
    Serializable (new id ts now : Conversation K) where
  toTicked := .new id ts now
  proj_index := fun _ he => absurd he not_mem_nil
  proj_planar := fun _ he => absurd he not_mem_nil
  base_planar := fun _ hb => absurd hb not_mem_nil
  pca_shape := fun _ hp => nomatch hp
  grouped := fun h => absurd rfl h

/-- A call without a recompute leaves the geometry; it may add rows and columns. -/
theorem Serializable.of_sameDerived {c c' : Conversation K} (h : Serializable c) (hc' : Ticked c')
    (h' : SameDerived c c') (hindex : c.rawRatingMat.index ⊆ c'.rawRatingMat.index)
    (hcolumns : c.rawRatingMat.columns ⊆ c'.rawRatingMat.columns) : Serializable c' where
  toTicked := hc'
  proj_index := fun e he => hindex (h.proj_index e (h'.proj ▸ he))
  proj_planar := h'.proj ▸ h.proj_planar
  base_planar := h'.baseClusters ▸ h.base_planar
  pca_shape := h'.pca ▸ h.pca_shape
  grouped := fun hne => by
    rw [h'.groupClusters] at hne
    obtain ⟨hin, hcols⟩ := h.grouped hne
    refine ⟨h'.toSameClusters.inConvPidsList ▸ hin, fun hnil => hcols ?_⟩
    rw [hnil] at hcolumns
    exact eq_nil_of_subset_nil hcolumns

/-- The geometry a PCA step leaves. -/
theorem computePca_shape (c : Conversation K) (prevPca : Option (Pca K)) :
    (∀ e ∈ (c.computePca prevPca).proj, e.2.length = 2) ∧
    ∀ p, (c.computePca prevPca).pca = some p → ∀ pc ∈ p.comps, pc.length = p.center.length := by
  unfold computePca
  dsimp only
  split
  · refine ⟨fun e he => ?_, fun p hp pc hpc => ?_⟩
    · obtain ⟨pid, -, rfl⟩ := mem_map.1 he
      rfl
    · obtain rfl := Option.some.inj hp
      rw [(mem_replicate.1 hpc).2]
  · have hrows : ∀ row ∈ c.ratingMat.rows.map fun row => row.map fun v =>
        v.map (Vote.toNum (K := K)), row.length = c.ratingMat.columns.length := by
      intro row hrow
      obtain ⟨row', hrow', rfl⟩ := mem_map.1 hrow
      obtain ⟨p, -, rfl⟩ := mem_map.1 hrow'
      simp [NamedMat.row]
    obtain ⟨hcenter, hcomps, hproj⟩ := pcaProjectDataframe_shape ((prevPca.map Pca.comps).getD [])
      hrows (by decide : 0 < 2)
    refine ⟨fun e he => hproj e.2 (of_mem_zip he).2, fun p hp pc hpc => ?_⟩
    obtain rfl := Option.some.inj hp
    rw [hcenter]
    exact hcomps pc hpc

/-- The clusters a clustering step leaves: planar base clusters, and groups only when someone is
in. -/
theorem computeClusters_shape (hproj : ∀ e ∈ c.proj, e.2.length = 2)
    (hbase : ∀ b ∈ c.baseClusters, b.center.length = 2) (prevBase : List (Cluster ℤ K))
    (prevGroup : List (ℕ × List (Cluster ℤ K))) (prevSmoother : GroupKSmoother) :
    let c' := c.computeClusters prevBase prevGroup prevSmoother
    (∀ b ∈ c'.baseClusters, b.center.length = 2) ∧
    (c'.groupClusters ≠ [] → c'.inConvPidsList ≠ []) ∧ c'.pca = c.pca ∧ c'.proj = c.proj := by
  intro c'
  simp only [c', computeClusters]
  split
  · exact ⟨fun _ hb => absurd hb not_mem_nil, fun h => absurd rfl h, rfl, rfl⟩
  · split
    · exact ⟨fun _ hb => absurd hb not_mem_nil, fun h => absurd rfl h, rfl, rfl⟩
    · next hrows =>
        have hin : ({ c with inConv := c.getInConvParticipants } : Conversation K).inConvPidsList ≠
            [] := fun hnil => hrows (isEmpty_iff.2 (map_eq_nil_iff.1 hnil))
        unfold clusterInConvRows
        dsimp only
        split
        · exact ⟨hbase, fun _ => hin, rfl, rfl⟩
        · refine ⟨fun b hb => ?_, fun _ => hin, rfl, rfl⟩
          exact length_center_of_mem_kmeans
            (fun r hr => hproj r (mem_of_mem_filter hr)) _ _ _ _ b
            ((sortById_perm _).mem_iff.1 hb)

theorem computeCommentPriorities_pca (c : Conversation K)
    (prevGroupVotes : List (ℤ × GroupVotes)) :
    (c.computeCommentPriorities prevGroupVotes).pca = c.pca := by
  unfold computeCommentPriorities
  split
  · rfl
  · dsimp only
    split <;> rfl

/-- One tick. -/
theorem Serializable.recompute (h : Serializable c) :
    Serializable c.recompute := by
  have hticked := h.toTicked.recompute
  have hsame := (recompute_sameInputs c).toSameRaw
  by_cases hempty : c.ratingMat.isEmpty
  · rwa [Conversation.recompute, if_pos hempty] at *
  · have hcolumns : c.rawRatingMat.columns ≠ [] := by
      rw [← h.labels.columns]
      intro hnil
      simp [NamedMat.isEmpty, hnil] at hempty
    obtain ⟨hplanar, hpca⟩ := computePca_shape { c with lastModTimestamp := none } c.pca
    have hnames := computePca_proj { c with lastModTimestamp := none } c.pca
    have hbase : (computePca { c with lastModTimestamp := none } c.pca).baseClusters =
        c.baseClusters := by
      unfold computePca
      dsimp only
      split <;> rfl
    rw [Conversation.recompute, if_neg hempty] at *
    generalize computePca { c with lastModTimestamp := none } c.pca = c₁ at *
    obtain ⟨hbase₂, hgroups, hpca₂, hproj₂⟩ := computeClusters_shape hplanar
      (by rw [hbase]; exact h.base_planar) c.baseClusters c.groupClusterings c.groupKSmoother
    generalize c₁.computeClusters c.baseClusters c.groupClusterings c.groupKSmoother = c₂ at *
    have hsame₃ := computeCommentPriorities_sameClusters c₂ c.groupVotes
    exact {
      toTicked := hticked
      proj_index := fun e he => by
        rw [hsame.rawRatingMat, ← h.labels.index]
        rw [hsame₃.proj, hproj₂] at he
        exact hnames ▸ mem_map_of_mem he
      proj_planar := by rw [hsame₃.proj, hproj₂]; exact hplanar
      base_planar := by rw [hsame₃.baseClusters]; exact hbase₂
      pca_shape := by rw [computeCommentPriorities_pca, hpca₂]; exact hpca
      grouped := fun hne => by
        rw [hsame₃.groupClusters] at hne
        rw [hsame₃.inConvPidsList, hsame.rawRatingMat]
        exact ⟨hgroups hne, hcolumns⟩ }

theorem Serializable.ingestVotes (h : Serializable c)
    (payload : VotePayload) : Serializable (c.ingestVotes payload) := by
  obtain ⟨hing, hshape⟩ := ingestVotes_spec h.shape payload
  refine h.of_sameDerived (h.toTicked.ingestVotes payload) (ingestVotes_sameDerived c payload)
    (fun p hp => ?_) fun t ht => ?_
  · rw [hing.index]
    exact mem_appendNew.2 (.inl hp)
  · rw [hshape.columns_eq, hing.tidArrivalOrder]
    exact mem_appendNew.2 (.inl (h.shape.columns_eq ▸ ht))

theorem Serializable.setModeration (h : Serializable c) (m : Moderation) :
    Serializable (c.setModeration m) :=
  h.of_sameDerived (h.toTicked.setModeration m) (setModeration_sameDerived c m)
    (List.Subset.refl _) (List.Subset.refl _)

/-- Every call keeps the conversation serializable. -/
theorem Serializable.apply (h : Serializable c) (op : Op) :
    Serializable (c.apply op) := by
  cases op with
  | recompute => exact h.recompute
  | modUpdate mods =>
    exact h.of_sameDerived (h.toTicked.apply (.modUpdate mods)) (modUpdate_sameDerived c mods)
      (List.Subset.refl _) (List.Subset.refl _)
  | updateModeration m recompute =>
    simp only [Conversation.apply, Conversation.updateModeration]
    split
    · exact (h.setModeration m).recompute
    · exact h.setModeration m
  | updateVotes payload recompute =>
    simp only [Conversation.apply, Conversation.updateVotes]
    split
    · exact h
    · split
      · exact (h.ingestVotes payload).recompute
      · exact h.ingestVotes payload

theorem run_serializable {id ts now : ℤ} {ops : List Op}
    (h : Run Conversation.Step (new id ts now) ops c) : Serializable c :=
  h.keeps Serializable (Serializable.new id ts now) fun c op c' hc hs => by
    rw [show c' = c.apply op from hs]
    exact hc.apply op

/-! ## The round trip -/

/-- The fields a restart is to keep. -/
structure Restored (c c' : Conversation K) : Prop where
  pca : c'.pca = c.pca
  tidArrivalOrder : c'.tidArrivalOrder = c.tidArrivalOrder
  modOutTids : c'.modOutTids = c.modOutTids
  modInTids : c'.modInTids = c.modInTids
  metaTids : c'.metaTids = c.metaTids
  modOutPtpts : c'.modOutPtpts = c.modOutPtpts
  baseClusters : c'.baseClusters = c.baseClusters
  groupClusters : c'.groupClusters = c.groupClusters
  unfoldedGroupClusters : c'.unfoldedGroupClusters = c.unfoldedGroupClusters
  groupVotes : c'.groupVotes = c.groupVotes
  commentPriorities : c'.commentPriorities = c.commentPriorities

/-- The conversation after a restart from its own blob. -/
def Conversation.restart (c : Conversation K) : Conversation K :=
  c.toDict.fromDict geometryAxisAgreeValue

/-- What a restart does to a reachable conversation with groups: everything is kept but the group
clusters, which restore unfolded, and the group votes, which restore as tallied now. -/
theorem Serializable.restart_spec (h : Serializable c)
    (hgroups : c.groupClusters ≠ []) :
    c.restart = { c with
      rawRatingMat := .empty
      ratingMat := .empty
      moderationApplied := c.restart.moderationApplied
      groupClusters := c.unfoldedGroupClusters
      groupClusterings := []
      groupKSmoother := {}
      inConv := ∅
      groupVotes := c.computeGroupVotes } := by
  obtain ⟨hin, hcolumns⟩ := h.grouped hgroups
  have hclustered := h.clustered hin
  obtain ⟨pid, hpid⟩ := exists_mem_of_ne_nil _ hin
  have hindex : ∀ p ∈ c.inConvPidsList, p ∈ c.rawRatingMat.index := by
    intro p hp
    obtain ⟨e, he, rfl⟩ := mem_map.1 hp
    exact h.proj_index e (mem_of_mem_filter he)
  have hmat : c.rawRatingMat.isEmpty = false := by
    simp [NamedMat.isEmpty, hcolumns, ne_nil_of_mem (hindex pid hpid)]
  have hcols : emittedColumns c.tidArrivalOrder c.ratingMat.columns c.pca = (c.tidArrivalOrder,
      c.pca.map fun p => ⟨emitAxis geometryAxisAgreeValue p.center, p.comps⟩) := by
    rw [h.labels.columns, h.shape.columns_eq]
    exact emittedColumns_self h.shape.columns_nodup h.pca_shape
  obtain ⟨k, hk⟩ := hclustered.selected
  have hvotes : c.emittedGroupVotes = c.computeGroupVotes :=
    emittedGroupVotes_eq h.labels (hclustered.groups _ hk).ids_nodup
      hclustered.unfolded.nonempty fun g hg p hp =>
        hindex p (hclustered.unfolded.mem_iff.2 ⟨g, hg, hp⟩)
  have hbase := restore_foldBaseClusters geometryAxisAgreeValue h.base_planar
  have hpca : (c.pca.map fun p => (⟨emitAxis geometryAxisAgreeValue p.center, p.comps⟩ : Pca K)).map
      (fun p => ⟨restoreAxis geometryAxisAgreeValue p.center, p.comps⟩) = c.pca := by
    cases c.pca <;> simp
  simp only [restart, toDict, hcols, hmat, Bool.false_eq_true, if_false,
    MathBlob.fromDict, hvotes, hbase, hpca, Option.getD_some]

/-- Expanding every entry into at least one leaves a list as it is only if every entry expands into
itself. -/
private theorem flatMap_eq_self_iff {α : Type*} {f : α → List α} {l : List α}
    (hf : ∀ a ∈ l, f a ≠ []) : l.flatMap f = l ↔ ∀ a ∈ l, f a = [a] := by
  constructor
  · intro h
    induction l with
    | nil => simp
    | cons a l ih =>
      have hlen : ∀ l' : List α, (∀ a ∈ l', f a ≠ []) → l'.length ≤ (l'.flatMap f).length := by
        intro l' hl'
        induction l' with
        | nil => simp
        | cons b l' ihl =>
          have hb := length_pos_iff.2 (hl' b mem_cons_self)
          have hrest := ihl fun a ha => hl' a (mem_cons_of_mem _ ha)
          rw [flatMap_cons, length_append, length_cons]
          omega
      have hl : ∀ a ∈ l, f a ≠ [] := fun b hb => hf b (mem_cons_of_mem _ hb)
      obtain ⟨b, rest, hb⟩ := exists_cons_of_ne_nil (hf a mem_cons_self)
      rw [flatMap_cons, hb, cons_append] at h
      obtain ⟨rfl, htail⟩ := List.cons.inj h
      -- the tail is expanded too, so nothing is left for the rest of the head
      have hrest : rest = [] := by
        have htotal := congrArg List.length htail
        have hle := hlen l hl
        rw [length_append] at htotal
        exact length_eq_zero_iff.1 (by omega)
      rw [hrest, nil_append] at htail
      intro c hc
      rcases mem_cons.1 hc with rfl | hc
      · rw [hb, hrest]
      · exact ih hl htail c hc
  · intro h
    rw [flatMap_congr h]
    exact flatMap_singleton' l

/-- Unfolding leaves the groups as they are exactly when every base cluster is one participant whose
id it has. -/
theorem Clustered.unfolded_eq_iff (h : Clustered c) :
    c.unfoldedGroupClusters = c.groupClusters ↔ ∀ b ∈ c.baseClusters, b.members = [b.id] := by
  obtain ⟨k, hk⟩ := h.selected
  have hgroups := (h.groups _ hk).partition
  have hid : ∀ g ∈ c.groupClusters, ∀ i ∈ g.members, ∃ b ∈ c.baseClusters, b.id = i := by
    intro g hg i hi
    exact mem_map.1 (hgroups.mem_iff.2 ⟨g, hg, hi⟩)
  have hmembers : ∀ b ∈ c.baseClusters, baseMembers c.baseClusters b.id = b.members :=
    fun b hb => baseMembers_of_mem h.base.ids_nodup hb
  have hne : ∀ g ∈ c.groupClusters, ∀ i ∈ g.members, baseMembers c.baseClusters i ≠ [] := by
    intro g hg i hi
    obtain ⟨b, hb, rfl⟩ := hid g hg i hi
    rw [hmembers b hb]
    exact h.base.partition.nonempty b hb
  constructor
  · intro heq b hb
    obtain ⟨g, hg, hbg⟩ := hgroups.mem_iff.1 (mem_map_of_mem hb)
    have hself : g.members.flatMap (baseMembers c.baseClusters) = g.members := by
      have := map_eq_map_iff.1 (heq.trans (map_id _).symm) g hg
      exact congrArg Cluster.members this
    rw [← hmembers b hb]
    exact (flatMap_eq_self_iff (hne g hg)).1 hself b.id hbg
  · intro hsingle
    refine (map_congr_left fun g hg => ?_).trans (map_id _)
    have hself := (flatMap_eq_self_iff (hne g hg)).2 fun i hi => by
      obtain ⟨b, hb, rfl⟩ := hid g hg i hi
      rw [hmembers b hb, hsingle b hb]
    rw [hself]
    rfl

/-- A restart keeps every field exactly when each base cluster is one participant whose id it has,
and the stored group votes are the tally of the raw matrix. -/
theorem restored_iff {id ts now : ℤ} {ops : List Op} {c : Conversation K}
    (hrun : Run Conversation.Step (new id ts now) ops c)
    (hgroups : c.groupClusters ≠ []) :
    Restored c c.restart ↔
      (∀ b ∈ c.baseClusters, b.members = [b.id]) ∧ c.groupVotes = c.computeGroupVotes := by
  have h := run_serializable hrun
  have hspec := h.restart_spec hgroups
  have hclustered := h.clustered (h.grouped hgroups).1
  constructor
  · intro hrestored
    have hunfolded := hrestored.groupClusters
    have hvotes := hrestored.groupVotes
    rw [hspec] at hunfolded hvotes
    exact ⟨hclustered.unfolded_eq_iff.1 hunfolded, hvotes.symm⟩
  · rintro ⟨hsingle, hvotes⟩
    have hunfolded := hclustered.unfolded_eq_iff.2 hsingle
    rw [hspec]
    exact {
      pca := rfl
      tidArrivalOrder := rfl
      modOutTids := rfl
      modInTids := rfl
      metaTids := rfl
      modOutPtpts := rfl
      baseClusters := rfl
      groupClusters := hunfolded
      unfoldedGroupClusters := by
        rw [unfoldedGroupClusters]
        dsimp only
        rw [hunfolded]
        exact hunfolded
      groupVotes := hvotes.symm
      commentPriorities := rfl }

/-- One participant with id 0: its base cluster has id 0 too. -/
theorem restored_single_participant :
    let c : Conversation ℚ := (new 1 1 1).updateVotes
      ⟨[⟨some 0, some 5, some (.num 1), some 10⟩], none⟩ true
    c.groupClusters ≠ [] ∧ Restored c c.restart := by
  intro c
  have hrun : Run Conversation.Step (new 1 1 1)
      [Op.updateVotes ⟨[⟨some 0, some 5, some (.num 1), some 10⟩], none⟩ true] c :=
    .snoc .nil rfl
  have hgroups : c.groupClusters ≠ [] := fun h =>
    absurd (congrArg List.length h) (by decide +kernel)
  exact ⟨hgroups, (restored_iff hrun hgroups).2 ⟨by decide +kernel, by decide +kernel⟩⟩

/-- Participants 1 and 2 on one comment: base cluster 0 has both, the group restores with 1 and 2
for base-cluster ids, and unfolds to nobody. -/
theorem restart_forgets_groups :
    ∃ c : Conversation ℚ, (∃ ops, Run Conversation.Step (new 1 1 1) ops c) ∧
      c.groupClusters.map Cluster.members = [[0]] ∧
      c.unfoldedGroupClusters.map Cluster.members = [[1, 2]] ∧
      c.restart.groupClusters.map Cluster.members = [[1, 2]] ∧
      c.restart.unfoldedGroupClusters.map Cluster.members = [[]] ∧
      ¬ Restored c c.restart := by
  let payload : VotePayload := ⟨[⟨some 1, some 5, some (.num 1), some 10⟩,
    ⟨some 2, some 5, some (.num (-1)), some 11⟩], none⟩
  refine ⟨(new 1 1 1).updateVotes payload true,
    ⟨[.updateVotes payload true], .snoc .nil rfl⟩, by decide +kernel, by decide +kernel,
    by decide +kernel, by decide +kernel, fun h => ?_⟩
  exact absurd (congrArg (List.map Cluster.members) h.groupClusters) (by decide +kernel)

end Polis
