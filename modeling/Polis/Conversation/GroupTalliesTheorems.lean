import Polis.Conversation.GroupTallies
import Polis.Conversation.BlobTheorems

/-!
# The tallies agree

The engine's group votes, the two serialized ones and the `votes-base` vectors are all the tallies of
the raw matrix, and the groups and the base clusters divide up the same participants.

Reference: `polismath/conversation/conversation.py`.
-/

set_option linter.unusedSectionVars false

namespace Polis

open Clustering Conversation

variable {K : Type*} [Field K] [LinearOrder K] [Numerics K]
variable {α β : Type*} {chunk : ℕ} {l : List α} {labels : List ℤ}

/-! ## Reading by position -/

private theorem idxOf?_of_mem {label : ℤ} (h : label ∈ labels) :
    labels.idxOf? label = some (labels.idxOf label) := by
  induction labels with
  | nil => simp at h
  | cons a labels ih =>
    rw [List.idxOf?_cons, List.idxOf_cons]
    by_cases ha : a = label
    · simp [ha]
    · have hrest := ih ((List.mem_cons.1 h).resolve_left (Ne.symm ha))
      rw [hrest, beq_eq_false_iff_ne.2 ha]
      rfl

/-- Writing distinct new keys into a dictionary appends them. -/
theorem foldl_dictSet (key : α → ℤ) (value : α → β) {d : List (ℤ × β)}
    (h : (d.map Prod.fst ++ l.map key).Nodup) :
    l.foldl (fun d a => dictSet d (key a) (value a)) d = d ++ l.map fun a => (key a, value a) := by
  induction l generalizing d with
  | nil => simp
  | cons a l ih =>
    have hnew : key a ∉ d.map Prod.fst := by
      intro hmem
      exact (List.nodup_append.1 h).2.2 _ hmem _ (by simp) rfl
    rw [List.foldl_cons, dictSet, if_neg hnew, ih (by simpa using h)]
    simp

private theorem lookup_zipIdx {label : ℤ} (h : label ∈ labels) (n : ℕ) :
    (labels.zipIdx n).lookup label = some (n + labels.idxOf label) := by
  induction labels generalizing n with
  | nil => simp at h
  | cons a labels ih =>
    rw [List.zipIdx_cons, List.lookup_cons, List.idxOf_cons]
    by_cases ha : label = a
    · simp [ha]
    · have hrest := ih ((List.mem_cons.1 h).resolve_left ha) (n + 1)
      rw [beq_eq_false_iff_ne.2 ha, hrest]
      simp only [beq_eq_false_iff_ne.2 (Ne.symm ha), cond_false, Option.some.injEq]
      omega

/-- Distinct labels are enumerated at their places. -/
theorem enumerated_of_mem (hnodup : labels.Nodup) {label : ℤ}
    (h : label ∈ labels) : enumerated labels label = some (labels.idxOf label) := by
  have hfold := foldl_dictSet (d := []) (fun e : ℤ × ℕ => e.1) (fun e => e.2) (l := labels.zipIdx)
    (by simpa [List.zipIdx_map_fst] using hnodup)
  rw [enumerated, hfold]
  simpa using lookup_zipIdx h 0

private theorem filterMap_eq_map {f : α → Option β} {g : α → β}
    (h : ∀ a ∈ l, f a = some (g a)) : l.filterMap f = l.map g := by
  rw [← List.filterMap_eq_map]
  exact List.filterMap_congr h

/-- The value at the places of two labels is the cell. -/
theorem NamedMat.at_idxOf (m : NamedMat Vote) {pid tid : ℤ} (hp : pid ∈ m.index) {j : ℕ}
    (hj : m.columns[j]? = some tid) : m.at (m.index.idxOf pid) j = m.cell pid tid := by
  have hlt := List.idxOf_lt_length_of_mem hp
  have hrow : m.rows.getD (m.index.idxOf pid) [] = m.row pid := by
    rw [NamedMat.rows, List.getD_eq_getElem?_getD, List.getElem?_map,
      List.getElem?_eq_getElem hlt, List.getElem_idxOf]
    rfl
  rw [NamedMat.at, hrow, NamedMat.row, List.getD_eq_getElem?_getD, List.getElem?_map, hj]
  rfl

/-- Counting a column over the rows of participants tallies their votes. -/
theorem columnTally_at (m : NamedMat Vote) {members : List ℤ} (h : ∀ p ∈ members, p ∈ m.index)
    {j : ℕ} {tid : ℤ} (hj : m.columns[j]? = some tid) :
    columnTally ((members.map fun p => m.index.idxOf p).map fun row => m.at row j) =
      tallyVotes m members tid := by
  have hall : members.filter (· ∈ m.index) = members :=
    List.filter_eq_self.2 fun p hp => by simpa using h p hp
  have hcolumn : ((members.map fun p => m.index.idxOf p).map fun row => m.at row j) =
      members.map (m.cell · tid) := by
    rw [List.map_map]
    exact List.map_congr_left fun p hp => m.at_idxOf (h p hp) hj
  rw [hcolumn, tallyVotes, hall]
  rfl

/-! ## The chunk loop -/

/-- One chunk writes the count of each of its columns. -/
theorem countChunk_eq (m : NamedMat Vote) (rows : List ℕ) (counts : List Tally)
    (part : List (ℕ × ℕ)) : countChunk m rows counts part =
      part.foldl (fun counts e => counts.set e.1 (columnTally (rows.map fun row => m.at row e.2)))
        counts := by
  unfold countChunk
  dsimp only
  conv_rhs => rw [← List.zipIdx_map_fst 0 part, List.foldl_map]
  refine List.foldl_ext _ _ _ fun counts e he => ?_
  have hcol : part[e.2]? = some e.1 := by simpa using List.mem_zipIdx_iff_getElem?.1 he
  congr 2
  rw [List.map_map]
  refine List.map_congr_left fun row _ => ?_
  rw [Function.comp_apply, List.getD_eq_getElem?_getD, List.getElem?_map, hcol]
  rfl

/-- Chunks of any positive size put together are the list. -/
theorem flatMap_chunks {α : Type*} (l : List α) (h : 0 < chunk) :
    ((List.range ((l.length + chunk - 1) / chunk)).flatMap fun i =>
      (l.drop (i * chunk)).take chunk) = l := by
  have htake : ∀ n, ((List.range n).flatMap fun i => (l.drop (i * chunk)).take chunk) =
      l.take (n * chunk) := by
    intro n
    induction n with
    | zero => simp
    | succ n ih =>
      rw [List.range_succ, List.flatMap_append, ih, Nat.succ_mul, List.take_add]
      simp
  have hcover : l.length ≤ (l.length + chunk - 1) / chunk * chunk := by
    have := Nat.div_add_mod (l.length + chunk - 1) chunk
    have := Nat.mod_lt (l.length + chunk - 1) h
    rw [Nat.mul_comm]
    omega
  rw [htake, List.take_of_length_le hcover]

/-- The chunk size does not matter. -/
theorem countChunks_eq (m : NamedMat Vote) (rows : List ℕ) (positions : List (ℕ × ℕ))
    (h : 0 < chunk) (counts : List Tally) : countChunks m rows positions chunk counts =
      positions.foldl (fun counts e =>
        counts.set e.1 (columnTally (rows.map fun row => m.at row e.2))) counts := by
  unfold countChunks
  simp only [countChunk_eq]
  conv_rhs => rw [← flatMap_chunks positions h]
  exact List.foldl_flatMap.symm

/-- Setting every place of a list in turn. -/
private theorem foldl_set_zipIdx (f : α → β) (z : β) (l : List α) (done : List β) :
    (l.zipIdx done.length).foldl (fun counts e => counts.set e.2 (f e.1))
      (done ++ List.replicate l.length z) = done ++ l.map f := by
  induction l generalizing done with
  | nil => simp
  | cons a l ih =>
    have hset : (done ++ List.replicate (a :: l).length z).set done.length (f a) =
        (done ++ [f a]) ++ List.replicate l.length z := by
      rw [List.length_cons, List.replicate_succ, List.set_append_right _ _ le_rfl]
      simp
    have hlen : done.length + 1 = (done ++ [f a]).length := by simp
    rw [List.zipIdx_cons, List.foldl_cons, hset, hlen, ih]
    simp

/-- The counts of one group, when the matrix has its labels. -/
theorem countChunks_comments (m : NamedMat Vote) {members comments : List ℤ}
    (hmembers : ∀ p ∈ members, p ∈ m.index) (hcomments : ∀ t ∈ comments, t ∈ m.columns)
    (h : 0 < chunk) :
    countChunks m (members.map fun p => m.index.idxOf p)
        (comments.zipIdx.map fun e => (e.2, m.columns.idxOf e.1)) chunk
        (List.replicate comments.length ⟨0, 0, 0⟩) =
      comments.map (tallyVotes m members) := by
  rw [countChunks_eq _ _ _ h, List.foldl_map]
  have hset := foldl_set_zipIdx (tallyVotes m members) ⟨0, 0, 0⟩ comments []
  rw [List.length_nil, List.nil_append, List.nil_append] at hset
  rw [← hset]
  refine List.foldl_ext _ _ _ fun counts e he => ?_
  have hmem : e.1 ∈ m.columns := hcomments _ (List.fst_mem_of_mem_zipIdx he)
  have hcol : m.columns[m.columns.idxOf e.1]? = some e.1 := by
    rw [List.getElem?_eq_getElem (List.idxOf_lt_length_of_mem hmem), List.getElem_idxOf]
  rw [columnTally_at m hmembers hcol]

private theorem foldlM_some {f : β → α → Option β} {g : β → α → β}
    (h : ∀ b, ∀ a ∈ l, f b a = some (g b a)) (b : β) : l.foldlM f b = some (l.foldl g b) := by
  induction l generalizing b with
  | nil => rfl
  | cons a l ih =>
    rw [List.foldlM_cons, h b a List.mem_cons_self, List.foldl_cons]
    exact ih (fun b a ha => h b a (List.mem_cons_of_mem _ ha)) (g b a)

private theorem mapM_some {f : α → Option β} {g : α → β}
    (h : ∀ a ∈ l, f a = some (g a)) : l.mapM f = some (l.map g) := by
  induction l with
  | nil => rfl
  | cons a l ih =>
    rw [List.mapM_cons, h a List.mem_cons_self, ih fun a ha => h a (List.mem_cons_of_mem _ ha)]
    rfl

/-- The counts of a group are the tallies of its members, in whatever chunks they are made. -/
theorem commentCounts_eq {m : NamedMat Vote} {comments members : List ℤ}
    (hcomments : ∀ t ∈ comments, t ∈ m.columns) (hmembers : ∀ p ∈ members, p ∈ m.index)
    (h : 0 < chunk) :
    ((memberRows m comments members).bind fun rows =>
      commentCounts m comments members rows chunk) = some (comments.map (tallyVotes m members)) := by
  have hrows : (members.mapM fun p => m.index.idxOf? p) =
      some (members.map fun p => m.index.idxOf p) :=
    mapM_some fun p hp => idxOf?_of_mem (hmembers p hp)
  have hpositions : (comments.zipIdx.mapM fun e =>
      (m.columns.idxOf? e.1).map fun column => (e.2, column)) =
      some (comments.zipIdx.map fun e => (e.2, m.columns.idxOf e.1)) :=
    mapM_some fun e he => by
      rw [idxOf?_of_mem (hcomments _ (List.fst_mem_of_mem_zipIdx he))]
      rfl
  by_cases hempty : comments = []
  · subst hempty
    simp [memberRows, commentCounts]
  · have hne : comments.isEmpty = false := by simpa using hempty
    rw [memberRows, hne, if_neg Bool.false_ne_true, hrows, Option.bind_some, commentCounts, hne,
      hpositions, Option.map_some, Bool.or_false]
    by_cases hnobody : members = []
    · -- nobody's votes are counted nowhere
      subst hnobody
      have hzero : comments.map (tallyVotes m []) = List.replicate comments.length ⟨0, 0, 0⟩ :=
        List.eq_replicate_iff.2 ⟨List.length_map _, fun t ht => by
          obtain ⟨tid, -, rfl⟩ := List.mem_map.1 ht
          rfl⟩
      rw [hzero]
      rfl
    · rw [if_neg (by simpa using hnobody), countChunks_comments m hmembers hcomments h]

/-- Over labels that the matrix has, the chunked count is the plain one. -/
theorem groupVoteCountsChunked_eq {m : NamedMat Vote} {comments : List ℤ}
    {groups : List (Cluster ℤ K)} (hcomments : ∀ t ∈ comments, t ∈ m.columns)
    (hmembers : ∀ g ∈ groups, ∀ p ∈ g.members, p ∈ m.index) (h : 0 < chunk) :
    groupVoteCountsChunked m comments groups chunk = some (groupVoteCounts m comments groups) := by
  refine foldlM_some (fun result group hg => ?_) []
  dsimp only
  generalize hfirst : ((groups.find? fun g => g.id = group.id).map Cluster.members).getD [] = members
  have hin : ∀ p ∈ members, p ∈ m.index := by
    intro p hp
    cases hfind : groups.find? fun g => g.id = group.id with
    | none =>
      rw [hfind] at hfirst
      rw [← hfirst] at hp
      exact absurd hp List.not_mem_nil
    | some g =>
      rw [hfind] at hfirst
      obtain rfl : g.members = members := by simpa using hfirst
      exact hmembers g (List.mem_of_find?_eq_some hfind) p hp
  have hvotes : (comments.map fun tid =>
      (tid, if tid ∈ m.columns then tallyVotes m members tid else ⟨0, 0, 0⟩)) =
      comments.zip (comments.map (tallyVotes m members)) := by
    have hzip : (comments.map id).zip (comments.map (tallyVotes m members)) = _ := List.zip_map'
    rw [List.map_id] at hzip
    rw [hzip]
    exact List.map_congr_left fun tid htid => by simp [hcomments tid htid]
  obtain ⟨rows, hrows, hcounts⟩ := Option.bind_eq_some_iff.1 (commentCounts_eq hcomments hin h)
  rw [hvotes, hrows, Option.bind_some, hcounts, Option.map_some]

/-! ## Sums over a partition -/

theorem tallyVotes_perm (m : NamedMat Vote) {l l' : List ℤ} (h : l.Perm l') (tid : ℤ) :
    tallyVotes m l tid = tallyVotes m l' tid := by
  have hvotes := (h.filter (· ∈ m.index)).map (m.cell · tid)
  simp only [tallyVotes, hvotes.count_eq, (hvotes.filter Option.isSome).length_eq]

/-- The tally of several blocks is the sum of their tallies. -/
theorem tallyVotes_flatMap {ι : Type*} (m : NamedMat Vote) (block : ι → List ℤ) (is : List ι)
    (tid : ℤ) :
    tallyVotes m (is.flatMap block) tid =
      ⟨(is.map fun i => (tallyVotes m (block i) tid).A).sum,
        (is.map fun i => (tallyVotes m (block i) tid).D).sum,
        (is.map fun i => (tallyVotes m (block i) tid).S).sum⟩ := by
  simp only [tallyVotes, List.filter_flatMap, List.map_flatMap, List.count_flatMap,
    List.length_flatMap, Function.comp_def]

/-- Nobody both agrees and disagrees. -/
theorem tallyVotes_le (m : NamedMat Vote) (members : List ℤ) (tid : ℤ) :
    (tallyVotes m members tid).A + (tallyVotes m members tid).D ≤
      (tallyVotes m members tid).S := by
  simp only [tallyVotes]
  generalize (members.filter (· ∈ m.index)).map (m.cell · tid) = votes
  induction votes with
  | nil => simp
  | cons v votes ih =>
    cases v with
    | none => simpa using ih
    | some v =>
      cases v with
      | agree | disagree | pass => simp; omega

/-! ## The group votes of a reachable conversation -/

/-- What the tallies rely on: the groups have distinct ids and members with a row, and they divide
up the same participants as the base clusters. -/
structure Tallied (c : Conversation K) : Prop where
  labels : SameLabels c
  columns_nodup : c.rawRatingMat.columns.Nodup
  index_nodup : c.rawRatingMat.index.Nodup
  ids_nodup : (c.unfoldedGroupClusters.map Cluster.id).Nodup
  nonempty : ∀ g ∈ c.unfoldedGroupClusters, g.members ≠ []
  members : ∀ g ∈ c.unfoldedGroupClusters, ∀ p ∈ g.members, p ∈ c.rawRatingMat.index
  buckets : ∀ b ∈ c.baseClusters, ∀ p ∈ b.members, p ∈ c.rawRatingMat.index
  perm : (c.unfoldedGroupClusters.flatMap Cluster.members).Perm
    (c.baseClusters.flatMap Cluster.members)

/-- A conversation with groups is tallied. -/
theorem Serializable.tallied {c : Conversation K} (h : Serializable c) (hgroups : c.groupClusters ≠ []) :
    Tallied c := by
  obtain ⟨hin, -⟩ := h.grouped hgroups
  have hclustered := h.clustered hin
  have hindex : ∀ p ∈ c.inConvPidsList, p ∈ c.rawRatingMat.index := by
    intro p hp
    obtain ⟨e, he, rfl⟩ := List.mem_map.1 hp
    exact h.proj_index e (List.mem_of_mem_filter he)
  obtain ⟨k, hk⟩ := hclustered.selected
  exact {
    labels := h.labels
    columns_nodup := h.shape.columns_eq ▸ h.shape.columns_nodup
    index_nodup := h.shape.index_nodup
    ids_nodup := by
      simpa [unfoldedGroupClusters, Function.comp_def] using
        (hclustered.groups _ hk).ids_nodup
    nonempty := hclustered.unfolded.nonempty
    members := fun g hg p hp => hindex p (hclustered.unfolded.mem_iff.2 ⟨g, hg, hp⟩)
    buckets := fun b hb p hp => hindex p (hclustered.base.partition.mem_iff.2 ⟨b, hb, hp⟩)
    perm := hclustered.unfolded.perm.trans hclustered.base.partition.perm.symm }

namespace Tallied

variable {c : Conversation K}

/-- The engine's group votes: one entry a group, with a tally for every comment. -/
theorem computeGroupVotes_eq (h : Tallied c) (hgroups : c.groupClusters ≠ []) :
    c.computeGroupVotes = c.unfoldedGroupClusters.map fun g =>
      (g.id, ⟨g.members.length, c.rawRatingMat.columns.map fun tid =>
        (tid, tallyVotes c.rawRatingMat g.members tid)⟩) := by
  have hfold := foldl_dictSet (d := []) Cluster.id (fun g : Cluster ℤ K =>
    (⟨g.members.length, c.rawRatingMat.columns.map fun tid =>
      (tid, tallyVotes c.rawRatingMat g.members tid)⟩ : GroupVotes))
    (by simpa using h.ids_nodup)
  rw [List.nil_append] at hfold
  rw [computeGroupVotes, if_neg (by simpa using hgroups), groupVoteCounts, ← hfold]
  refine List.foldl_ext _ _ _ fun result g hg => ?_
  dsimp only
  rw [find?_id_of_mem h.ids_nodup hg, h.labels.columns]
  congr 2
  exact List.map_congr_left fun tid htid => by simp [htid]

/-- The group votes of `to_dynamo_dict` are the engine's under other keys. -/
theorem dynamoGroupVotes_eq (h : Tallied c) (hgroups : c.groupClusters ≠ []) :
    c.dynamoGroupVotes = c.computeGroupVotes.map fun e => (e.1, e.2.toDynamo) := by
  have hfold := foldl_dictSet (d := []) Cluster.id (fun g : Cluster ℤ K =>
    (⟨g.members.length, c.rawRatingMat.columns.map fun tid =>
      (tid, (tallyVotes c.rawRatingMat g.members tid).toDynamo)⟩ : DynamoGroupVotes))
    (by simpa using h.ids_nodup)
  rw [h.computeGroupVotes_eq hgroups, List.map_map, dynamoGroupVotes]
  dsimp only
  rw [if_neg (by simpa using hgroups)]
  refine (List.foldl_ext _ _ _ fun result g hg => ?_).trans (hfold.trans ?_)
  · have hrows : g.members.filterMap (enumerated c.rawRatingMat.index) =
        g.members.map fun p => c.rawRatingMat.index.idxOf p :=
      filterMap_eq_map fun p hp => enumerated_of_mem h.index_nodup (h.members g hg p hp)
    rw [hrows, if_neg (by simpa using h.nonempty g hg), List.length_map]
    congr 2
    conv_rhs => rw [← List.zipIdx_map_fst 0 c.rawRatingMat.columns, List.map_map]
    refine List.map_congr_left fun e he => ?_
    have hcol : c.rawRatingMat.columns[e.2]? = some e.1 := by
      simpa using List.mem_zipIdx_iff_getElem?.1 he
    rw [columnTally_at _ (h.members g hg) hcol]
    rfl
  · simp [GroupVotes.toDynamo, Function.comp_def]

/-- The `votes-base` vectors: for every comment the tallies of the base clusters, by id. -/
theorem computeVotesBaseBuckets_eq (h : Tallied c) :
    c.computeVotesBaseBuckets = c.rawRatingMat.columns.map fun tid =>
      let tallies := (sortById c.baseClusters).map fun b =>
        tallyVotes c.rawRatingMat b.members tid
      (tid, ⟨tallies.map Tally.A, tallies.map Tally.D, tallies.map Tally.S⟩) := by
  unfold computeVotesBaseBuckets
  dsimp only
  conv_rhs => rw [← List.zipIdx_map_fst 0 c.rawRatingMat.columns, List.map_map]
  refine List.map_congr_left fun e he => ?_
  have hcol : c.rawRatingMat.columns[e.2]? = some e.1 := by
    simpa using List.mem_zipIdx_iff_getElem?.1 he
  have hbuckets : ((sortById c.baseClusters).map fun b =>
      b.members.filterMap (enumerated c.rawRatingMat.index)).map (fun rows =>
        columnTally (rows.map fun row => c.rawRatingMat.at row e.2)) =
      (sortById c.baseClusters).map fun b => tallyVotes c.rawRatingMat b.members e.1 := by
    rw [List.map_map]
    refine List.map_congr_left fun b hb => ?_
    have hmembers := h.buckets b ((sortById_perm _).mem_iff.1 hb)
    rw [Function.comp_apply, filterMap_eq_map fun p hp =>
      enumerated_of_mem h.index_nodup (hmembers p hp)]
    exact columnTally_at _ hmembers hcol
  rw [hbuckets]
  rfl

/-- Summed over the groups, the tallies of a comment are those of everyone who is clustered. -/
theorem totalTally_eq (h : Tallied c) (hgroups : c.groupClusters ≠ []) {tid : ℤ}
    (htid : tid ∈ c.rawRatingMat.columns) :
    totalTally c.computeGroupVotes tid =
      tallyVotes c.rawRatingMat (c.baseClusters.flatMap Cluster.members) tid := by
  have hlookup : ∀ g : Cluster ℤ K, (c.rawRatingMat.columns.map fun tid =>
      (tid, tallyVotes c.rawRatingMat g.members tid)).lookup tid =
        some (tallyVotes c.rawRatingMat g.members tid) :=
    fun g => lookup_map_self _ htid
  rw [← tallyVotes_perm _ h.perm, tallyVotes_flatMap, totalTally, h.computeGroupVotes_eq hgroups]
  simp [hlookup, Function.comp_def]

end Tallied

/-- Every tally of a reachable conversation with groups is the same: the chunked count, for any
chunk size, the two serialized ones, and, summed over the groups, the `votes-base` vectors. -/
theorem group_tallies_agree {id ts now : ℤ} {ops : List Op} {c : Conversation K}
    (hrun : Run Conversation.Step (new id ts now) ops c)
    (hgroups : c.groupClusters ≠ []) :
    (∀ chunk, 1 ≤ chunk → c.computeGroupVotesChunked chunk = some c.computeGroupVotes) ∧
    c.toDict.groupVotes = c.computeGroupVotes ∧
    c.dynamoGroupVotes = c.computeGroupVotes.map (fun e => (e.1, e.2.toDynamo)) ∧
    c.computeGroupVotes.map (fun e => (e.1, e.2.nMembers)) =
      c.unfoldedGroupClusters.map (fun g => (g.id, g.members.length)) ∧
    c.computeVotesBaseBuckets.map Prod.fst = c.rawRatingMat.columns ∧
    (∀ e ∈ c.computeGroupVotes, e.2.votes.map Prod.fst = c.rawRatingMat.columns) ∧
    (∀ e ∈ c.computeVotesBaseBuckets,
      totalTally c.computeGroupVotes e.1 = ⟨e.2.A.sum, e.2.D.sum, e.2.S.sum⟩) ∧
    (∀ e ∈ c.computeGroupVotes, ∀ v ∈ e.2.votes, v.2.A + v.2.D ≤ v.2.S) ∧
    ∀ e ∈ c.computeVotesBaseBuckets, ∀ i : ℕ,
      e.2.A.getD i 0 + e.2.D.getD i 0 ≤ e.2.S.getD i 0 := by
  have hserial := run_serializable hrun
  have h := hserial.tallied hgroups
  have hvotes := h.computeGroupVotes_eq hgroups
  have hbuckets := h.computeVotesBaseBuckets_eq
  refine ⟨fun chunk hchunk => ?_, ?_, h.dynamoGroupVotes_eq hgroups, ?_, ?_, fun e he => ?_,
    fun e he => ?_, fun e he v hv => ?_, fun e he i => ?_⟩
  · rw [computeGroupVotesChunked, computeGroupVotes,
      if_neg (by simpa using hgroups), if_neg (by simpa using hgroups)]
    exact groupVoteCountsChunked_eq (fun t ht => h.labels.columns ▸ ht) h.members hchunk
  · rw [← emittedGroupVotes_eq h.labels
      (by simpa [unfoldedGroupClusters, Function.comp_def] using h.ids_nodup)
      h.nonempty h.members]
    obtain ⟨hin, hcolumns⟩ := hserial.grouped hgroups
    obtain ⟨pid, hpid⟩ := List.exists_mem_of_ne_nil _ hin
    obtain ⟨e, he, rfl⟩ := List.mem_map.1 hpid
    have hrow := hserial.proj_index e (List.mem_of_mem_filter he)
    have hmat : c.rawRatingMat.isEmpty = false := by
      simp [NamedMat.isEmpty, hcolumns, List.ne_nil_of_mem hrow]
    simp [toDict, hmat]
  · rw [hvotes]
    simp [Function.comp_def]
  · rw [hbuckets]
    simp [Function.comp_def]
  · rw [hvotes] at he
    obtain ⟨g, -, rfl⟩ := List.mem_map.1 he
    simp [Function.comp_def]
  · rw [hbuckets] at he
    obtain ⟨tid, htid, rfl⟩ := List.mem_map.1 he
    have hsorted := (sortById_perm c.baseClusters).flatMap_right Cluster.members
    rw [h.totalTally_eq hgroups htid, ← tallyVotes_perm _ hsorted, tallyVotes_flatMap]
    simp [Function.comp_def]
  · rw [hvotes] at he
    obtain ⟨g, -, rfl⟩ := List.mem_map.1 he
    obtain ⟨tid, -, rfl⟩ := List.mem_map.1 hv
    exact tallyVotes_le _ _ _
  · rw [hbuckets] at he
    obtain ⟨tid, -, rfl⟩ := List.mem_map.1 he
    simp only [List.getD_eq_getElem?_getD, List.getElem?_map]
    cases (sortById c.baseClusters)[i]? with
    | none => simp
    | some b => simpa using tallyVotes_le c.rawRatingMat b.members tid

/-- Two participants in one group, an agree and a disagree on one comment. -/
theorem group_tallies_agree_two_participants :
    let c : Conversation ℚ := (new 1 1 1).updateVotes
      ⟨[⟨some 1, some 5, some (.num 1), some 10⟩, ⟨some 2, some 5, some (.num (-1)), some 11⟩],
        none⟩ true
    c.groupClusters ≠ [] ∧ c.computeGroupVotesChunked 1 = some c.computeGroupVotes ∧
      c.toDict.groupVotes = c.computeGroupVotes := by
  intro c
  have hrun : Run Conversation.Step (new 1 1 1)
      [Op.updateVotes ⟨[⟨some 1, some 5, some (.num 1), some 10⟩,
        ⟨some 2, some 5, some (.num (-1)), some 11⟩], none⟩ true] c :=
    .snoc .nil rfl
  have hgroups : c.groupClusters ≠ [] := fun h =>
    absurd (congrArg List.length h) (by decide +kernel)
  obtain ⟨hchunked, hdict, -⟩ := group_tallies_agree hrun hgroups
  exact ⟨hgroups, hchunked 1 le_rfl, hdict⟩

end Polis
