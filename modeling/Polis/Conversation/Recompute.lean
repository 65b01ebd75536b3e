import Polis.Conversation.Votes
import Polis.Conversation.Clusters

/-!
# Recomputation

`recompute` and the operations that end in it. The representativeness and participant-info steps are
left out: they write only fields that nothing else of the engine reads.

Reference: `polismath/conversation/conversation.py`, `polismath/conversation/group_vote_counts.py`.
-/

set_option linter.unusedSectionVars false

namespace Polis

open Clustering Conversation

variable {K : Type*} [Field K] [LinearOrder K] [Numerics K]

/-! ## PCA -/

/-- `_compute_pca` with two components. -/
def Conversation.computePca (c : Conversation K) (prevPca : Option (Pca K)) : Conversation K :=
  let index := c.ratingMat.index
  let nCols := c.ratingMat.columns.length
  if c.ratingMat.isEmpty then
    let cols := max nCols 1
    { c with
      pca := some ⟨List.replicate cols 0, List.replicate 2 (List.replicate cols 0)⟩
      proj := index.map fun pid => (pid, [0, 0]) }
  else
    let startVectors := (prevPca.map Pca.comps).getD []
    let data := c.ratingMat.rows.map fun row => row.map fun v => v.map Vote.toNum
    let (pca, projections) := pcaProjectDataframe nCols data 2 startVectors
    { c with pca := some pca, proj := index.zip projections }

/-! ## Group votes -/

/-- `{k: v for k, v in pairs}` into a dictionary: a repeated key keeps its place and takes the new
value. -/
def dictSet {κ β : Type*} [DecidableEq κ] (d : List (κ × β)) (key : κ) (value : β) :
    List (κ × β) :=
  if key ∈ d.map Prod.fst then d.map fun e => if e.1 = key then (key, value) else e
  else d ++ [(key, value)]

/-- The votes of the members on one comment, tallied. -/
def tallyVotes (mat : NamedMat Vote) (members : List ℤ) (tid : ℤ) : Tally :=
  let votes := (members.filter (· ∈ mat.index)).map (mat.cell · tid)
  ⟨votes.count (some .agree), votes.count (some .disagree), (votes.filter Option.isSome).length⟩

/-- `group_vote_counts`: the first group of an id gives the members that are tallied. Members
outside the matrix, which the source does not expect, are not counted. -/
def groupVoteCounts (matrix : NamedMat Vote) (comments : List ℤ) (groups : List (Cluster ℤ K)) :
    List (ℤ × GroupVotes) :=
  groups.foldl (fun result group =>
    let members := ((groups.find? fun g => g.id = group.id).map Cluster.members).getD []
    dictSet result group.id
      ⟨group.members.length, comments.map fun tid =>
        (tid, if tid ∈ matrix.columns then tallyVotes matrix members tid else ⟨0, 0, 0⟩)⟩) []

/-- `_compute_group_votes` -/
def Conversation.computeGroupVotes (c : Conversation K) : List (ℤ × GroupVotes) :=
  if c.groupClusters.isEmpty then []
  else groupVoteCounts c.rawRatingMat c.ratingMat.columns c.unfoldedGroupClusters

/-! ## Comment priorities -/

/-- `importance_metric` -/
def importanceMetric (A P S E : K) : K :=
  let p := (P + 1) / (S + 2)
  let a := (A + 1) / (S + 2)
  (1 - p) * (E + 1) * a

/-- `META_PRIORITY` -/
def metaPriority : K := 7

/-- `priority_metric` -/
def priorityMetric (isMeta : Bool) (A P S E : K) : K :=
  let inner := if isMeta then metaPriority
    else importanceMetric A P S E * (1 + 8 * Numerics.exp2 (-S / 5))
  inner ^ 2

/-- The tallies of one comment, summed over the groups. -/
def totalTally (groupVotes : List (ℤ × GroupVotes)) (tid : ℤ) : Tally :=
  let tallies := groupVotes.map fun e => (e.2.votes.lookup tid).getD ⟨0, 0, 0⟩
  ⟨(tallies.map Tally.A).sum, (tallies.map Tally.D).sum, (tallies.map Tally.S).sum⟩

/-- `_compute_comment_priorities`: the extremities of the current PCA with the group votes of the
previous tick. -/
def Conversation.computeCommentPriorities (c : Conversation K)
    (prevGroupVotes : List (ℤ × GroupVotes)) : Conversation K :=
  match c.pca with
  | none => { c with commentPriorities := [] }
  | some pca =>
    let columns := c.ratingMat.columns
    let extremity := computeCommentExtremity (pcaProjectCmnts pca.center pca.comps)
    if c.ratingMat.isEmpty || pca.center.isEmpty || pca.comps.all List.isEmpty ||
        extremity.length ≠ columns.length then
      { c with commentPriorities := [] }
    else
      let tidExtremity := columns.zip extremity
      { c with
        groupVotes := c.computeGroupVotes
        commentPriorities := columns.map fun tid =>
          let t := totalTally prevGroupVotes tid
          let P := (t.S : K) - ((t.A : K) + (t.D : K))
          (tid, priorityMetric (tid ∈ c.metaTids) (t.A : K) P (t.S : K)
            ((tidExtremity.lookup tid).getD 0)) }

/-! ## The operations -/

/-- `recompute` -/
def Conversation.recompute (c : Conversation K) : Conversation K :=
  if c.ratingMat.isEmpty then c
  else
    ((({ c with lastModTimestamp := none }.computePca c.pca).computeClusters
      c.baseClusters c.groupClusterings c.groupKSmoother).computeCommentPriorities c.groupVotes)

/-- `update_votes`; an empty vote list skips the recompute too. -/
def Conversation.updateVotes (c : Conversation K) (payload : VotePayload) (recompute : Bool) :
    Conversation K :=
  if payload.votes.isEmpty then c
  else if recompute then (c.ingestVotes payload).recompute
  else c.ingestVotes payload

/-- `update_moderation` -/
def Conversation.updateModeration (c : Conversation K) (m : Moderation) (recompute : Bool) :
    Conversation K :=
  if recompute then (c.setModeration m).recompute else c.setModeration m

/-- The calls a caller can make on a conversation. -/
inductive Op
  | updateVotes (payload : VotePayload) (recompute : Bool)
  | modUpdate (mods : List ModRow)
  | updateModeration (moderation : Moderation) (recompute : Bool)
  | recompute

/-- The conversation a call returns. -/
def Conversation.apply (c : Conversation K) : Op → Conversation K
  | .updateVotes payload recompute => c.updateVotes payload recompute
  | .modUpdate mods => c.modUpdate mods
  | .updateModeration moderation recompute => c.updateModeration moderation recompute
  | .recompute => c.recompute
/-! ## Frames -/

/-- The same raw matrix with its labels and counts. -/
structure SameRaw (c c' : Conversation K) : Prop where
  rawRatingMat : c'.rawRatingMat = c.rawRatingMat
  tidArrivalOrder : c'.tidArrivalOrder = c.tidArrivalOrder
  participantCount : c'.participantCount = c.participantCount
  commentCount : c'.commentCount = c.commentCount

/-- The fields a recompute reads but does not write. -/
structure SameInputs (c c' : Conversation K) : Prop extends SameRaw c c' where
  conversationId : c'.conversationId = c.conversationId
  lastUpdated : c'.lastUpdated = c.lastUpdated
  ratingMat : c'.ratingMat = c.ratingMat
  modOutTids : c'.modOutTids = c.modOutTids
  modInTids : c'.modInTids = c.modInTids
  metaTids : c'.metaTids = c.metaTids
  modOutPtpts : c'.modOutPtpts = c.modOutPtpts
  moderationApplied : c'.moderationApplied = c.moderationApplied
  voteStats : c'.voteStats = c.voteStats

/-- Any values of the derived fields leave the inputs the same. -/
theorem SameInputs.derived {c : Conversation K} {lastModTimestamp : Option ℤ}
    {pca : Option (Pca K)} {baseClusters groupClusters : List (Cluster ℤ K)}
    {groupClusterings : List (ℕ × List (Cluster ℤ K))} {groupKSmoother : GroupKSmoother}
    {inConv : Finset ℤ} {proj : List (ℤ × List K)} {groupVotes : List (ℤ × GroupVotes)}
    {commentPriorities : List (ℤ × K)} :
    SameInputs c { c with
      lastModTimestamp, pca, baseClusters, groupClusters, groupClusterings, groupKSmoother
      inConv, proj, groupVotes, commentPriorities } :=
  ⟨⟨rfl, rfl, rfl, rfl⟩, rfl, rfl, rfl, rfl, rfl, rfl, rfl, rfl, rfl⟩

theorem SameInputs.trans {c₁ c₂ c₃ : Conversation K} (h : SameInputs c₁ c₂)
    (h' : SameInputs c₂ c₃) : SameInputs c₁ c₃ where
  rawRatingMat := h'.rawRatingMat.trans h.rawRatingMat
  tidArrivalOrder := h'.tidArrivalOrder.trans h.tidArrivalOrder
  participantCount := h'.participantCount.trans h.participantCount
  commentCount := h'.commentCount.trans h.commentCount
  conversationId := h'.conversationId.trans h.conversationId
  lastUpdated := h'.lastUpdated.trans h.lastUpdated
  ratingMat := h'.ratingMat.trans h.ratingMat
  modOutTids := h'.modOutTids.trans h.modOutTids
  modInTids := h'.modInTids.trans h.modInTids
  metaTids := h'.metaTids.trans h.metaTids
  modOutPtpts := h'.modOutPtpts.trans h.modOutPtpts
  moderationApplied := h'.moderationApplied.trans h.moderationApplied
  voteStats := h'.voteStats.trans h.voteStats

section

variable (c : Conversation K)
include c

theorem computePca_sameInputs (prevPca : Option (Pca K)) :
    SameInputs c (c.computePca prevPca) := by
  unfold computePca
  dsimp only
  split <;> exact .derived

theorem clusterInConvRows_sameInputs (prevBase : List (Cluster ℤ K))
    (prevGroup : List (ℕ × List (Cluster ℤ K))) (prevSmoother : GroupKSmoother) :
    SameInputs c (c.clusterInConvRows prevBase prevGroup prevSmoother) := by
  unfold clusterInConvRows
  dsimp only
  split <;> exact .derived

theorem computeClusters_sameInputs (prevBase : List (Cluster ℤ K))
    (prevGroup : List (ℕ × List (Cluster ℤ K))) (prevSmoother : GroupKSmoother) :
    SameInputs c (c.computeClusters prevBase prevGroup prevSmoother) := by
  unfold computeClusters
  dsimp only
  split
  · exact .derived
  · split
    · exact .derived
    · refine .trans ?_ (clusterInConvRows_sameInputs _ _ _ _)
      exact .derived

theorem computeCommentPriorities_sameInputs
    (prevGroupVotes : List (ℤ × GroupVotes)) :
    SameInputs c (c.computeCommentPriorities prevGroupVotes) := by
  unfold computeCommentPriorities
  split
  · exact .derived
  · dsimp only
    split <;> exact .derived

/-- A recompute writes only the derived fields. -/
theorem recompute_sameInputs : SameInputs c c.recompute := by
  unfold recompute
  split
  · exact .derived
  · refine .trans ?_ (computeCommentPriorities_sameInputs _ _)
    refine .trans ?_ (computeClusters_sameInputs _ _ _ _)
    refine .trans ?_ (computePca_sameInputs _ _)
    exact .derived
/-- The same clusters, over the same participants. -/
structure SameClusters (c c' : Conversation K) : Prop where
  baseClusters : c'.baseClusters = c.baseClusters
  groupClusters : c'.groupClusters = c.groupClusters
  groupClusterings : c'.groupClusterings = c.groupClusterings
  inConv : c'.inConv = c.inConv
  proj : c'.proj = c.proj

/-- The fields only a recompute writes. -/
structure SameDerived (c c' : Conversation K) : Prop extends SameClusters c c' where
  pca : c'.pca = c.pca
  groupKSmoother : c'.groupKSmoother = c.groupKSmoother
  groupVotes : c'.groupVotes = c.groupVotes
  commentPriorities : c'.commentPriorities = c.commentPriorities

theorem SameDerived.refl : SameDerived c c :=
  ⟨⟨rfl, rfl, rfl, rfl, rfl⟩, rfl, rfl, rfl, rfl⟩

theorem ingestVotes_sameDerived (payload : VotePayload) :
    SameDerived c (c.ingestVotes payload) := by
  unfold ingestVotes
  split
  · exact .refl c
  · exact ⟨⟨rfl, rfl, rfl, rfl, rfl⟩, rfl, rfl, rfl, rfl⟩

theorem setModeration_sameDerived (m : Moderation) :
    SameDerived c (c.setModeration m) :=
  ⟨⟨rfl, rfl, rfl, rfl, rfl⟩, rfl, rfl, rfl, rfl⟩

theorem modUpdate_sameDerived (mods : List ModRow) :
    SameDerived c (c.modUpdate mods) :=
  ⟨⟨rfl, rfl, rfl, rfl, rfl⟩, rfl, rfl, rfl, rfl⟩

theorem computeCommentPriorities_sameClusters
    (prevGroupVotes : List (ℤ × GroupVotes)) :
    SameClusters c (c.computeCommentPriorities prevGroupVotes) := by
  unfold computeCommentPriorities
  split
  · exact ⟨rfl, rfl, rfl, rfl, rfl⟩
  · dsimp only
    split <;> exact ⟨rfl, rfl, rfl, rfl, rfl⟩

end

/-- The rating matrix has the labels of the raw one. -/
structure SameLabels (c : Conversation K) : Prop where
  index : c.ratingMat.index = c.rawRatingMat.index
  columns : c.ratingMat.columns = c.rawRatingMat.columns

theorem ingestVotes_sameLabels {c : Conversation K} (h : SameLabels c) (payload : VotePayload) :
    SameLabels (c.ingestVotes payload) := by
  unfold ingestVotes
  split
  · exact h
  · exact ⟨rfl, rfl⟩

theorem SameLabels.of_sameInputs {c c' : Conversation K} (h : SameLabels c)
    (h' : SameInputs c c') : SameLabels c' :=
  ⟨by rw [h'.ratingMat, h'.rawRatingMat, h.index], by rw [h'.ratingMat, h'.rawRatingMat, h.columns]⟩

/-- The projected participants are the rows of the rating matrix. -/
theorem computePca_proj (c : Conversation K) (prevPca : Option (Pca K)) :
    (c.computePca prevPca).proj.map Prod.fst = c.ratingMat.index := by
  unfold computePca
  dsimp only
  split
  · simp [Function.comp_def]
  · refine List.map_fst_zip ?_
    simp [NamedMat.rows]

end Polis
