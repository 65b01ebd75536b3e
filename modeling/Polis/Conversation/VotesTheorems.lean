import Polis.Conversation.Recompute
import Polis.Common.Run
import Polis.Clustering.Rational

/-!
# Vote ingestion as a fold

What one ingestion does to the raw matrix: rows and columns grow in first-appearance order, and a
cell takes the newest accepted update for it. Over a history in stamp order this is a fold, so the
batching does not matter.

Reference: `polismath/conversation/conversation.py`.
-/

set_option linter.unusedSectionVars false

namespace Polis

open Clustering List VoteUpdate Conversation

/-! ## The matrix write -/

section Write

variable {us : List VoteUpdate}

theorem mem_dropDuplicatesKeepLast {u : VoteUpdate} (h : u ∈ dropDuplicatesKeepLast us) :
    u ∈ us := by
  induction us with
  | nil => exact h
  | cons v us ih =>
    simp only [dropDuplicatesKeepLast] at h
    split at h
    · exact mem_cons_of_mem _ (ih h)
    · rcases mem_cons.1 h with rfl | h
      · exact mem_cons_self
      · exact mem_cons_of_mem _ (ih h)

/-- Dropping earlier duplicates keeps the last update of every cell. -/
theorem lastHit_dropDuplicatesKeepLast (us : List VoteUpdate) (p t : ℤ) :
    lastHit (hits p t) (dropDuplicatesKeepLast us) =
      lastHit (hits p t) us := by
  induction us with
  | nil => rfl
  | cons u us ih =>
    simp only [dropDuplicatesKeepLast, lastHit]
    by_cases hany : us.any (hits u.row u.col)
    · rw [if_pos hany, ih]
      cases hl : lastHit (hits p t) us with
      | some v => rfl
      | none =>
        -- a later update of the same cell is there, so `u` cannot hit an unhit cell
        obtain ⟨v, hv, hvu⟩ := any_eq_true.1 hany
        have hnot : u.hits p t = false := by
          by_contra hhit
          have hmiss := lastHit_eq_none.1 hl v hv
          simp only [hits, Bool.not_eq_false, Bool.and_eq_true, decide_eq_true_eq]
            at hhit hvu hmiss
          simp [hhit, hvu] at hmiss
        simp [hnot]
    · rw [if_neg hany, lastHit, ih]

theorem foldl_write_labels (us : List VoteUpdate) (m : NamedMat Vote) :
    (us.foldl (fun m u => m.write u.row u.col u.value) m).index = m.index ∧
    (us.foldl (fun m u => m.write u.row u.col u.value) m).columns = m.columns := by
  induction us generalizing m with
  | nil => exact ⟨rfl, rfl⟩
  | cons u us ih => exact ih _

/-- The written cells hold the last write, the others what they held. -/
theorem foldl_write {us : List VoteUpdate} {m : NamedMat Vote}
    (h : ∀ u ∈ us, u.row ∈ m.index ∧ u.col ∈ m.columns) (p t : ℤ) :
    (us.foldl (fun m u => m.write u.row u.col u.value) m).cell p t =
      match lastHit (hits p t) us with
      | some u => u.value
      | none => m.cell p t := by
  induction us generalizing m with
  | nil => rfl
  | cons u us ih =>
    obtain ⟨hu, hus⟩ := forall_mem_cons.1 h
    rw [foldl_cons, ih (m := m.write u.row u.col u.value) hus, lastHit]
    cases lastHit (hits p t) us with
    | some v => rfl
    | none =>
      by_cases hhit : p = u.row ∧ t = u.col
      · simp [hits, NamedMat.write, hhit, hu]
      · have hmiss : u.hits p t = false := by
          by_contra hboth
          simp only [hits, Bool.not_eq_false, Bool.and_eq_true, decide_eq_true_eq]
            at hboth
          exact hhit ⟨hboth.1.symm, hboth.2.symm⟩
        simp [hmiss, NamedMat.write, hhit]

/-- The updates that survive sorting and deduplication address the cells of all updates. -/
private theorem exists_deduped {u : VoteUpdate} (hu : u ∈ us) :
    ∃ v ∈ dropDuplicatesKeepLast (sortByStamp created us),
      v.row = u.row ∧ v.col = u.col := by
  have hlast := lastHit_dropDuplicatesKeepLast (sortByStamp created us) u.row u.col
  rw [lastHit_sortByStamp] at hlast
  cases hn : newest created (hits u.row u.col) us with
  | none => simpa [hits] using newest_eq_none.1 hn u hu
  | some v =>
    obtain ⟨hv, hhit⟩ := lastHit_some (hlast.trans hn)
    exact ⟨v, hv, by simpa [hits] using hhit⟩

end Write
/-! ## One ingestion -/

variable {K : Type*} [Field K] [LinearOrder K] [Numerics K]

/-- The updates `update_votes` accepts from a payload. -/
def Conversation.acceptedUpdates (c : Conversation K) (payload : VotePayload) : List VoteUpdate :=
  payload.votes.filterMap (VoteDict.update? (payload.lastVoteTimestamp.getD c.lastUpdated))

/-- The labels of the raw matrix: distinct rows, columns in arrival order, and the counts of
both. -/
structure RawShape (c : Conversation K) : Prop where
  columns_eq : c.rawRatingMat.columns = c.tidArrivalOrder
  columns_nodup : c.tidArrivalOrder.Nodup
  index_nodup : c.rawRatingMat.index.Nodup
  participantCount : c.participantCount = c.rawRatingMat.index.length
  commentCount : c.commentCount = c.rawRatingMat.columns.length

theorem RawShape.new (id ts now : ℤ) : RawShape (new id ts now : Conversation K) where
  columns_eq := rfl
  columns_nodup := .nil
  index_nodup := .nil
  participantCount := rfl
  commentCount := rfl

/-- The labels after a write, when the columns so far are the arrivals so far. -/
theorem mergeUpdates_labels (mat : NamedMat Vote) (us : List VoteUpdate) :
    (mergeUpdates mat (appendNew mat.columns (us.map col)) us).index =
      appendNew mat.index (us.map row) ∧
    (mergeUpdates mat (appendNew mat.columns (us.map col)) us).columns =
      appendNew mat.columns (us.map col) := by
  unfold mergeUpdates
  obtain ⟨hindex, hcolumns⟩ := foldl_write_labels
    (dropDuplicatesKeepLast (sortByStamp created us)) (mat.reindex _ _)
  refine ⟨hindex.trans ?_, hcolumns.trans ?_⟩
  · refine appendNew_filter fun p hp hnew => ?_
    obtain ⟨u, hu, rfl⟩ := mem_map.1 hp
    obtain ⟨v, hv, hrow, -⟩ := exists_deduped hu
    simp only [decide_eq_true_eq, mem_filter, mem_map]
    exact ⟨⟨v, hv, hrow⟩, hnew⟩
  · obtain ⟨new, hnew, hmem⟩ := appendNew_eq_append mat.columns (us.map col)
    simp only [NamedMat.reindex]
    rw [hnew, filter_append]
    -- the old columns are not new; the arrivals after them all are
    rw [filter_eq_nil_iff.2 fun t ht => by simp [ht], filter_eq_self.2 fun t ht => ?_,
      nil_append]
    obtain ⟨u, hu, rfl⟩ := mem_map.1 (hmem t ht).1
    obtain ⟨v, hv, -, hcol⟩ := exists_deduped hu
    simp only [decide_eq_true_eq, mem_filter, mem_map]
    exact ⟨⟨v, hv, hcol⟩, (hmem _ ht).2⟩

/-- A write takes the newest update of a cell, and keeps the cells it does not address. -/
theorem mergeUpdates_cell (mat : NamedMat Vote) {arrival : List ℤ} {us : List VoteUpdate}
    (harrival : ∀ u ∈ us, u.col ∈ arrival) (p t : ℤ) :
    (mergeUpdates mat arrival us).cell p t =
      match newest created (hits p t) us with
      | some u => u.value
      | none => mat.cell p t := by
  unfold mergeUpdates
  dsimp only
  rw [foldl_write, lastHit_dropDuplicatesKeepLast, lastHit_sortByStamp]
  · cases newest created (hits p t) us with
    | some u => rfl
    | none =>
      simp only [NamedMat.reindex]
      split
      · rfl
      · next hout =>
          -- outside the new labels the cell was empty before
          by_contra hcell
          obtain ⟨hp, ht⟩ := mat.support p t fun h => hcell h.symm
          exact hout ⟨mem_appendNew.2 (.inl hp), mem_append_left _ ht⟩
  · intro u hu
    have hus : u ∈ us := mem_sortByStamp.1 (mem_dropDuplicatesKeepLast hu)
    simp only [NamedMat.reindex, mem_appendNew, mem_append, mem_filter, mem_map,
      decide_eq_true_eq]
    constructor
    · by_cases hrow : u.row ∈ mat.index
      · exact .inl hrow
      · exact .inr ⟨⟨u, hus, rfl⟩, ⟨u, hu, rfl⟩, hrow⟩
    · by_cases hcol : u.col ∈ mat.columns
      · exact .inl hcol
      · exact .inr ⟨harrival u hus, ⟨u, hu, rfl⟩, hcol⟩

/-- A cell after an ingestion, from any conversation. -/
theorem ingestVotes_cell (c : Conversation K) (payload : VotePayload) (p t : ℤ) :
    (c.ingestVotes payload).rawRatingMat.cell p t =
      match newest created (hits p t) (c.acceptedUpdates payload) with
      | some u => u.value
      | none => c.rawRatingMat.cell p t := by
  by_cases hempty : payload.votes.isEmpty
  · have hnil : payload.votes = [] := by simpa using hempty
    rw [ingestVotes, if_pos hempty, acceptedUpdates, hnil]
    rfl
  · rw [ingestVotes, if_neg hempty]
    refine mergeUpdates_cell c.rawRatingMat (fun u hu => ?_) p t
    exact mem_appendNew.2 (.inr (mem_map_of_mem hu))

/-- What an ingestion does to the rows, the columns and the cells. -/
structure Ingested (c c' : Conversation K) (us : List VoteUpdate) : Prop where
  tidArrivalOrder : c'.tidArrivalOrder = appendNew c.tidArrivalOrder (us.map col)
  index : c'.rawRatingMat.index = appendNew c.rawRatingMat.index (us.map row)
  cell : ∀ p t, c'.rawRatingMat.cell p t =
    match newest created (hits p t) us with
    | some u => u.value
    | none => c.rawRatingMat.cell p t

/-- One ingestion, from any well-shaped conversation. -/
theorem ingestVotes_spec {c : Conversation K} (hc : RawShape c) (payload : VotePayload) :
    Ingested c (c.ingestVotes payload) (c.acceptedUpdates payload) ∧
    RawShape (c.ingestVotes payload) := by
  by_cases hempty : payload.votes.isEmpty
  · have hnil : payload.votes = [] := by simpa using hempty
    have hc' : c.ingestVotes payload = c := by rw [ingestVotes, if_pos hempty]
    rw [hc', acceptedUpdates, hnil]
    exact ⟨⟨rfl, rfl, fun _ _ => rfl⟩, hc⟩
  · have hc' : (c.ingestVotes payload).rawRatingMat = mergeUpdates c.rawRatingMat
        (appendNew c.rawRatingMat.columns ((c.acceptedUpdates payload).map col))
        (c.acceptedUpdates payload) := by
      rw [ingestVotes, if_neg hempty, hc.columns_eq]
      rfl
    have harrival : (c.ingestVotes payload).tidArrivalOrder =
        appendNew c.tidArrivalOrder ((c.acceptedUpdates payload).map col) := by
      rw [ingestVotes, if_neg hempty]
      rfl
    have hcounts : (c.ingestVotes payload).participantCount =
          (c.ingestVotes payload).rawRatingMat.index.length ∧
        (c.ingestVotes payload).commentCount =
          (c.ingestVotes payload).rawRatingMat.columns.length := by
      rw [ingestVotes, if_neg hempty]
      exact ⟨rfl, rfl⟩
    obtain ⟨hindex, hcolumns⟩ := mergeUpdates_labels c.rawRatingMat (c.acceptedUpdates payload)
    rw [← hc'] at hindex hcolumns
    rw [hc.columns_eq] at hcolumns
    refine ⟨⟨harrival, hindex, ingestVotes_cell c payload⟩, ?_⟩
    exact {
      columns_eq := hcolumns.trans harrival.symm
      columns_nodup := harrival ▸ appendNew_nodup hc.columns_nodup
      index_nodup := hindex ▸ appendNew_nodup hc.index_nodup
      participantCount := hcounts.1
      commentCount := hcounts.2 }

/-! ## Histories -/

theorem RawShape.of_sameRaw {c c' : Conversation K} (hc : RawShape c) (h : SameRaw c c') :
    RawShape c' where
  columns_eq := by rw [h.rawRatingMat, h.tidArrivalOrder, hc.columns_eq]
  columns_nodup := h.tidArrivalOrder ▸ hc.columns_nodup
  index_nodup := h.rawRatingMat ▸ hc.index_nodup
  participantCount := by rw [h.participantCount, h.rawRatingMat, hc.participantCount]
  commentCount := by rw [h.commentCount, h.rawRatingMat, hc.commentCount]

/-- Moderation leaves the raw matrix alone. -/
theorem setModeration_sameRaw (c : Conversation K) (m : Moderation) :
    SameRaw c (c.setModeration m) := ⟨rfl, rfl, rfl, rfl⟩

theorem modUpdate_sameRaw (c : Conversation K) (mods : List ModRow) :
    SameRaw c (c.modUpdate mods) := ⟨rfl, rfl, rfl, rfl⟩

theorem SameRaw.trans {c₁ c₂ c₃ : Conversation K} (h : SameRaw c₁ c₂) (h' : SameRaw c₂ c₃) :
    SameRaw c₁ c₃ where
  rawRatingMat := h'.rawRatingMat.trans h.rawRatingMat
  tidArrivalOrder := h'.tidArrivalOrder.trans h.tidArrivalOrder
  participantCount := h'.participantCount.trans h.participantCount
  commentCount := h'.commentCount.trans h.commentCount

/-- The updates a call brings in: those of its vote payload, none for the other calls. -/
def Conversation.opUpdates (c : Conversation K) : Op → List VoteUpdate
  | .updateVotes payload _ => c.acceptedUpdates payload
  | _ => []

/-- Every call is an ingestion of its updates, as far as the raw matrix goes. -/
theorem apply_ingested {c : Conversation K} (hc : RawShape c) (op : Op) :
    Ingested c (c.apply op) (c.opUpdates op) ∧ RawShape (c.apply op) := by
  have hsame : ∀ {c' : Conversation K}, SameRaw c c' → Ingested c c' [] ∧ RawShape c' :=
    fun h => ⟨⟨h.tidArrivalOrder, by rw [h.rawRatingMat]; rfl, by
      intro p t; rw [h.rawRatingMat]; rfl⟩, hc.of_sameRaw h⟩
  cases op with
  | modUpdate mods => exact hsame (modUpdate_sameRaw c mods)
  | recompute => exact hsame (recompute_sameInputs c).toSameRaw
  | updateModeration m recompute =>
    refine hsame ?_
    simp only [apply, updateModeration]
    split
    · exact (setModeration_sameRaw c m).trans (recompute_sameInputs _).toSameRaw
    · exact setModeration_sameRaw c m
  | updateVotes payload recompute =>
    obtain ⟨hing, hshape⟩ := ingestVotes_spec hc payload
    simp only [apply, updateVotes, opUpdates]
    by_cases hempty : payload.votes.isEmpty
    · rw [if_pos hempty]
      have hc' : c.ingestVotes payload = c := by rw [ingestVotes, if_pos hempty]
      rw [hc'] at hing
      exact ⟨hing, hc⟩
    · rw [if_neg hempty]
      split
      · have hrec := (recompute_sameInputs (c.ingestVotes payload)).toSameRaw
        refine ⟨⟨?_, ?_, fun p t => ?_⟩, hshape.of_sameRaw hrec⟩
        · rw [hrec.tidArrivalOrder, hing.tidArrivalOrder]
        · rw [hrec.rawRatingMat, hing.index]
        · rw [hrec.rawRatingMat, hing.cell]
      · exact ⟨hing, hshape⟩

/-! ## Dated votes -/

/-- Every vote carries its own stamp. -/
def VotePayload.Dated (payload : VotePayload) : Prop := ∀ v ∈ payload.votes, v.created ≠ none

instance : DecidablePred VotePayload.Dated := fun payload =>
  inferInstanceAs (Decidable (∀ v ∈ payload.votes, v.created ≠ none))

/-- The updates accepted from a payload of dated votes, whatever conversation takes it. -/
def VotePayload.updates (payload : VotePayload) : List VoteUpdate :=
  payload.votes.filterMap (VoteDict.update? 0)

theorem acceptedUpdates_eq (c : Conversation K) {payload : VotePayload} (h : payload.Dated) :
    c.acceptedUpdates payload = payload.updates := by
  refine filterMap_congr fun v hv => ?_
  obtain ⟨created, hcreated⟩ := Option.ne_none_iff_exists'.1 (h v hv)
  simp [VoteDict.update?, hcreated]

/-- The votes of a call are dated. -/
def Op.Dated : Op → Prop
  | .updateVotes payload _ => payload.Dated
  | _ => True

instance : DecidablePred Op.Dated
  | .updateVotes payload _ => inferInstanceAs (Decidable payload.Dated)
  | .modUpdate _ => .isTrue trivial
  | .updateModeration _ _ => .isTrue trivial
  | .recompute => .isTrue trivial

/-- The updates of a call with dated votes. -/
def Op.updates : Op → List VoteUpdate
  | .updateVotes payload _ => payload.updates
  | _ => []

theorem opUpdates_eq (c : Conversation K) {op : Op} (h : op.Dated) :
    c.opUpdates op = op.updates := by
  cases op with
  | updateVotes payload recompute => exact acceptedUpdates_eq c h
  | _ => rfl

/-- The raw matrix of a history of updates in stamp order: columns and rows in first-appearance
order, and in each cell the last update for it. -/
structure VotesHeld (us : List VoteUpdate) (c : Conversation K) : Prop extends RawShape c where
  arrival : c.tidArrivalOrder = appendNew [] (us.map col)
  index : c.rawRatingMat.index = appendNew [] (us.map row)
  cell : ∀ p t, c.rawRatingMat.cell p t =
    (lastHit (hits p t) us).bind value

theorem VotesHeld.new (id ts now : ℤ) :
    VotesHeld [] (new id ts now : Conversation K) :=
  { RawShape.new id ts now with arrival := rfl, index := rfl, cell := fun _ _ => rfl }

/-- One more batch in stamp order. -/
theorem VotesHeld.ingested {us vs : List VoteUpdate} {c c' : Conversation K} (h : VotesHeld us c)
    (hsorted : vs.Pairwise fun u v => u.created ≤ v.created) (hing : Ingested c c' vs)
    (hshape : RawShape c') : VotesHeld (us ++ vs) c' :=
  { hshape with
    arrival := by rw [hing.tidArrivalOrder, h.arrival, map_append, appendNew_append]
    index := by rw [hing.index, h.index, map_append, appendNew_append]
    cell := fun p t => by
      rw [hing.cell, newest_eq_lastHit hsorted, lastHit_append, h.cell]
      cases lastHit (hits p t) vs <;> rfl }

/-- The history determines the raw matrix, the arrival order and the counts. -/
theorem VotesHeld.unique {us : List VoteUpdate} {c c' : Conversation K} (h : VotesHeld us c)
    (h' : VotesHeld us c') : SameRaw c c' := by
  have harrival : c'.tidArrivalOrder = c.tidArrivalOrder := h'.arrival.trans h.arrival.symm
  have hmat : c'.rawRatingMat = c.rawRatingMat := by
    have hindex := h'.index.trans h.index.symm
    have hcolumns : c'.rawRatingMat.columns = c.rawRatingMat.columns := by
      rw [h'.columns_eq, h.columns_eq, harrival]
    have hcell : ∀ p t, c'.rawRatingMat.cell p t = c.rawRatingMat.cell p t := fun p t => by
      rw [h'.cell, h.cell]
    exact NamedMat.ext' hindex hcolumns hcell
  exact ⟨hmat, harrival, by rw [h'.participantCount, hmat, h.participantCount],
    by rw [h'.commentCount, hmat, h.commentCount]⟩

/-- The calls of a history, as a run of the conversation. -/
abbrev Conversation.Step (c : Conversation K) (op : Op) (c' : Conversation K) : Prop :=
  c' = c.apply op

/-- Every reachable conversation is well shaped. -/
theorem run_rawShape {id ts now : ℤ} {ops : List Op} {c : Conversation K}
    (h : Run Conversation.Step (new id ts now) ops c) : RawShape c :=
  h.keeps RawShape (RawShape.new id ts now) fun c op c' hc hs => by
    rw [show c' = c.apply op from hs]
    exact (apply_ingested hc op).2

/-- A history of dated votes in stamp order is held. -/
theorem run_votesHeld {id ts now : ℤ} {ops : List Op} {c : Conversation K}
    (h : Run Conversation.Step (new id ts now) ops c) (hdated : ∀ op ∈ ops, op.Dated)
    (hsorted : (ops.flatMap Op.updates).Pairwise fun u v => u.created ≤ v.created) :
    VotesHeld (ops.flatMap Op.updates) c := by
  induction h with
  | nil => exact VotesHeld.new id ts now
  | @snoc ops c op c' hrun hs ih =>
    rw [flatMap_append, pairwise_append] at hsorted
    have hop : op.Dated := hdated op (by simp)
    have hheld := ih (fun o ho => hdated o (mem_append_left _ ho)) hsorted.1
    obtain ⟨hing, hshape⟩ := apply_ingested hheld.toRawShape op
    rw [opUpdates_eq c hop] at hing
    rw [hs, flatMap_append]
    refine hheld.ingested hsorted.2.1 ?_ hshape
    simpa using hing
/-! ## Ingestion is a fold -/

/-- `update_votes(recompute=False)` on each payload in turn. -/
def Conversation.ingestAll (c : Conversation K) (payloads : List VotePayload) : Conversation K :=
  payloads.foldl (fun c payload => c.updateVotes payload false) c

/-- The payload of all the votes at once. -/
def VotePayload.concat (payloads : List VotePayload) (lastVoteTimestamp : Option ℤ) : VotePayload :=
  ⟨payloads.flatMap VotePayload.votes, lastVoteTimestamp⟩

theorem run_ingestAll (c₀ : Conversation K) (payloads : List VotePayload) :
    Run Conversation.Step c₀ (payloads.map fun payload => .updateVotes payload false)
      (c₀.ingestAll payloads) := by
  induction payloads using List.reverseRecOn with
  | nil => exact .nil
  | append_singleton payloads payload ih =>
    rw [map_append, ingestAll, foldl_append]
    exact .snoc ih rfl

theorem updates_concat (payloads : List VotePayload) (lastVoteTimestamp : Option ℤ) :
    (VotePayload.concat payloads lastVoteTimestamp).updates =
      payloads.flatMap VotePayload.updates := by
  rw [VotePayload.updates, VotePayload.concat, filterMap_flatMap]
  rfl

theorem dated_concat {payloads : List VotePayload} (h : ∀ payload ∈ payloads, payload.Dated)
    (lastVoteTimestamp : Option ℤ) : (VotePayload.concat payloads lastVoteTimestamp).Dated := by
  intro v hv
  obtain ⟨payload, hpayload, hv⟩ := mem_flatMap.1 hv
  exact h payload hpayload v hv

/-- One cell after one batch in any order: the update of greatest `created`, a tie going to the
later position. -/
theorem updateVotes_cell {c : Conversation K} (hc : RawShape c) {payload : VotePayload}
    (h : payload.Dated) {l₁ l₂ : List VoteUpdate} {u : VoteUpdate}
    (hu : payload.updates = l₁ ++ u :: l₂)
    (h₁ : ∀ v ∈ l₁, v.hits u.row u.col → v.created ≤ u.created)
    (h₂ : ∀ v ∈ l₂, v.hits u.row u.col → v.created < u.created) :
    (c.updateVotes payload false).rawRatingMat.cell u.row u.col = u.value := by
  obtain ⟨hing, -⟩ := apply_ingested hc (.updateVotes payload false)
  have hcell := hing.cell u.row u.col
  rw [opUpdates, acceptedUpdates_eq c h, hu,
    newest_of_split (by simp [hits]) h₁ h₂] at hcell
  exact hcell

/-- Folding `update_votes` over batches in stamp order gives what one `update_votes` of all the
votes gives. In every state reached by calls whose votes came in stamp order, the columns are the
arrival order, the rows are in first-appearance order, and each cell holds the last vote for it.
Within one batch the order does not matter: the newest vote for a cell is the one it holds. -/
theorem updateVotes_is_fold (id ts now : ℤ) :
    (∀ (payloads : List VotePayload) (last : Option ℤ), (∀ payload ∈ payloads, payload.Dated) →
      ((payloads.flatMap VotePayload.updates).Pairwise fun u v => u.created ≤ v.created) →
      let folded := (new id ts now : Conversation K).ingestAll payloads
      let once := (new id ts now : Conversation K).updateVotes
        (VotePayload.concat payloads last) false
      folded.rawRatingMat = once.rawRatingMat ∧ folded.tidArrivalOrder = once.tidArrivalOrder ∧
        folded.participantCount = once.participantCount ∧
        folded.commentCount = once.commentCount) ∧
    (∀ (ops : List Op) (c : Conversation K),
      Run Conversation.Step (new id ts now) ops c → (∀ op ∈ ops, op.Dated) →
      ((ops.flatMap Op.updates).Pairwise fun u v => u.created ≤ v.created) →
      let us := ops.flatMap Op.updates
      (c.rawRatingMat.columns = c.tidArrivalOrder ∧ c.tidArrivalOrder.Nodup ∧
        c.tidArrivalOrder = appendNew [] (us.map col)) ∧
      (c.rawRatingMat.index.Nodup ∧ c.rawRatingMat.index = appendNew [] (us.map row)) ∧
      ∀ p t, c.rawRatingMat.cell p t =
        (lastHit (hits p t) us).bind value) ∧
    (∀ (ops : List Op) (c : Conversation K),
      Run Conversation.Step (new id ts now) ops c →
      ∀ payload : VotePayload, payload.Dated → ∀ l₁ u l₂, payload.updates = l₁ ++ u :: l₂ →
      (∀ v ∈ l₁, v.hits u.row u.col → v.created ≤ u.created) →
      (∀ v ∈ l₂, v.hits u.row u.col → v.created < u.created) →
      (c.updateVotes payload false).rawRatingMat.cell u.row u.col = u.value) := by
  refine ⟨fun payloads last hdated hsorted => ?_, fun ops c hrun hdated hsorted => ?_,
    fun ops c hrun payload hdated l₁ u l₂ hu h₁ h₂ =>
      updateVotes_cell (run_rawShape hrun) hdated hu h₁ h₂⟩
  · have hconcat := updates_concat payloads last
    have hfold :=
      run_votesHeld (run_ingestAll (new id ts now : Conversation K) payloads)
      (by simpa [Op.Dated] using hdated) (by simpa [flatMap_map, Op.updates] using hsorted)
    have honce := run_votesHeld
      (run_ingestAll (new id ts now : Conversation K)
        [VotePayload.concat payloads last])
      (by simpa [Op.Dated] using dated_concat hdated last)
      (by simpa [Op.updates, hconcat] using hsorted)
    simp only [flatMap_map, Op.updates, map_cons, map_nil, flatMap_cons,
      flatMap_nil, append_nil, hconcat] at hfold honce
    have hsame := honce.unique hfold
    exact ⟨hsame.rawRatingMat, hsame.tidArrivalOrder, hsame.participantCount, hsame.commentCount⟩
  · have hheld := run_votesHeld hrun hdated hsorted
    exact ⟨⟨hheld.columns_eq, hheld.columns_nodup, hheld.arrival⟩,
      ⟨hheld.index_nodup, hheld.index⟩, hheld.cell⟩

private def voteBatch : VotePayload := ⟨[⟨some 7, some 3, some (.num 1), some 10⟩], none⟩

private def clearBatch : VotePayload := ⟨[⟨some 7, some 3, some .null, some 20⟩], none⟩

private def lateBatch : VotePayload :=
  ⟨[⟨some 7, some 3, some (.num (-1)), some 40⟩, ⟨some 7, some 3, some (.num 1), some 30⟩], none⟩

/-- A vote, then a null that clears it; and one batch out of stamp order. -/
theorem updateVotes_is_fold_cleared :
    let empty : Conversation ℚ := new 1 1 1
    (empty.ingestAll [voteBatch, clearBatch]).rawRatingMat =
      (empty.updateVotes (VotePayload.concat [voteBatch, clearBatch] none) false).rawRatingMat ∧
    (empty.ingestAll [voteBatch, clearBatch]).rawRatingMat.cell 7 3 = none ∧
    (empty.updateVotes lateBatch false).rawRatingMat.cell 7 3 = some .disagree := by
  intro empty
  obtain ⟨hfold, hcells, hbatch⟩ := updateVotes_is_fold (K := ℚ) 1 1 1
  refine ⟨?_, ?_, ?_⟩
  · exact (hfold [voteBatch, clearBatch] none (by decide) (by decide +kernel)).1
  · have hrun := run_ingestAll empty [voteBatch, clearBatch]
    rw [(hcells _ _ hrun (by decide) (by decide +kernel)).2.2 7 3]
    decide +kernel
  · exact hbatch [] empty .nil lateBatch (by decide) [] ⟨7, 3, some .disagree, 40⟩
      [⟨7, 3, some .agree, 30⟩] (by decide +kernel) (by simp) (by simp)

/-! ## Votes and moderation -/

def Op.isVotes : Op → Bool
  | .updateVotes .. => true
  | _ => false

def Op.isModeration : Op → Bool
  | .modUpdate _ | .updateModeration .. => true
  | _ => false

/-- What votes are written into. -/
def Conversation.votesPart (c : Conversation K) : NamedMat Vote × List ℤ × ℕ × ℕ × ℤ × ℤ :=
  (c.rawRatingMat, c.tidArrivalOrder, c.participantCount, c.commentCount, c.lastUpdated, c.conversationId)

/-- What moderation is written into, without its watermark, which a recompute forgets. -/
def Conversation.moderationPart (c : Conversation K) : Finset ℤ × Finset ℤ × Finset ℤ × Finset ℤ × Bool :=
  (c.modOutTids, c.modInTids, c.metaTids, c.modOutPtpts, c.moderationApplied)

/-- A part that only some calls write, and that they write from itself, is what these calls make of it. -/
theorem foldl_part {π : Type*} (part : Conversation K → π) (writes : Op → Bool)
    (hwrites : ∀ c c' op, part c = part c' → part (c.apply op) = part (c'.apply op))
    (hskips : ∀ c op, writes op = false → part (c.apply op) = part c) (ops : List Op) {c c' : Conversation K}
    (h : part c = part c') :
    part (ops.foldl Conversation.apply c) = part ((ops.filter writes).foldl Conversation.apply c') := by
  induction ops generalizing c c' with
  | nil => exact h
  | cons op ops ih =>
    cases hop : writes op with
    | true => simpa [hop] using ih (hwrites _ _ op h)
    | false => simpa [hop] using ih ((hskips c op hop).trans h)

/-- What a call writes before it recomputes. -/
def Conversation.write (c : Conversation K) : Op → Conversation K
  | .updateVotes payload _ => c.ingestVotes payload
  | .modUpdate mods => c.modUpdate mods
  | .updateModeration m _ => c.setModeration m
  | .recompute => c

/-- A recompute writes neither part. -/
theorem apply_parts (c : Conversation K) (op : Op) : (c.apply op).votesPart = (c.write op).votesPart ∧
    (c.apply op).moderationPart = (c.write op).moderationPart := by
  have hsame : c.apply op = c.write op ∨ c.apply op = (c.write op).recompute := by
    cases op with
    | updateVotes payload recompute =>
      by_cases hempty : payload.votes.isEmpty <;> cases recompute <;>
        simp [apply, updateVotes, write, ingestVotes, hempty]
    | modUpdate mods => exact .inl rfl
    | updateModeration m recompute => cases recompute <;> simp [apply, updateModeration, write]
    | recompute => exact .inr rfl
  rcases hsame with heq | heq
  · rw [heq]
    exact ⟨rfl, rfl⟩
  · have h := recompute_sameInputs (c.write op)
    rw [heq]
    simp only [votesPart, moderationPart, h.rawRatingMat, h.tidArrivalOrder, h.participantCount, h.commentCount,
      h.lastUpdated, h.conversationId, h.modOutTids, h.modInTids, h.metaTids, h.modOutPtpts, h.moderationApplied,
      and_self]

variable {c c' : Conversation K}

theorem write_votesPart (op : Op) (h : c.votesPart = c'.votesPart) :
    (c.write op).votesPart = (c'.write op).votesPart := by
  cases op with
  | updateVotes payload =>
    have hfields := h
    simp only [votesPart, Prod.mk.injEq] at hfields
    obtain ⟨hraw, harrival, -, -, hlast, hid⟩ := hfields
    unfold write ingestVotes
    dsimp only
    split
    · exact h
    · simp only [votesPart, applyModeration, computeVoteStats, hraw, harrival, hlast, hid]
  | modUpdate | updateModeration | recompute => exact h

theorem write_moderationPart (op : Op) (h : c.moderationPart = c'.moderationPart) :
    (c.write op).moderationPart = (c'.write op).moderationPart := by
  have hfields := h
  simp only [moderationPart, Prod.mk.injEq] at hfields
  obtain ⟨hout, hin, hmeta, hptpts, -⟩ := hfields
  cases op with
  | updateVotes payload =>
    unfold write ingestVotes
    dsimp only
    split <;> exact h
  | modUpdate mods => simp only [moderationPart, write, modUpdate, hout, hin, hmeta, hptpts]
  | updateModeration m =>
    simp only [moderationPart, write, setModeration, applyModeration, computeVoteStats, hout, hin, hmeta, hptpts]
  | recompute => exact h

theorem write_skips (c : Conversation K) (op : Op) :
    (op.isVotes = false → (c.write op).votesPart = c.votesPart) ∧
      (op.isModeration = false → (c.write op).moderationPart = c.moderationPart) := by
  cases op with
  | updateVotes payload =>
    refine ⟨by simp [Op.isVotes], fun _ => ?_⟩
    unfold write ingestVotes
    dsimp only
    split <;> rfl
  | modUpdate | updateModeration => exact ⟨fun _ => rfl, by simp [Op.isModeration]⟩
  | recompute => exact ⟨fun _ => rfl, fun _ => rfl⟩

/-- Two histories with the same votes and the same moderation, interleaved in whatever way and with any recomputes
between, hand the same inputs to the next math run. -/
theorem interleaving_invisible {ops ops' : List Op} (c : Conversation K)
    (hvotes : ops.filter Op.isVotes = ops'.filter Op.isVotes)
    (hmods : ops.filter Op.isModeration = ops'.filter Op.isModeration) {payload : VotePayload}
    (hne : payload.votes ≠ []) :
    SameInputs ((ops.foldl Conversation.apply c).updateVotes payload false)
      ((ops'.foldl Conversation.apply c).updateVotes payload false) := by
  have hv : (ops.foldl Conversation.apply c).votesPart = (ops'.foldl Conversation.apply c).votesPart := by
    have h := fun ops : List Op => foldl_part (c := c) votesPart Op.isVotes
      (fun c c' op h => by rw [(apply_parts c op).1, (apply_parts c' op).1, write_votesPart op h])
      (fun c op hop => (apply_parts c op).1.trans ((write_skips c op).1 hop)) ops rfl
    rw [h ops, h ops', hvotes]
  have hm : (ops.foldl Conversation.apply c).moderationPart = (ops'.foldl Conversation.apply c).moderationPart := by
    have h := fun ops : List Op => foldl_part (c := c) moderationPart Op.isModeration
      (fun c c' op h => by rw [(apply_parts c op).2, (apply_parts c' op).2, write_moderationPart op h])
      (fun c op hop => (apply_parts c op).2.trans ((write_skips c op).2 hop)) ops rfl
    rw [h ops, h ops', hmods]
  generalize ops.foldl Conversation.apply c = a at hv hm ⊢
  generalize ops'.foldl Conversation.apply c = b at hv hm ⊢
  simp only [votesPart, moderationPart, Prod.mk.injEq] at hv hm
  obtain ⟨hraw, harrival, -, -, hlast, hid⟩ := hv
  obtain ⟨hout, hin, hmeta, hptpts, happlied⟩ := hm
  have hempty : payload.votes.isEmpty = false := by simpa using hne
  simp only [updateVotes, ingestVotes, hempty, Bool.false_eq_true, if_false]
  refine ⟨⟨?_, ?_, ?_, ?_⟩, ?_, ?_, ?_, ?_, ?_, ?_, ?_, ?_, ?_⟩ <;>
    simp only [applyModeration, computeVoteStats, hraw, harrival, hlast, hid, hout, hin, hmeta, hptpts, happlied]

/-- The moderation row comes after the vote, or before it. -/
theorem interleaving_invisible_swap : SameInputs
    (([.updateVotes voteBatch true, .modUpdate [⟨3, true, none, 5⟩]].foldl Conversation.apply
      (new 1 1 1 : Conversation ℚ)).updateVotes clearBatch false)
    (([.modUpdate [⟨3, true, none, 5⟩], .updateVotes voteBatch true].foldl Conversation.apply
      (new 1 1 1 : Conversation ℚ)).updateVotes clearBatch false) :=
  interleaving_invisible (new 1 1 1) (by simp [Op.isVotes, filter_cons]) (by simp [Op.isModeration, filter_cons])
    (by simp [clearBatch])

end Polis
