import Polis.Conversation.GroupTalliesTheorems
import Polis.Conversation.VoteStatsTheorems
import Polis.Conversation.PrioritiesTheorems

/-!
# The counts that are served

`votes-base` in its scalar form counts everyone in the matrix, the group votes only those who are clustered. The
consensus of a comment multiplies the smoothed agreement of all groups.

Reference: `polismath/conversation/conversation.py`.
-/

set_option linter.unusedSectionVars false

namespace Polis

open Clustering Conversation List

variable {K : Type*} [Field K] [LinearOrder K] [Numerics K]

/-- `_compute_votes_base` -/
def Conversation.computeVotesBase (c : Conversation K) : List (ℤ × Tally) :=
  c.rawRatingMat.columns.map fun tid => (tid, columnTally (c.ratingMat.index.map (c.rawRatingMat.cell · tid)))

/-- `tid_gid_probs`: the smoothed agreement of each group, by comment. -/
def tidGidProbs (groupVotes : List (ℤ × GroupVotes)) : List (ℤ × List (ℤ × K)) :=
  groupVotes.foldl (fun probs g => g.2.votes.foldl (fun probs v =>
    dictSet probs v.1 (dictSet ((probs.lookup v.1).getD []) g.1 (((v.2.A : K) + 1) / ((v.2.S : K) + 2)))) probs) []

/-- `_compute_group_aware_consensus` -/
def Conversation.computeGroupAwareConsensus (c : Conversation K) : List (ℤ × K) :=
  if c.groupClusters.isEmpty then []
  else (tidGidProbs c.computeGroupVotes).map fun e => (e.1, (e.2.map Prod.snd).foldl (· * ·) 1)

/-! ## Everyone and the clustered -/

variable {c : Conversation K} {id ts now : ℤ} {ops : List Op}

theorem computeVotesBase_eq (h : SameLabels c) : c.computeVotesBase =
    c.rawRatingMat.columns.map fun tid => (tid, tallyVotes c.rawRatingMat c.rawRatingMat.index tid) := by
  unfold computeVotesBase
  refine map_congr_left fun tid _ => ?_
  rw [h.index, tallyVotes, filter_eq_self.2 fun p hp => by simpa using hp]
  rfl

/-- The votes of a comment are those of the groups and those of the participants outside them, and the votes of all
comments are those of all participants. -/
theorem votes_base_conserved (hrun : Run Conversation.Step (new id ts now) ops c) :
    (c.computeVotesBase.map fun e => e.2.S).sum = (c.computeUserVoteCounts.map Prod.snd).sum ∧
    (∀ e ∈ c.computeVotesBase, e.2.A + e.2.D ≤ e.2.S) ∧
    (c.groupClusters ≠ [] → ∀ e ∈ c.computeVotesBase,
      let groups := totalTally c.computeGroupVotes e.1
      let rest := tallyVotes c.rawRatingMat
        (c.rawRatingMat.index.filter (· ∉ c.baseClusters.flatMap Cluster.members)) e.1
      e.2 = ⟨groups.A + rest.A, groups.D + rest.D, groups.S + rest.S⟩) := by
  have hserial := run_serializable hrun
  have heq := computeVotesBase_eq hserial.labels
  refine ⟨?_, fun e he => ?_, fun hgroups e he => ?_⟩
  · have hrows := countP_grid_rows Option.isSome c.rawRatingMat.cell c.ratingMat.index c.rawRatingMat.columns
    rw [countP_grid_columns] at hrows
    simpa [computeVotesBase, columnTally, computeUserVoteCounts, NamedMat.row, Function.comp_def,
      countP_eq_length_filter] using hrows
  · rw [heq] at he
    obtain ⟨tid, -, rfl⟩ := mem_map.1 he
    exact tallyVotes_le _ _ _
  · have h := hserial.tallied hgroups
    rw [heq] at he
    obtain ⟨tid, htid, rfl⟩ := mem_map.1 he
    obtain ⟨hin, -⟩ := hserial.grouped hgroups
    set clustered := c.baseClusters.flatMap Cluster.members
    -- the clustered participants have a row each, and the others are the rest of the rows
    have hnodup : clustered.Nodup :=
      (hserial.clustered hin).base.partition.perm.nodup_iff.2 (hserial.clustered hin).pids_nodup
    have hperm : c.rawRatingMat.index.Perm (clustered ++ c.rawRatingMat.index.filter (· ∉ clustered)) := by
      refine (perm_ext_iff_of_nodup h.index_nodup (hnodup.append (h.index_nodup.filter _) ?_)).2 fun p => ?_
      · exact fun p hp hrest => by simpa [hp] using (mem_filter.1 hrest).2
      · have hrow : p ∈ clustered → p ∈ c.rawRatingMat.index := fun hp => by
          obtain ⟨b, hb, hp⟩ := mem_flatMap.1 hp
          exact h.buckets b hb p hp
        rw [mem_append, mem_filter, decide_eq_true_iff]
        tauto
    dsimp only
    rw [h.totalTally_eq hgroups htid, tallyVotes_perm _ hperm]
    have happend := tallyVotes_flatMap c.rawRatingMat (fun l : List ℤ => l)
      [clustered, c.rawRatingMat.index.filter (· ∉ clustered)] tid
    simpa using happend

/-! ## The consensus of the groups -/

/-- Writing into every key of a dictionary that has all of them or none. -/
theorem foldl_dictSet_lookup {β : Type*} (old : Bool) {f : ℤ → List β} (hf : old = false → ∀ t, f t = [])
    (u : ℤ → List β → List β) (todo : List ℤ) : ∀ done, (done ++ todo).Nodup →
    todo.foldl (fun d t => dictSet d t (u t ((d.lookup t).getD [])))
      ((done.map fun t => (t, u t (f t))) ++ if old then todo.map fun t => (t, f t) else []) =
      (done ++ todo).map fun t => (t, u t (f t)) := by
  induction todo with
  | nil => simp
  | cons t todo ih =>
    intro done hnodup
    have hdone : t ∉ done := fun h => (nodup_append.1 hnodup).2.2 t h t mem_cons_self rfl
    have htodo : t ∉ todo := (nodup_cons.1 (nodup_append.1 hnodup).2.1).1
    have hlookup : ((done.map fun t => (t, u t (f t))).lookup t) = none := by
      simpa [lookup_eq_none_iff] using fun t' ht' => (ne_of_mem_of_not_mem ht' hdone).symm
    have hnext := ih (done ++ [t]) (by simpa using hnodup)
    rw [foldl_cons, append_cons, ← hnext]
    congr 1
    rw [lookup_append, hlookup, dictSet]
    cases old with
    | false => simp [hf rfl, hdone]
    | true =>
      have hsame : ∀ (l : List ℤ) (g : ℤ → List β) (v : List β), t ∉ l →
          (l.map fun t => (t, g t)).map (fun e => if e.1 = t then (t, v) else e) = l.map fun t => (t, g t) := by
        intro l g v hl
        rw [map_map]
        exact map_congr_left fun t' ht' => if_neg (ne_of_mem_of_not_mem ht' hl)
      simp [hsame _ _ _ hdone, hsame _ _ _ htodo]

/-- The smoothed agreement of a group. -/
abbrev smoothedAgreement (K : Type*) [Field K] (t : Tally) : K := ((t.A : K) + 1) / ((t.S : K) + 2)

/-- By induction on the groups: each adds its probability to every comment. -/
theorem tidGidProbs_eq (size : Cluster ℤ K → ℕ) (tally : Cluster ℤ K → ℤ → Tally) {cols : List ℤ} (hcols : cols.Nodup)
    {gs : List (Cluster ℤ K)} (hne : gs ≠ []) (hids : (gs.map Cluster.id).Nodup) :
    tidGidProbs (gs.map fun g => (g.id, ⟨size g, cols.map fun t => (t, tally g t)⟩)) =
      cols.map fun t => (t, gs.map fun g => (g.id, smoothedAgreement K (tally g t))) := by
  induction gs using reverseRecOn with
  | nil => exact absurd rfl hne
  | append_singleton gs g ih =>
    rw [map_append, nodup_append] at hids
    have hprev : tidGidProbs (gs.map fun g => (g.id, ⟨size g, cols.map fun t => (t, tally g t)⟩)) =
        if !gs.isEmpty then cols.map fun t => (t, gs.map fun g => (g.id, smoothedAgreement K (tally g t)))
        else [] := by
      cases gs with
      | nil => rfl
      | cons => exact ih (cons_ne_nil _ _) hids.1
    have hwrite := foldl_dictSet_lookup (!gs.isEmpty)
      (f := fun t => gs.map fun g => (g.id, smoothedAgreement K (tally g t))) (by simp +contextual)
      (fun t l => dictSet l g.id (smoothedAgreement K (tally g t))) cols [] hcols
    unfold tidGidProbs at hprev ⊢
    rw [map_append, foldl_append, hprev, map_singleton, foldl_cons, foldl_nil, foldl_map]
    refine hwrite.trans (map_congr_left fun t _ => ?_)
    have hnew : g.id ∉ gs.map Cluster.id := fun h => hids.2.2 _ h _ (mem_singleton_self _) rfl
    rw [dictSet, if_neg (by simpa [Function.comp_def] using hnew), map_append, map_singleton]

theorem prod_lt_one_of_mem [IsStrictOrderedRing K] {l : List K} (hne : l ≠ []) (h : ∀ x ∈ l, 0 < x ∧ x < 1) :
    0 < l.prod ∧ l.prod < 1 := by
  induction l with
  | nil => exact absurd rfl hne
  | cons x l ih =>
    obtain ⟨hx, hl⟩ := forall_mem_cons.1 h
    cases l with
    | nil => simpa using hx
    | cons y l =>
      obtain ⟨hpos, hlt⟩ := ih (cons_ne_nil _ _) hl
      rw [prod_cons]
      exact ⟨mul_pos hx.1 hpos, mul_lt_one_of_nonneg_of_lt_one_left hx.1.le hx.2 hlt.le⟩

/-- The consensus of every comment is the product of the smoothed agreements of all groups, which is a
probability and never certain. -/
theorem group_aware_consensus_range [IsStrictOrderedRing K] (hrun : Run Conversation.Step (new id ts now) ops c)
    (hgroups : c.groupClusters ≠ []) :
    c.computeGroupAwareConsensus = (c.rawRatingMat.columns.map fun tid => (tid,
      (c.unfoldedGroupClusters.map fun g => smoothedAgreement K (tallyVotes c.rawRatingMat g.members tid)).prod)) ∧
    ∀ e ∈ c.computeGroupAwareConsensus, 0 < e.2 ∧ e.2 < 1 := by
  have h := (run_serializable hrun).tallied hgroups
  have hne : c.unfoldedGroupClusters ≠ [] := by simpa [unfoldedGroupClusters] using hgroups
  have heq : c.computeGroupAwareConsensus = (c.rawRatingMat.columns.map fun tid => (tid,
      (c.unfoldedGroupClusters.map fun g =>
        smoothedAgreement K (tallyVotes c.rawRatingMat g.members tid)).prod)) := by
    rw [computeGroupAwareConsensus, if_neg (by simpa using hgroups), h.computeGroupVotes_eq hgroups,
      tidGidProbs_eq _ _ h.columns_nodup hne h.ids_nodup]
    simp [Function.comp_def, prod_eq_foldl]
  refine ⟨heq, fun e he => ?_⟩
  rw [heq] at he
  obtain ⟨tid, -, rfl⟩ := mem_map.1 he
  refine prod_lt_one_of_mem (by simpa using hne) (forall_mem_map.2 fun g _ => ?_)
  have hle := tallyVotes_le c.rawRatingMat g.members tid
  have hcast : ((tallyVotes c.rawRatingMat g.members tid).A : K) ≤ (tallyVotes c.rawRatingMat g.members tid).S := by
    exact_mod_cast (Nat.le_add_right _ _).trans hle
  refine ⟨by positivity, (div_lt_one (by positivity)).2 ?_⟩
  linarith

/-- An agree and a disagree on one comment. -/
private def twoVotes : VotePayload :=
  ⟨[⟨some 1, some 5, some (.num 1), some 10⟩, ⟨some 2, some 5, some (.num (-1)), some 11⟩], none⟩

private theorem twoVotes_groups : ((new 1 1 1 : Conversation ℚ).updateVotes twoVotes true).groupClusters ≠ [] :=
  fun h => absurd (congrArg length h) (by decide +kernel)

theorem votes_base_conserved_two : let c : Conversation ℚ := (new 1 1 1).updateVotes twoVotes true
    (c.computeVotesBase.map fun e => e.2.S).sum = (c.computeUserVoteCounts.map Prod.snd).sum :=
  (votes_base_conserved (.snoc .nil rfl : Run Conversation.Step (new 1 1 1) [.updateVotes twoVotes true] _)).1

theorem group_aware_consensus_two : let c : Conversation ℚ := (new 1 1 1).updateVotes twoVotes true
    c.computeGroupAwareConsensus.map Prod.fst = c.rawRatingMat.columns := by
  intro c
  have hrun : Run Conversation.Step (new 1 1 1) [.updateVotes twoVotes true] c := .snoc .nil rfl
  rw [(group_aware_consensus_range hrun twoVotes_groups).1, map_map]
  exact map_id _

end Polis
