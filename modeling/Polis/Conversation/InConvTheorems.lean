import Polis.Conversation.ClusterPartition

/-!
# Who is in

A participant that is in stays in. Every tick admits those over the threshold, and fills up to 15
with the top voters as far as there are participants.

Reference: `polismath/conversation/conversation.py`.
-/

set_option linter.unusedSectionVars false

namespace Polis

open Clustering List Conversation

variable {K : Type*} [Field K] [LinearOrder K] [Numerics K]
variable {op : Op} {c b : Conversation K}

/-! ## One choice -/

/-- The votes of a participant, counted on the raw matrix. -/
def Conversation.voteCount (c : Conversation K) (pid : ℤ) : ℕ :=
  ((c.rawRatingMat.row pid).filter Option.isSome).length

/-- Whoever is in before the greedy floor: the carried set and the participants over the
threshold. -/
def Conversation.carriedOrOver (c : Conversation K) : Finset ℤ :=
  c.inConv ∪ (c.rawRatingMat.index.filter fun pid =>
    min 7 c.rawRatingMat.columns.length ≤ c.voteCount pid).toFinset

/-- The choice of a tick: `new` has everyone carried or over the threshold, and what is missing to
15, taken from the participants with the most votes. -/
structure Admits (c : Conversation K) (new : Finset ℤ) : Prop where
  carried : c.carriedOrOver ⊆ new
  participants : ∀ pid ∈ new, pid ∈ c.rawRatingMat.index
  card : new.card = c.carriedOrOver.card +
    min (15 - c.carriedOrOver.card) (c.rawRatingMat.index.length - c.carriedOrOver.card)
  top : ∀ p ∈ new, p ∉ c.carriedOrOver → ∀ q ∈ c.rawRatingMat.index, q ∉ new →
    c.voteCount q ≤ c.voteCount p

/-- The first `n` of a list that is sorted by falling counts have the largest counts. -/
private theorem count_le_of_take {candidates : List ℤ} {count : ℤ → ℕ}
    (hsorted : candidates.Pairwise fun p q => count q ≤ count p) {n : ℕ} {p q : ℤ}
    (hp : p ∈ candidates.take n) (hq : q ∈ candidates) (hout : q ∉ candidates.take n) :
    count q ≤ count p := by
  rw [← take_append_drop n candidates] at hsorted hq
  have hdrop : q ∈ candidates.drop n := (mem_append.1 hq).resolve_left hout
  exact (pairwise_append.1 hsorted).2.2 p hp q hdrop

/-- Filling up a set of participants with the top of the others. -/
theorem fill_spec {pids : List ℤ} (hpids : pids.Nodup) {base : Finset ℤ}
    (hbase : ∀ p ∈ base, p ∈ pids) (count : ℤ → ℕ) (n : ℕ) :
    let candidates := ((clojureHashMapKeyOrder pids).filter (· ∉ base)).insertionSort
      fun p q => count q ≤ count p
    let new := base ∪ (candidates.take n).toFinset
    (∀ p ∈ new, p ∈ pids) ∧ new.card = base.card + min n (pids.length - base.card) ∧
      ∀ p ∈ new, p ∉ base → ∀ q ∈ pids, q ∉ new → count q ≤ count p := by
  intro candidates new
  have hperm : candidates.Perm (pids.filter (· ∉ base)) :=
    (perm_insertionSort _ _).trans ((clojureHashMapKeyOrder_perm pids).filter _)
  have hmem : ∀ p, p ∈ candidates ↔ p ∈ pids ∧ p ∉ base := fun p => by
    simpa using hperm.mem_iff (a := p)
  have hnodup : candidates.Nodup := hperm.nodup_iff.2 (hpids.filter _)
  have hsorted : candidates.Pairwise fun p q => count q ≤ count p := by
    have : Std.Total fun p q : ℤ => count q ≤ count p := ⟨fun p q => le_total _ _⟩
    have : IsTrans ℤ fun p q => count q ≤ count p := ⟨fun _ _ _ h h' => h'.trans h⟩
    exact pairwise_insertionSort _ _
  have hlength : candidates.length = pids.length - base.card := by
    have hsub : base ⊆ pids.toFinset := fun p hp => mem_toFinset.2 (hbase p hp)
    have hset : candidates.toFinset = pids.toFinset \ base := by
      ext p
      simp [hmem]
    rw [← toFinset_card_of_nodup hnodup, hset, Finset.card_sdiff_of_subset hsub,
      toFinset_card_of_nodup hpids]
  refine ⟨fun p hp => ?_, ?_, fun p hp hpbase q hq hqnew => ?_⟩
  · rcases Finset.mem_union.1 hp with hp | hp
    · exact hbase p hp
    · exact ((hmem p).1 (mem_of_mem_take (mem_toFinset.1 hp))).1
  · have hdisj : Disjoint base (candidates.take n).toFinset := by
      rw [Finset.disjoint_left]
      intro p hp hp'
      exact ((hmem p).1 (mem_of_mem_take (mem_toFinset.1 hp'))).2 hp
    rw [Finset.card_union_of_disjoint hdisj,
      toFinset_card_of_nodup (hnodup.sublist (take_sublist _ _)), length_take,
      hlength]
  · have hp' := mem_toFinset.1 ((Finset.mem_union.1 hp).resolve_left hpbase)
    have hout : q ∉ candidates.take n := fun h =>
      hqnew (Finset.mem_union_right _ (mem_toFinset.2 h))
    refine count_le_of_take hsorted hp' ((hmem q).2 ⟨hq, fun h => ?_⟩) hout
    exact hqnew (Finset.mem_union_left _ h)

/-- What `_get_in_conv_participants` answers on a matrix that has every carried participant. -/
theorem getInConvParticipants_admits (hlabels : SameLabels c)
    (hnodup : c.rawRatingMat.index.Nodup) (hcarried : ∀ p ∈ c.inConv, p ∈ c.rawRatingMat.index) :
    Admits c c.getInConvParticipants := by
  have hcounts : c.computeUserVoteCounts = c.rawRatingMat.index.map fun p => (p, c.voteCount p) := by
    rw [computeUserVoteCounts, hlabels.index]
    rfl
  have hpids : c.computeUserVoteCounts.map Prod.fst = c.rawRatingMat.index := by
    rw [hcounts]
    simp [Function.comp_def]
  have hbase : (c.inConv ∩ (c.computeUserVoteCounts.map Prod.fst).toFinset) ∪
      ((c.computeUserVoteCounts.filter fun e =>
        min 7 c.rawRatingMat.columns.length ≤ e.2).map Prod.fst).toFinset = c.carriedOrOver := by
    ext p
    rw [hpids, hcounts]
    simp only [carriedOrOver, Finset.mem_union, Finset.mem_inter, mem_toFinset,
      filter_map, map_map, mem_map, mem_filter, Function.comp_apply,
      decide_eq_true_eq, exists_eq_right]
    exact or_congr_left ⟨And.left, fun h => ⟨h, hcarried p h⟩⟩
  have hin : ∀ p ∈ c.carriedOrOver, p ∈ c.rawRatingMat.index := by
    intro p hp
    rcases Finset.mem_union.1 hp with hp | hp
    · exact hcarried p hp
    · exact mem_of_mem_filter (mem_toFinset.1 hp)
  have hlookup : ∀ p ∈ c.rawRatingMat.index,
      (c.computeUserVoteCounts.lookup p).getD 0 = c.voteCount p := by
    intro p hp
    rw [hcounts, lookup_map_self c.voteCount hp]
    rfl
  obtain ⟨hparticipants, hcard, htop⟩ := fill_spec hnodup hin
    (fun p => (c.computeUserVoteCounts.lookup p).getD 0) (15 - c.carriedOrOver.card)
  unfold getInConvParticipants
  dsimp only
  rw [hbase, hpids]
  by_cases hfew : c.carriedOrOver.card < inConvGreedyN
  · rw [if_pos hfew]
    refine ⟨Finset.subset_union_left, hparticipants, hcard, fun p hp hpbase q hq hqnew => ?_⟩
    rw [← hlookup q hq, ← hlookup p (hparticipants p hp)]
    exact htop p hp hpbase q hq hqnew
  · rw [if_neg hfew]
    have hzero : 15 - c.carriedOrOver.card = 0 := by
      rw [inConvGreedyN] at hfew
      omega
    exact ⟨Finset.Subset.refl _, hin, by rw [hzero]; simp, fun p hp hpbase => absurd hp hpbase⟩

/-! ## Every tick -/

/-- The conversation a call hands to the recompute that ends it, if it makes one: an empty vote
list, or a matrix without cells, clusters nothing. -/
def Conversation.handedOn (c : Conversation K) : Op → Option (Conversation K)
  | .updateVotes payload true => if payload.votes.isEmpty then none else some (c.ingestVotes payload)
  | .updateModeration m true => some (c.setModeration m)
  | .recompute => some c
  | _ => none

/-- The call is a clustering tick on `b`. -/
def Conversation.TicksOn (c : Conversation K) (op : Op) (b : Conversation K) : Prop :=
  c.handedOn op = some b ∧ b.ratingMat.isEmpty = false

/-- What a call can hand on. -/
theorem handedOn_cases (h : c.handedOn op = some b) :
    op = .recompute ∧ b = c ∨
    (∃ m, op = .updateModeration m true ∧ b = c.setModeration m) ∨
    ∃ payload, op = .updateVotes payload true ∧ payload.votes ≠ [] ∧ b = c.ingestVotes payload := by
  cases op with
  | modUpdate mods => simp [handedOn] at h
  | recompute =>
    left
    exact ⟨rfl, (Option.some.inj h).symm⟩
  | updateModeration m recompute =>
    right; left
    cases recompute with
    | false => simp [handedOn] at h
    | true => exact ⟨m, rfl, (Option.some.inj h).symm⟩
  | updateVotes payload recompute =>
    right; right
    cases recompute with
    | false => simp [handedOn] at h
    | true =>
      obtain ⟨hvotes, hb⟩ : payload.votes ≠ [] ∧ c.ingestVotes payload = b := by
        simpa [handedOn] using h
      exact ⟨payload, rfl, hvotes, hb.symm⟩

theorem apply_of_handedOn (h : c.handedOn op = some b) :
    c.apply op = b.recompute := by
  obtain ⟨rfl, rfl⟩ | ⟨m, rfl, rfl⟩ | ⟨payload, rfl, hvotes, rfl⟩ := handedOn_cases h
  · rfl
  · rfl
  · simp [apply, updateVotes, hvotes]

theorem inConv_of_handedOn (h : c.handedOn op = some b) :
    b.inConv = c.inConv := by
  obtain ⟨rfl, rfl⟩ | ⟨m, rfl, rfl⟩ | ⟨payload, rfl, -, rfl⟩ := handedOn_cases h
  · rfl
  · rfl
  · exact (ingestVotes_sameDerived c payload).inConv

/-- A call that hands nothing on leaves everyone as they are. -/
theorem inConv_of_handedOn_none (h : c.handedOn op = none) :
    (c.apply op).inConv = c.inConv := by
  cases op with
  | modUpdate mods => rfl
  | recompute => simp [handedOn] at h
  | updateModeration m recompute =>
    cases recompute with
    | true => simp [handedOn] at h
    | false => rfl
  | updateVotes payload recompute =>
    have hsame := (ingestVotes_sameDerived c payload).inConv
    simp only [apply, updateVotes]
    cases recompute with
    | true =>
      have hvotes : payload.votes = [] := by simpa [handedOn] using h
      simp [hvotes]
    | false =>
      split
      · rfl
      · simpa using hsame

private theorem clusterInConvRows_inConv (c : Conversation K) (prevBase : List (Cluster ℤ K))
    (prevGroup : List (ℕ × List (Cluster ℤ K))) (prevSmoother : GroupKSmoother) :
    (c.clusterInConvRows prevBase prevGroup prevSmoother).inConv = c.inConv := by
  unfold clusterInConvRows
  dsimp only
  split <;> rfl

/-- A clustering with projections writes the chosen participants. -/
private theorem computeClusters_inConv (hproj : c.proj ≠ [])
    (prevBase : List (Cluster ℤ K)) (prevGroup : List (ℕ × List (Cluster ℤ K)))
    (prevSmoother : GroupKSmoother) :
    (c.computeClusters prevBase prevGroup prevSmoother).inConv = c.getInConvParticipants := by
  unfold computeClusters
  rw [if_neg (by simpa using hproj)]
  dsimp only
  split
  · rfl
  · exact clusterInConvRows_inConv _ _ _ _

private theorem computePca_getInConvParticipants (c : Conversation K) (prevPca : Option (Pca K)) :
    (c.computePca prevPca).getInConvParticipants = c.getInConvParticipants := by
  unfold computePca
  dsimp only
  split <;> rfl

/-- A recompute of a matrix with cells writes the chosen participants. -/
theorem recompute_inConv (h : c.ratingMat.isEmpty = false) :
    c.recompute.inConv = c.getInConvParticipants := by
  have hindex : c.ratingMat.index ≠ [] := by
    intro hnil
    simp [NamedMat.isEmpty, hnil] at h
  have hproj : (({ c with lastModTimestamp := none } : Conversation K).computePca c.pca).proj ≠ [] :=
    fun hnil => hindex (by
      have := computePca_proj { c with lastModTimestamp := none } c.pca
      rw [hnil] at this
      exact this.symm)
  unfold recompute
  rw [h, if_neg Bool.false_ne_true, (computeCommentPriorities_sameClusters _ _).inConv,
    computeClusters_inConv hproj, computePca_getInConvParticipants]
  rfl

/-- A recompute of a matrix without cells changes nothing. -/
theorem recompute_of_isEmpty (h : c.ratingMat.isEmpty = true) :
    c.recompute = c := by
  rw [recompute, if_pos h]

/-- A call that makes no clustering tick leaves everyone as they are. -/
theorem apply_inConv_of_not_ticksOn (h : ∀ b, ¬ c.TicksOn op b) :
    (c.apply op).inConv = c.inConv := by
  cases hb : c.handedOn op with
  | none => exact inConv_of_handedOn_none hb
  | some b =>
    have hempty : b.ratingMat.isEmpty = true := by
      simpa using fun hf => h b ⟨hb, hf⟩
    rw [apply_of_handedOn hb, recompute_of_isEmpty hempty, inConv_of_handedOn hb]

/-- Whoever is in has a row in the matrix. -/
structure Carried (c : Conversation K) : Prop extends Ticked c where
  participants : ∀ p ∈ c.inConv, p ∈ c.rawRatingMat.index

/-- What a call hands on carries the same participants. -/
theorem Carried.handedOn (h : Carried c) (hb : c.handedOn op = some b) :
    Carried b := by
  obtain ⟨rfl, rfl⟩ | ⟨m, rfl, rfl⟩ | ⟨payload, rfl, -, rfl⟩ := handedOn_cases hb
  · exact h
  · exact ⟨h.toTicked.setModeration m, h.participants⟩
  · refine ⟨h.toTicked.ingestVotes payload, fun p hp => ?_⟩
    rw [(ingestVotes_sameDerived c payload).inConv] at hp
    rw [(ingestVotes_spec h.shape payload).1.index]
    exact mem_appendNew.2 (.inl (h.participants p hp))

/-- One clustering tick. -/
theorem Carried.admits (h : Carried c) (hb : c.TicksOn op b) :
    Admits b (c.apply op).inConv := by
  have hcarried := h.handedOn hb.1
  rw [apply_of_handedOn hb.1, recompute_inConv hb.2]
  exact getInConvParticipants_admits hcarried.labels hcarried.shape.index_nodup
    hcarried.participants

/-- A clustering tick leaves the raw matrix it is handed. -/
theorem TicksOn.rawRatingMat (hb : c.TicksOn op b) :
    (c.apply op).rawRatingMat = b.rawRatingMat := by
  rw [apply_of_handedOn hb.1]
  exact (recompute_sameInputs b).rawRatingMat

theorem Carried.apply (h : Carried c) (op : Op) : Carried (c.apply op) := by
  refine ⟨h.toTicked.apply op, fun p hp => ?_⟩
  by_cases hticks : ∃ b, c.TicksOn op b
  · obtain ⟨b, hb⟩ := hticks
    rw [TicksOn.rawRatingMat hb]
    exact (h.admits hb).participants p hp
  · rw [apply_inConv_of_not_ticksOn (not_exists.1 hticks)] at hp
    rw [(apply_ingested h.shape op).1.index]
    exact mem_appendNew.2 (.inl (h.participants p hp))

theorem run_carried {id ts now : ℤ} {ops : List Op}
    (h : Run Conversation.Step (new id ts now) ops c) : Carried c :=
  h.keeps Carried ⟨Ticked.new id ts now, fun _ hp => absurd hp (Finset.notMem_empty _)⟩
    fun c op c' hc hs => by
      rw [show c' = c.apply op from hs]
      exact hc.apply op

/-- No call loses a participant. After a clustering tick everyone over the threshold is in, and at
least 15 or all participants are; those the greedy floor admits are the top of those left over, and
as many as are missing to 15, or all that remain. -/
theorem inConv_carry_and_floor {id ts now : ℤ} {ops : List Op} {c : Conversation K}
    (hrun : Run Conversation.Step (new id ts now) ops c) (op : Op) :
    c.inConv ⊆ (c.apply op).inConv ∧
    ((∀ b, ¬ c.TicksOn op b) → (c.apply op).inConv = c.inConv) ∧
    ∀ b, c.TicksOn op b →
      let c' := c.apply op
      let admitted := c'.inConv \ b.carriedOrOver
      b.inConv = c.inConv ∧ c'.rawRatingMat = b.rawRatingMat ∧
      (∀ p ∈ c'.rawRatingMat.index,
        min 7 c'.rawRatingMat.columns.length ≤ c'.voteCount p → p ∈ c'.inConv) ∧
      min 15 c'.rawRatingMat.index.length ≤ c'.inConv.card ∧
      (∀ p ∈ admitted, ∀ q ∈ c'.rawRatingMat.index, q ∉ c'.inConv →
        c'.voteCount q ≤ c'.voteCount p) ∧
      admitted.card =
        min (15 - b.carriedOrOver.card) (c'.rawRatingMat.index.length - b.carriedOrOver.card) := by
  have h := run_carried hrun
  refine ⟨?_, apply_inConv_of_not_ticksOn, fun b hb => ?_⟩
  · by_cases hticks : ∃ b, c.TicksOn op b
    · obtain ⟨b, hb⟩ := hticks
      rw [← inConv_of_handedOn hb.1]
      exact Finset.subset_union_left.trans (h.admits hb).carried
    · rw [apply_inConv_of_not_ticksOn (not_exists.1 hticks)]
  · have hadmits := h.admits hb
    have hraw := TicksOn.rawRatingMat hb
    have hvotes : (c.apply op).voteCount = b.voteCount := by
      funext p
      rw [voteCount, hraw, voteCount]
    have hcard := hadmits.card
    refine ⟨inConv_of_handedOn hb.1, hraw, fun p hp hover => hadmits.carried ?_, ?_,
      fun p hp q hq hout => ?_, ?_⟩
    · rw [hraw] at hp hover
      rw [hvotes] at hover
      refine Finset.mem_union_right _ (mem_toFinset.2 (mem_filter.2 ⟨hp, ?_⟩))
      exact decide_eq_true hover
    · rw [hraw]
      omega
    · rw [hraw] at hq
      rw [hvotes]
      obtain ⟨hin, hnew⟩ := Finset.mem_sdiff.1 hp
      exact hadmits.top p hin hnew q hq hout
    · rw [hraw, Finset.card_sdiff_of_subset hadmits.carried]
      omega

/-- Participant 1 votes on both comments, participant 2 on one. -/
def twoVoters : Op :=
  .updateVotes ⟨[⟨some 1, some 5, some (.num 1), some 10⟩, ⟨some 1, some 6, some (.num 1), some 11⟩,
    ⟨some 2, some 5, some (.num 1), some 12⟩], none⟩ true

/-- The floor admits participant 2 on the first tick. -/
theorem inConv_floor_two_voters :
    ∃ c' : Conversation ℚ, c' = (new 1 1 1).apply twoVoters ∧
      min 15 c'.rawRatingMat.index.length ≤ c'.inConv.card := by
  refine ⟨_, rfl, ?_⟩
  have hrun : Run Conversation.Step (new 1 1 1 : Conversation ℚ) []
      (new 1 1 1) := .nil
  have h := (inConv_carry_and_floor hrun twoVoters).2.2 _ ⟨rfl, by decide +kernel⟩
  exact h.2.2.2.1

/-- Only participant 1 is over the threshold; one participant is admitted where 14 are missing. -/
theorem floor_admits_fewer_than_missing :
    ∃ (c : Conversation ℚ) (op : Op) (b : Conversation ℚ),
      (∃ ops, Run Conversation.Step (new 1 1 1) ops c) ∧ c.TicksOn op b ∧
      ((c.apply op).inConv \ b.carriedOrOver).card = 1 ∧ 15 - b.carriedOrOver.card = 14 := by
  refine ⟨new 1 1 1, twoVoters, _, ⟨[], .nil⟩, ⟨rfl, ?_⟩, ?_, ?_⟩
  · decide +kernel
  · decide +kernel
  · decide +kernel

end Polis
