import Polis.Common.OrderedMap
import Polis.Common.Partition
import Polis.Clustering.Rational
import Polis.Conversation.Repness
import Polis.Conversation.State
import Mathlib.Tactic.Positivity

/-!
# A group against the rest

The counts of the rest are those of all clustered voters less those of the group. As every clustered voter is in one
group, they are the sums over the other groups, and the proportions and their tests stay in range.

Reference: `polismath/pca_kmeans_rep/repness.py`.
-/

namespace Polis.Repness

open Clustering List

variable {K : Type*}

/-! ## `_group_comment_vote_counts` -/

/-- A row of `votes_long`; `none` is NaN. -/
structure LongVote where
  participant : ℤ
  comment : ℤ
  vote : Option Vote

/-- The counts of a comment in a group, among all clustered voters, and among the rest of these. -/
structure Counts where
  group_id : ℤ
  comment : ℤ
  na : ℕ
  nd : ℕ
  ns : ℕ
  total_agree : ℕ
  total_disagree : ℕ
  total_votes : ℕ
  other_agree : ℤ
  other_disagree : ℤ
  other_votes : ℤ

/-- The last group that lists a participant has it. -/
def ptpt_to_group (groups : List (Cluster ℤ K)) : OrderedMap ℤ ℤ :=
  .ofWrites Prod.fst Prod.snd (groups.flatMap fun group => group.members.map fun m => (m, group.id))

/-- `dropna`: participant, comment and vote. -/
def votes_only (votes_long : List LongVote) : List (ℤ × ℤ × Vote) :=
  votes_long.filterMap fun v => v.vote.map fun vote => (v.participant, v.comment, vote)

/-- The votes of clustered voters, with their group in place of them. -/
def votes_in_groups (votes_long : List LongVote) (groups : List (Cluster ℤ K)) : List (ℤ × ℤ × Vote) :=
  (votes_only votes_long).filterMap fun v => ((ptpt_to_group groups).get v.1).map fun group_id => (group_id, v.2)

/-- The votes on a comment that are of the kind `p`. -/
def counted (votes : List (ℤ × ℤ × Vote)) (comment : ℤ) (p : Vote → Bool) : ℕ :=
  votes.countP fun v => v.2.1 = comment && p v.2.2

/-- The comments with a vote from anyone: those of `tid_order` in its order, then the others. -/
def all_comments (votes_long : List LongVote) (tid_order : Option (List ℤ)) : List ℤ :=
  let known := appendNew [] ((votes_only votes_long).map (·.2.1))
  match tid_order with
  | none => known
  | some tid_order =>
    let ordered := tid_order.filter (· ∈ known)
    ordered ++ known.filter (· ∉ ordered)

/-- One row: the counts of the group joined with the totals. -/
def countsRow (votes : List (ℤ × ℤ × Vote)) (group_id comment : ℤ) : Counts :=
  let total := counted votes comment
  let n := counted (votes.filter (·.1 = group_id)) comment
  { group_id, comment
    na := n (· = .agree)
    nd := n (· = .disagree)
    ns := n fun _ => true
    total_agree := total (· = .agree)
    total_disagree := total (· = .disagree)
    total_votes := total fun _ => true
    other_agree := total (· = .agree) - n (· = .agree)
    other_disagree := total (· = .disagree) - n (· = .disagree)
    other_votes := total (fun _ => true) - n fun _ => true }

def group_comment_vote_counts (votes_long : List LongVote) (groups : List (Cluster ℤ K))
    (tid_order : Option (List ℤ)) : List Counts :=
  let votes := votes_in_groups votes_long groups
  if (votes_only votes_long).isEmpty || votes.isEmpty then []
  else (groups.map Cluster.id).flatMap fun group_id =>
    (all_comments votes_long tid_order).map fun comment => countsRow votes group_id comment

/-! ## `_comment_stats_from_counts` -/

section Stats

variable [Field K] [LinearOrder K] [Numerics K]

/-- A proportion, with a pseudocount of 2; a half where nobody voted. -/
def smoothed (succ n : ℤ) : K := if n = 0 then 1 / 2 else (succ + 1) / (n + 2)

/-- `prop_test_vectorized` -/
def prop_test (succ n : ℤ) : K := 2 * Numerics.sqrt (n + 1 : K) * ((succ + 1) / (n + 1) - 1 / 2)

def pi_hat (succ_in succ_out pop_in pop_out : ℤ) : K :=
  (succ_in + 1 + (succ_out + 1)) / (pop_in + 1 + (pop_out + 1))

/-- What `se` is the square root of. -/
def seSquared (succ_in succ_out pop_in pop_out : ℤ) : K :=
  let pi_hat : K := pi_hat succ_in succ_out pop_in pop_out
  pi_hat * (1 - pi_hat) * (1 / (pop_in + 1) + 1 / (pop_out + 1))

/-- `two_prop_test_vectorized`: the NaN of a negative square root and the quotient by zero become 0. -/
def two_prop_test (succ_in succ_out pop_in pop_out : ℤ) : K :=
  let se2 : K := seSquared succ_in succ_out pop_in pop_out
  if se2 ≤ 0 then 0
  else ((succ_in + 1) / (pop_in + 1) - (succ_out + 1) / (pop_out + 1)) / Numerics.sqrt se2

/-- A ratio of proportions; 1 where it is no number. -/
def ratio (p other : K) : K := if other = 0 then 1 else p / other

def comment_stats_from_counts (c : Counts) : Row K :=
  let pa := smoothed c.na c.ns
  let pd := smoothed c.nd c.ns
  let pat := prop_test c.na c.ns
  let pdt := prop_test c.nd c.ns
  let ra := ratio pa (smoothed c.other_agree c.other_votes)
  let rd := ratio pd (smoothed c.other_disagree c.other_votes)
  let rat := two_prop_test c.na c.other_agree c.ns c.other_votes
  let rdt := two_prop_test c.nd c.other_disagree c.ns c.other_votes
  { c with
    pa, pd, pat, pdt, ra, rd, rat, rdt
    agree_metric := ra * rat * pa * pat
    disagree_metric := rd * rdt * pd * pdt }

end Stats

/-! ## Membership -/

/-- The votes of the group's members on a comment that are of the kind `p`. -/
def cast (votes_long : List LongVote) (comment : ℤ) (p : Vote → Bool) (group : Cluster ℤ K) : ℕ :=
  votes_long.countP fun v => v.participant ∈ group.members && v.comment = comment && v.vote.any p

variable {votes_long : List LongVote} {groups : List (Cluster ℤ K)} {group : Cluster ℤ K} {comment : ℤ}
variable {votes : List (ℤ × ℤ × Vote)} {tid_order : Option (List ℤ)}

theorem ptpt_to_group_mem {m i : ℤ} (h : (ptpt_to_group groups).get m = some i) :
    ∃ group ∈ groups, m ∈ group.members ∧ group.id = i := by
  rw [ptpt_to_group, OrderedMap.get_ofWrites, Option.map_eq_some_iff] at h
  obtain ⟨w, hw, rfl⟩ := h
  obtain ⟨hmem, hm⟩ := lastHit_some hw
  obtain ⟨group, hgroup, hw⟩ := mem_flatMap.1 hmem
  obtain ⟨m', hm', rfl⟩ := mem_map.1 hw
  exact ⟨group, hgroup, by simpa using of_decide_eq_true hm ▸ hm', rfl⟩

theorem ptpt_to_group_isSome {m : ℤ} (hgroup : group ∈ groups) (hm : m ∈ group.members) :
    ∃ i, (ptpt_to_group groups).get m = some i := by
  rw [← Option.isSome_iff_exists, OrderedMap.get_isSome, OrderedMap.has, decide_eq_true_eq, ptpt_to_group,
    OrderedMap.mem_keys_ofWrites]
  exact ⟨(m, group.id), mem_flatMap.2 ⟨group, hgroup, mem_map.2 ⟨m, hm, rfl⟩⟩, rfl⟩

/-- A member of a group cast a vote. -/
def Clustered (votes_long : List LongVote) (groups : List (Cluster ℤ K)) : Prop :=
  ∃ v ∈ votes_long, v.vote.isSome ∧ ∃ group ∈ groups, v.participant ∈ group.members

theorem votes_in_groups_eq_nil : votes_in_groups votes_long groups = [] ↔ ¬Clustered votes_long groups := by
  constructor
  · rintro hnil ⟨v, hv, hvote, group, hgroup, hm⟩
    obtain ⟨vote, hvote⟩ := Option.isSome_iff_exists.1 hvote
    obtain ⟨i, hi⟩ := ptpt_to_group_isSome hgroup hm
    have hmem : (i, v.comment, vote) ∈ votes_in_groups votes_long groups := mem_filterMap.2
      ⟨(v.participant, v.comment, vote), mem_filterMap.2 ⟨v, hv, by simp [hvote]⟩, by simp [hi]⟩
    simp [hnil] at hmem
  · refine fun hnot => eq_nil_iff_forall_not_mem.2 fun w hw => hnot ?_
    obtain ⟨x, hx, hw⟩ := mem_filterMap.1 hw
    obtain ⟨v, hv, hx⟩ := mem_filterMap.1 hx
    obtain ⟨vote, hvote, rfl⟩ := Option.map_eq_some_iff.1 hx
    obtain ⟨i, hi, -⟩ := Option.map_eq_some_iff.1 hw
    obtain ⟨group, hgroup, hm, -⟩ := ptpt_to_group_mem hi
    exact ⟨v, hv, hvote ▸ rfl, group, hgroup, hm⟩

theorem mem_all_comments {v : LongVote} (hv : v ∈ votes_long) (hvote : v.vote.isSome) :
    v.comment ∈ all_comments votes_long tid_order := by
  obtain ⟨vote, hvote⟩ := Option.isSome_iff_exists.1 hvote
  have hknown : v.comment ∈ appendNew [] ((votes_only votes_long).map (·.2.1)) := mem_appendNew.2 (.inr
    (mem_map.2 ⟨(v.participant, v.comment, vote), mem_filterMap.2 ⟨v, hv, by simp [hvote]⟩, rfl⟩))
  unfold all_comments
  cases tid_order with
  | none => exact hknown
  | some order => simp [hknown, em]

/-- Disjoint groups with distinct ids. -/
structure Apart (groups : List (Cluster ℤ K)) : Prop where
  ids_nodup : (groups.map Cluster.id).Nodup
  disjoint : groups.Pairwise fun g h => g.members.Disjoint h.members

theorem Apart.get_eq_some (h : Apart groups) (hgroup : group ∈ groups) (m : ℤ) :
    (ptpt_to_group groups).get m = some group.id ↔ m ∈ group.members := by
  constructor
  · intro hget
    obtain ⟨other, hother, hm, hid⟩ := ptpt_to_group_mem hget
    rwa [← inj_on_of_nodup_map h.ids_nodup hother hgroup hid]
  · intro hm
    obtain ⟨i, hi⟩ := ptpt_to_group_isSome hgroup hm
    obtain ⟨other, hother, hm', rfl⟩ := ptpt_to_group_mem hi
    rw [hi]
    by_contra hne
    have : Std.Symm fun g h : Cluster ℤ K => g.members.Disjoint h.members := ⟨fun _ _ hd => hd.symm⟩
    exact h.disjoint.forall hother hgroup (fun heq => hne (by rw [heq])) hm' hm

/-- The votes under a group's id are those of its members. -/
theorem Apart.counted_eq (h : Apart groups) (hgroup : group ∈ groups) (p : Vote → Bool) :
    counted ((votes_in_groups votes_long groups).filter (·.1 = group.id)) comment p =
      cast votes_long comment p group := by
  unfold counted votes_in_groups votes_only cast
  rw [countP_filter, countP_filterMap, countP_filterMap]
  refine countP_congr fun v _ => ?_
  have hget := h.get_eq_some hgroup v.participant
  cases v.vote with
  | none => simp
  | some vote =>
    cases hm : (ptpt_to_group groups).get v.participant with
    | none => simp [hm, ← hget]
    | some i => simp [hm, ← hget, and_comm, and_left_comm]

/-! ## The rest -/

/-- The difference of the counts is the count of the rest. -/
theorem counted_sub (group_id : ℤ) (p : Vote → Bool) :
    (counted votes comment p : ℤ) - counted (votes.filter (·.1 = group_id)) comment p =
      counted (votes.filter (·.1 ≠ group_id)) comment p := by
  rw [sub_eq_iff_eq_add, ← Nat.cast_add, Nat.cast_inj, add_comm]
  simpa [counted] using countP_eq_countP_filter_add votes _ (·.1 = group_id)

theorem counted_le (votes : List (ℤ × ℤ × Vote)) (comment : ℤ) :
    counted votes comment (· = .agree) + counted votes comment (· = .disagree) ≤
      counted votes comment fun _ => true := by
  induction votes with
  | nil => simp [counted]
  | cons v votes ih =>
    obtain ⟨g, c, vote⟩ := v
    simp only [counted, countP_cons] at ih ⊢
    by_cases hc : c = comment
    · cases vote <;> simp [hc] at ih ⊢ <;> omega
    · simpa [hc] using ih

/-- The counts of the rest are summed over the other groups. -/
theorem Apart.counted_rest (h : Apart groups) (p : Vote → Bool) :
    counted ((votes_in_groups votes_long groups).filter (·.1 ≠ group.id)) comment p =
      ((groups.filter (·.id ≠ group.id)).map (cast votes_long comment p)).sum := by
  set rest := (votes_in_groups votes_long groups).filter (·.1 ≠ group.id) with hrest
  have hkeys : ∀ v ∈ rest, v.1 ∈ (groups.filter (·.id ≠ group.id)).map Cluster.id := by
    intro v hv
    obtain ⟨hv, hne⟩ := mem_filter.1 hv
    obtain ⟨w, -, hw⟩ := mem_filterMap.1 hv
    obtain ⟨i, hi, rfl⟩ := Option.map_eq_some_iff.1 hw
    obtain ⟨other, hother, -, rfl⟩ := ptpt_to_group_mem hi
    exact mem_map.2 ⟨other, mem_filter.2 ⟨hother, hne⟩, rfl⟩
  have hperm := flatMap_fibers_perm Prod.fst (h.ids_nodup.sublist (filter_sublist.map _)) hkeys
  rw [counted, ← hperm.countP_eq, countP_flatMap, map_map]
  refine congrArg List.sum (map_congr_left fun other hother => ?_)
  obtain ⟨hother, hne⟩ := mem_filter.1 hother
  have hfilter : rest.filter (·.1 = other.id) = (votes_in_groups votes_long groups).filter (·.1 = other.id) := by
    rw [hrest, filter_filter]
    refine filter_congr fun v _ => ?_
    by_cases hv : v.1 = other.id <;> simp_all
  rw [← h.counted_eq hother, ← hfilter]
  rfl

/-! ## Proportions -/

section Stats

variable [Field K] [LinearOrder K] [IsStrictOrderedRing K]

theorem smoothed_add_le {a d n : ℤ} (h : a + d ≤ n) (hn : 0 ≤ n) : (smoothed a n + smoothed d n : K) ≤ 1 := by
  unfold smoothed
  split
  · exact (add_halves 1).le
  · have hpos : (0 : K) < n + 2 := by positivity
    have hle : (a + d : K) ≤ n := mod_cast h
    rw [← add_div, div_le_one hpos]
    linarith

/-- Both proportions are proportions, so the square root is of no negative number. -/
theorem pi_hat_range {a b n m : ℤ} (ha : 0 ≤ a) (hb : 0 ≤ b) (han : a ≤ n) (hbm : b ≤ m) :
    0 < (pi_hat a b n m : K) ∧ (pi_hat a b n m : K) ≤ 1 ∧ 0 ≤ (seSquared a b n m : K) := by
  have ha' : (0 : K) ≤ a := Int.cast_nonneg ha
  have hb' : (0 : K) ≤ b := Int.cast_nonneg hb
  have han' : (a : K) ≤ n := Int.cast_le.2 han
  have hbm' : (b : K) ≤ m := Int.cast_le.2 hbm
  have hn : (0 : K) ≤ n := ha'.trans han'
  have hm : (0 : K) ≤ m := hb'.trans hbm'
  have hpos : 0 < (pi_hat a b n m : K) := by
    unfold pi_hat
    positivity
  have hle : (pi_hat a b n m : K) ≤ 1 := by
    unfold pi_hat
    rw [div_le_one (by positivity)]
    linarith
  exact ⟨hpos, hle, mul_nonneg (mul_nonneg hpos.le (sub_nonneg.2 hle)) (by positivity)⟩

variable [Numerics K]

/-- What is counted: agreements, disagreements, all votes. -/
def kinds : List (Vote → Bool) := [(· = .agree), (· = .disagree), fun _ => true]

/-- A row against the votes that the members of the groups cast, and its statistics in range. -/
structure RowOk (votes_long : List LongVote) (groups : List (Cluster ℤ K)) (c : Counts) (group : Cluster ℤ K) :
    Prop where
  group_id : c.group_id = group.id
  counts : [c.na, c.nd, c.ns] = kinds.map fun p => cast votes_long c.comment p group
  rest : [c.other_agree, c.other_disagree, c.other_votes] = kinds.map fun p =>
    (((groups.filter (·.id ≠ group.id)).map (cast votes_long c.comment p)).sum : ℤ)
  le_ns : c.na + c.nd ≤ c.ns
  le_other : c.other_agree + c.other_disagree ≤ c.other_votes
  proportions : (comment_stats_from_counts c : Row K).pa + (comment_stats_from_counts c : Row K).pd ≤ 1
  tests : ∀ t ∈ [(c.na, c.other_agree), (c.nd, c.other_disagree)],
    0 < (pi_hat t.1 t.2 c.ns c.other_votes : K) ∧ (pi_hat t.1 t.2 c.ns c.other_votes : K) ≤ 1 ∧
    0 ≤ (seSquared t.1 t.2 c.ns c.other_votes : K)

theorem Apart.rowOk (h : Apart groups) (hgroup : group ∈ groups) (comment : ℤ) :
    RowOk votes_long groups (countsRow (votes_in_groups votes_long groups) group.id comment) group := by
  have hn := counted_le ((votes_in_groups votes_long groups).filter (·.1 = group.id)) comment
  have hrest := counted_le ((votes_in_groups votes_long groups).filter (·.1 ≠ group.id)) comment
  constructor
  case group_id => rfl
  case counts => simp [kinds, countsRow, h.counted_eq hgroup]
  case rest => simp only [kinds, countsRow, counted_sub, h.counted_rest, map_cons, map_nil]
  case le_ns => exact hn
  case le_other => simpa only [countsRow, counted_sub] using mod_cast hrest
  case proportions => exact smoothed_add_le (mod_cast hn) (Int.natCast_nonneg _)
  case tests =>
    simp only [countsRow, counted_sub, forall_mem_cons, not_mem_nil, forall_false, implies_true, and_true]
    exact ⟨pi_hat_range (by omega) (by omega) (by omega) (by omega),
      pi_hat_range (by omega) (by omega) (by omega) (by omega)⟩

/-- Where a member of a group voted, every group has a row for every comment with a vote, and every row counts what
it says. Where none did, there are no rows. -/
theorem group_comment_vote_counts_spec (h : Apart groups) :
    let rows := group_comment_vote_counts votes_long groups tid_order
    (Clustered votes_long groups → ∀ group ∈ groups, ∀ v ∈ votes_long, v.vote.isSome →
      ∃ c ∈ rows, c.group_id = group.id ∧ c.comment = v.comment) ∧
    (¬Clustered votes_long groups → rows = []) ∧ ∀ c ∈ rows, ∃ group ∈ groups, RowOk votes_long groups c group := by
  refine ⟨fun hvotes group hgroup v hv hvote => ?_, fun hnone => ?_, fun c hc => ?_⟩
  · have hne : (votes_in_groups votes_long groups).isEmpty = false := by
      rwa [isEmpty_eq_false_iff, ne_eq, votes_in_groups_eq_nil, not_not]
    have honly : (votes_only votes_long).isEmpty = false := by
      rw [isEmpty_eq_false_iff] at hne ⊢
      exact fun hnil => hne (by rw [votes_in_groups, hnil, filterMap_nil])
    refine ⟨countsRow (votes_in_groups votes_long groups) group.id v.comment, ?_, rfl, rfl⟩
    simp only [group_comment_vote_counts, hne, honly]
    exact mem_flatMap.2 ⟨_, mem_map_of_mem hgroup, mem_map_of_mem (mem_all_comments hv hvote)⟩
  · simp [group_comment_vote_counts, votes_in_groups_eq_nil.2 hnone]
  · unfold group_comment_vote_counts at hc
    dsimp only at hc
    split at hc
    · cases hc
    · obtain ⟨_, hi, hc⟩ := mem_flatMap.1 hc
      obtain ⟨group, hgroup, rfl⟩ := mem_map.1 hi
      obtain ⟨comment, -, rfl⟩ := mem_map.1 hc
      exact ⟨group, hgroup, h.rowOk hgroup comment⟩

/-- Two groups of one member each, and a voter in neither. -/
theorem group_comment_vote_counts_pair :
    let groups : List (Cluster ℤ ℚ) := [⟨0, [5], []⟩, ⟨1, [6], []⟩]
    ∀ c ∈ group_comment_vote_counts [⟨5, 1, some .agree⟩, ⟨6, 1, some .pass⟩, ⟨7, 1, some .agree⟩] groups none,
      c.other_agree + c.other_disagree ≤ c.other_votes := by
  intro groups c hc
  obtain ⟨_, -, hok⟩ := (group_comment_vote_counts_spec ⟨by simp [groups], by simp [groups]⟩).2.2 c hc
  exact hok.le_other

/-- A vote of no clustered voter: its comment has no row. -/
theorem group_comment_vote_counts_unclustered : ¬∀ (votes_long : List LongVote) (groups : List (Cluster ℤ ℚ)),
    Apart groups → ∀ group ∈ groups, ∀ v ∈ votes_long, v.vote.isSome →
      ∃ c ∈ group_comment_vote_counts votes_long groups none, c.group_id = group.id ∧ c.comment = v.comment := by
  intro h
  obtain ⟨c, hc, -⟩ := h [⟨7, 1, some .agree⟩] [⟨0, [5], []⟩] ⟨by simp, by simp⟩ _ mem_cons_self _ mem_cons_self rfl
  cases hc

end Stats

end Polis.Repness
