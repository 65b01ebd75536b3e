import Polis.Common.Ranking
import Polis.Conversation.VoteStatsTheorems
import Polis.Clustering.RealNumerics

/-!
# Consensus comments

The comments that the whole conversation agrees with, and those that it disagrees with: on each side the
five of the greatest product of smoothed share and test, among those that pass the thresholds.

Reference: `delphi/polismath/pca_kmeans_rep/repness.py`.
-/

namespace Polis.Consensus

open Clustering List Function

inductive Side
  | agree
  | disagree
deriving DecidableEq, Repr

/-- A row of `consensus_stats_df`: per side the count, the smoothed share and the test. -/
structure Row (K : Type*) where
  tid : ℤ
  na : ℕ
  nd : ℕ
  ns : ℕ
  pa : K
  pd : K
  pat : K
  pdt : K
deriving DecidableEq

/-- `{tid, n-success, n-trials, p-success, p-test}` -/
structure Entry (K : Type*) where
  tid : ℤ
  nSuccess : ℕ
  nTrials : ℕ
  pSuccess : K
  pTest : K
deriving DecidableEq

section Model

variable {K : Type*} [Field K] [LinearOrder K] [Numerics K]

def Z_90 : K := 12816 / 10000

/-- `prop_test_vectorized` -/
def prop_test (succ n : ℕ) : K := 2 * Numerics.sqrt ((n : K) + 1) * (((succ : K) + 1) / ((n : K) + 1) - 1 / 2)

/-- The share with `PSEUDO_COUNT` smoothing; a half where nobody voted. -/
def smoothed (succ n : ℕ) : K := if n = 0 then 1 / 2 else ((succ : K) + 1) / ((n : K) + 2)

/-- The statistics of one column. -/
def stats (mat : NamedMat Vote) (tid : ℤ) : Row K :=
  let votes := mat.index.map (mat.cell · tid)
  let na := votes.count (some .agree)
  let nd := votes.count (some .disagree)
  let ns := (votes.filter Option.isSome).length
  { tid, na, nd, ns, pa := smoothed na ns, pd := smoothed nd ns, pat := prop_test na ns, pdt := prop_test nd ns }

/-- No `mod_out` is the empty one. -/
def consensus_stats_df (mat : NamedMat Vote) (mod_out : List ℤ) : List (Row K) :=
  (mat.columns.map (stats mat)).filter fun row => row.tid ∉ mod_out

/-- `_agree_entry` and `_disagree_entry` -/
def entry (row : Row K) : Side → Entry K
  | .agree => ⟨row.tid, row.na, row.ns, row.pa, row.pat⟩
  | .disagree => ⟨row.tid, row.nd, row.ns, row.pd, row.pdt⟩

/-- `am` and `dm` -/
def Entry.score (e : Entry K) : K := e.pSuccess * e.pTest

/-- `agree_filter` and `disagree_filter` -/
def Entry.passes (e : Entry K) : Bool := 1 / 2 < e.pSuccess && Z_90 < e.pTest

/-- The five entries of one side; of an empty frame there are none. -/
def top (cons_stats : List (Row K)) (side : Side) : List (Entry K) :=
  ranked Entry.score 5 ((cons_stats.map (entry · side)).filter Entry.passes)

/-- `select_consensus_comments_df`: the list of each side. -/
def select_consensus_comments_df (cons_stats : List (Row K)) : Side → List (Entry K) := top cons_stats

end Model

/-! ## The statement -/

/-- The comments that a side may list: in the matrix, not moderated out, past both thresholds. -/
def Eligible {K : Type*} [Field K] [LinearOrder K] [Numerics K] (mat : NamedMat Vote) (mod_out : List ℤ)
    (side : Side) (tid : ℤ) : Prop :=
  tid ∈ mat.columns ∧ tid ∉ mod_out ∧ 1 / 2 < (entry (stats mat tid) side : Entry K).pSuccess ∧
    Z_90 < (entry (stats mat tid) side : Entry K).pTest

/-- A list is the top of the eligible comments of a side. -/
structure TopOf (mat : NamedMat Vote) (mod_out : List ℤ) (side : Side) [RealNumerics] (l : List (Entry ℝ)) :
    Prop where
  /-- The entries are those of eligible comments, none of them twice. -/
  eligible : ∀ e ∈ l, Eligible (K := ℝ) mat mod_out side e.tid ∧ e = entry (stats mat e.tid) side
  once : mat.columns.Nodup → (l.map Entry.tid).Nodup
  length_le : l.length ≤ 5
  sorted : l.Pairwise fun a b => b.score ≤ a.score
  /-- An eligible comment is left out only of a full list, whose entries score no less. -/
  top : ∀ tid, Eligible (K := ℝ) mat mod_out side tid → tid ∉ l.map Entry.tid →
    l.length = 5 ∧ ∀ e ∈ l, (entry (stats mat tid) side : Entry ℝ).score ≤ e.score

/-- The consensus of a vote matrix: each side lists the top of its eligible comments, and no comment is
on both. -/
structure Consensus (mat : NamedMat Vote) (mod_out : List ℤ) [RealNumerics] (l : Side → List (Entry ℝ)) :
    Prop where
  topOf : ∀ side, TopOf mat mod_out side (l side)
  disjoint : ∀ e ∈ l .agree, ∀ e' ∈ l .disagree, e.tid ≠ e'.tid

/-! ## The two sides -/

variable [RealNumerics] {mat : NamedMat Vote} {mod_out : List ℤ} {side : Side} {tid : ℤ}

/-- More than a half is more than half of the smoothed votes; where nobody voted it is a half. -/
theorem lt_of_half_lt_smoothed {succ n : ℕ} (h : 1 / 2 < (smoothed succ n : ℝ)) : n < 2 * succ := by
  unfold smoothed at h
  split at h
  · exact absurd h (lt_irrefl _)
  · rw [div_lt_div_iff₀ (by positivity) (by positivity)] at h
    have hlt : (n : ℝ) < 2 * succ := by linarith
    exact_mod_cast hlt

/-- A comment past a half on both sides would have more sided votes than votes. -/
theorem not_both (hagree : Eligible (K := ℝ) mat mod_out .agree tid)
    (hdisagree : Eligible (K := ℝ) mat mod_out .disagree tid) : False := by
  have hvotes := count_votes (mat.index.map (mat.cell · tid))
  have hna := lt_of_half_lt_smoothed hagree.2.2.1
  have hnd := lt_of_half_lt_smoothed hdisagree.2.2.1
  omega

@[simp] theorem entry_tid (side : Side) (row : Row ℝ) : (entry row side).tid = row.tid := by
  cases side <;> rfl

theorem mem_candidates {e : Entry ℝ} : e ∈ ((consensus_stats_df mat mod_out).map (entry · side)).filter Entry.passes ↔
    Eligible (K := ℝ) mat mod_out side e.tid ∧ e = entry (stats mat e.tid) side := by
  simp only [consensus_stats_df, mem_filter, mem_map, Entry.passes, Bool.and_eq_true,
    decide_eq_true_eq, Eligible]
  constructor
  · rintro ⟨⟨_, ⟨⟨t, ht, rfl⟩, hout⟩, rfl⟩, hpasses⟩
    simp only [entry_tid]
    exact ⟨⟨ht, hout, hpasses⟩, rfl⟩
  · rintro ⟨⟨ht, hout, hpasses⟩, he⟩
    exact ⟨⟨_, ⟨⟨e.tid, ht, rfl⟩, hout⟩, he.symm⟩, he ▸ hpasses⟩

theorem top_spec (mat : NamedMat Vote) (mod_out : List ℤ) (side : Side) :
    TopOf mat mod_out side (top (consensus_stats_df mat mod_out) side) where
  eligible e he := mem_candidates.1 (mem_of_mem_ranked he)
  once hnodup := by
    have htids : (mat.columns.map (stats mat)).map (Row.tid (K := ℝ)) = mat.columns := by
      simp [comp_def, stats]
    refine ranked_map_nodup (List.Nodup.sublist (filter_sublist.map _) ?_)
    rw [map_map]
    simp only [comp_def, entry_tid]
    exact List.Nodup.sublist (filter_sublist.map _) (htids.symm ▸ hnodup)
  length_le := length_ranked_le
  sorted := ranked_pairwise
  top tid htid hout := by
    have hmem : entry (stats mat tid) side ∈
        ((consensus_stats_df mat mod_out).map (entry (K := ℝ) · side)).filter Entry.passes :=
      mem_candidates.2 (by simpa [stats] using htid)
    have hnot : entry (stats mat tid) side ∉ top (K := ℝ) (consensus_stats_df mat mod_out) side := fun h =>
      hout (mem_map.2 ⟨_, h, by simp [stats]⟩)
    exact ⟨length_ranked_of_notMem hmem hnot, fun e he => ranked_le he hmem hnot⟩

/-- The selection over the statistics of a vote matrix is its consensus. -/
theorem select_consensus_comments_df_spec (mat : NamedMat Vote) (mod_out : List ℤ) :
    Consensus mat mod_out (select_consensus_comments_df (consensus_stats_df mat mod_out)) where
  topOf := top_spec mat mod_out
  disjoint e he e' he' heq :=
    not_both ((top_spec mat mod_out .agree).eligible e he).1
      (heq ▸ ((top_spec mat mod_out .disagree).eligible e' he').1)

end Polis.Consensus
