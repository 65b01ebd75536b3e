import Polis.Clustering.GroupKSmoother
import Mathlib.Data.List.DropRight

/-!
# What the smoother keeps

Over a whole run the counter is the length of the streak of the last best `k`, and the smoothed `k`
moves away from a value that is still offered only to one that has been best for `buffer` ticks.

Reference: `polismath/pca_kmeans_rep/group_k_smoother.py`.
-/

namespace Polis.Clustering

open List Option

variable {K : Type*} [LinearOrder K]

/-! ## Streaks -/

/-- How often the list ends in `a`. -/
def streak {α : Type*} [DecidableEq α] (a : α) (l : List α) : ℕ :=
  (l.rtakeWhile fun b => b = a).length

variable {α : Type*} [DecidableEq α] {a b : α} {l : List α}

theorem streak_concat_self : streak a (l ++ [a]) = streak a l + 1 := by
  rw [streak, rtakeWhile_concat_pos _ _ _ (by simp), length_append, length_singleton]
  rfl

theorem streak_concat_of_ne (h : b ≠ a) : streak a (l ++ [b]) = 0 := by
  rw [streak, rtakeWhile_concat_neg _ _ _ (by simpa using h), length_nil]

/-- Up to the length of the streak the last elements are all the same. -/
theorem eq_of_mem_rtake {n : ℕ} (h : n ≤ streak a l) : ∀ b ∈ l.rtake n, b = a := by
  induction l using List.reverseRecOn generalizing n with
  | nil => simp
  | append_singleton l c ih =>
    cases n with
    | zero => simp
    | succ n =>
      by_cases hc : c = a
      · subst hc
        rw [streak_concat_self] at h
        intro b hb
        rw [rtake_concat_succ, mem_append, mem_singleton] at hb
        exact hb.elim (ih (Nat.le_of_succ_le_succ h) b) id
      · rw [streak_concat_of_ne hc] at h
        omega

/-! ## Runs -/

/-- The smoother after a run of ticks from the empty state; `none` when one of the maps is empty. -/
def GroupKSmoother.feed (buffer : ℕ) (maps : List (List (ℕ × K))) : Option GroupKSmoother :=
  maps.foldlM (fun state m => (groupKSmootherUpdate state m buffer).map Prod.fst) {}

/-- The state of a run: the best `k` of the latest tick, and for how many ticks it has been best. -/
structure Counts (maps : List (List (ℕ × K))) (state : GroupKSmoother) : Prop where
  lastK : state.lastK = maps.getLast?.bind argmaxSilhouetteHigherKWins
  lastKCount : state.lastKCount = streak state.lastK (maps.map argmaxSilhouetteHigherKWins)

theorem Counts.nil : Counts ([] : List (List (ℕ × K))) {} := ⟨rfl, rfl⟩

/-- A tick with another best `k` ends the streak of every other value. -/
private theorem Counts.streak_eq_zero {maps : List (List (ℕ × K))} {state : GroupKSmoother}
    (h : Counts maps state) {k : ℕ} (hk : state.lastK ≠ some k) :
    streak (some k) (maps.map argmaxSilhouetteHigherKWins) = 0 := by
  have hlast := h.lastK
  induction maps using List.reverseRecOn with
  | nil => rfl
  | append_singleton maps m _ =>
    rw [getLast?_concat, bind_some] at hlast
    rw [map_append, map_singleton]
    exact streak_concat_of_ne (hlast ▸ hk)

/-- One tick: it counts on, answers with a key, and leaves a value that is still a key only for one
whose streak fills the buffer. -/
theorem Counts.update {maps : List (List (ℕ × K))} {prev : GroupKSmoother} (h : Counts maps prev)
    {m : List (ℕ × K)} {buffer : ℕ} {state : GroupKSmoother} {k : ℕ}
    (hupdate : groupKSmootherUpdate prev m buffer = some (state, k)) :
    Counts (maps ++ [m]) state ∧ state.smoothedK = some k ∧ k ∈ m.map Prod.fst ∧
    ∀ p, prev.smoothedK = some p → p ∈ m.map Prod.fst → k ≠ p →
      state.lastK = some k ∧ buffer ≤ state.lastKCount := by
  unfold groupKSmootherUpdate at hupdate
  cases hbest : argmaxSilhouetteHigherKWins m with
  | none => simp [hbest] at hupdate
  | some thisK =>
    have hkey : thisK ∈ m.map Prod.fst := by
      have hne : m ≠ [] := by
        rintro rfl
        simp [argmaxSilhouetteHigherKWins] at hbest
      obtain ⟨k', hk', hmem⟩ := argmaxSilhouetteHigherKWins_mem hne
      rw [hbest] at hk'
      exact Option.some.inj hk' ▸ hmem
    simp only [hbest, Option.some.injEq, Prod.mk.injEq] at hupdate
    obtain ⟨rfl, rfl⟩ := hupdate
    refine ⟨⟨?_, ?_⟩, rfl, ?_, fun p hp hpkey hne => ?_⟩
    · rw [getLast?_concat, bind_some, hbest]
    · rw [map_append, map_singleton, hbest, streak_concat_self]
      by_cases hsame : prev.lastK = some thisK
      · rw [if_pos hsame, h.lastKCount, hsame]
      · rw [if_neg hsame, h.streak_eq_zero hsame]
    · generalize (if buffer ≤ _ then thisK else _ : ℕ) = smoothedK
      by_cases hin : smoothedK ∈ m.map Prod.fst
      · rwa [if_pos hin]
      · rwa [if_neg hin]
    · by_cases hfull : buffer ≤ if prev.lastK = some thisK then prev.lastKCount + 1 else 1
      · simp only [if_pos hfull, if_pos hkey]
        exact ⟨trivial, hfull⟩
      · -- below the buffer the carried value stays, since it is a key
        simp [if_neg hfull, hp, hpkey] at hne

theorem feed_concat (buffer : ℕ) (maps : List (List (ℕ × K))) (m : List (ℕ × K)) :
    GroupKSmoother.feed buffer (maps ++ [m]) =
      (GroupKSmoother.feed buffer maps).bind fun state =>
        (groupKSmootherUpdate state m buffer).map Prod.fst := by
  unfold GroupKSmoother.feed
  rw [foldlM_append]
  refine congrArg _ (funext fun state => ?_)
  simp [foldlM_cons]

/-- A run of non-empty maps reaches a state that counts. -/
theorem feed_counts (buffer : ℕ) (maps : List (List (ℕ × K))) (hne : ∀ m ∈ maps, m ≠ []) :
    ∃ state, GroupKSmoother.feed buffer maps = some state ∧ Counts maps state := by
  induction maps using List.reverseRecOn with
  | nil => exact ⟨{}, rfl, .nil⟩
  | append_singleton maps m ih =>
    obtain ⟨prev, hfeed, hprev⟩ := ih fun m hm => hne m (mem_append_left _ hm)
    obtain ⟨state, k, hupdate, -⟩ := groupKSmootherUpdate_mem prev buffer (hne m (by simp))
    refine ⟨state, ?_, (hprev.update hupdate).1⟩
    rw [feed_concat, hfeed, bind_some, hupdate]
    rfl

/-- At every tick of a run of non-empty maps: the answer is a key of the map, the counter is the
length of the streak of the argmax, and an answer that leaves a value still on offer has been the
argmax of the last `buffer` ticks. -/
theorem groupKSmoother_run (buffer : ℕ) (maps : List (List (ℕ × K))) (m : List (ℕ × K))
    (hne : ∀ m' ∈ maps ++ [m], m' ≠ []) :
    ∃ prev state k, GroupKSmoother.feed buffer maps = some prev ∧
      groupKSmootherUpdate prev m buffer = some (state, k) ∧
      state.smoothedK = some k ∧ k ∈ m.map Prod.fst ∧
      (∃ best, state.lastK = some best ∧ IsArgmax m best) ∧
      (∀ m' ∈ maps ++ [m], ∀ best, argmaxSilhouetteHigherKWins m' = some best → IsArgmax m' best) ∧
      state.lastKCount =
        streak state.lastK ((maps ++ [m]).map argmaxSilhouetteHigherKWins) ∧
      ∀ p, prev.smoothedK = some p → p ∈ m.map Prod.fst → k ≠ p →
        buffer ≤ (maps ++ [m]).length ∧
        ∀ best ∈ ((maps ++ [m]).map argmaxSilhouetteHigherKWins).rtake buffer, best = some k := by
  obtain ⟨prev, hfeed, hprev⟩ := feed_counts buffer maps fun m' hm' =>
    hne m' (mem_append_left _ hm')
  obtain ⟨state, k, hupdate, -⟩ := groupKSmootherUpdate_mem prev buffer (hne m (by simp))
  obtain ⟨hcounts, hsmoothed, hkey, hmove⟩ := hprev.update hupdate
  have hargmax : ∀ m' ∈ maps ++ [m], ∀ best, argmaxSilhouetteHigherKWins m' = some best →
      IsArgmax m' best := by
    intro m' hm' best hbest
    obtain ⟨best', hbest', his⟩ := argmaxSilhouetteHigherKWins_isArgmax (hne m' hm')
    rw [hbest] at hbest'
    exact Option.some.inj hbest' ▸ his
  refine ⟨prev, state, k, hfeed, hupdate, hsmoothed, hkey, ?_, hargmax, hcounts.lastKCount,
    fun p hp hpkey hkp => ?_⟩
  · obtain ⟨best, hbest, his⟩ := argmaxSilhouetteHigherKWins_isArgmax (hne m (by simp))
    refine ⟨best, ?_, his⟩
    rw [hcounts.lastK, getLast?_concat, bind_some, hbest]
  · obtain ⟨hlast, hfull⟩ := hmove p hp hpkey hkp
    rw [hcounts.lastKCount, hlast] at hfull
    refine ⟨hfull.trans ?_, eq_of_mem_rtake hfull⟩
    have hlen := (rtakeWhile_suffix (fun b => b = some k)
      ((maps ++ [m]).map argmaxSilhouetteHigherKWins)).length_le
    simpa [streak] using hlen

/-- `k = 3` ties with `2` at the second tick and wins; two ticks of it fill the buffer. -/
theorem groupKSmoother_run_tie : ∃ prev state k,
    GroupKSmoother.feed 2 [[(2, 5)], [(2, 5), (3, 5)]] = some prev ∧
      groupKSmootherUpdate prev [(2, 1), (3, 4)] 2 = some (state, k) ∧
      state.smoothedK = some k ∧ k ∈ [2, 3] := by
  obtain ⟨prev, state, k, hfeed, hupdate, hsmoothed, hkey, -⟩ :=
    groupKSmoother_run 2 [[(2, 5)], [(2, 5), (3, 5)]] [(2, 1), (3, 4)] (by decide)
  exact ⟨prev, state, k, hfeed, hupdate, hsmoothed, hkey⟩

end Polis.Clustering
