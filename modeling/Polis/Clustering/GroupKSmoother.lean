import Mathlib.Data.List.Sort
import Mathlib.Data.Finset.Defs

/-!
# The group-K smoother

Reference: `polismath/pca_kmeans_rep/group_k_smoother.py`.
-/

namespace Polis.Clustering

open List

/-- The smoother state threaded on the conversation; the empty state is `{}` of the source. -/
structure GroupKSmoother where
  lastK : Option ℕ := none
  lastKCount : ℕ := 0
  smoothedK : Option ℕ := none
deriving DecidableEq, Repr

/-- `GROUP_K_BUFFER` -/
def groupKBuffer : ℕ := 4

variable {K : Type*} [LinearOrder K]
variable {m : List (ℕ × K)}

/-- One step of the scan: the candidate replaces the incumbent when its score is at least as
large. -/
def argmaxStep (best : Option (ℕ × K)) (entry : ℕ × K) : Option (ℕ × K) :=
  match best with
  | none => some entry
  | some b => if b.2 ≤ entry.2 then some entry else some b

/-- The best `k`, scanning `k` upwards and replacing on `≥`: ties go to the higher `k`. -/
def argmaxSilhouetteHigherKWins (silhouettesByK : List (ℕ × K)) : Option ℕ :=
  (((silhouettesByK.insertionSort fun a b => a.1 ≤ b.1).foldl argmaxStep none).map Prod.fst)

/-- Advance the smoother by one tick; `none` is the `ValueError` on an empty map. -/
def groupKSmootherUpdate (prevState : GroupKSmoother) (silhouettesByK : List (ℕ × K))
    (buffer : ℕ) : Option (GroupKSmoother × ℕ) :=
  match argmaxSilhouetteHigherKWins silhouettesByK with
  | none => none
  | some thisK =>
    let thisKCount := if prevState.lastK = some thisK then prevState.lastKCount + 1 else 1
    let smoothedK := if buffer ≤ thisKCount then thisK else prevState.smoothedK.getD thisK
    -- a carried `smoothed_k` that no longer exists this tick falls back to the current best
    let smoothedK := if smoothedK ∈ silhouettesByK.map Prod.fst then smoothedK else thisK
    some (⟨some thisK, thisKCount, some smoothedK⟩, smoothedK)

/-- `k` has the largest score of the map, and no higher key has the same one. -/
def IsArgmax (silhouettesByK : List (ℕ × K)) (k : ℕ) : Prop :=
  ∃ score, (k, score) ∈ silhouettesByK ∧
    ∀ entry ∈ silhouettesByK, entry.2 < score ∨ entry.2 = score ∧ entry.1 ≤ k

/-- The scan over ascending keys keeps the best entry met, the latest among equals. -/
private theorem foldl_argmaxStep_some (l : List (ℕ × K)) (b : ℕ × K)
    (hsorted : (b :: l).Pairwise fun a b => a.1 ≤ b.1) :
    ∃ e, l.foldl argmaxStep (some b) = some e ∧ e ∈ b :: l ∧
      ∀ x ∈ b :: l, x.2 < e.2 ∨ x.2 = e.2 ∧ x.1 ≤ e.1 := by
  induction l generalizing b with
  | nil =>
    refine ⟨b, rfl, mem_cons_self, fun x hx => ?_⟩
    obtain rfl := mem_singleton.1 hx
    exact .inr ⟨rfl, le_rfl⟩
  | cons a l ih =>
    obtain ⟨hb, hl⟩ := pairwise_cons.1 hsorted
    have hba : b.1 ≤ a.1 := hb a mem_cons_self
    simp only [foldl_cons, argmaxStep]
    by_cases hle : b.2 ≤ a.2
    · rw [if_pos hle]
      obtain ⟨e, he, hmem, hmax⟩ := ih a hl
      refine ⟨e, he, mem_cons_of_mem _ hmem, fun x hx => ?_⟩
      rcases mem_cons.1 hx with rfl | hx
      · -- the replaced entry is no better than the one that replaced it
        rcases hmax a mem_cons_self with h | ⟨h, h'⟩
        · exact .inl (hle.trans_lt h)
        · rcases hle.lt_or_eq with hlt | heq
          · exact .inl (hlt.trans_eq h)
          · exact .inr ⟨heq.trans h, hba.trans h'⟩
      · exact hmax x hx
    · rw [if_neg hle]
      have hrest : (b :: l).Pairwise fun a b => a.1 ≤ b.1 :=
        pairwise_cons.2 ⟨fun x hx => hb x (mem_cons_of_mem _ hx),
          (pairwise_cons.1 hl).2⟩
      obtain ⟨e, he, hmem, hmax⟩ := ih b hrest
      have hbe : b.2 ≤ e.2 := (hmax b mem_cons_self).elim le_of_lt fun h => h.1.le
      refine ⟨e, he, ?_, fun x hx => ?_⟩
      · rcases mem_cons.1 hmem with rfl | hmem
        · exact mem_cons_self
        · exact mem_cons_of_mem _ (mem_cons_of_mem _ hmem)
      · rcases mem_cons.1 hx with rfl | hx
        · exact hmax x mem_cons_self
        · rcases mem_cons.1 hx with rfl | hx
          · exact .inl ((not_le.1 hle).trans_le hbe)
          · exact hmax x (mem_cons_of_mem _ hx)

/-- On a non-empty map the scan finds the argmax. -/
theorem argmaxSilhouetteHigherKWins_isArgmax (h : m ≠ []) :
    ∃ k, argmaxSilhouetteHigherKWins m = some k ∧ IsArgmax m k := by
  have htotal : Std.Total fun a b : ℕ × K => a.1 ≤ b.1 := ⟨fun a b => le_total a.1 b.1⟩
  have htrans : IsTrans (ℕ × K) fun a b => a.1 ≤ b.1 := ⟨fun _ _ _ => le_trans⟩
  have hperm := perm_insertionSort (fun a b : ℕ × K => a.1 ≤ b.1) m
  have hsorted := pairwise_insertionSort (fun a b : ℕ × K => a.1 ≤ b.1) m
  unfold argmaxSilhouetteHigherKWins
  cases hs : m.insertionSort fun a b => a.1 ≤ b.1 with
  | nil => rw [hs] at hperm; exact absurd hperm.nil_eq.symm h
  | cons a l =>
    rw [hs] at hperm hsorted
    obtain ⟨e, he, hmem, hmax⟩ := foldl_argmaxStep_some l a hsorted
    exact ⟨e.1, by simp [argmaxStep, he], e.2, hperm.mem_iff.1 hmem,
      fun x hx => hmax x (hperm.mem_iff.2 hx)⟩

/-- On a non-empty map the scan finds one of its keys. -/
theorem argmaxSilhouetteHigherKWins_mem (h : m ≠ []) :
    ∃ k, argmaxSilhouetteHigherKWins m = some k ∧ k ∈ m.map Prod.fst := by
  obtain ⟨k, hk, score, hmem, -⟩ := argmaxSilhouetteHigherKWins_isArgmax h
  exact ⟨k, hk, mem_map_of_mem hmem⟩

/-- The smoother answers on every non-empty map, with one of its keys. -/
theorem groupKSmootherUpdate_mem (prev : GroupKSmoother) (buffer : ℕ) (h : m ≠ []) :
    ∃ st k, groupKSmootherUpdate prev m buffer = some (st, k) ∧ k ∈ m.map Prod.fst := by
  obtain ⟨thisK, hk, hmem⟩ := argmaxSilhouetteHigherKWins_mem h
  simp only [groupKSmootherUpdate, hk]
  refine ⟨_, _, rfl, ?_⟩
  generalize (if buffer ≤ _ then thisK else _ : ℕ) = smoothedK
  by_cases hin : smoothedK ∈ m.map Prod.fst
  · rwa [if_pos hin]
  · rwa [if_neg hin]

end Polis.Clustering
