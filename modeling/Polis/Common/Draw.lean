import Mathlib.MeasureTheory.Measure.Lebesgue.Basic

/-!
# Drawing by weight

The slots of a list of weights follow one another on a line, each as long as its weight. A point of the line
falls into the first slot whose running total is above it, and a uniform point falls into each slot with the
share of its weight.
-/

namespace Polis.Draw

open List

/-- The running totals of the weights, from a start. -/
def totals {K : Type*} (add : K → K → K) (start : K) : List K → List K
  | [] => []
  | w :: ws => add start w :: totals add (add start w) ws

@[simp] theorem length_totals {K : Type*} (add : K → K → K) (start : K) (ws : List K) :
    (totals add start ws).length = ws.length := by
  induction ws generalizing start with
  | nil => rfl
  | cons w ws ih => rw [totals, length_cons, ih, length_cons]

section Order

variable {K : Type*} [Field K] [LinearOrder K] [IsStrictOrderedRing K] {start r : K} {ws : List K} {i : ℕ}

/-- The point falls into a slot just if it is between the totals before and after it. -/
theorem findIdx?_totals (hws : ∀ w ∈ ws, 0 ≤ w) (hr : start ≤ r) :
    (totals (· + ·) start ws).findIdx? (r < ·) = some i ↔
      i < ws.length ∧ start + (ws.take i).sum ≤ r ∧ r < start + (ws.take (i + 1)).sum := by
  induction ws generalizing start i with
  | nil => simp [totals]
  | cons w ws ih =>
    rw [totals, findIdx?_cons]
    have htail : ∀ v ∈ ws, 0 ≤ v := fun v hv => hws v (mem_cons_of_mem _ hv)
    by_cases hlt : r < start + w
    · rw [if_pos (decide_eq_true hlt)]
      cases i with
      | zero => simpa using ⟨hr, hlt⟩
      | succ i =>
        have hnonneg : 0 ≤ (ws.take i).sum := sum_nonneg fun v hv => htail v (mem_of_mem_take hv)
        simp only [Option.some.injEq, take_succ_cons, sum_cons]
        refine ⟨fun h => (nomatch h), fun ⟨_, hle, _⟩ => ?_⟩
        linarith
    · rw [if_neg (by simpa using hlt)]
      cases i with
      | zero =>
        simp only [Option.map_eq_some_iff, take_succ_cons, take_zero, sum_cons, sum_nil]
        refine ⟨fun ⟨_, _, h⟩ => (nomatch h), fun ⟨_, _, h⟩ => absurd ?_ hlt⟩
        linarith
      | succ i =>
        have hshift : ∀ o : Option ℕ, o.map (· + 1) = some (i + 1) ↔ o = some i := by
          intro o
          cases o <;> simp
        rw [hshift, ih htail (not_lt.1 hlt)]
        simp only [length_cons, take_succ_cons, sum_cons, ← add_assoc,
          Nat.add_lt_add_iff_right]

omit [IsStrictOrderedRing K] in
/-- Every point under the last total falls into a slot. -/
theorem exists_findIdx? (hws : ∀ w ∈ ws, 0 ≤ w) (hr : start ≤ r) (hlt : r < start + ws.sum) :
    ∃ i, (totals (· + ·) start ws).findIdx? (r < ·) = some i := by
  induction ws generalizing start with
  | nil => simp [not_lt.2 hr] at hlt
  | cons w ws ih =>
    rw [totals, findIdx?_cons]
    by_cases hw : r < start + w
    · exact ⟨0, if_pos (decide_eq_true hw)⟩
    · rw [if_neg (by simpa using hw)]
      rw [sum_cons, ← add_assoc] at hlt
      obtain ⟨i, hi⟩ := ih (fun v hv => hws v (mem_cons_of_mem _ hv)) (not_lt.1 hw) hlt
      exact ⟨i + 1, by rw [hi]; rfl⟩

theorem sum_take_succ_le (hws : ∀ w ∈ ws, 0 ≤ w) : (ws.take i).sum ≤ ws.sum := by
  have hsplit := sum_take_add_sum_drop ws i
  have hnonneg : 0 ≤ (ws.drop i).sum := sum_nonneg fun v hv => hws v (mem_of_mem_drop hv)
  linarith

end Order

section Measure

open MeasureTheory

variable {ws : List ℝ} {i : ℕ}

/-- A uniform point of the unit interval, stretched over the line, falls into a slot with the share of its
weight. -/
theorem volume_slot (hws : ∀ w ∈ ws, 0 ≤ w) (hsum : 0 < ws.sum) (hi : i < ws.length) :
    volume {u : ℝ | u ∈ Set.Ico 0 1 ∧ (totals (· + ·) 0 ws).findIdx? (u * ws.sum < ·) = some i} =
      ENNReal.ofReal (ws[i] / ws.sum) := by
  have hslot : {u : ℝ | u ∈ Set.Ico 0 1 ∧ (totals (· + ·) 0 ws).findIdx? (u * ws.sum < ·) = some i} =
      Set.Ico ((ws.take i).sum / ws.sum) ((ws.take (i + 1)).sum / ws.sum) := by
    ext u
    simp only [Set.mem_ofPred_eq, Set.mem_Ico, div_le_iff₀ hsum, lt_div_iff₀ hsum]
    constructor
    · rintro ⟨⟨hu, -⟩, hfind⟩
      rw [findIdx?_totals hws (mul_nonneg hu hsum.le), zero_add, zero_add] at hfind
      exact hfind.2
    · rintro ⟨hle, hlt⟩
      have hnonneg : 0 ≤ (ws.take i).sum := sum_nonneg fun v hv => hws v (mem_of_mem_take hv)
      have hu : 0 ≤ u := nonneg_of_mul_nonneg_left (hnonneg.trans hle) hsum
      have hone : u < 1 := by
        have hbound : u * ws.sum < 1 * ws.sum := by
          rw [one_mul]
          exact hlt.trans_le (sum_take_succ_le hws)
        exact lt_of_mul_lt_mul_right hbound hsum.le
      refine ⟨⟨hu, hone⟩, ?_⟩
      rw [findIdx?_totals hws (mul_nonneg hu hsum.le), zero_add, zero_add]
      exact ⟨hi, hle, hlt⟩
  rw [hslot, Real.volume_Ico, ← sub_div, sum_take_succ _ _ hi, add_sub_cancel_left]

end Measure

end Polis.Draw
