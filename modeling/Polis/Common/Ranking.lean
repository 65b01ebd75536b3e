import Mathlib.Data.List.Sort

/-!
# The first of a ranking

A list is ranked by a key, the greatest first, and cut after some elements. What is cut off is ranked no higher
than what is kept.
-/

namespace Polis

open List

variable {α κ : Type*} [LinearOrder κ] {key : α → κ} {n : ℕ} {l : List α} {x y : α}

/-- The greatest of a list by a key, at most so many, in descending order; equal ones in the order of the list. -/
def ranked (key : α → κ) (n : ℕ) (l : List α) : List α := (l.insertionSort fun a b => key b ≤ key a).take n

theorem ranked_perm (key : α → κ) (l : List α) : (l.insertionSort fun a b => key b ≤ key a).Perm l :=
  perm_insertionSort _ l

theorem ranked_sublist : (ranked key n l).Sublist (l.insertionSort fun a b => key b ≤ key a) := take_sublist _ _

theorem length_ranked_le : (ranked key n l).length ≤ n := length_take_le _ _

theorem mem_of_mem_ranked (h : x ∈ ranked key n l) : x ∈ l :=
  (ranked_perm key l).mem_iff.1 (ranked_sublist.subset h)

theorem ranked_ne_nil (hn : n ≠ 0) (hl : l ≠ []) : ranked key n l ≠ [] := by
  intro h
  rcases take_eq_nil_iff.1 h with rfl | hnil
  · exact hn rfl
  · exact hl ((hnil ▸ ranked_perm key l).nil_eq.symm)

/-- Elements with distinct labels keep them. -/
theorem ranked_map_nodup {β : Type*} {f : α → β} (h : (l.map f).Nodup) : ((ranked key n l).map f).Nodup :=
  (((ranked_perm key l).map f).nodup_iff.2 h).sublist (ranked_sublist.map f)

theorem sort_pairwise (key : α → κ) (l : List α) :
    (l.insertionSort fun a b => key b ≤ key a).Pairwise fun a b => key b ≤ key a := by
  have : Std.Total fun a b : α => key b ≤ key a := ⟨fun a b => le_total (key b) (key a)⟩
  have : IsTrans α fun a b : α => key b ≤ key a := ⟨fun a b c hab hbc => hbc.trans hab⟩
  exact pairwise_insertionSort (fun a b : α => key b ≤ key a) l

theorem ranked_pairwise : (ranked key n l).Pairwise fun a b => key b ≤ key a :=
  (sort_pairwise key l).sublist ranked_sublist

/-- Something is left out of a full ranking only. -/
theorem length_ranked_of_notMem (hy : y ∈ l) (hout : y ∉ ranked key n l) : (ranked key n l).length = n := by
  refine length_take_of_le ?_
  by_contra hle
  rw [ranked, take_of_length_le (by omega)] at hout
  exact hout ((ranked_perm key l).mem_iff.2 hy)

/-- What is left out is ranked no higher than what is kept. -/
theorem ranked_le (hx : x ∈ ranked key n l) (hy : y ∈ l) (hout : y ∉ ranked key n l) : key y ≤ key x := by
  have hsorted := sort_pairwise key l
  have hsplit := take_append_drop n (l.insertionSort fun a b => key b ≤ key a)
  rw [← hsplit] at hsorted
  have hdropped : y ∈ (l.insertionSort fun a b => key b ≤ key a).drop n := by
    have hmem := (ranked_perm key l).mem_iff.2 hy
    rw [← hsplit, mem_append] at hmem
    exact hmem.resolve_left hout
  exact (pairwise_append.1 hsorted).2.2 x hx y hdropped

end Polis
