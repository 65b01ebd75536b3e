import Mathlib.Data.List.Sort

/-!
# Reading a sorted list in pages

A reader takes the first elements beyond its cursor and moves the cursor to the last of them. Page by
page it reads a strictly sorted list from the start to the end, each element once.
-/

namespace Polis

open List Option

variable {α : Type*} [LinearOrder α] {l xs ys : List α} {x : α}
variable {after : Option α}

/-- The elements after a cursor; `none` is before all of them. -/
def beyond (l : List α) (after : Option α) : List α := l.filter fun a => ∀ x ∈ after, x < a

@[simp] theorem beyond_none (l : List α) : beyond l none = l := by simp [beyond]

theorem mem_beyond {a : α} :
    a ∈ beyond l after ↔ a ∈ l ∧ ∀ x ∈ after, x < a := by
  simp [beyond]

theorem beyond_pairwise (hl : l.Pairwise (· < ·)) (after : Option α) :
    (beyond l after).Pairwise (· < ·) := hl.filter _

/-- Two cursors into a sorted list see the same elements once both are past them. -/
theorem beyond_beyond (h : ∀ y ∈ after, y < x) :
    beyond (beyond l after) (some x) = beyond l (some x) := by
  simp only [beyond, List.filter_filter, mem_some_iff, forall_eq', ← Bool.decide_and]
  refine List.filter_congr fun a _ => ?_
  rw [decide_eq_decide]
  exact ⟨fun hx => hx.1, fun hx => ⟨hx, fun y hy => (h y hy).trans hx⟩⟩

/-- Past the last element of a front part of a sorted list there is the rest. -/
theorem beyond_append (h : (xs ++ ys).Pairwise (· < ·)) (hx : xs.getLast? = some x) :
    beyond (xs ++ ys) (some x) = ys := by
  obtain ⟨zs, rfl⟩ := getLast?_eq_some_iff.1 hx
  rw [pairwise_append] at h
  obtain ⟨hzs, -, hrest⟩ := h
  have hbefore : ∀ a ∈ zs ++ [x], ¬ x < a := by
    intro a ha
    rcases mem_append.1 ha with ha | ha
    · exact not_lt.2 (pairwise_append.1 hzs |>.2.2 a ha x (by simp)).le
    · rw [mem_singleton.1 ha]
      exact lt_irrefl x
  rw [beyond, filter_append]
  have hfront : (zs ++ [x]).filter (fun a => ∀ y ∈ some x, y < a) = [] := by
    rw [filter_eq_nil_iff]
    intro a ha
    simpa using hbefore a ha
  have hback : ys.filter (fun a => ∀ y ∈ some x, y < a) = ys := by
    rw [filter_eq_self]
    intro a ha
    simpa using hrest x (by simp) a ha
  rw [hfront, hback, nil_append]

/-- A page that does not fill the limit is the last one. -/
theorem page_last {n : ℕ} (h : ((beyond l after).take n).length < n) :
    (beyond l after).take n = beyond l after := by
  rw [length_take] at h
  exact take_of_length_le (by omega)

/-- After a full page the cursor at its last element leaves the rest. -/
theorem page_next (hl : l.Pairwise (· < ·)) {n : ℕ}
    (h : ((beyond l after).take n).getLast? = some x) :
    beyond l after = (beyond l after).take n ++ beyond l (some x) := by
  have hsorted := beyond_pairwise hl after
  have hsplit := take_append_drop n (beyond l after)
  have hmem : x ∈ beyond l after := mem_of_mem_take (mem_of_getLast? h)
  rw [← hsplit] at hsorted
  have hrest := beyond_append hsorted h
  rw [hsplit, beyond_beyond (mem_beyond.1 hmem).2] at hrest
  rw [hrest, hsplit]

end Polis
