import Mathlib.Data.List.Nodup

/-!
# Labels in first-appearance order

`appendNew seen l` extends a list of labels with the labels of `l` it does not hold yet, in the
order in which they first appear.
-/

namespace Polis

open List

variable {α : Type*} [DecidableEq α]

/-- `seen`, then every element of `l` not met before, in order of first appearance. -/
def appendNew (seen l : List α) : List α :=
  l.foldl (fun acc a => if a ∈ acc then acc else acc ++ [a]) seen

variable {seen l r : List α} {a : α}

@[simp] theorem appendNew_nil : appendNew seen ([] : List α) = seen := rfl

theorem appendNew_cons :
    appendNew seen (a :: l) = appendNew (if a ∈ seen then seen else seen ++ [a]) l := rfl

/-- Extending by two lists in turn is extending by their concatenation. -/
theorem appendNew_append : appendNew seen (l ++ r) = appendNew (appendNew seen l) r :=
  foldl_append

@[simp] theorem mem_appendNew : a ∈ appendNew seen l ↔ a ∈ seen ∨ a ∈ l := by
  induction l generalizing seen with
  | nil => simp
  | cons b l ih =>
    rw [appendNew_cons, ih]
    split
    case isTrue hb =>
      constructor
      · rintro (h | h)
        · exact .inl h
        · exact .inr (mem_cons_of_mem _ h)
      · rintro (h | h)
        · exact .inl h
        · rcases mem_cons.1 h with rfl | h
          · exact .inl hb
          · exact .inr h
    case isFalse hb => simp [or_assoc]

theorem appendNew_nodup (h : seen.Nodup) : (appendNew seen l).Nodup := by
  induction l generalizing seen with
  | nil => exact h
  | cons b l ih =>
    rw [appendNew_cons]
    refine ih ?_
    split
    · exact h
    case isFalse hb =>
      refine nodup_append.2 ⟨h, by simp, ?_⟩
      rintro a ha c hc rfl
      exact hb (mem_singleton.1 hc ▸ ha)

/-- Distinct labels that were not met before are all added. -/
theorem appendNew_of_nodup (h : (seen ++ l).Nodup) : appendNew seen l = seen ++ l := by
  induction l generalizing seen with
  | nil => simp
  | cons b l ih =>
    rw [append_cons] at h
    have hb : b ∉ seen := fun hb =>
      (nodup_append.1 (nodup_append.1 h).1).2.2 b hb b mem_cons_self rfl
    rw [appendNew_cons, if_neg hb, ih h, ← append_cons]

/-- Elements already met can be left out. -/
theorem appendNew_filter {q : α → Bool} (h : ∀ a ∈ l, a ∉ seen → q a = true) :
    appendNew seen (l.filter q) = appendNew seen l := by
  induction l generalizing seen with
  | nil => rfl
  | cons b l ih =>
    have hrest : ∀ s : List α, seen ⊆ s → ∀ a ∈ l, a ∉ s → q a = true := fun s hs a ha hnot =>
      h a (mem_cons_of_mem _ ha) fun hmem => hnot (hs hmem)
    rw [appendNew_cons, filter_cons]
    by_cases hb : b ∈ seen
    · rw [if_pos hb]
      split
      · rw [appendNew_cons, if_pos hb, ih (hrest seen fun _ h => h)]
      · exact ih (hrest seen fun _ h => h)
    · rw [if_neg hb, if_pos (h b mem_cons_self hb), appendNew_cons, if_neg hb]
      exact ih (hrest _ (subset_append_left _ _))

/-- Distinct labels of a list, in its order. -/
theorem appendNew_sublist (seen l : List α) : ∃ new, appendNew seen l = seen ++ new ∧ new.Sublist l := by
  induction l generalizing seen with
  | nil => exact ⟨[], by simp⟩
  | cons b l ih =>
    rw [appendNew_cons]
    split
    · obtain ⟨new, hnew, hsub⟩ := ih seen
      exact ⟨new, hnew, hsub.cons b⟩
    · obtain ⟨new, hnew, hsub⟩ := ih (seen ++ [b])
      exact ⟨b :: new, by rw [hnew]; simp, hsub.cons_cons b⟩

/-- The labels added are exactly those of `l` not in `seen`. -/
theorem appendNew_eq_append (seen l : List α) :
    ∃ new, appendNew seen l = seen ++ new ∧ ∀ a ∈ new, a ∈ l ∧ a ∉ seen := by
  induction l generalizing seen with
  | nil => exact ⟨[], by simp⟩
  | cons b l ih =>
    rw [appendNew_cons]
    split
    case isTrue hb =>
      obtain ⟨new, hnew, hmem⟩ := @ih seen
      exact ⟨new, hnew, fun a ha => ⟨mem_cons_of_mem _ (hmem a ha).1, (hmem a ha).2⟩⟩
    case isFalse hb =>
      obtain ⟨new, hnew, hmem⟩ := @ih (seen ++ [b])
      refine ⟨b :: new, by rw [hnew]; simp, ?_⟩
      rintro a (_ | ⟨_, ha⟩)
      · exact ⟨mem_cons_self, hb⟩
      · exact ⟨mem_cons_of_mem _ (hmem a ha).1, fun h =>
          (hmem a ha).2 (mem_append_left _ h)⟩

end Polis
