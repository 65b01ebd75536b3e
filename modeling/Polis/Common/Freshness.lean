import Mathlib.Algebra.Order.Ring.Int
import Mathlib.Data.List.Basic

/-!
# Views of a growing log

The items of a log carry stamps, and a view of the log is taken from what it held at some time. A view is
timely when no item stamped up to its time is missing. Of two timely views the one with the newer item is the
later one, and the later one holds what the earlier one does.
-/

namespace Polis.Freshness

open List

variable {α : Type*} (stamp : α → ℤ) (dated : α → Bool)

/-- The newest stamp of the dated items, and 0 without one. -/
def newest (items : List α) : ℤ := (items.filter dated).foldr (fun a m => max (stamp a) m) 0

variable {stamp dated} {a : α} {items log x y : List α} {s t : ℤ}

theorem newest_nonneg : 0 ≤ newest stamp dated items := by
  unfold newest
  induction items.filter dated with
  | nil => exact le_rfl
  | cons a l ih => exact ih.trans (le_max_right _ _)

theorem le_newest (ha : a ∈ items) (hdated : dated a = true) : stamp a ≤ newest stamp dated items := by
  have hmem : a ∈ items.filter dated := mem_filter.2 ⟨ha, hdated⟩
  unfold newest
  generalize items.filter dated = l at hmem
  induction l with
  | nil => cases hmem
  | cons b l ih =>
    rcases mem_cons.1 hmem with rfl | hmem
    · exact le_max_left _ _
    · exact (ih hmem).trans (le_max_right _ _)

/-- A newest stamp above 0 is that of an item. -/
theorem newest_mem (h : 0 < newest stamp dated items) :
    ∃ a ∈ items, dated a = true ∧ stamp a = newest stamp dated items := by
  have hfold : ∀ l : List α, 0 < l.foldr (fun a m => max (stamp a) m) 0 →
      ∃ a ∈ l, stamp a = l.foldr (fun a m => max (stamp a) m) 0 := by
    intro l hl
    induction l with
    | nil => exact absurd hl (lt_irrefl 0)
    | cons b l ih =>
      rw [foldr_cons] at hl ⊢
      rcases max_choice (stamp b) (l.foldr (fun a m => max (stamp a) m) 0) with hmax | hmax
      · exact ⟨b, mem_cons_self, hmax.symm⟩
      · rw [hmax] at hl ⊢
        obtain ⟨a, ha, hstamp⟩ := ih hl
        exact ⟨a, mem_cons_of_mem _ ha, hstamp⟩
  obtain ⟨a, ha, hstamp⟩ := hfold _ h
  obtain ⟨hmem, hdated⟩ := mem_filter.1 ha
  exact ⟨a, hmem, hdated, hstamp⟩

/-- The view holds just the items of the log that are stamped up to its time. -/
structure Timely (stamp : α → ℤ) (log items : List α) (time : ℤ) : Prop where
  sub : ∀ a ∈ items, a ∈ log
  past : ∀ a ∈ items, stamp a ≤ time
  whole : ∀ a ∈ log, stamp a ≤ time → a ∈ items

namespace Timely

/-- An item stamped after the view leaves it timely. -/
theorem snoc (h : Timely stamp log x t) (ha : t < stamp a) : Timely stamp (log ++ [a]) x t where
  sub b hb := mem_append_left _ (h.sub b hb)
  past := h.past
  whole b hb hbt := by
    rcases mem_append.1 hb with hb | hb
    · exact h.whole b hb hbt
    · rw [mem_singleton.1 hb] at hbt
      exact absurd hbt (not_le_of_gt ha)

/-- A view of the whole log at a time that no stamp has passed. -/
theorem refl (h : ∀ a ∈ log, stamp a ≤ t) : Timely stamp log log t := ⟨fun _ ha => ha, h, fun _ ha _ => ha⟩

/-- The later view holds what the earlier one does. -/
theorem mono (hx : Timely stamp log x s) (hy : Timely stamp log y t) (hst : s ≤ t) (ha : a ∈ x) : a ∈ y :=
  hy.whole a (hx.sub a ha) ((hx.past a ha).trans hst)

/-- The view with the newer dated item is the later one. -/
theorem lt_of_newest (hx : Timely stamp log x s) (hy : Timely stamp log y t)
    (h : newest stamp dated x < newest stamp dated y) : s < t := by
  obtain ⟨a, ha, hdated, hstamp⟩ := newest_mem (newest_nonneg.trans_lt h)
  by_contra hle
  have hmem := hy.mono hx (not_lt.1 hle) ha
  have hbound : stamp a ≤ newest stamp dated x := le_newest hmem hdated
  rw [hstamp] at hbound
  exact absurd h (not_lt_of_ge hbound)

end Timely

end Polis.Freshness
