import Mathlib.Data.List.Dedup
import Mathlib.Logic.Relation

/-!
# The closure of a list of edges

`spread` adds, round by round, the targets of the edges that leave a list, as a recursive query does
that keeps no duplicates. With a round for each edge it ends with everything that can be reached.
-/

namespace Polis

open List

variable {α : Type*} [DecidableEq α] {edges : List (α × α)} {ids : List α} {a : α}

/-- One edge goes from the first to the second. -/
def Edge (edges : List (α × α)) (a b : α) : Prop := (a, b) ∈ edges

/-- The edges that leave a list. -/
def leaving (edges : List (α × α)) (ids : List α) : List (α × α) :=
  edges.filter fun e => e.1 ∈ ids ∧ e.2 ∉ ids

/-- The list and what is added to it in at most `fuel` rounds. -/
def spread (edges : List (α × α)) : ℕ → List α → List α
  | 0, ids => ids
  | fuel + 1, ids =>
    match leaving edges ids with
    | [] => ids
    | new => spread edges fuel (ids ++ (new.map Prod.snd).dedup)

theorem mem_leaving {e : α × α} :
    e ∈ leaving edges ids ↔ e ∈ edges ∧ e.1 ∈ ids ∧ e.2 ∉ ids := by
  simp [leaving]

theorem subset_spread (fuel : ℕ) (h : a ∈ ids) : a ∈ spread edges fuel ids := by
  induction fuel generalizing ids with
  | zero => exact h
  | succ fuel ih =>
    rw [spread]
    split
    · exact h
    · exact ih (mem_append_left _ h)

/-- Nothing is added that cannot be reached. -/
theorem spread_sound (fuel : ℕ) (h : a ∈ spread edges fuel ids) :
    ∃ root ∈ ids, Relation.ReflTransGen (Edge edges) root a := by
  induction fuel generalizing ids with
  | zero => exact ⟨a, h, .refl⟩
  | succ fuel ih =>
    rw [spread] at h
    split at h
    · exact ⟨a, h, .refl⟩
    · obtain ⟨b, hb, hreach⟩ := ih h
      rcases mem_append.1 hb with hb | hb
      · exact ⟨b, hb, hreach⟩
      · obtain ⟨e, he, rfl⟩ := mem_map.1 (mem_dedup.1 hb)
        obtain ⟨hedge, hroot, -⟩ := mem_leaving.1 he
        exact ⟨e.1, hroot, .head hedge hreach⟩

/-- A round that adds something brings the targets of fewer edges still to add. -/
private theorem pending_lt (h : leaving edges ids ≠ []) :
    (edges.filter fun e => e.2 ∉ ids ++ ((leaving edges ids).map Prod.snd).dedup).length <
      (edges.filter fun e => e.2 ∉ ids).length := by
  obtain ⟨e, he⟩ := exists_mem_of_ne_nil _ h
  obtain ⟨hedge, -, hnew⟩ := mem_leaving.1 he
  have hsub : (edges.filter fun e => e.2 ∉ ids ++ ((leaving edges ids).map Prod.snd).dedup) =
      ((edges.filter fun e => e.2 ∉ ids).filter fun e =>
        e.2 ∉ ((leaving edges ids).map Prod.snd).dedup) := by
    rw [filter_filter]
    refine filter_congr fun e _ => ?_
    rw [← Bool.decide_and, decide_eq_decide, mem_append, not_or, and_comm]
  rw [hsub]
  refine length_filter_lt_length_iff_exists.2 ⟨e, ?_, ?_⟩
  · simpa using ⟨hedge, hnew⟩
  · have hadded : e.2 ∈ ((leaving edges ids).map Prod.snd).dedup :=
      mem_dedup.2 (mem_map_of_mem he)
    simpa using hadded

/-- With enough rounds no edge leaves the result. -/
private theorem spread_closed (fuel : ℕ) (hfuel : (edges.filter fun e => e.2 ∉ ids).length ≤ fuel)
    {b : α} (ha : a ∈ spread edges fuel ids) (h : Edge edges a b) : b ∈ spread edges fuel ids := by
  induction fuel generalizing ids with
  | zero =>
    by_contra hb
    have hmem : (a, b) ∈ edges.filter fun e => e.2 ∉ ids :=
      mem_filter.2 ⟨h, by simpa [spread] using hb⟩
    exact ne_nil_of_mem hmem (length_eq_zero_iff.1 (Nat.le_zero.1 hfuel))
  | succ fuel ih =>
    rw [spread] at ha ⊢
    split at ha
    · next hnone =>
      by_contra hb
      have hmem : (a, b) ∈ leaving edges ids := mem_leaving.2 ⟨h, ha, hb⟩
      rw [hnone] at hmem
      cases hmem
    · next hsome =>
      have hlt := pending_lt hsome
      exact ih (by omega) ha

theorem mem_spread {root : α} :
    a ∈ spread edges edges.length [root] ↔ Relation.ReflTransGen (Edge edges) root a := by
  constructor
  · intro h
    obtain ⟨b, hb, hreach⟩ := spread_sound _ h
    rwa [mem_singleton.1 hb] at hreach
  · intro h
    induction h with
    | refl => exact subset_spread _ (mem_singleton_self _)
    | tail _ hedge ih => exact spread_closed _ (length_filter_le _ _) ih hedge

end Polis
