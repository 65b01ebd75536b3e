import Mathlib.Data.List.Sort

/-!
# Last write wins

A list of stamped writes is resolved by sorting it stably by stamp and keeping the last write that
hits a given place. `newest` is the same choice without the sort: the hit of greatest stamp, ties
going to the later position.
-/

namespace Polis

open List

variable {α : Type*}

/-- The last element of the list that hits. -/
def lastHit (hit : α → Bool) : List α → Option α
  | [] => none
  | a :: l =>
    match lastHit hit l with
    | some b => some b
    | none => if hit a then some a else none

/-- The hit of greatest stamp, ties going to the later position. -/
def newest (stamp : α → ℤ) (hit : α → Bool) : List α → Option α
  | [] => none
  | a :: l =>
    match newest stamp hit l with
    | some b => if hit a ∧ stamp b < stamp a then some a else some b
    | none => if hit a then some a else none

/-- The stable sort by stamp. -/
def sortByStamp (stamp : α → ℤ) (l : List α) : List α :=
  l.insertionSort fun a b => stamp a ≤ stamp b

variable {stamp : α → ℤ} {hit : α → Bool} {l r : List α} {a b : α}

instance stampLe_total : Std.Total fun a b : α => stamp a ≤ stamp b :=
  ⟨fun a b => le_total (stamp a) (stamp b)⟩

instance stampLe_trans : IsTrans α fun a b : α => stamp a ≤ stamp b := ⟨fun _ _ _ => le_trans⟩

theorem sortByStamp_perm (l : List α) : (sortByStamp stamp l).Perm l :=
  perm_insertionSort _ l

@[simp] theorem mem_sortByStamp : a ∈ sortByStamp stamp l ↔ a ∈ l :=
  (sortByStamp_perm l).mem_iff

theorem sortByStamp_pairwise (l : List α) :
    (sortByStamp stamp l).Pairwise fun a b => stamp a ≤ stamp b :=
  pairwise_insertionSort _ l

/-- A list already in stamp order is left as it is. -/
theorem sortByStamp_eq_self (h : l.Pairwise fun a b => stamp a ≤ stamp b) :
    sortByStamp stamp l = l :=
  h.insertionSort_eq

/-! ## The last hit -/

theorem lastHit_append : lastHit hit (l ++ r) = (lastHit hit r).or (lastHit hit l) := by
  induction l with
  | nil => simp [lastHit]
  | cons a l ih =>
    simp only [cons_append, lastHit, ih]
    cases lastHit hit r <;> rfl

theorem lastHit_eq_none : lastHit hit l = none ↔ ∀ a ∈ l, hit a = false := by
  induction l with
  | nil => simp [lastHit]
  | cons a l ih =>
    simp only [lastHit, forall_mem_cons]
    cases hl : lastHit hit l with
    | none | some => simp [← ih, hl]

theorem lastHit_some (h : lastHit hit l = some b) : b ∈ l ∧ hit b = true := by
  induction l with
  | nil => simp [lastHit] at h
  | cons a l ih =>
    simp only [lastHit] at h
    cases hl : lastHit hit l with
    | some c =>
      rw [hl] at h ih
      obtain ⟨hmem, hb⟩ := ih h
      exact ⟨mem_cons_of_mem _ hmem, hb⟩
    | none =>
      rw [hl] at h
      by_cases ha : hit a = true
      · obtain rfl : a = b := by simpa [ha] using h
        exact ⟨mem_cons_self, ha⟩
      · simp [ha] at h

theorem lastHit_isSome : (lastHit hit l).isSome ↔ ∃ a ∈ l, hit a = true := by
  rw [← not_iff_not, Bool.not_eq_true, Option.isSome_eq_false_iff, Option.isNone_iff_eq_none, lastHit_eq_none]
  simp

/-- Where the hits stand in an order, the last one comes after every other. -/
theorem lastHit_after {R : α → α → Prop} (h : (l.filter hit).Pairwise R) (hb : lastHit hit l = some b) :
    ∀ a ∈ l, hit a = true → a = b ∨ R a b := by
  induction l with
  | nil => simp [lastHit] at hb
  | cons c l ih =>
    rw [lastHit] at hb
    have hl : (l.filter hit).Pairwise R := h.sublist ((sublist_cons_self c l).filter hit)
    cases hlast : lastHit hit l with
    | some d =>
      rw [hlast] at hb
      obtain rfl : d = b := Option.some.inj hb
      obtain ⟨hd, hhit⟩ := lastHit_some hlast
      rintro a (_ | ⟨_, ha⟩) ha'
      · rw [filter_cons_of_pos ha', pairwise_cons] at h
        exact .inr (h.1 d (mem_filter.2 ⟨hd, hhit⟩))
      · exact ih hl hlast a ha ha'
    | none =>
      rw [hlast] at hb
      rintro a (_ | ⟨_, ha⟩) ha'
      · exact .inl (by simpa [ha'] using hb)
      · simp [lastHit_eq_none.1 hlast a ha] at ha'

/-! ## The newest hit -/

theorem newest_eq_none : newest stamp hit l = none ↔ ∀ a ∈ l, hit a = false := by
  induction l with
  | nil => simp [newest]
  | cons a l ih =>
    simp only [newest, forall_mem_cons]
    cases hl : newest stamp hit l with
    | none => simp [← ih, hl]
    | some b =>
      rw [← ih, hl]
      by_cases h : hit a = true ∧ stamp b < stamp a <;> simp [h]

/-- The newest hit is one of the hits, and none is newer. -/
theorem newest_some (h : newest stamp hit l = some b) :
    b ∈ l ∧ hit b = true ∧ ∀ c ∈ l, hit c = true → stamp c ≤ stamp b := by
  induction l generalizing b with
  | nil => simp [newest] at h
  | cons a l ih =>
    simp only [newest] at h
    cases hl : newest stamp hit l with
    | none =>
      rw [hl] at h
      have hnone := newest_eq_none.1 hl
      by_cases ha : hit a = true
      · obtain rfl : a = b := by simpa [ha] using h
        refine ⟨mem_cons_self, ha, ?_⟩
        rintro c (_ | ⟨_, hc⟩) hhit
        · exact le_rfl
        · simp [hnone c hc] at hhit
      · simp [ha] at h
    | some d =>
      rw [hl] at h
      obtain ⟨hd, hdhit, hdmax⟩ := ih hl
      simp only at h
      split at h
      case isTrue hlt =>
        obtain rfl : a = b := by simpa using h
        refine ⟨mem_cons_self, hlt.1, ?_⟩
        rintro c (_ | ⟨_, hc⟩) hhit
        · exact le_rfl
        · exact (hdmax c hc hhit).trans hlt.2.le
      case isFalse hlt =>
        obtain rfl : d = b := by simpa using h
        refine ⟨mem_cons_of_mem _ hd, hdhit, ?_⟩
        rintro c (_ | ⟨_, hc⟩) hhit
        · exact not_lt.1 fun hc => hlt ⟨hhit, hc⟩
        · exact hdmax c hc hhit

/-- A hit with no later hit as new and no earlier one newer is the newest one. -/
theorem newest_of_split {l₁ l₂ : List α} (hb : hit b = true)
    (h₁ : ∀ c ∈ l₁, hit c = true → stamp c ≤ stamp b)
    (h₂ : ∀ c ∈ l₂, hit c = true → stamp c < stamp b) :
    newest stamp hit (l₁ ++ b :: l₂) = some b := by
  induction l₁ with
  | nil =>
    simp only [nil_append, newest]
    cases hl : newest stamp hit l₂ with
    | none => simp [hb]
    | some d =>
      obtain ⟨hd, hhit, -⟩ := newest_some hl
      simp [hb, h₂ d hd hhit]
  | cons a l₁ ih =>
    simp only [cons_append, newest, ih fun c hc => h₁ c (mem_cons_of_mem _ hc)]
    have hnot : ¬ (hit a = true ∧ stamp b < stamp a) := fun h =>
      absurd (h₁ a mem_cons_self h.1) (not_le.2 h.2)
    rw [if_neg hnot]

/-- A hit newer than every other hit is the newest one, wherever it stands. -/
theorem newest_of_max (hb : b ∈ l) (hit_b : hit b = true)
    (hmax : ∀ c ∈ l, hit c = true → c = b ∨ stamp c < stamp b) : newest stamp hit l = some b := by
  cases hn : newest stamp hit l with
  | none => simp [newest_eq_none.1 hn b hb] at hit_b
  | some d =>
    obtain ⟨hd, hhit, hle⟩ := newest_some hn
    rcases hmax d hd hhit with rfl | hlt
    · rfl
    · exact absurd (hle b hb hit_b) (not_le.2 hlt)

/-- The newest hit depends on the hits within the list only. -/
theorem newest_congr {hit' : α → Bool} (h : ∀ a ∈ l, hit a = hit' a) :
    newest stamp hit l = newest stamp hit' l := by
  induction l with
  | nil => rfl
  | cons a l ih =>
    obtain ⟨ha, hl⟩ := forall_mem_cons.1 h
    rw [newest, newest, ih hl, ha]

/-- The newest hit of a mapped list. -/
theorem newest_map {β : Type*} (f : β → α) (l : List β) :
    newest stamp hit (l.map f) = (newest (stamp ∘ f) (hit ∘ f) l).map f := by
  induction l with
  | nil => rfl
  | cons a l ih =>
    simp only [map_cons, newest, ih]
    cases newest (stamp ∘ f) (hit ∘ f) l with
    | none | some => simp [Function.comp_apply, apply_ite (Option.map f)]

/-- Inserting an element before everything not older: it becomes the last hit only over older
hits. -/
private theorem lastHit_orderedInsert (hl : l.Pairwise fun a b => stamp a ≤ stamp b) :
    lastHit hit (l.orderedInsert (fun a b => stamp a ≤ stamp b) a) =
      match lastHit hit l with
      | some b => if hit a ∧ stamp b < stamp a then some a else some b
      | none => if hit a then some a else none := by
  induction l with
  | nil => simp [lastHit]
  | cons c l ih =>
    obtain ⟨hc, hl⟩ := pairwise_cons.1 hl
    rw [orderedInsert_cons]
    by_cases hac : stamp a ≤ stamp c
    · rw [if_pos hac, lastHit]
      cases hlast : lastHit hit (c :: l) with
      | none => rfl
      | some b =>
        have hb : stamp c ≤ stamp b := by
          rcases mem_cons.1 (lastHit_some hlast).1 with rfl | hb
          · exact le_rfl
          · exact hc b hb
        have hnot : ¬ (hit a = true ∧ stamp b < stamp a) := fun h => by omega
        simp only [if_neg hnot]
    · rw [if_neg hac, lastHit, lastHit, ih hl]
      cases hlast : lastHit hit l with
      | some b => by_cases h : hit a = true ∧ stamp b < stamp a <;> simp [h]
      | none =>
        by_cases ha : hit a = true <;> by_cases hch : hit c = true <;> simp [ha, hch, hac]

/-- Sorting stably and taking the last hit is taking the newest hit. -/
theorem lastHit_sortByStamp (l : List α) :
    lastHit hit (sortByStamp stamp l) = newest stamp hit l := by
  induction l with
  | nil => rfl
  | cons a l ih =>
    have hsorted : (sortByStamp stamp l).Pairwise fun a b => stamp a ≤ stamp b :=
      sortByStamp_pairwise l
    rw [sortByStamp, insertionSort_cons, ← sortByStamp, lastHit_orderedInsert hsorted, ih,
      newest]

/-- In stamp order the newest hit is the last one. -/
theorem newest_eq_lastHit (h : l.Pairwise fun a b => stamp a ≤ stamp b) :
    newest stamp hit l = lastHit hit l := by
  rw [← lastHit_sortByStamp, sortByStamp_eq_self h]

end Polis
