import Mathlib.Data.List.Sort

/-!
# Lists in descending order of a key

A list whose keys descend is determined by its keys. When its elements change and keep their keys, the
order stays; an element with a greater key goes to the front.
-/

namespace Polis

open List

variable {α κ : Type*} [LinearOrder κ] {key : α → κ} {l l' : List α} {y : α}

/-- The keys descend. -/
def Descending (key : α → κ) (l : List α) : Prop := l.Pairwise fun x y => key y < key x

/-- A list is in descending order once it is sorted and no two elements have one key. -/
theorem Descending.of_sorted (h : l.Pairwise fun x y => key y ≤ key x) (hnodup : l.Nodup)
    (hinj : ∀ x ∈ l, ∀ y ∈ l, key x = key y → x = y) : Descending key l := by
  refine (pairwise_iff_forall_sublist.2 fun {x y} hsub => ?_)
  have hle := pairwise_iff_forall_sublist.1 h hsub
  refine lt_of_le_of_ne hle fun heq => ?_
  obtain rfl := hinj x (hsub.subset (by simp)) y (hsub.subset (by simp)) heq.symm
  have := List.Nodup.sublist hsub hnodup
  simp at this

/-- Elements that change and keep their keys keep their places. -/
theorem Descending.forall₂ {R : α → α → Prop} (h : Descending key l) (h' : Descending key l')
    (hR : ∀ x ∈ l, ∃ y ∈ l', key y = key x ∧ R x y) (hback : ∀ y ∈ l', ∃ x ∈ l, key x = key y) :
    List.Forall₂ R l l' := by
  induction l generalizing l' with
  | nil =>
    cases l' with
    | nil => exact .nil
    | cons y l' =>
      obtain ⟨x, hx, -⟩ := hback y mem_cons_self
      cases hx
  | cons x l ih =>
    obtain ⟨hx, hl⟩ := pairwise_cons.1 h
    obtain ⟨y, hy, hkey, hxy⟩ := hR x mem_cons_self
    -- The greatest key of the one list is the greatest key of the other.
    obtain ⟨l'', rfl⟩ : ∃ l'', l' = y :: l'' := by
      cases l' with
      | nil => cases hy
      | cons z l'' =>
        obtain ⟨hz, -⟩ := pairwise_cons.1 h'
        rcases mem_cons.1 hy with rfl | hy
        · exact ⟨l'', rfl⟩
        · obtain ⟨x', hx', hk⟩ := hback z mem_cons_self
          have hlt := hz y hy
          rw [hkey, ← hk] at hlt
          rcases mem_cons.1 hx' with rfl | hx'
          · exact absurd hlt (lt_irrefl _)
          · exact absurd (hlt.trans (hx x' hx')) (lt_irrefl _)
    obtain ⟨hy', hl'⟩ := pairwise_cons.1 h'
    refine .cons hxy (ih hl hl' (fun x' hx' => ?_) fun y' hyl => ?_)
    · obtain ⟨y', hyl, hk, hr⟩ := hR x' (mem_cons_of_mem _ hx')
      rcases mem_cons.1 hyl with rfl | hyl
      · exact absurd (hk.symm.trans hkey) (ne_of_lt (hx x' hx'))
      · exact ⟨y', hyl, hk, hr⟩
    · obtain ⟨x', hx', hk⟩ := hback y' (mem_cons_of_mem _ hyl)
      rcases mem_cons.1 hx' with rfl | hx'
      · exact absurd (hk.symm.trans hkey.symm) (ne_of_lt (hy' y' hyl))
      · exact ⟨x', hx', hk⟩

/-- The one new element, which has the greatest key, comes first. -/
theorem Descending.forall₂_cons {R : α → α → Prop} (h : Descending key l) (h' : Descending key l')
    (hy : y ∈ l') (hlate : ∀ x ∈ l, key x < key y)
    (hR : ∀ x ∈ l, ∃ y ∈ l', key y = key x ∧ R x y)
    (hback : ∀ z ∈ l', z = y ∨ ∃ x ∈ l, key x = key z) :
    ∃ l'', l' = y :: l'' ∧ List.Forall₂ R l l'' := by
  cases l' with
  | nil => cases hy
  | cons z l'' =>
    obtain ⟨hz, hl'⟩ := pairwise_cons.1 h'
    obtain rfl : z = y := by
      rcases mem_cons.1 hy with rfl | hy
      · rfl
      · rcases hback z mem_cons_self with rfl | ⟨x, hx, hk⟩
        · rfl
        · have hlt := hz y hy
          rw [← hk] at hlt
          exact absurd (hlt.trans (hlate x hx)) (lt_irrefl _)
    refine ⟨l'', rfl, h.forall₂ hl' (fun x hx => ?_) fun z' hz' => ?_⟩
    · obtain ⟨y', hy', hk, hr⟩ := hR x hx
      rcases mem_cons.1 hy' with rfl | hy'
      · exact absurd hk (ne_of_gt (hlate x hx))
      · exact ⟨y', hy', hk, hr⟩
    · rcases hback z' (mem_cons_of_mem _ hz') with rfl | hx
      · exact absurd (hz z' hz') (lt_irrefl _)
      · exact hx

end Polis
