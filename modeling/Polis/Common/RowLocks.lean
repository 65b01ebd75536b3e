import Mathlib.Data.List.Basic

/-!
# Rows under locks of two modes

A transaction writes its own version of a row under a lock that it alone has, and reads may take a lock that
they share. Each statement sees the rows that are committed by then and the versions that its transaction has
written. What a transaction holds in either mode stays as it is committed until the transaction ends.
-/

set_option linter.unusedSectionVars false

namespace Polis

open List Function Option

/-- The committed rows, the versions of the open transactions, and who holds which lock. -/
structure Rows (κ : Type*) (σ : κ → Type*) (τ : Type*) where
  committed : ∀ k, Option (σ k)
  written : τ → ∀ k, Option (σ k)
  owner : κ → Option τ
  sharers : κ → List τ

namespace Rows

variable {κ : Type*} {σ : κ → Type*} {τ : Type*} [DecidableEq κ] [DecidableEq τ]

section Statements

variable (s : Rows κ σ τ) (t u : τ) (k : κ)

/-- The row that a statement of the transaction sees. -/
def view : Option (σ k) := (s.written t k).or (s.committed k)

/-- A write of the row does not wait: no other transaction holds it in either mode. -/
def Writable : Prop := (s.owner k = none ∨ s.owner k = some t) ∧ ∀ u ∈ s.sharers k, u = t

/-- A shared lock of the row does not wait: no other transaction has written it. -/
def Shareable : Prop := s.owner k = none ∨ s.owner k = some t

instance : Decidable (s.Writable t k) := inferInstanceAs (Decidable (_ ∧ _))

instance : Decidable (s.Shareable t k) := inferInstanceAs (Decidable (_ ∨ _))

/-- The transaction writes its version of the row and has its lock. -/
def put (v : σ k) : Rows κ σ τ :=
  { s with
    written := update s.written t (update (s.written t) k (some v))
    owner := update s.owner k (some t) }

/-- `SELECT … FOR SHARE`: a row that the statement does not see is not locked. -/
def share : Rows κ σ τ :=
  if (s.view t k).isSome then { s with sharers := update s.sharers k (t :: s.sharers k) } else s

/-- The transaction is over. -/
def drop : Rows κ σ τ :=
  { s with
    written := update s.written t fun _ => none
    owner := fun k => if s.owner k = some t then none else s.owner k
    sharers := fun k => (s.sharers k).filter (· ≠ t) }

def rollback : Rows κ σ τ := s.drop t

def commit : Rows κ σ τ := { s.drop t with committed := s.view t }

/-- The transaction has a lock on the row. -/
def Holds : Prop := s.owner k = some t ∨ t ∈ s.sharers k

end Statements

/-- Only the owner of a row has written it, and no other transaction shares it then. -/
structure Good (s : Rows κ σ τ) : Prop where
  owned : ∀ t k, s.written t k ≠ none → s.owner k = some t
  alone : ∀ t k, s.owner k = some t → ∀ u ∈ s.sharers k, u = t

/-- What the transaction sees and holds is the same in both states. -/
structure Keeps (t : τ) (s s' : Rows κ σ τ) : Prop where
  written : s'.written t = s.written t
  owner : ∀ k, s'.owner k = some t ↔ s.owner k = some t
  sharers : ∀ k, t ∈ s'.sharers k ↔ t ∈ s.sharers k
  committed : ∀ k, s.Holds t k → s'.committed k = s.committed k

section Lemmas

variable {s : Rows κ σ τ} {t u : τ} {j k : κ} {v : σ k}

theorem view_of_not_written (h : s.written t k = none) : s.view t k = s.committed k := by
  rw [view, h, none_or]

@[simp] theorem committed_share : (s.share t k).committed = s.committed := by
  unfold share
  split <;> rfl

@[simp] theorem committed_commit : (s.commit t).committed = s.view t := rfl

@[simp] theorem written_put_same : (s.put t k v).written t k = some v := by
  simp [put]

theorem written_put_of_ne (h : j ≠ k) : (s.put t k v).written t j = s.written t j := by
  simp [put, h]

@[simp] theorem owner_put_same : (s.put t k v).owner k = some t := by
  simp [put]

theorem owner_put_of_ne (h : j ≠ k) : (s.put t k v).owner j = s.owner j := by
  simp [put, h]

@[simp] theorem written_share : (s.share t k).written = s.written := by
  unfold share
  split <;> rfl

@[simp] theorem owner_share : (s.share t k).owner = s.owner := by
  unfold share
  split <;> rfl

/-- A row that the statement sees is locked by it. -/
theorem mem_share (h : (s.view t k).isSome) : t ∈ (s.share t k).sharers k := by
  simp [share, h]

theorem Good.put (hs : s.Good) (h : s.Writable t k) : (s.put t k v).Good where
  owned u j hne := by
    by_cases hu : u = t
    · subst hu
      by_cases hj : j = k
      · subst hj
        exact owner_put_same
      · rw [written_put_of_ne hj] at hne
        rw [owner_put_of_ne hj]
        exact hs.owned u j hne
    · have hwritten : (s.put t k v).written u = s.written u := by simp [Rows.put, hu]
      rw [hwritten] at hne
      have howner := hs.owned u j hne
      by_cases hj : j = k
      · -- The version of another transaction would have made the write wait.
        subst hj
        rcases h.1 with hfree | hfree
        · exact absurd (howner.symm.trans hfree) (by simp)
        · exact absurd (Option.some.inj (howner.symm.trans hfree)) hu
      · rw [owner_put_of_ne hj]
        exact howner
  alone u j hu w hw := by
    by_cases hj : j = k
    · subst hj
      rw [owner_put_same] at hu
      rw [← Option.some.inj hu]
      exact h.2 w hw
    · rw [owner_put_of_ne hj] at hu
      exact hs.alone u j hu w hw

theorem Good.share (hs : s.Good) (h : s.Shareable t k) : (s.share t k).Good where
  owned u j hne := by
    rw [written_share] at hne
    rw [owner_share]
    exact hs.owned u j hne
  alone u j hu w hw := by
    rw [owner_share] at hu
    unfold Rows.share at hw
    split at hw
    · dsimp only at hw
      by_cases hj : j = k
      · subst hj
        rw [update_self] at hw
        rcases mem_cons.1 hw with rfl | hw
        · rcases h with hfree | hfree
          · exact absurd (hu.symm.trans hfree) (by simp)
          · exact Option.some.inj (hfree.symm.trans hu)
        · exact hs.alone u j hu w hw
      · rw [update_of_ne hj] at hw
        exact hs.alone u j hu w hw
    · exact hs.alone u j hu w hw

theorem owner_drop : (s.drop t).owner k = some u ↔ s.owner k = some u ∧ u ≠ t := by
  by_cases h : s.owner k = some t
  · simp only [drop, h, if_true]
    constructor
    · intro hu
      cases hu
    · rintro ⟨hu, hne⟩
      exact absurd (Option.some.inj hu).symm hne
  · simp only [drop, if_neg h]
    refine ⟨fun hu => ⟨hu, ?_⟩, fun hu => hu.1⟩
    rintro rfl
    exact h hu

theorem mem_sharers_drop : u ∈ (s.drop t).sharers k ↔ u ∈ s.sharers k ∧ u ≠ t := by
  simp [drop]

theorem written_drop (h : u ≠ t) : (s.drop t).written u = s.written u := by
  simp [drop, h]

theorem written_drop_self : (s.drop t).written t k = none := by
  simp [drop]

theorem Good.drop (hs : s.Good) : (s.drop t).Good where
  owned u j hne := by
    have hu : u ≠ t := by
      rintro rfl
      exact hne written_drop_self
    rw [written_drop hu] at hne
    exact owner_drop.2 ⟨hs.owned u j hne, hu⟩
  alone u j hu w hw :=
    hs.alone u j (owner_drop.1 hu).1 w (mem_sharers_drop.1 hw).1

theorem Good.rollback (hs : s.Good) : (s.rollback t).Good := hs.drop

theorem Good.commit (hs : s.Good) : (s.commit t).Good := ⟨hs.drop.owned, hs.drop.alone⟩

/-! ## What a transaction holds -/

theorem Keeps.refl (t : τ) (s : Rows κ σ τ) : Keeps t s s :=
  ⟨rfl, fun _ => Iff.rfl, fun _ => Iff.rfl, fun _ _ => rfl⟩

variable (hu : u ≠ t)
include hu

theorem keeps_put (hfree : s.Writable t k) : Keeps u s (s.put t k v) where
  written := by simp [Rows.put, hu]
  owner j := by
    by_cases hj : j = k
    · subst hj
      rw [owner_put_same]
      constructor
      · intro h
        exact absurd (Option.some.inj h).symm hu
      · intro h
        rcases hfree.1 with hnone | hsome
        · exact absurd (h.symm.trans hnone) (by simp)
        · exact absurd (Option.some.inj (h.symm.trans hsome)) hu
    · rw [owner_put_of_ne hj]
  sharers _ := Iff.rfl
  committed _ _ := rfl

theorem keeps_share : Keeps u s (s.share t k) where
  written := by rw [written_share]
  owner j := by rw [owner_share]
  sharers j := by
    unfold share
    split
    · by_cases hj : j = k
      · subst hj
        simp [hu]
      · simp [hj]
    · rfl
  committed j _ := by rw [committed_share]

theorem keeps_rollback : Keeps u s (s.rollback t) where
  written := written_drop hu
  owner j := by
    rw [rollback, owner_drop]
    exact and_iff_left hu
  sharers j := by
    rw [rollback, mem_sharers_drop]
    exact and_iff_left hu
  committed _ _ := rfl

/-- A commit changes no row that another transaction holds. -/
theorem keeps_commit (hs : s.Good) : Keeps u s (s.commit t) where
  written := written_drop hu
  owner j := owner_drop.trans (and_iff_left hu)
  sharers j := mem_sharers_drop.trans (and_iff_left hu)
  committed j hj := by
    rw [committed_commit]
    apply view_of_not_written
    by_contra hne
    have hown := hs.owned t j hne
    rcases hj with hj | hj
    · exact hu (Option.some.inj (hj.symm.trans hown))
    · exact hu (hs.alone t j hown u hj)

end Lemmas

end Rows

end Polis
