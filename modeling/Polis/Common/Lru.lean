import Mathlib.Data.List.Basic

/-!
# A bounded map that forgets what was used least recently

The entries stand in the order of their last use. A read or a write makes a key the most recent one, and a
write drops what is too much from the front.
-/

namespace Polis

structure Lru (κ : Type*) (α : Type*) where
  cap : ℕ
  /-- The least recent one first. -/
  entries : List (κ × α)

namespace Lru

variable {κ α : Type*} [DecidableEq κ]

/-- The value of a key, without a use of it. -/
def find (l : Lru κ α) (k : κ) : Option α := (l.entries.find? (·.1 = k)).map Prod.snd

/-- The entries with the key as the most recent one. -/
def touch (l : Lru κ α) (k : κ) (a : α) : List (κ × α) := l.entries.filter (·.1 ≠ k) ++ [(k, a)]

def get (l : Lru κ α) (k : κ) : Option α × Lru κ α :=
  match l.find k with
  | none => (none, l)
  | some a => (some a, { l with entries := l.touch k a })

def set (l : Lru κ α) (k : κ) (a : α) : Lru κ α :=
  { l with entries := (l.touch k a).drop ((l.touch k a).length - l.cap) }

variable {l : Lru κ α} {k : κ} {a : α} {e : κ × α}

theorem mem_of_find (h : l.find k = some a) : (k, a) ∈ l.entries := by
  obtain ⟨e, he, rfl⟩ := Option.map_eq_some_iff.1 h
  have hk : e.1 = k := by simpa using List.find?_some he
  exact hk ▸ List.mem_of_find?_eq_some he

theorem mem_touch : e ∈ l.touch k a ↔ (e ∈ l.entries ∧ e.1 ≠ k) ∨ e = (k, a) := by
  simp [touch]

theorem get_fst : (l.get k).1 = l.find k := by
  rw [get]
  cases hfind : l.find k <;> rfl

/-- A read adds no entry. -/
theorem mem_of_get (h : e ∈ (l.get k).2.entries) : e ∈ l.entries := by
  rw [get] at h
  cases hfind : l.find k with
  | none => rwa [hfind] at h
  | some a =>
    rw [hfind] at h
    rcases mem_touch.1 h with h | rfl
    · exact h.1
    · exact mem_of_find hfind

/-- A write adds the entry that is written, and no other. -/
theorem mem_of_set (h : e ∈ (l.set k a).entries) : (e ∈ l.entries ∧ e.1 ≠ k) ∨ e = (k, a) :=
  mem_touch.1 (List.mem_of_mem_drop h)

end Lru

end Polis
