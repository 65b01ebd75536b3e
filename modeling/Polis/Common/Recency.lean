import Mathlib.Data.List.AList
import Mathlib.Data.List.Dedup
import Mathlib.Algebra.BigOperators.Group.List.Basic
import Mathlib.Algebra.Order.Group.Nat
import Mathlib.Algebra.GroupWithZero.Nat

/-!
# Keys in the order of their last use, and the shortest part of them to drop

A log of uses gives the keys in the order of their last use. Keys have weights; what has too many keys or
too much weight drops keys from the front until both bounds hold.
-/

namespace Polis.Recency

open List AList

variable {κ α : Type*} [DecidableEq κ] {k : κ} {l log order : List κ} {w : κ → ℕ} {cap budget : ℕ}

/-! ## The last use -/

/-- The keys with one as the most recent. -/
def touch (order : List κ) (k : κ) : List κ := order.filter (· ≠ k) ++ [k]

theorem mem_touch {a : κ} : a ∈ touch order k ↔ a ∈ order ∨ a = k := by
  rw [touch, mem_append, mem_filter, mem_singleton, decide_eq_true_eq]
  by_cases h : a = k <;> simp [h]

theorem nodup_touch (h : order.Nodup) : (touch order k).Nodup := by
  refine (h.filter _).append (nodup_singleton k) ?_
  simp

/-- `dedup` keeps the last one of equal entries. -/
theorem dedup_concat (log : List κ) (k : κ) : (log ++ [k]).dedup = touch log.dedup k := by
  induction log with
  | nil => rfl
  | cons a log ih =>
    rw [cons_append, dedup_cons, dedup_cons, ih]
    by_cases hk : a = k
    · subst hk
      by_cases ha : a ∈ log <;> simp [ha, touch]
    · by_cases ha : a ∈ log <;> simp [ha, hk, touch]

/-- The keys that are kept, in the order of their last use. -/
def Recent (log : List κ) (p : κ → Prop) [DecidablePred p] (order : List κ) : Prop :=
  order = log.dedup.filter p

section Recent

variable {p q : κ → Prop} [DecidablePred p] [DecidablePred q]

theorem Recent.nodup (h : Recent log p order) : order.Nodup := by
  rw [h]
  exact (nodup_dedup log).filter _

theorem Recent.touch (h : Recent log p order) (hq : ∀ a, q a ↔ p a ∨ a = k) :
    Recent (log ++ [k]) q (touch order k) := by
  have hk : q k := (hq k).2 (.inr rfl)
  rw [Recent, dedup_concat, Recency.touch, Recency.touch, h, filter_append, filter_filter,
    filter_filter, filter_singleton, decide_eq_true hk]
  congr 1
  refine filter_congr fun a _ => ?_
  by_cases ha : a = k
  · simp [ha]
  · simp [ha, hq]

/-- Some of the keys are not kept any more. -/
theorem Recent.sub (h : Recent log p order) {r : κ → Prop} [DecidablePred r] (hq : ∀ a, q a ↔ p a ∧ r a) :
    Recent log q (order.filter r) := by
  rw [Recent, h, filter_filter]
  refine filter_congr fun a _ => ?_
  by_cases hp : p a <;> simp [hq, hp]

end Recent

/-! ## The shortest part to drop -/

def Fits (w : κ → ℕ) (cap budget : ℕ) (l : List κ) : Prop := l.length ≤ cap ∧ (l.map w).sum ≤ budget

instance : Decidable (Fits w cap budget l) := inferInstanceAs (Decidable (_ ∧ _))

/-- What is left when keys are dropped from the front until the rest fits. -/
def shed (w : κ → ℕ) (cap budget : ℕ) : List κ → List κ
  | [] => []
  | k :: l => if Fits w cap budget (k :: l) then k :: l else shed w cap budget l

theorem Fits.tail (h : Fits w cap budget (k :: l)) : Fits w cap budget l := by
  obtain ⟨hlength, hsum⟩ := h
  rw [length_cons] at hlength
  rw [map_cons, sum_cons] at hsum
  exact ⟨by omega, by omega⟩

theorem Fits.drop (h : Fits w cap budget l) (n : ℕ) : Fits w cap budget (l.drop n) := by
  induction n generalizing l with
  | zero => exact h
  | succ n ih => cases l with
      | nil => exact h
      | cons k l => exact ih h.tail

theorem shed_of_fits (h : Fits w cap budget l) : shed w cap budget l = l := by
  cases l with
  | nil => rfl
  | cons k l => rw [shed, if_pos h]

theorem fits_shed : Fits w cap budget (shed w cap budget l) := by
  induction l with
  | nil => exact ⟨Nat.zero_le _, Nat.zero_le _⟩
  | cons k l ih =>
    rw [shed]
    split
    · assumption
    · exact ih

/-- What is dropped is the shortest part at the front without which the rest fits. -/
theorem shed_shortest (w : κ → ℕ) (cap budget : ℕ) (l : List κ) :
    ∃ n ≤ l.length, shed w cap budget l = l.drop n ∧ ∀ m, Fits w cap budget (l.drop m) ↔ n ≤ m := by
  induction l with
  | nil =>
    refine ⟨0, le_rfl, rfl, fun m => ?_⟩
    rw [drop_nil]
    exact iff_of_true ⟨Nat.zero_le _, Nat.zero_le _⟩ (Nat.zero_le m)
  | cons k l ih =>
    rw [shed]
    by_cases h : Fits w cap budget (k :: l)
    · rw [if_pos h]
      exact ⟨0, Nat.zero_le _, rfl, fun m => iff_of_true (h.drop m) (Nat.zero_le m)⟩
    · obtain ⟨n, hn, hshed, hleast⟩ := ih
      rw [if_neg h]
      refine ⟨n + 1, Nat.succ_le_succ hn, hshed, fun m => ?_⟩
      cases m with
      | zero => exact iff_of_false h (by omega)
      | succ m =>
        rw [drop_succ_cons, hleast]
        omega

theorem shed_congr {v : κ → ℕ} (h : ∀ k ∈ l, w k = v k) : shed w cap budget l = shed v cap budget l := by
  induction l with
  | nil => rfl
  | cons k l ih =>
    have hmap : (k :: l).map w = (k :: l).map v := map_congr_left h
    have hfits : Fits w cap budget (k :: l) ↔ Fits v cap budget (k :: l) := by rw [Fits, hmap]; rfl
    rw [shed, shed, ih fun a ha => h a (mem_cons_of_mem k ha)]
    exact if_congr hfits rfl rfl

theorem drop_eq_filter (h : l.Nodup) (n : ℕ) : l.drop n = l.filter (· ∈ l.drop n) := by
  induction n generalizing l with
  | zero => rw [drop_zero, filter_eq_self.2 fun a ha => decide_eq_true ha]
  | succ n ih => cases l with
      | nil => rfl
      | cons k l =>
        obtain ⟨hk, hl⟩ := nodup_cons.1 h
        have hdrop : k ∉ l.drop n := fun hmem => hk (mem_of_mem_drop hmem)
        rw [drop_succ_cons, filter_cons_of_neg (by simpa using hdrop)]
        exact ih hl

/-! ## The weight of a map -/

/-- The weight of all values of a map. -/
def weight (f : α → ℕ) (s : AList fun _ : κ => α) : ℕ := (s.entries.map fun e => f e.2).sum

/-- The weight of the value of a key. -/
def weightAt (f : α → ℕ) (s : AList fun _ : κ => α) (k : κ) : ℕ := (s.lookup k).elim 0 f

variable {f : α → ℕ} {s : AList fun _ : κ => α} {a : α}

theorem weight_insert (h : k ∉ s) : weight f (s.insert k a) = f a + weight f s := by
  rw [weight, entries_insert_of_notMem h, map_cons, sum_cons, weight]

theorem weight_erase (s : AList fun _ : κ => α) (k : κ) : weight f (s.erase k) + weightAt f s k = weight f s := by
  induction s using insertRec with
  | H0 => rfl
  | IH j b s hj ih =>
    by_cases hk : k = j
    · subst hk
      have herase : (s.insert k b).erase k = s := ext (by
        change List.kerase k (insert k b s).entries = s.entries
        rw [entries_insert_of_notMem hj, kerase_cons_eq (s := (⟨k, b⟩ : Σ _ : κ, α)) rfl])
      rw [herase, weightAt, lookup_insert, weight_insert hj]
      exact Nat.add_comm ..
    · have herase : (s.insert j b).erase k = (s.erase k).insert j b := ext (by
        change List.kerase k (insert j b s).entries = _
        rw [entries_insert_of_notMem hj, kerase_cons_ne (s := (⟨j, b⟩ : Σ _ : κ, α)) hk,
          entries_insert_of_notMem (fun h => hj (mem_erase.1 h).2)]
        rfl)
      have hat : weightAt f (s.insert j b) k = weightAt f s k := by
        rw [weightAt, weightAt, lookup_insert_ne hk]
      rw [herase, weight_insert (fun h => hj (mem_erase.1 h).2), weight_insert hj, hat]
      omega

theorem weight_keys (s : AList fun _ : κ => α) : weight f s = (s.keys.map (weightAt f s)).sum := by
  induction s using insertRec with
  | H0 => rfl
  | IH j b s hj ih =>
    have hkeys : s.keys.map (weightAt f (s.insert j b)) = s.keys.map (weightAt f s) := by
      refine map_congr_left fun k hk => ?_
      have hne : k ≠ j := fun h => hj (h ▸ hk)
      rw [weightAt, weightAt, lookup_insert_ne hne]
    rw [weight_insert hj, keys_insert, map_cons, sum_cons, weightAt, lookup_insert,
      erase_of_not_mem hj, hkeys, ih]
    rfl

end Polis.Recency
