import Mathlib.Data.List.Perm.Basic
import Mathlib.Data.List.Nodup
import Mathlib.Data.List.Pairwise
import Mathlib.Algebra.GroupWithZero.Nat

/-!
# Partitions of a list into blocks

`Partitions block is names` says that the blocks of the indices `is` list every name exactly as
often as `names` does, and that no block is empty.
-/

namespace Polis

open scoped List

variable {ι κ α : Type*}

/-- The blocks of `is` partition `names`. -/
structure Partitions (block : ι → List α) (is : List ι) (names : List α) : Prop where
  perm : (is.flatMap block).Perm names
  nonempty : ∀ i ∈ is, block i ≠ []

/-- The fibers of `f` over distinct keys that cover its values list every entry once. -/
theorem flatMap_fibers_perm [DecidableEq κ] (f : α → κ) {keys : List κ} (hkeys : keys.Nodup)
    {l : List α} (hl : ∀ a ∈ l, f a ∈ keys) :
    (keys.flatMap fun k => l.filter (f · = k)).Perm l := by
  induction keys generalizing l with
  | nil =>
    have : l = [] := List.eq_nil_iff_forall_not_mem.2 fun a ha => by simpa using hl a ha
    simp [this]
  | cons k keys ih =>
    obtain ⟨hk, hkeys⟩ := List.nodup_cons.1 hkeys
    have hrest : ∀ a ∈ l.filter (f · ≠ k), f a ∈ keys := fun a ha => by
      obtain ⟨ha, hne⟩ := List.mem_filter.1 ha
      exact (List.mem_cons.1 (hl a ha)).resolve_left (by simpa using hne)
    -- the later fibers do not see the entries over `k`
    have hlater : (keys.flatMap fun k' => l.filter (f · = k')) =
        keys.flatMap fun k' => (l.filter (f · ≠ k)).filter (f · = k') := by
      refine List.flatMap_congr fun k' hk' => ?_
      rw [List.filter_filter]
      refine List.filter_congr fun a _ => ?_
      by_cases h : f a = k'
      · simp [h, ne_of_mem_of_not_mem hk' hk]
      · simp [h]
    rw [List.flatMap_cons, hlater]
    have hsplit : (l.filter (f · = k) ++ l.filter (f · ≠ k)).Perm l := by
      simpa using List.filter_append_perm (fun a => decide (f a = k)) l
    exact ((ih hkeys hrest).append_left _).trans hsplit

/-- A list is at most as long as the bounds of its fibers together. -/
theorem length_le_of_fibers [DecidableEq κ] (f : α → κ) {keys : List κ} (hkeys : keys.Nodup) {l : List α}
    (hl : ∀ a ∈ l, f a ∈ keys) (bound : κ → ℕ) (hbound : ∀ k ∈ keys, (l.filter (f · = k)).length ≤ bound k) :
    l.length ≤ (keys.map bound).sum := by
  rw [← (flatMap_fibers_perm f hkeys hl).length_eq, List.length_flatMap]
  clear hkeys hl
  induction keys with
  | nil => exact Nat.le_refl _
  | cons k keys ih =>
    rw [List.map_cons, List.map_cons, List.sum_cons, List.sum_cons]
    exact Nat.add_le_add (hbound k List.mem_cons_self) (ih fun k hk => hbound k (List.mem_cons_of_mem _ hk))

/-- Keys that a partial map keeps come out as a sublist of all the keys. -/
theorem map_filterMap_sublist {β : Type*} {f : β → Option ι} {key : ι → κ} {key' : β → κ}
    (h : ∀ b i, f b = some i → key i = key' b) (l : List β) :
    ((l.filterMap f).map key).Sublist (l.map key') := by
  induction l with
  | nil => exact .slnil
  | cons b l ih =>
    cases hb : f b with
    | none =>
      rw [List.filterMap_cons_none hb, List.map_cons]
      exact ih.cons _
    | some i =>
      rw [List.filterMap_cons_some hb, List.map_cons, List.map_cons, h b i hb]
      exact ih.cons_cons _

/-- With distinct keys, an entry is the only one under its key. -/
theorem filter_key [DecidableEq κ] {f : α → κ} {l : List α} {x : α}
    (h : (l.map f).Nodup) (hx : x ∈ l) : l.filter (f · = f x) = [x] := by
  induction l with
  | nil => cases hx
  | cons y l ih =>
    rw [List.map_cons, List.nodup_cons] at h
    rcases List.mem_cons.1 hx with rfl | hx
    · rw [List.filter_cons_of_pos (by simp), List.filter_eq_nil_iff.2]
      intro z hz heq
      exact h.1 (of_decide_eq_true heq ▸ List.mem_map_of_mem hz)
    · rw [List.filter_cons_of_neg, ih h.2 hx]
      intro heq
      exact h.1 (of_decide_eq_true heq ▸ List.mem_map_of_mem hx)

namespace Partitions

variable {block : ι → List α} {is : List ι} {names : List α}

theorem mem_iff (h : Partitions block is names) {a : α} :
    a ∈ names ↔ ∃ i ∈ is, a ∈ block i := by
  rw [← h.perm.mem_iff, List.mem_flatMap]

/-- With distinct names every name lies in the block of exactly one index. -/
theorem existsUnique (h : Partitions block is names) (hnames : names.Nodup) {a : α}
    (ha : a ∈ names) : ∃! i, i ∈ is ∧ a ∈ block i := by
  obtain ⟨i, hi, hai⟩ := h.mem_iff.1 ha
  refine ⟨i, ⟨hi, hai⟩, fun j ⟨hj, haj⟩ => ?_⟩
  by_contra hne
  have hdisj := (List.nodup_flatMap.1 (h.perm.nodup_iff.2 hnames)).2
  have : Std.Symm (Function.onFun List.Disjoint block) := ⟨fun _ _ h a hb ha => h ha hb⟩
  exact hdisj.forall hj hi hne haj hai

/-- The blocks of a partition have no name twice. -/
theorem nodup (h : Partitions block is names) (hnames : names.Nodup) {i : ι} (hi : i ∈ is) :
    (block i).Nodup :=
  (List.nodup_flatMap.1 (h.perm.nodup_iff.2 hnames)).1 i hi

/-- Dropping the indices with an empty block from a covering family leaves a partition. -/
theorem of_filterMap_perm {β : Type*} {l : List β} {f : β → Option ι} (cover : β → List α)
    (hperm : (l.flatMap cover).Perm names)
    (hnone : ∀ b ∈ l, f b = none → cover b = [])
    (hsome : ∀ b ∈ l, ∀ i, f b = some i → block i = cover b ∧ block i ≠ []) :
    Partitions block (l.filterMap f) names where
  perm := by
    refine (List.Perm.of_eq ?_).trans hperm
    clear hperm
    induction l with
    | nil => rfl
    | cons b l ih =>
      have ih := ih (fun b hb => hnone b (List.mem_cons_of_mem _ hb))
        (fun b hb => hsome b (List.mem_cons_of_mem _ hb))
      cases hb : f b with
      | none =>
        rw [List.filterMap_cons_none hb, List.flatMap_cons, hnone b List.mem_cons_self hb, ih,
          List.nil_append]
      | some i =>
        rw [List.filterMap_cons_some hb, List.flatMap_cons, List.flatMap_cons, ih,
          (hsome b List.mem_cons_self i hb).1]
  nonempty i hi := by
    obtain ⟨b, hb, hbi⟩ := List.mem_filterMap.1 hi
    exact (hsome b hb i hbi).2

/-- A partition of the indices of a partition: the merged blocks partition the names. -/
theorem merge {γ : Type*} {outer : List γ} {group : γ → List κ} {key : ι → κ}
    {lookup : κ → List α} (h : Partitions block is names)
    (hgroup : Partitions group outer (is.map key)) (hlookup : ∀ i ∈ is, lookup (key i) = block i) :
    Partitions (fun g => (group g).flatMap lookup) outer names where
  perm := by
    calc (outer.flatMap fun g => (group g).flatMap lookup)
        = (outer.flatMap group).flatMap lookup := List.flatMap_assoc.symm
      _ ~ (is.map key).flatMap lookup := hgroup.perm.flatMap_right lookup
      _ = is.flatMap block := by
          rw [List.flatMap_map]
          exact List.flatMap_congr hlookup
      _ ~ names := h.perm
  nonempty g hg := by
    obtain ⟨k, hk⟩ := List.exists_mem_of_ne_nil _ (hgroup.nonempty g hg)
    obtain ⟨i, hi, rfl⟩ := List.mem_map.1 (hgroup.mem_iff.2 ⟨g, hg, hk⟩)
    obtain ⟨a, ha⟩ := List.exists_mem_of_ne_nil _ (h.nonempty i hi)
    exact List.ne_nil_of_mem (List.mem_flatMap.2 ⟨_, hk, hlookup i hi ▸ ha⟩)

/-- A reordering of the indices is a partition of the same names. -/
theorem of_perm {is' : List ι} (h : Partitions block is names) (hperm : is'.Perm is) :
    Partitions block is' names where
  perm := (hperm.flatMap_right block).trans h.perm
  nonempty i hi := h.nonempty i (hperm.mem_iff.1 hi)

end Partitions

end Polis
