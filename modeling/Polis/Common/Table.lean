import Mathlib.Data.List.Nodup
import Mathlib.Data.List.Pairwise
import Mathlib.Data.List.Perm.Basic

/-!
# Keyed tables

A table lists its rows in the order of their insertion. Its primary key, a further unique value and
its check constraint are part of it, so a table that breaks one of them cannot be built; a write that
would is refused.
-/

set_option linter.unusedSectionVars false

namespace Polis

open List Function

variable {α : Type*}

/-! ## Errors -/

section Except

universe u

variable {ε : Type*} {α β : Type u}

/-- A sequence succeeds when its parts do. -/
theorem bind_eq_ok {x : Except ε α} {f : α → Except ε β} {b : β} :
    (x >>= f) = .ok b ↔ ∃ a, x = .ok a ∧ f a = .ok b := by
  cases x with
  | error e => exact ⟨fun h => (nomatch h), fun ⟨_, h, _⟩ => (nomatch h)⟩
  | ok a =>
    constructor
    · exact fun h => ⟨a, rfl, h⟩
    · rintro ⟨a', ha, hf⟩
      cases ha
      exact hf

/-- A sequence fails where one of its parts does. -/
theorem bind_eq_error {x : Except ε α} {f : α → Except ε β} {e : ε} :
    (x >>= f) = .error e ↔ x = .error e ∨ ∃ a, x = .ok a ∧ f a = .error e := by
  cases x with
  | error e' =>
    constructor
    · intro h
      cases h
      exact .inl rfl
    · rintro (h | ⟨_, h, _⟩)
      · cases h
        rfl
      · cases h
  | ok a =>
    constructor
    · exact fun h => .inr ⟨a, rfl, h⟩
    · rintro (h | ⟨a', ha, hf⟩)
      · cases h
      · cases ha
        exact hf

/-- The value of a successful computation is mapped. -/
theorem mapped_eq_ok {ε α β : Type*} {f : α → β} {x : Except ε α} {y : β} :
    x.map f = .ok y ↔ ∃ a, x = .ok a ∧ f a = y := by
  cases x with
  | error e => exact ⟨fun h => (nomatch h), fun ⟨_, h, _⟩ => (nomatch h)⟩
  | ok a =>
    constructor
    · intro h
      exact ⟨a, rfl, Except.ok.inj h⟩
    · rintro ⟨a', ha, rfl⟩
      cases ha
      rfl

end Except

/-! ## SQL comparisons -/

/-- `a = b` where NULL makes it false. -/
def sqlEq {α : Type*} [DecidableEq α] : Option α → Option α → Bool
  | some a, some b => a = b
  | _, _ => false

theorem sqlEq_some [DecidableEq α] {a : Option α} {b : α} :
    sqlEq a (some b) = true ↔ a = some b := by
  cases a <;> simp [sqlEq]

theorem some_sqlEq [DecidableEq α] {a : α} {b : Option α} :
    sqlEq (some a) b = true ↔ b = some a := by
  cases b <;> simp [sqlEq, eq_comm]

theorem sqlEq_iff [DecidableEq α] {a b : Option α} :
    sqlEq a b = true ↔ ∃ x, a = some x ∧ b = some x := by
  cases b with
  | none => cases a <;> simp [sqlEq]
  | some b => simp [sqlEq_some]

/-! ## Keyed lists -/

/-- A filter on the key of one row of a keyed list keeps that row alone. -/
theorem filter_eq_singleton {α β : Type*} {l : List α} {f : α → β} {p : α → Bool} {a : α}
    (hnodup : (l.map f).Nodup) (ha : a ∈ l) (hp : ∀ b ∈ l, p b = true ↔ f b = f a) :
    l.filter p = [a] := by
  have hl : l.Nodup := hnodup.of_map
  refine perm_singleton.1 ((perm_ext_iff_of_nodup (hl.filter p) (by simp)).2 fun b => ?_)
  rw [mem_filter, mem_singleton]
  constructor
  · rintro ⟨hb, hpb⟩
    exact inj_on_of_nodup_map hnodup hb ha ((hp b hb).1 hpb)
  · rintro rfl
    exact ⟨ha, (hp b ha).2 rfl⟩

/-! ## Tables -/

/-- The constraints on the rows of a table: the primary key, a further unique value, which is `none`
where a NULL keeps rows apart, and the check constraint. -/
class Row (ρ : Type*) (κ υ : outParam Type*) where
  key : ρ → κ
  unique : ρ → Option υ
  check : ρ → Prop
  decidableCheck : DecidablePred check

instance {ρ κ υ : Type*} [Row ρ κ υ] : DecidablePred (Row.check : ρ → Prop) := Row.decidableCheck

/-- A constraint that a write would break. -/
inductive Violation
  | duplicate
  | check
deriving DecidableEq, Repr

/-- Rows in insertion order that keep their constraints. -/
structure Table (ρ : Type*) {κ υ : Type*} [Row ρ κ υ] where
  rows : List ρ
  keys_nodup : (rows.map Row.key).Nodup
  unique_nodup : (rows.filterMap Row.unique).Nodup
  checked : ∀ r ∈ rows, Row.check r

namespace Table

variable {ρ κ υ : Type*} [Row ρ κ υ]

/-- The empty table. -/
def empty : Table ρ := ⟨[], nodup_nil, nodup_nil, by simp⟩

variable [DecidableEq κ] [DecidableEq υ]

/-- The rows as a table, if they keep the constraints. -/
def ofRows (rows : List ρ) : Except Violation (Table ρ) :=
  if hcheck : ∀ r ∈ rows, Row.check r then
    if hkeys : (rows.map Row.key).Nodup ∧ (rows.filterMap Row.unique).Nodup then
      .ok ⟨rows, hkeys.1, hkeys.2, hcheck⟩
    else .error .duplicate
  else .error .check

/-- The row with a key. -/
def find (t : Table ρ) (k : κ) : Option ρ := t.rows.find? fun r => Row.key r = k

/-- `INSERT` -/
def insert (t : Table ρ) (r : ρ) : Except Violation (Table ρ) := ofRows (t.rows ++ [r])

/-- `UPDATE .. WHERE` the key is `k`. -/
def update (t : Table ρ) (k : κ) (f : ρ → ρ) : Except Violation (Table ρ) :=
  ofRows (t.rows.map fun r => if Row.key r = k then f r else r)

/-- `INSERT .. ON CONFLICT .. DO UPDATE` on the primary key. -/
def upsert (t : Table ρ) (r : ρ) (f : ρ → ρ) : Except Violation (Table ρ) :=
  if (t.find (Row.key r)).isSome then t.update (Row.key r) f else t.insert r

/-- `DELETE .. WHERE` the key is `k`. -/
def delete (t : Table ρ) (k : κ) : Table ρ where
  rows := t.rows.filter fun r => Row.key r ≠ k
  keys_nodup := t.keys_nodup.sublist (filter_sublist.map _)
  unique_nodup := t.unique_nodup.sublist (filter_sublist.filterMap _)
  checked r hr := t.checked r (mem_of_mem_filter hr)

/-- `DELETE .. WHERE p` -/
def deleteWhere (t : Table ρ) (p : ρ → Prop) [DecidablePred p] : Table ρ where
  rows := t.rows.filter fun r => ¬p r
  keys_nodup := t.keys_nodup.sublist (filter_sublist.map _)
  unique_nodup := t.unique_nodup.sublist (filter_sublist.filterMap _)
  checked r hr := t.checked r (mem_of_mem_filter hr)

variable {t t' : Table ρ} {r : ρ} {k k' : κ} {f : ρ → ρ} {p : ρ → Bool}

theorem ofRows_rows {rows : List ρ} (h : ofRows rows = .ok t) : t.rows = rows := by
  unfold ofRows at h
  split at h
  · split at h
    · cases h
      rfl
    · cases h
  · cases h

theorem insert_rows (h : t.insert r = .ok t') : t'.rows = t.rows ++ [r] := ofRows_rows h

theorem update_rows (h : t.update k f = .ok t') :
    t'.rows = t.rows.map fun r => if Row.key r = k then f r else r := ofRows_rows h

theorem find_eq_some : t.find k = some r ↔ r ∈ t.rows ∧ Row.key r = k := by
  constructor
  · intro h
    exact ⟨mem_of_find?_eq_some h, by simpa using find?_some h⟩
  · rintro ⟨hr, rfl⟩
    unfold find
    cases hfind : t.rows.find? fun s => Row.key s = Row.key r with
    | none => simpa using find?_eq_none.1 hfind r hr
    | some s =>
      have hkey : Row.key s = Row.key r := by simpa using find?_some hfind
      rw [inj_on_of_nodup_map t.keys_nodup (mem_of_find?_eq_some hfind) hr hkey]

theorem find_of_mem (h : r ∈ t.rows) : t.find (Row.key r) = some r := find_eq_some.2 ⟨h, rfl⟩

theorem find_eq_none : t.find k = none ↔ ∀ r ∈ t.rows, Row.key r ≠ k := by
  simp [find, find?_eq_none]

/-- Two rows with one unique value are one row. -/
theorem unique_inj {s : ρ} {u : υ} (hr : r ∈ t.rows) (hs : s ∈ t.rows)
    (hru : Row.unique r = some u) (hsu : Row.unique s = some u) : r = s := by
  by_contra hne
  have hpairs := pairwise_filterMap.1 t.unique_nodup
  have : Std.Symm fun a a' : ρ => ∀ b, Row.unique a = some b → ∀ b', Row.unique a' = some b' →
      b ≠ b' := ⟨fun _ _ h b hb b' hb' => (h b' hb' b hb).symm⟩
  exact hpairs.forall hr hs hne u hru u hsu rfl

theorem check_of_find (h : t.find k = some r) : Row.check r := t.checked r (find_eq_some.1 h).1

/-! ## Inserting -/

/-- An inserted row had a new key. -/
theorem insert_fresh (h : t.insert r = .ok t') : t.find (Row.key r) = none := by
  have hkeys := t'.keys_nodup
  rw [insert_rows h, map_append, nodup_append] at hkeys
  exact find_eq_none.2 fun s hs heq =>
    hkeys.2.2 _ (mem_map_of_mem hs) _ (by simp) heq

theorem insert_check (h : t.insert r = .ok t') : Row.check r :=
  t'.checked r (by rw [insert_rows h]; simp)

theorem find_insert (h : t.insert r = .ok t') :
    t'.find k = if k = Row.key r then some r else t.find k := by
  by_cases hk : k = Row.key r
  · rw [if_pos hk, find_eq_some, insert_rows h]
    exact ⟨by simp, hk.symm⟩
  · rw [if_neg hk, find, insert_rows h, find?_append]
    simp [find, Ne.symm hk]

theorem filter_insert (h : t.insert r = .ok t') :
    t'.rows.filter p = t.rows.filter p ++ if p r then [r] else [] := by
  rw [insert_rows h, filter_append]
  by_cases hp : p r
  · simp [hp]
  · simp [hp]

/-- A row with a new key and a new unique value can be inserted, if it keeps the check. -/
theorem exists_insert (hkey : t.find (Row.key r) = none) (hcheck : Row.check r)
    (hunique : ∀ u, Row.unique r = some u → u ∉ t.rows.filterMap Row.unique) :
    ∃ t', t.insert r = .ok t' := by
  have hchecks : ∀ s ∈ t.rows ++ [r], Row.check s := by
    intro s hs
    rcases mem_append.1 hs with hs | hs
    · exact t.checked s hs
    · rwa [mem_singleton.1 hs]
  have hkeys : ((t.rows ++ [r]).map Row.key).Nodup := by
    rw [map_append, nodup_append]
    refine ⟨t.keys_nodup, by simp, fun a ha b hb hab => ?_⟩
    obtain ⟨s, hs, rfl⟩ := mem_map.1 ha
    rw [map_singleton, mem_singleton] at hb
    exact find_eq_none.1 hkey s hs (hab.trans hb)
  have huniques : ((t.rows ++ [r]).filterMap Row.unique).Nodup := by
    rw [filterMap_append, nodup_append]
    refine ⟨t.unique_nodup, ?_, fun a ha b hb hab => ?_⟩
    · cases hr : Row.unique r <;> simp [hr]
    · obtain ⟨s, hs, hb⟩ := mem_filterMap.1 hb
      rw [mem_singleton.1 hs] at hb
      exact hunique b hb (hab ▸ ha)
  rw [insert, ofRows, dif_pos hchecks, dif_pos ⟨hkeys, huniques⟩]
  exact ⟨_, rfl⟩

/-! ## Updating -/

theorem find_update (hf : ∀ r, Row.key (f r) = Row.key r) (h : t.update k f = .ok t') :
    t'.find k' = if k' = k then (t.find k).map f else t.find k' := by
  have hkey : ∀ s : ρ, Row.key (if Row.key s = k then f s else s) = Row.key s := by
    intro s
    split
    · exact hf s
    · rfl
  rw [find, update_rows h, find?_map]
  simp only [comp_def, hkey]
  by_cases hk : k' = k
  · subst hk
    rw [if_pos rfl, find]
    cases hfind : t.rows.find? fun s => Row.key s = k' with
    | none => rfl
    | some s =>
      have hs : Row.key s = k' := by simpa using find?_some hfind
      simp [hs]
  · rw [if_neg hk, find]
    cases hfind : t.rows.find? fun s => Row.key s = k' with
    | none => rfl
    | some s =>
      have hs : Row.key s = k' := by simpa using find?_some hfind
      simp [hs, hk]

/-- An update seen through a filter on values that it keeps. -/
theorem filter_update (hp : ∀ r, p (f r) = p r) (h : t.update k f = .ok t') :
    t'.rows.filter p = (t.rows.filter p).map fun r => if Row.key r = k then f r else r := by
  rw [update_rows h, filter_map]
  congr 1
  refine filter_congr fun r _ => ?_
  rw [comp_apply]
  split
  · exact hp r
  · rfl

/-- A filter that misses the updated row does not see the update. -/
theorem filter_update_of_not (hp : ∀ r, p (f r) = p r) (hmiss : ∀ r, t.find k = some r → p r = false)
    (h : t.update k f = .ok t') : t'.rows.filter p = t.rows.filter p := by
  rw [filter_update hp h]
  refine (map_congr_left fun r hr => ?_).trans (map_id _)
  obtain ⟨hmem, hpr⟩ := mem_filter.1 hr
  rw [if_neg, id]
  intro hkey
  rw [hmiss r (find_eq_some.2 ⟨hmem, hkey⟩)] at hpr
  exact Bool.false_ne_true hpr

/-- An update that keeps the key, the unique value and the check goes through. -/
theorem exists_update (hf : ∀ r, Row.key (f r) = Row.key r)
    (hkeep : ∀ r, t.find k = some r → Row.unique (f r) = Row.unique r ∧ Row.check (f r)) :
    ∃ t', t.update k f = .ok t' := by
  have hfind : ∀ r ∈ t.rows, Row.key r = k → t.find k = some r :=
    fun r hr hk => find_eq_some.2 ⟨hr, hk⟩
  have hchecks : ∀ s ∈ t.rows.map fun r => if Row.key r = k then f r else r, Row.check s := by
    intro s hs
    obtain ⟨r, hr, rfl⟩ := mem_map.1 hs
    split
    · next hk => exact (hkeep r (hfind r hr hk)).2
    · exact t.checked r hr
  have hkeys : (t.rows.map fun r => if Row.key r = k then f r else r).map Row.key =
      t.rows.map Row.key := by
    rw [map_map]
    refine map_congr_left fun r _ => ?_
    rw [comp_apply]
    split
    · exact hf r
    · rfl
  have huniques : (t.rows.map fun r => if Row.key r = k then f r else r).filterMap Row.unique =
      t.rows.filterMap Row.unique := by
    rw [filterMap_map]
    refine filterMap_congr fun r hr => ?_
    rw [comp_apply]
    split
    · next hk => exact (hkeep r (hfind r hr hk)).1
    · rfl
  rw [update, ofRows, dif_pos hchecks,
    dif_pos ⟨hkeys ▸ t.keys_nodup, huniques ▸ t.unique_nodup⟩]
  exact ⟨_, rfl⟩

/-- An upsert leaves the updated row where there was one, and else the new one. -/
theorem find_upsert {r : ρ} (h : t.upsert r f = .ok t') (hf : ∀ s, Row.key (f s) = Row.key s) :
    t'.find k' = if k' = Row.key r then some (((t.find (Row.key r)).map f).getD r)
      else t.find k' := by
  unfold upsert at h
  split at h
  · next hsome =>
      obtain ⟨s, hs⟩ := Option.isSome_iff_exists.1 hsome
      rw [find_update hf h, hs]
      rfl
  · next hnone =>
      rw [find_insert h, Option.not_isSome_iff_eq_none.1 hnone]
      rfl

/-- A value that an upsert sets, where the inserted row has it already. -/
theorem map_find_upsert {val : ρ → α} {r : ρ} (h : t.upsert r f = .ok t')
    (hf : ∀ s, Row.key (f s) = Row.key s) (hval : ∀ s, val (f s) = val r) :
    (t'.find k').map val = if k' = Row.key r then some (val r) else (t.find k').map val := by
  rw [find_upsert h hf]
  split
  · cases t.find (Row.key r) with
    | none => rfl
    | some s => exact congrArg some (hval s)
  · rfl

/-- A value that an update sets. -/
theorem map_find_update {val : ρ → α} {a : α} (h : t.update k f = .ok t')
    (hf : ∀ s, Row.key (f s) = Row.key s) (hval : ∀ s, val (f s) = a) :
    (t'.find k').map val = if k' = k then (t.find k).map fun _ => a else (t.find k').map val := by
  rw [find_update hf h]
  split
  · cases t.find k with
    | none => rfl
    | some s => exact congrArg some (hval s)
  · rfl

/-! ## Deleting -/

theorem find_delete : (t.delete k).find k' = if k' = k then none else t.find k' := by
  by_cases hk : k' = k
  · subst hk
    rw [if_pos rfl, find_eq_none]
    intro r hr
    simpa using (mem_filter.1 hr).2
  · rw [if_neg hk]
    cases hfind : t.find k' with
    | none =>
      rw [find_eq_none] at hfind ⊢
      exact fun r hr => hfind r (mem_of_mem_filter hr)
    | some r =>
      obtain ⟨hr, hkey⟩ := find_eq_some.1 hfind
      refine find_eq_some.2 ⟨mem_filter.2 ⟨hr, ?_⟩, hkey⟩
      simpa [hkey] using hk

theorem mem_deleteWhere {q : ρ → Prop} [DecidablePred q] :
    r ∈ (t.deleteWhere q).rows ↔ r ∈ t.rows ∧ ¬q r := by
  simp [deleteWhere]

end Table

end Polis
