import Polis.Common.AppendNew
import Polis.Common.Newest
import Mathlib.Data.List.Induction

/-!
# Maps in the order of insertion

The entries of a map stay in the order in which their keys were first set; setting a key again replaces
its value in place. A map that is filled from a list of writes has the keys in the order in which they first
appear, and under each key the value of its last write.
-/

namespace Polis

open List Function

/-- Entries with distinct keys, in the order of insertion. -/
structure OrderedMap (κ ν : Type*) where
  entries : List (κ × ν)
  nodup : (entries.map Prod.fst).Nodup

namespace OrderedMap

variable {κ ν α : Type*} {m : OrderedMap κ ν} {k : κ} {v : ν}

def empty : OrderedMap κ ν := ⟨[], .nil⟩

def keys (m : OrderedMap κ ν) : List κ := m.entries.map Prod.fst

def values (m : OrderedMap κ ν) : List ν := m.entries.map Prod.snd

def size (m : OrderedMap κ ν) : ℕ := m.entries.length

theorem keys_nodup (m : OrderedMap κ ν) : m.keys.Nodup := m.nodup

variable [DecidableEq κ]

def get (m : OrderedMap κ ν) (k : κ) : Option ν := (m.entries.find? (·.1 = k)).map Prod.snd

def has (m : OrderedMap κ ν) (k : κ) : Bool := decide (k ∈ m.keys)

/-- The entries after a key has been set. -/
def setEntries (l : List (κ × ν)) (k : κ) (v : ν) : List (κ × ν) :=
  if k ∈ l.map Prod.fst then l.map fun e => if e.1 = k then (k, v) else e else l ++ [(k, v)]

theorem setEntries_keys (l : List (κ × ν)) (k : κ) (v : ν) :
    (setEntries l k v).map Prod.fst =
      if k ∈ l.map Prod.fst then l.map Prod.fst else l.map Prod.fst ++ [k] := by
  unfold setEntries
  split
  · rw [map_map]
    refine map_congr_left fun e _ => ?_
    by_cases h : e.1 = k
    · simp [h]
    · simp [h]
  · simp

def set (m : OrderedMap κ ν) (k : κ) (v : ν) : OrderedMap κ ν where
  entries := setEntries m.entries k v
  nodup := by
    rw [setEntries_keys]
    split
    · exact m.nodup
    next h =>
      refine nodup_append.2 ⟨m.nodup, nodup_singleton k, ?_⟩
      rintro a ha b hb rfl
      exact h (mem_singleton.1 hb ▸ ha)

/-- The map of a list of writes. -/
def ofWrites (key : α → κ) (value : α → ν) (l : List α) : OrderedMap κ ν :=
  l.foldl (fun m a => m.set (key a) (value a)) empty

/-! ## Lookup -/

theorem get_eq_some : m.get k = some v ↔ (k, v) ∈ m.entries := by
  unfold get
  constructor
  · intro h
    obtain ⟨e, he, rfl⟩ := Option.map_eq_some_iff.1 h
    obtain rfl : e.1 = k := by simpa using find?_some he
    exact mem_of_find?_eq_some he
  · intro h
    cases hfind : m.entries.find? (·.1 = k) with
    | none => simpa using find?_eq_none.1 hfind _ h
    | some e =>
      obtain hk : e.1 = k := by simpa using find?_some hfind
      obtain rfl : e = (k, v) :=
        inj_on_of_nodup_map m.nodup (mem_of_find?_eq_some hfind) h hk
      rfl

theorem get_eq_none : m.get k = none ↔ k ∉ m.keys := by
  unfold get keys
  rw [Option.map_eq_none_iff, find?_eq_none, mem_map]
  constructor
  · rintro h ⟨e, he, rfl⟩
    simpa using h e he
  · intro h e he
    simpa using fun hk => h ⟨e, he, hk⟩

theorem get_isSome : (m.get k).isSome = m.has k := by
  unfold has
  cases h : m.get k with
  | none => simp [get_eq_none.1 h]
  | some v => exact (decide_eq_true (mem_map_of_mem (f := Prod.fst) (get_eq_some.1 h))).symm

@[simp] theorem get_empty (k : κ) : (empty : OrderedMap κ ν).get k = none := rfl

theorem keys_set (m : OrderedMap κ ν) (k : κ) (v : ν) :
    (m.set k v).keys = if k ∈ m.keys then m.keys else m.keys ++ [k] := setEntries_keys m.entries k v

theorem get_set (m : OrderedMap κ ν) (k : κ) (v : ν) (k' : κ) :
    (m.set k v).get k' = if k' = k then some v else m.get k' := by
  have hmem : ∀ w, (k', w) ∈ setEntries m.entries k v ↔
      (k' = k ∧ w = v) ∨ (k' ≠ k ∧ (k', w) ∈ m.entries) := by
    intro w
    unfold setEntries
    split
    next h =>
      rw [mem_map]
      constructor
      · rintro ⟨e, he, heq⟩
        by_cases hk : e.1 = k
        · rw [if_pos hk] at heq
          cases heq
          exact .inl ⟨rfl, rfl⟩
        · rw [if_neg hk] at heq
          subst heq
          exact .inr ⟨hk, he⟩
      · rintro (⟨rfl, rfl⟩ | ⟨hk, he⟩)
        · obtain ⟨e, he, hk⟩ := mem_map.1 h
          exact ⟨e, he, if_pos hk⟩
        · exact ⟨(k', w), he, if_neg hk⟩
    next h =>
      rw [mem_append, mem_singleton, Prod.mk.injEq]
      constructor
      · rintro (he | ⟨rfl, rfl⟩)
        · exact .inr ⟨fun hk => h (hk ▸ mem_map_of_mem (f := Prod.fst) he), he⟩
        · exact .inl ⟨rfl, rfl⟩
      · rintro (⟨rfl, rfl⟩ | ⟨-, he⟩)
        · exact .inr ⟨rfl, rfl⟩
        · exact .inl he
  refine Option.ext fun w => ?_
  rw [get_eq_some]
  change (k', w) ∈ setEntries m.entries k v ↔ _
  rw [hmem]
  by_cases hk : k' = k
  · simp [hk, eq_comm]
  · simp [hk, get_eq_some]

/-! ## Counting the values -/

theorem values_eq_map_get (m : OrderedMap κ ν) (d : ν) :
    m.values = m.keys.map fun k => (m.get k).getD d := by
  unfold values keys
  rw [map_map]
  refine map_congr_left fun e he => ?_
  rw [comp_apply, get_eq_some.2 he, Option.getD_some]

theorem entries_eq_map_get (m : OrderedMap κ ν) (d : ν) :
    m.entries = m.keys.map fun k => (k, (m.get k).getD d) := by
  unfold keys
  rw [map_map]
  refine (map_id _).symm.trans (map_congr_left fun e he => ?_)
  rw [comp_apply, get_eq_some.2 he, Option.getD_some]
  rfl

/-- Values are counted over any distinct keys that cover those of the map. -/
theorem countP_values {ks : List κ} (hks : ks.Nodup) (hsub : m.keys ⊆ ks) (q : ν → Bool) :
    m.values.countP q = ks.countP fun k => (m.get k).any q := by
  have hkeys : m.values.countP q = m.keys.countP fun k => (m.get k).any q := by
    unfold values keys
    rw [countP_map, countP_map]
    refine countP_congr fun e he => ?_
    rw [comp_apply, comp_apply, get_eq_some.2 he, Option.any_some]
  have hperm : (ks.filter fun k => m.has k).Perm m.keys := by
    refine (perm_ext_iff_of_nodup (hks.filter _) m.keys_nodup).2 fun k => ?_
    rw [mem_filter, has, decide_eq_true_eq]
    exact ⟨And.right, fun hk => ⟨hsub hk, hk⟩⟩
  rw [hkeys, ← hperm.countP_eq, countP_filter]
  refine countP_congr fun k _ => ?_
  rw [← get_isSome]
  cases m.get k <;> simp

theorem size_eq_countP {ks : List κ} (hks : ks.Nodup) (hsub : m.keys ⊆ ks) :
    m.size = ks.countP fun k => (m.get k).isSome := by
  have hsize : m.size = m.values.countP fun _ => true := by simp [size, values]
  rw [hsize, countP_values hks hsub]
  refine countP_congr fun k _ => ?_
  cases m.get k <;> simp

/-! ## Mapping the values -/

section Map

variable {μ : Type*}

def mapValues (f : ν → μ) (m : OrderedMap κ ν) : OrderedMap κ μ where
  entries := m.entries.map fun e => (e.1, f e.2)
  nodup := by
    rw [map_map]
    exact m.nodup

theorem mapValues_set (f : ν → μ) (m : OrderedMap κ ν) (k : κ) (v : ν) :
    (m.set k v).mapValues f = (m.mapValues f).set k (f v) := by
  have hkeys : (m.entries.map fun e => (e.1, f e.2)).map Prod.fst = m.entries.map Prod.fst := by
    rw [map_map]
    rfl
  have hentries : (setEntries m.entries k v).map (fun e => (e.1, f e.2)) =
      setEntries (m.entries.map fun e => (e.1, f e.2)) k (f v) := by
    unfold setEntries
    rw [hkeys]
    split
    · rw [map_map, map_map]
      refine map_congr_left fun e _ => ?_
      by_cases h : e.1 = k
      · simp [h]
      · simp [h]
    · simp
  unfold mapValues set
  congr 1

theorem get_mapValues (f : ν → μ) (m : OrderedMap κ ν) (k : κ) : (m.mapValues f).get k = (m.get k).map f := by
  unfold get mapValues
  rw [find?_map, Option.map_map, Option.map_map]
  rfl

theorem values_mapValues (f : ν → μ) (m : OrderedMap κ ν) : (m.mapValues f).values = m.values.map f := by
  unfold values mapValues
  rw [map_map, map_map]
  rfl

theorem size_mapValues (f : ν → μ) (m : OrderedMap κ ν) : (m.mapValues f).size = m.size := length_map _

end Map

/-! ## A map of writes -/

section Writes

variable {key : α → κ} {value : α → ν} {l : List α} {a : α}

theorem ofWrites_append (l r : List α) : ofWrites key value (l ++ r) =
    r.foldl (fun m a => m.set (key a) (value a)) (ofWrites key value l) := foldl_append

theorem ofWrites_concat (l : List α) (a : α) :
    ofWrites key value (l ++ [a]) = (ofWrites key value l).set (key a) (value a) := ofWrites_append l [a]

/-- The keys, in the order in which they were first written. -/
theorem keys_ofWrites (l : List α) : (ofWrites key value l).keys = appendNew [] (l.map key) := by
  induction l using List.reverseRecOn with
  | nil => rfl
  | append_singleton l a ih =>
    rw [ofWrites_concat, keys_set, ih, map_append, appendNew_append]
    rfl

theorem mem_keys_ofWrites : k ∈ (ofWrites key value l).keys ↔ ∃ a ∈ l, key a = k := by
  rw [keys_ofWrites, mem_appendNew]
  simp

/-- Under each key the value of its last write. -/
theorem get_ofWrites (l : List α) (k : κ) :
    (ofWrites key value l).get k = (lastHit (fun a => decide (key a = k)) l).map value := by
  induction l using List.reverseRecOn with
  | nil => rfl
  | append_singleton l a ih =>
    rw [ofWrites_concat, get_set, ih, lastHit_append]
    by_cases h : key a = k
    · simp [lastHit, h]
    · simp [lastHit, h, Ne.symm h]

end Writes

end OrderedMap

end Polis
