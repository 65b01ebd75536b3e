import Polis.Common.OrderedMap

/-!
# Control breaks

A stream in the order of a key is summarised in one pass: what comes under the open key is gathered, and
where the key changes the open block is closed and the next one opened. Each key then has one block, which
gathers everything that the stream has under it; the blocks are those of a map that is filled from the stream.
-/

namespace Polis

open List

/-- The open block, with its key, and what was made of the closed ones. -/
structure Breaks (κ β γ : Type*) where
  opened : Option (κ × β)
  closed : List γ

namespace Breaks

variable {α κ β γ : Type*} [LinearOrder κ] (key : α → κ) (start : β) (add : β → α → β) (close : κ → β → γ)
variable {l : List α}

def feed (b : Breaks κ β γ) (a : α) : Breaks κ β γ :=
  match b.opened with
  | none => ⟨some (key a, add start a), b.closed⟩
  | some (k, x) =>
    if key a = k then ⟨some (k, add x a), b.closed⟩
    else ⟨some (key a, add start a), b.closed ++ [close k x]⟩

omit [LinearOrder κ] in
def finish (b : Breaks κ β γ) : List γ :=
  match b.opened with
  | none => b.closed
  | some (k, x) => b.closed ++ [close k x]

/-- What is gathered under a key. -/
def block (l : List α) (k : κ) : β := (l.filter (key · = k)).foldl add start

/-- The keys of a stream, in order. -/
def breaks (l : List α) : List κ := appendNew [] (l.map key)

variable {key start add close}

theorem block_concat_self (l : List α) (a : α) :
    block key start add (l ++ [a]) (key a) = add (block key start add l (key a)) a := by
  simp [block, filter_append]

theorem block_concat_ne {a : α} {k : κ} (h : key a ≠ k) :
    block key start add (l ++ [a]) k = block key start add l k := by
  simp [block, filter_append, h]

theorem breaks_concat (l : List α) (a : α) :
    breaks key (l ++ [a]) = if key a ∈ breaks key l then breaks key l else breaks key l ++ [key a] := by
  rw [breaks, map_append, appendNew_append]
  rfl

theorem mem_breaks {k : κ} : k ∈ breaks key l ↔ ∃ a ∈ l, key a = k := by
  simp [breaks]

theorem breaks_nodup (l : List α) : (breaks key l).Nodup := appendNew_nodup .nil

theorem block_eq_start {k : κ} (h : k ∉ breaks key l) : block key start add l k = start := by
  have : l.filter (key · = k) = [] :=
    filter_eq_nil_iff.2 fun a ha hk => h (mem_breaks.2 ⟨a, ha, of_decide_eq_true hk⟩)
  rw [block, this, foldl_nil]

/-- What a pass over a stream has reached: the last key is open, and every earlier one is closed. -/
private theorem feed_spec (l : List α) (h : l.Pairwise (key · ≤ key ·)) (hne : l ≠ []) :
    ∃ ks k, breaks key l = ks ++ [k] ∧ (∀ a ∈ l, key a ≤ k) ∧
      l.foldl (feed key start add close) ⟨none, []⟩ =
        ⟨some (k, block key start add l k), ks.map fun k => close k (block key start add l k)⟩ := by
  induction l using List.reverseRecOn with
  | nil => exact absurd rfl hne
  | append_singleton l a ih =>
    obtain ⟨hl, -, hlate⟩ := pairwise_append.1 h
    have hlate : ∀ x ∈ l, key x ≤ key a := fun x hx => hlate x hx a mem_cons_self
    have hbound : ∀ x ∈ l ++ [a], key x ≤ key a := fun x hx => by
      rcases mem_append.1 hx with hx | hx
      · exact hlate x hx
      · exact mem_singleton.1 hx ▸ le_rfl
    rw [foldl_append, foldl_cons, foldl_nil, breaks_concat]
    by_cases hnil : l = []
    · subst hnil
      exact ⟨[], key a, rfl, hbound, by rw [block_concat_self]; rfl⟩
    obtain ⟨ks, k, hkeys, hlast, hpass⟩ := ih hl hnil
    have hnodup : (ks ++ [k]).Nodup := hkeys ▸ breaks_nodup l
    rw [hpass, feed, hkeys]
    by_cases hk : key a = k
    · -- The open block takes the element in.
      subst hk
      refine ⟨ks, key a, by rw [if_pos (by simp)], hbound, ?_⟩
      simp only [if_true, block_concat_self]
      congr 1
      refine map_congr_left fun j hj => ?_
      have hne : key a ≠ j := fun heq => by
        have := (nodup_append.1 hnodup).2.2 j hj (key a) mem_cons_self
        exact this heq.symm
      rw [block_concat_ne hne]
    · -- The key of the element is greater than every key so far.
      have hfresh : key a ∉ ks ++ [k] := by
        rw [← hkeys, mem_breaks]
        rintro ⟨x, hx, hxa⟩
        have hkmem : k ∈ breaks key l := hkeys ▸ by simp
        obtain ⟨y, hy, rfl⟩ := mem_breaks.1 hkmem
        exact hk (le_antisymm (hxa ▸ hlast x hx) (hlate y hy))
      refine ⟨ks ++ [k], key a, by rw [if_neg hfresh], hbound, ?_⟩
      have hblock : block key start add l (key a) = start := block_eq_start (hkeys ▸ hfresh)
      simp only [if_neg hk, block_concat_self, hblock, map_append, map_cons, map_nil]
      congr 2
      · refine map_congr_left fun j hj => ?_
        have hne : key a ≠ j := fun heq => hfresh (heq ▸ mem_append_left [k] hj)
        rw [block_concat_ne hne]
      · rw [block_concat_ne hk]

/-- Over a stream in the order of its key, each key has the block of all that comes under it. -/
theorem finish_feed (h : l.Pairwise (key · ≤ key ·)) :
    (l.foldl (feed key start add close) ⟨none, []⟩).finish close =
      (breaks key l).map fun k => close k (block key start add l k) := by
  by_cases hnil : l = []
  · subst hnil
    rfl
  obtain ⟨ks, k, hkeys, -, hpass⟩ := @feed_spec α κ β γ _ key start add close l h hnil
  rw [hpass, hkeys, map_append]
  rfl

/-- The keys of a stream in the order of its key are in order. -/
theorem breaks_sorted (h : l.Pairwise (key · ≤ key ·)) : (breaks key l).Pairwise (· ≤ ·) := by
  obtain ⟨new, hnew, hsub⟩ := appendNew_sublist [] (l.map key)
  rw [breaks, hnew, nil_append]
  exact (pairwise_map.2 h).sublist hsub

/-! ## Gathering in a map -/

variable (key start add) in
def gather (l : List α) : OrderedMap κ β :=
  l.foldl (fun m a => m.set (key a) (add ((m.get (key a)).getD start) a)) .empty

theorem gather_concat (l : List α) (a : α) : gather key start add (l ++ [a]) =
    (gather key start add l).set (key a) (add (((gather key start add l).get (key a)).getD start) a) :=
  foldl_append

theorem keys_gather (l : List α) : (gather key start add l).keys = breaks key l := by
  induction l using List.reverseRecOn with
  | nil => rfl
  | append_singleton l a ih => rw [gather_concat, OrderedMap.keys_set, ih, breaks_concat]

/-- Under each key the map has the block of the key. -/
theorem getD_gather (l : List α) (k : κ) :
    ((gather key start add l).get k).getD start = block key start add l k := by
  induction l using List.reverseRecOn with
  | nil => rfl
  | append_singleton l a ih =>
    rw [gather_concat, OrderedMap.get_set]
    by_cases h : k = key a
    · subst h
      rw [if_pos rfl, Option.getD_some, ih, block_concat_self]
    · rw [if_neg h, ih, block_concat_ne (Ne.symm h)]

theorem entries_gather (l : List α) :
    (gather key start add l).entries = (breaks key l).map fun k => (k, block key start add l k) := by
  rw [OrderedMap.entries_eq_map_get _ start, keys_gather]
  exact map_congr_left fun k _ => by rw [getD_gather]

end Breaks

end Polis
