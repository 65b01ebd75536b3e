import Mathlib.Data.List.Sort

/-!
# Pages of a list that changes between them

A reader keeps a position, and each page takes the first elements beyond it of the list as it then is.
What stands at one position throughout is read exactly once, and everything is read in order.
-/

namespace Polis.Cursor

open List

variable {α P : Type*} (lt : P → P → Prop) [DecidableRel lt] (pos : α → P) (limit : ℕ)

/-- The elements beyond a position; `none` is before all of them. -/
def rest (mark : Option P) (l : List α) : List α := l.filter fun a => ∀ m ∈ mark, lt m (pos a)

/-- The elements that one page examines. -/
def page (mark : Option P) (l : List α) : List α := (rest lt pos mark l).take limit

/-- Where the reader stands after a page, if there is more. -/
def next (mark : Option P) (l : List α) : Option P :=
  if limit < (rest lt pos mark l).length then (page lt pos limit mark l).getLast?.map pos else none

/-- A read to its end: the list at each page, and the pages. -/
inductive Read : Option P → List (List α) → List (List α) → Prop
  | last {mark : Option P} {l : List α} : next lt pos limit mark l = none →
      Read mark [l] [page lt pos limit mark l]
  | more {mark : Option P} {l : List α} {m : P} {ls ps : List (List α)} :
      next lt pos limit mark l = some m → Read (some m) ls ps →
      Read mark (l :: ls) (page lt pos limit mark l :: ps)

/-- Each element once, in order. -/
def Sorted (l : List α) : Prop := l.Pairwise fun a b => lt (pos a) (pos b)

variable {lt pos limit} {mark : Option P} {m : P} {l : List α} {ls ps : List (List α)}

theorem mem_rest {a : α} : a ∈ rest lt pos mark l ↔ a ∈ l ∧ ∀ m ∈ mark, lt m (pos a) := by
  simp [rest]

theorem rest_append (mark : Option P) (xs ys : List α) :
    rest lt pos mark (xs ++ ys) = rest lt pos mark xs ++ rest lt pos mark ys := filter_append ..

theorem Sorted.rest (h : Sorted lt pos l) (mark : Option P) : Sorted lt pos (rest lt pos mark l) :=
  h.filter _

theorem Sorted.page (h : Sorted lt pos l) (mark : Option P) :
    Sorted lt pos (page lt pos limit mark l) :=
  (h.rest mark).sublist (take_sublist _ _)

theorem page_length (mark : Option P) (l : List α) : (page lt pos limit mark l).length ≤ limit :=
  length_take_le _ _

theorem page_subset (mark : Option P) (l : List α) : page lt pos limit mark l ⊆ rest lt pos mark l :=
  take_subset _ _

/-- The last page holds all that is left. -/
theorem page_eq_rest (hlimit : 0 < limit) (h : next lt pos limit mark l = none) :
    page lt pos limit mark l = rest lt pos mark l := by
  unfold next at h
  split at h
  · next hlt =>
      have hnil : page lt pos limit mark l = [] := by simpa using h
      have hlen := congrArg List.length hnil
      rw [page, length_take, length_nil] at hlen
      omega
  · next hle => exact take_of_length_le (not_lt.1 hle)

omit [DecidableRel lt] in
/-- In a sorted list a position is at or before that of the last element, or beyond the list. -/
theorem Sorted.mem_of_not_beyond {xs ys : List α} {x a : α} (h : Sorted lt pos (xs ++ ys))
    (hx : xs.getLast? = some x) (ha : a ∈ xs ++ ys) (hnot : ¬ lt (pos x) (pos a)) : a ∈ xs := by
  rcases mem_append.1 ha with ha | ha
  · exact ha
  · exact absurd ((pairwise_append.1 h).2.2 x (mem_of_getLast? hx) a ha) hnot

theorem Read.length_le (h : Read lt pos limit mark ls ps) : ∀ p ∈ ps, p.length ≤ limit := by
  induction h with
  | last _ => exact fun p hp => mem_singleton.1 hp ▸ page_length _ _
  | more _ _ ih =>
    intro p hp
    rcases mem_cons.1 hp with rfl | hp
    · exact page_length _ _
    · exact ih p hp

theorem Read.nonempty (h : Read lt pos limit mark ls ps) : ∃ l, l ∈ ls := by
  cases h with
  | last | more => exact ⟨_, mem_cons_self⟩

variable [IsStrictTotalOrder P lt]

omit [DecidableRel lt] in
theorem Sorted.not_beyond_last {x a : α} (h : Sorted lt pos l) (hx : l.getLast? = some x) (ha : a ∈ l) :
    ¬ lt (pos x) (pos a) := by
  obtain ⟨xs, rfl⟩ := getLast?_eq_some_iff.1 hx
  rcases mem_append.1 ha with ha | ha
  · exact asymm_of lt ((pairwise_append.1 h).2.2 a ha x (by simp))
  · rw [mem_singleton.1 ha]
    exact irrefl_of lt _

/-- What a page with more after it says of its list: the next position is that of its last element, and
it holds all up to there. -/
theorem next_spec (h : Sorted lt pos l) (hnext : next lt pos limit mark l = some m) :
    (∃ x, (page lt pos limit mark l).getLast? = some x ∧ pos x = m) ∧
      (∀ a ∈ page lt pos limit mark l, ¬ lt m (pos a)) ∧
      ∀ a ∈ rest lt pos mark l, ¬ lt m (pos a) → a ∈ page lt pos limit mark l := by
  unfold next at hnext
  split at hnext
  · obtain ⟨x, hx, rfl⟩ := Option.map_eq_some_iff.1 hnext
    refine ⟨⟨x, hx, rfl⟩, fun a ha => (h.page mark).not_beyond_last hx ha, fun a ha hnot => ?_⟩
    have hsplit : page lt pos limit mark l ++ (rest lt pos mark l).drop limit = rest lt pos mark l :=
      take_append_drop limit _
    have hsorted := h.rest mark
    rw [← hsplit] at hsorted ha
    exact hsorted.mem_of_not_beyond hx ha hnot
  · cases hnext

/-- The position only moves on. -/
theorem next_beyond (h : Sorted lt pos l) (hnext : next lt pos limit mark l = some m) :
    ∀ m₀ ∈ mark, lt m₀ m := by
  obtain ⟨⟨x, hx, rfl⟩, -, -⟩ := next_spec h hnext
  exact (mem_rest.1 (page_subset mark l (mem_of_getLast? hx))).2

/-! ## A whole read -/

/-- Everything read lies beyond the start, and in one of the lists. -/
theorem Read.beyond (h : Read lt pos limit mark ls ps) (hls : ∀ l ∈ ls, Sorted lt pos l) :
    ∀ a ∈ ps.flatten, (∀ m ∈ mark, lt m (pos a)) ∧ ∃ l ∈ ls, a ∈ l := by
  induction h with
  | @last mark l _ =>
    intro a ha
    have hrest := mem_rest.1 (page_subset mark l (by simpa using ha))
    exact ⟨hrest.2, l, mem_singleton_self l, hrest.1⟩
  | @more mark l m ls ps hnext _ ih =>
    obtain ⟨hl, hls⟩ := forall_mem_cons.1 hls
    intro a ha
    rcases mem_append.1 (flatten_cons ▸ ha) with ha | ha
    · have hrest := mem_rest.1 (page_subset mark l ha)
      exact ⟨hrest.2, l, mem_cons_self, hrest.1⟩
    · obtain ⟨hbeyond, l', hl', ha'⟩ := ih hls a ha
      refine ⟨fun m₀ hm₀ => ?_, l', mem_cons_of_mem l hl', ha'⟩
      exact trans_of lt (next_beyond hl hnext m₀ hm₀) (hbeyond m rfl)

/-- The pages in a row are in order, across the lists. -/
theorem Read.sorted (h : Read lt pos limit mark ls ps) (hls : ∀ l ∈ ls, Sorted lt pos l) :
    Sorted lt pos ps.flatten := by
  induction h with
  | @last mark l _ => simpa using (hls l (mem_singleton_self l)).page mark
  | @more mark l m ls ps hnext hread ih =>
    obtain ⟨hl, hls⟩ := forall_mem_cons.1 hls
    rw [flatten_cons]
    refine pairwise_append.2 ⟨hl.page mark, ih hls, fun a ha b hb => ?_⟩
    have hb := (hread.beyond hls b hb).1 m rfl
    obtain ⟨-, hpage, -⟩ := next_spec hl hnext
    rcases trichotomous_of lt (pos a) (pos b) with hlt | heq | hgt
    · exact hlt
    · exact absurd (heq ▸ hb) (hpage a ha)
    · exact absurd (trans_of lt hb hgt) (hpage a ha)

/-- What stands at one position beyond the start in every list is read. -/
theorem Read.finds (h : Read lt pos limit mark ls ps) (hlimit : 0 < limit)
    (hls : ∀ l ∈ ls, Sorted lt pos l) {p : P} (hmark : ∀ m ∈ mark, lt m p)
    (hp : ∀ l ∈ ls, ∃ a ∈ l, pos a = p) : ∃ a ∈ ps.flatten, pos a = p := by
  induction h with
  | @last mark l hnext =>
    obtain ⟨a, ha, rfl⟩ := hp l (mem_singleton_self l)
    refine ⟨a, ?_, rfl⟩
    rw [flatten_cons, flatten_nil, append_nil, page_eq_rest hlimit hnext]
    exact mem_rest.2 ⟨ha, hmark⟩
  | @more mark l m ls ps hnext _ ih =>
    obtain ⟨hl, hls⟩ := forall_mem_cons.1 hls
    obtain ⟨⟨a, ha, rfl⟩, hp⟩ := forall_mem_cons.1 hp
    rw [flatten_cons]
    by_cases hbeyond : lt m (pos a)
    · obtain ⟨b, hb, hpos⟩ := ih hls (fun m' hm' => Option.some.inj hm' ▸ hbeyond) hp
      exact ⟨b, mem_append_right _ hb, hpos⟩
    · obtain ⟨-, -, hpage⟩ := next_spec hl hnext
      exact ⟨a, mem_append_left _ (hpage a (mem_rest.2 ⟨ha, hmark⟩) hbeyond), rfl⟩

/-- While the list stays the same, the next page goes on where the last one ended. -/
theorem rest_next (h : Sorted lt pos l) (hnext : next lt pos limit mark l = some m) :
    rest lt pos mark l = page lt pos limit mark l ++ rest lt pos (some m) l := by
  have hsplit : page lt pos limit mark l ++ (rest lt pos mark l).drop limit = rest lt pos mark l :=
    take_append_drop limit _
  obtain ⟨⟨x, hx, rfl⟩, hpage, -⟩ := next_spec h hnext
  have hsorted := h.rest mark
  rw [← hsplit] at hsorted
  have hmore : rest lt pos (some (pos x)) l = rest lt pos (some (pos x)) (rest lt pos mark l) := by
    rw [rest, rest, rest, filter_filter]
    refine filter_congr fun a _ => ?_
    rw [← Bool.decide_and, decide_eq_decide]
    refine ⟨fun ha => ⟨ha, fun m₀ hm₀ => ?_⟩, And.left⟩
    exact trans_of lt (next_beyond h hnext m₀ hm₀) (ha (pos x) rfl)
  have hfront : rest lt pos (some (pos x)) (page lt pos limit mark l) = [] :=
    filter_eq_nil_iff.2 fun a ha hlt => hpage a ha (of_decide_eq_true hlt (pos x) rfl)
  have hback : rest lt pos (some (pos x)) ((rest lt pos mark l).drop limit) =
      (rest lt pos mark l).drop limit := by
    refine filter_eq_self.2 fun a ha => decide_eq_true ?_
    rintro _ ⟨⟩
    exact (pairwise_append.1 hsorted).2.2 x (mem_of_getLast? hx) a ha
  calc rest lt pos mark l
      = page lt pos limit mark l ++ (rest lt pos mark l).drop limit := hsplit.symm
    _ = page lt pos limit mark l ++ rest lt pos (some (pos x))
          (page lt pos limit mark l ++ (rest lt pos mark l).drop limit) := by
      rw [rest_append, hfront, hback, nil_append]
    _ = page lt pos limit mark l ++ rest lt pos (some (pos x)) l := by rw [hsplit, ← hmore]

/-- A list that stays the same is read whole. -/
theorem Read.same (h : Read lt pos limit mark ls ps) (hlimit : 0 < limit) (hl : Sorted lt pos l)
    (hls : ∀ l' ∈ ls, l' = l) : ps.flatten = rest lt pos mark l := by
  induction h with
  | @last mark l' hnext =>
    obtain rfl := hls l' (mem_singleton_self l')
    rw [flatten_cons, flatten_nil, append_nil, page_eq_rest hlimit hnext]
  | @more mark l' m ls ps hnext _ ih =>
    obtain ⟨rfl, hls⟩ := forall_mem_cons.1 hls
    rw [flatten_cons, ih hls, ← rest_next hl hnext]

/-- While the list stays the same, less of it is left after each page. -/
theorem length_rest_next (h : Sorted lt pos l)
    (hnext : next lt pos limit mark l = some m) :
    (rest lt pos (some m) l).length < (rest lt pos mark l).length := by
  obtain ⟨⟨x, hx, -⟩, -, -⟩ := next_spec h hnext
  have hpos : 0 < (page lt pos limit mark l).length := length_pos_of_mem (mem_of_getLast? hx)
  rw [rest_next h hnext, length_append]
  omega

end Polis.Cursor
