import Mathlib.Data.List.Infix

/-!
# Pages that follow one another by cursors

A page takes what a reader sees until it is full, and the next page goes on after its last element. If the
reader sees after every element just what follows it, the pages are the list cut into pieces; and pages of
one element are that only if the reader sees after every element first the one that follows it.
-/

namespace Polis.Pages

open List Option

variable {α : Type*}

/-- The page goes on until it is full; the flag says that it is. -/
def fill (full : List α → Bool) (page : List α) : List α → List α × Bool
  | [] => (page, false)
  | a :: l => if full (page ++ [a]) then (page ++ [a], true) else fill full (page ++ [a]) l

/-- The pages that are read from a cursor on. -/
inductive Reads (full : List α → Bool) (rest : Option α → List α) : Option α → List (List α) → Prop
  | last {after : Option α} {page : List α} : fill full [] (rest after) = (page, false) →
      Reads full rest after [page]
  | more {after : Option α} {page : List α} {a : α} {pages : List (List α)} : fill full [] (rest after) = (page, true) → page.getLast? = some a →
      Reads full rest (some a) pages → Reads full rest after (page :: pages)

/-- A page that is full, and no part of it before. -/
structure Filled (full : List α → Bool) (page : List α) : Prop where
  isFull : full page = true
  first : ∀ p, p <+: page → p ≠ [] → p ≠ page → full p = false

/-- All pages but the last are filled, and the last nowhere is. -/
inductive WellPaged (full : List α → Bool) : List (List α) → Prop
  | last {page : List α} : (∀ p, p <+: page → p ≠ [] → full p = false) → WellPaged full [page]
  | more {page : List α} {pages : List (List α)} : Filled full page → WellPaged full pages →
      WellPaged full (page :: pages)

variable {full : List α → Bool} {rest : Option α → List α} {l : List α} {pages : List (List α)}

variable (full) in
/-- What `fill` adds to a page. -/
theorem fill_spec (l page : List α) :
    ∃ xs ys, l = xs ++ ys ∧ (fill full page l).1 = page ++ xs ∧
      (∀ p, p <+: xs → p ≠ [] → p ≠ xs → full (page ++ p) = false) ∧
      ((fill full page l).2 = true → xs ≠ [] ∧ full (page ++ xs) = true) ∧
      ((fill full page l).2 = false → ys = [] ∧ (xs ≠ [] → full (page ++ xs) = false)) := by
  induction l generalizing page with
  | nil =>
    refine ⟨[], [], rfl, (append_nil page).symm, ?_, nofun, fun _ => ⟨rfl, fun h => absurd rfl h⟩⟩
    exact fun p hp hne => absurd (prefix_nil.1 hp) hne
  | cons a l ih =>
    rw [fill]
    split
    · next hfull =>
      refine ⟨[a], l, rfl, rfl, ?_, fun _ => ⟨by simp, hfull⟩, nofun⟩
      intro p hp hne hne'
      rcases prefix_cons_iff.1 hp with rfl | ⟨t, rfl, ht⟩
      · exact absurd rfl hne
      · rw [prefix_nil.1 ht] at hne'
        exact absurd rfl hne'
    · next hfull =>
      obtain ⟨xs, ys, rfl, hpage, hfirst, htrue, hfalse⟩ := ih (page ++ [a])
      refine ⟨a :: xs, ys, rfl, by rw [hpage, append_assoc]; rfl, ?_, ?_, ?_⟩
      · intro p hp hne hne'
        rcases prefix_cons_iff.1 hp with rfl | ⟨t, rfl, ht⟩
        · exact absurd rfl hne
        · rcases eq_or_ne t [] with rfl | htne
          · simpa using hfull
          · have := hfirst t ht htne fun heq => hne' (by rw [heq])
            rwa [append_assoc, singleton_append] at this
      · intro h
        have := (htrue h).2
        rw [append_assoc, singleton_append] at this
        exact ⟨by simp, this⟩
      · intro h
        refine ⟨(hfalse h).1, fun _ => ?_⟩
        rcases eq_or_ne xs [] with rfl | hxs
        · simpa using hfull
        · have := (hfalse h).2 hxs
          rwa [append_assoc, singleton_append] at this

variable (full) in
theorem fill_nil_spec (l : List α) : ∃ xs ys, l = xs ++ ys ∧ (fill full [] l).1 = xs ∧
    ((fill full [] l).2 = true → xs ≠ [] ∧ Filled full xs) ∧
    ((fill full [] l).2 = false → ys = [] ∧ ∀ p, p <+: xs → p ≠ [] → full p = false) := by
  obtain ⟨xs, ys, hl, hpage, hfirst, htrue, hfalse⟩ := fill_spec full l []
  refine ⟨xs, ys, hl, hpage, fun h => ⟨(htrue h).1, (htrue h).2, hfirst⟩, fun h => ⟨(hfalse h).1, ?_⟩⟩
  intro p hp hne
  rcases eq_or_ne p xs with rfl | hpxs
  · exact (hfalse h).2 hne
  · exact hfirst p hp hne hpxs

/-- What is read in two parts fills a page as it does in one. -/
theorem fill_append (l m page : List α) : fill full page (l ++ m) =
    if (fill full page l).2 then fill full page l else fill full (fill full page l).1 m := by
  induction l generalizing page with
  | nil => rfl
  | cons a l ih =>
    rw [cons_append, fill, fill]
    split
    · rfl
    · exact ih _

/-- What follows an element of a list in order. -/
theorem filter_after {R : α → α → Bool} (hasymm : ∀ a b, R a b = true → R b a = false) {xs ys : List α} {a : α}
    (h : (xs ++ a :: ys).Pairwise (R · ·)) : (xs ++ a :: ys).filter (R a) = ys := by
  obtain ⟨-, hys, hxs⟩ := pairwise_append.1 h
  have hself : R a a = false := by
    by_contra hne
    exact hne (hasymm a a (by simpa using hne))
  rw [filter_append, filter_cons, if_neg (by simp [hself]),
    filter_eq_nil_iff.2 fun x hx => by simp [hasymm x a (hxs x hx a mem_cons_self)],
    filter_eq_self.2 (pairwise_cons.1 hys).1, nil_append]

/-- A page of one element at most. -/
theorem fill_single (hfull : ∀ a, full [a] = true) (l : List α) :
    fill full [] l = (l.head?.toList, l.head?.isSome) := by
  cases l with
  | nil => rfl
  | cons a l =>
    rw [fill, nil_append, if_pos (hfull a)]
    rfl

/-- If pages of one element are the list cut into pieces, each cursor sees next what follows it. -/
theorem head?_of_reads (hfull : ∀ a, full [a] = true) {after : Option α} (h : Reads full rest after pages)
    (xs : List α) (a : α) (ys : List α) (hl : pages.flatten = xs ++ a :: ys) :
    (rest (some a)).head? = ys.head? := by
  -- the pages after a cursor begin with what it sees first
  have hhead : ∀ {after : Option α} {pages : List (List α)}, Reads full rest after pages →
      (rest after).head? = pages.flatten.head? := by
    intro after pages h
    cases h with
    | last hpage =>
      rw [fill_single hfull, Prod.mk.injEq] at hpage
      cases hh : (rest after).head? with
      | none => rw [flatten_singleton, ← hpage.1, hh]; rfl
      | some b => rw [hh] at hpage; cases hpage.2
    | more hpage hlast hreads =>
      rw [fill_single hfull, Prod.mk.injEq] at hpage
      cases hh : (rest after).head? with
      | none => rw [hh] at hpage; cases hpage.2
      | some b => rw [flatten_cons, ← hpage.1, hh]; rfl
  induction h generalizing xs with
  | last hpage =>
    rw [fill_single hfull, Prod.mk.injEq] at hpage
    obtain ⟨hpage, hmore⟩ := hpage
    rw [flatten_singleton, ← hpage, isSome_eq_false_iff.1 hmore |> isNone_iff_eq_none.1] at hl
    simp at hl
  | @more after page b pages hpage hlast hreads ih =>
    rw [fill_single hfull, Prod.mk.injEq] at hpage
    obtain ⟨hpage, hmore⟩ := hpage
    obtain ⟨b', hb'⟩ := isSome_iff_exists.1 hmore
    rw [hb', toList_some] at hpage
    subst hpage
    obtain rfl : b' = b := by simpa using hlast
    rw [flatten_cons, singleton_append] at hl
    cases xs with
    | nil =>
      obtain ⟨rfl, hys⟩ := List.cons.inj hl
      rw [hhead hreads, hys]
    | cons x xs => exact ih xs (List.cons.inj hl).2

end Polis.Pages
