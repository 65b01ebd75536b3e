import Polis.Delphi.ResultReadsTheorems

/-!
# When paged reads lose nothing

The replies of a reader that goes on from its cursors are all rows asked for, in the order of the read,
exactly when no matching row is left out of what is asked for and the key attributes of a row stand for a
position between it and the rows after it.

Reference: `server/src/utils/delphiResults.ts`, `server/postgres/migrations/000031_scope_delphi_result_reads.sql`.
-/

namespace Polis.Delphi.Reads

open Binary64 Pages List

variable {r : Row}

/-! ## The comparison of decoded items -/

section Compare

/-- A decoded key value, among values of its type. -/
def rank : Option JsVal → List ℕ ×ₗ ℚ
  | some (.str s) => toLex (jsLt.utf16 s.toList, 0)
  | some (.num x) => toLex ([], x.value)
  | _ => toLex ([], 0)

/-- Two values of one type. -/
def Alike (a b : Option JsVal) : Prop :=
  (∃ s t, a = some (.str s) ∧ b = some (.str t)) ∨ ∃ x y, a = some (.num x) ∧ b = some (.num y)

theorem Alike.symm {a b : Option JsVal} (h : Alike a b) : Alike b a :=
  h.imp (fun ⟨s, t, ha, hb⟩ => ⟨t, s, hb, ha⟩) fun ⟨x, y, ha, hb⟩ => ⟨y, x, hb, ha⟩

end Compare

/-! ## Key attributes -/

section KeyAttributes

variable {src : Source} {input : Input}
variable {cursor : LastKey → LastKey}

end KeyAttributes

/-! ## Cursors of key attributes -/

section Reduced

variable {shown : JsVal → String} {src : Source} {input : Input} {limit : Option ℕ} {q : Ask}

theorem InScope.serves (hq : InScope src q) (hr : r ∈ asked shown src input q) : src.Serves r := by
  obtain ⟨hr, hkeeps⟩ := mem_filter.1 hr
  exact hq r hr (Bool.and_eq_true_iff.1 hkeeps).1

theorem InScope.placed (h : Served src input) (hq : InScope src q) : Placed (asked shown src input q) := by
  have hfilter : asked shown src input q = (src.rows.filter q.keeps).filter (meets shown input) := by
    rw [asked, filter_filter]
    exact filter_congr fun r _ => Bool.and_comm _ _
  rw [hfilter]
  exact (h.placed hq).filter _

/-- The rows asked for, in the order of the read. -/
abbrev inAsked (shown : JsVal → String) (src : Source) (input : Input) (q : Ask) : List Row :=
  inOrder input.backward (asked shown src input q)

/-- A cursor after which the read sees what follows the row. -/
def Follows (shown : JsVal → String) (src : Source) (input : Input) (q : Ask) (cursor : LastKey → LastKey) : Prop :=
  ∀ r ∈ asked shown src input q, ∃ test, startTest input (some (cursor (r.lastKey input))) = .ok test ∧
    ∀ r' ∈ asked shown src input q, test r' = beyond input.backward r.place r'.place

/-- Pages of one row tell what each cursor sees first. -/
theorem Complete.head? (h : Served src input) (hq : request shown src input = .ok q)
    (hcomplete : Complete shown src input q (some 1) cursor)
    {xs ys : List Row} (hl : inAsked shown src input q = xs ++ r :: ys) :
    ∃ test, startTest input (some (cursor (r.lastKey input))) = .ok test ∧
      ((reading shown src input q).filter test).head? = ys.head? := by
  obtain ⟨replies, hpaged, hscanned, -, -⟩ := hcomplete
  obtain ⟨hreads, -⟩ := reads_of_paged h hq (by decide) hpaged none rfl
  obtain ⟨test, htest⟩ := (accepted_of_paged h hq hpaged).2 r (by
    rw [hscanned, show inOrder input.backward (asked shown src input q) = xs ++ r :: ys from hl]
    simp)
  refine ⟨test, htest, ?_⟩
  have hrest : restAfter shown src input q cursor (some r) = (reading shown src input q).filter test :=
    restAfter_eq htest
  rw [← hrest]
  exact head?_of_reads fullPage_one hreads xs r ys (hscanned.trans hl)

/-- Pages that lose nothing leave no matching row out of what is asked for. -/
theorem Complete.kept (h : Served src input) (hq : request shown src input = .ok q) (hlimit : limit ≠ some 0)
    (hcomplete : Complete shown src input q limit cursor) : Kept shown src input q := by
  obtain ⟨replies, hpaged, hscanned, hitems, -⟩ := hcomplete
  have hscope := inScope_of_request hq
  have hitemsOf := (reads_of_paged h hq hlimit hpaged none rfl).2
  rw [ItemsOf, hitems, hscanned, filter_map] at hitemsOf
  have hfilter : (asked shown src input q).filter (fun r => predicate shown input.filter input r.decoded) =
      (src.rows.filter fun r => r.scope_key = src.scope && matching shown input r).filter q.keeps := by
    rw [asked, filter_filter, filter_filter]
    refine filter_congr fun r hr => Bool.eq_iff_iff.2 ?_
    simp only [Bool.and_eq_true, decide_eq_true_eq, matching]
    constructor
    · rintro ⟨hfilter, hkeeps, hmeets⟩
      exact ⟨hkeeps, (hscope r hr hkeeps).2, hmeets, hfilter⟩
    · rintro ⟨hkeeps, -, hmeets, hfilter⟩
      exact ⟨hfilter, hkeeps, hmeets⟩
  -- each row that was read gives one item, so the rows are as many as the matching ones
  have hlength := congrArg List.length hitemsOf
  rw [length_map, found, (inOrder_perm _ _).length_eq, length_map,
    ((inOrder_perm input.backward _).filter _).length_eq] at hlength
  replace hlength := hlength.trans (congrArg List.length hfilter)
  intro r hr hmatching
  exact length_filter_eq_length_iff.1 hlength.symm r
    (mem_filter.2 ⟨hr.1, by rw [decide_eq_true hr.2, hmatching]; rfl⟩)

end Reduced

/-! ## The pages of a read -/

section Paging

variable {shown : JsVal → String} {src : Source} {input : Input} {q : Ask}

/-- A key value whose digits are printed exactly. -/
def Exact (r : Row) (input : Input) : Prop :=
  tagged (attr r.decoded input.hash.1) = .ok r.item_key.head? ∧
    ∃ x : Double, attr r.decoded input.last = some (.num x) ∧ x.decimal.value = r.sort_n

end Paging

end Polis.Delphi.Reads
