import Polis.Common.Pages
import Polis.Common.Table
import Polis.Delphi.ResultReads

/-!
# What paged reads return

Pages follow one another by the position of a walk, or by the key attributes alone. The former lose no
row that is asked for. The latter do not either exactly when the position that the key attributes are taken
for separates the rows as their places do; a range key that is a text is taken for a position before all
rows, and the read starts again.

Reference: `server/src/utils/delphiResults.ts`, `server/postgres/migrations/000031_scope_delphi_result_reads.sql`.
-/

namespace Polis.Delphi.Reads

open Binary64 Pages List Option Bool

variable {cursor : LastKey → LastKey} {page : List Row} {replies : List Reply}

/-! ## What is read -/

/-- The item of a row that can be read. -/
def Row.decoded (r : Row) : Item := ((decodeItem r.item).toOption).getD []

/-- The page is full with these rows. -/
def fullPage (limit : Option ℕ) (rows : List Row) : Bool :=
  pageFull rows.length (rows.map fun r => itemBytes r.item).sum limit

/-- The part of the key that a key attribute is. -/
def keyPart (item : Stored) (k : String × KeyType) : Option KeyPart :=
  match k.2, attr item k.1 with
  | .S, some (.S s) => some (.S s)
  | .N, some (.N d) => some (.N d)
  | _, _ => none

/-- `FAMILIES[family].key` -/
def Input.key (input : Input) : List (String × KeyType) := input.hash :: input.range.toList

section Request

variable (shown : JsVal → String) (src : Source) (input : Input)
variable {r : Row}

/-- The row is served in the scope. -/
def Source.Serves (r : Row) : Prop := r ∈ src.rows ∧ r.scope_key = src.scope

/-- The rows of the scope: no key is served twice, the key attributes are those of the item, and the reader
reads each of them. -/
structure Served : Prop where
  distinct : (src.rows.filter (·.scope_key = src.scope)).Pairwise fun r r' => r.item_key ≠ r'.item_key
  keyed : ∀ r, src.Serves r → input.key.mapM (keyPart r.item) = some r.item_key
  trimmed : ∀ r, src.Serves r → ∀ d, KeyPart.N d ∈ r.item_key → d.Trimmed
  readable : ∀ r, src.Serves r → ∃ item, decodeItem r.item = .ok item

/-- The key condition. -/
def meets (r : Row) : Bool := input.scan || predicate shown input.keyCondition input r.decoded

/-- A matching row satisfies both expressions. -/
def matching (r : Row) : Bool := meets shown input r && predicate shown input.filter input r.decoded

/-- What the server is asked for. -/
def request : Except String Ask := do
  let zids ← zidScope src.reports input.condition
  if input.walks then ask shown src input zids else pure ⟨zids, src.scope, none, none, none, false⟩

/-- The rows that a read goes through. -/
def asked (q : Ask) : List Row := src.rows.filter fun r => q.keeps r && meets shown input r

/-- The matching rows, in the order of the read. -/
def found : List Row :=
  inOrder input.backward (src.rows.filter fun r => r.scope_key = src.scope && matching shown input r)

/-- The replies of a reader that goes on from `LastEvaluatedKey` until it is absent. -/
inductive Paged (limit : Option ℕ) (cursor : LastKey → LastKey) : Option LastKey → List Reply → Prop
  | last {start : Option LastKey} {reply : Reply} : readResults shown src input limit start = .ok reply →
      reply.lastKey = none → Paged limit cursor start [reply]
  | more {start : Option LastKey} {reply : Reply} {k : LastKey} {replies : List Reply} :
      readResults shown src input limit start = .ok reply → reply.lastKey = some k →
      Paged limit cursor (some (cursor k)) replies → Paged limit cursor start (reply :: replies)

/-- The pages end, go once through the rows asked for, and give each matching row once, all in the order
of the read; each page but the last ends at the first row that fills it. -/
def Complete (q : Ask) (limit : Option ℕ) (cursor : LastKey → LastKey) : Prop :=
  ∃ replies, Paged shown src input limit cursor none replies ∧
    (replies.map Reply.scanned).flatten = inOrder input.backward (asked shown src input q) ∧
    (replies.map Reply.items).flatten = (found shown src input).map Row.decoded ∧
    WellPaged (fullPage limit) (replies.map Reply.scanned)

/-- No matching row is left out of what is asked for. -/
def Kept (q : Ask) : Prop := ∀ r, src.Serves r → matching shown input r = true → q.keeps r = true

end Request

/-! ## Rows and their places -/

section Places

variable {src : Source} {input : Input}

theorem Served.readable_eq (h : Served src input) (hr : src.Serves r) :
    decodeItem r.item = .ok r.decoded := by
  obtain ⟨item, hitem⟩ := h.readable r hr
  rw [Row.decoded, hitem]
  rfl

theorem Served.key_eq (h : Served src input) (hr : src.Serves r) : ∃ a b,
    keyPart r.item input.hash = some a ∧ keyPart r.item (input.range.getD input.hash) = some b ∧
    r.item_key = if input.range.isSome then [a, b] else [b] := by
  have hkey := h.keyed r hr
  rw [Input.key] at hkey
  cases hrange : input.range with
  | none =>
    rw [hrange] at hkey
    obtain ⟨a, ha, hkey⟩ : ∃ a, keyPart r.item input.hash = some a ∧ [a] = r.item_key := by
      simpa [mapM_cons, bind_eq_some_iff] using hkey
    exact ⟨a, a, ha, ha, hkey.symm⟩
  | some k =>
    rw [hrange] at hkey
    obtain ⟨a, ha, b, hb, hkey⟩ : ∃ a, keyPart r.item input.hash = some a ∧
        ∃ b, keyPart r.item k = some b ∧ [a, b] = r.item_key := by
      simpa [mapM_cons, bind_eq_some_iff] using hkey
    exact ⟨a, b, ha, hb, hkey.symm⟩

theorem Served.head_last (h : Served src input) (hr : src.Serves r) :
    r.item_key.head? = keyPart r.item input.hash ∧
      r.item_key.getLast? = keyPart r.item (input.range.getD input.hash) := by
  obtain ⟨a, b, ha, hb, hkey⟩ := h.key_eq hr
  rw [hkey, ha, hb]
  cases hrange : input.range with
  | none =>
    rw [hrange, getD_none, ha, some_inj] at hb
    subst hb
    exact ⟨rfl, rfl⟩
  | some k => exact ⟨rfl, rfl⟩

/-- The third character tells the kinds apart. -/
theorem jsonbChars_injective : Function.Injective jsonbChars := by
  rintro (_ | ⟨s⟩ | ⟨d⟩) (_ | ⟨t⟩ | ⟨e⟩) h
  · rfl
  · simp [jsonbChars] at h
  · simp [jsonbChars] at h
  · simp [jsonbChars] at h
  · simp only [jsonbChars, append_assoc] at h
    rw [(Polis.Json.quote_inj (append_cancel_left h)).1]
  · simp [jsonbChars] at h
  · simp [jsonbChars] at h
  · simp [jsonbChars] at h
  · simp only [jsonbChars, append_assoc] at h
    rw [Decimal.text_injective (append_cancel_right (append_cancel_left h))]

theorem jsonbText_injective : Function.Injective jsonbText := fun _ _ h =>
  jsonbChars_injective (String.ofList_injective h)

/-- The last key attribute has its type. -/
theorem keyPart_cases {item : Stored} {k : String × KeyType} {a : KeyPart} (h : keyPart item k = some a) :
    (k.2 = .S ∧ ∃ s, a = .S s ∧ attr item k.1 = some (.S s)) ∨
      (k.2 = .N ∧ ∃ d, a = .N d ∧ attr item k.1 = some (.N d)) := by
  rw [keyPart] at h
  split at h
  · next s hs hattr => exact .inl ⟨hs, s, (Option.some.inj h).symm, hattr⟩
  · next d hs hattr => exact .inr ⟨hs, d, (Option.some.inj h).symm, hattr⟩
  · cases h

section

variable (h : Served src input)
include h

/-- The parts that places begin with are those of one key. -/
theorem Served.key_of_parts {r r' : Row} (hr : src.Serves r) (hr' : src.Serves r')
    (hn : r.sort_n = r'.sort_n) (ht : r.sort_t = r'.sort_t) (hhash : r.hash_t = r'.hash_t) :
    r.item_key = r'.item_key := by
  obtain ⟨a, b, ha, hb, hkey⟩ := h.key_eq hr
  obtain ⟨a', b', ha', hb', hkey'⟩ := h.key_eq hr'
  obtain ⟨hhead, hlast⟩ := h.head_last hr
  obtain ⟨hhead', hlast'⟩ := h.head_last hr'
  have haa : a = a' := by
    rw [Row.hash_t, Row.hash_t, hhead, hhead', ha, ha'] at hhash
    exact Option.some.inj (jsonbText_injective hhash)
  have hbb : b = b' := by
    rw [Row.sort_n, Row.sort_n, hlast, hlast', hb, hb'] at hn
    rw [Row.sort_t, Row.sort_t, hlast, hlast', hb, hb'] at ht
    rcases keyPart_cases hb with ⟨htype, s, rfl, -⟩ | ⟨htype, d, rfl, -⟩ <;>
      rcases keyPart_cases hb' with ⟨htype', s', rfl, -⟩ | ⟨htype', d', rfl, -⟩
    · rw [show s = s' from ht]
    · rw [htype] at htype'
      cases htype'
    · rw [htype] at htype'
      cases htype'
    · have hd := h.trimmed r hr d (by rw [hkey]; split <;> simp)
      have hd' := h.trimmed r' hr' d' (by rw [hkey']; split <;> simp)
      rw [hd.eq hd' hn]
  rw [hkey, hkey', haa, hbb]

theorem Served.key_of_place {r r' : Row} (hr : src.Serves r) (hr' : src.Serves r')
    (hplace : r.place = r'.place) : r.item_key = r'.item_key := by
  simp only [Row.place, place, toLex_inj, Prod.mk.injEq, WithBot.coe_inj, WithTop.coe_inj] at hplace
  exact h.key_of_parts hr hr' hplace.1 hplace.2.1 hplace.2.2.1

/-- Different rows of the scope have different keys. -/
theorem Served.eq_of_key {r r' : Row} (hr : src.Serves r) (hr' : src.Serves r')
    (hkey : r.item_key = r'.item_key) : r = r' := by
  by_contra hne
  have hmem : ∀ {x}, src.Serves x → x ∈ src.rows.filter (·.scope_key = src.scope) := fun hx =>
    mem_filter.2 ⟨hx.1, decide_eq_true hx.2⟩
  have : Std.Symm (fun r r' : Row => r.item_key ≠ r'.item_key) := ⟨fun _ _ hkey => hkey.symm⟩
  exact h.distinct.forall (hmem hr) (hmem hr') hne hkey

/-- The request keeps rows of the scope only. -/
def InScope (src : Source) (q : Ask) : Prop := ∀ r ∈ src.rows, q.keeps r = true → src.Serves r

theorem Served.keys {q : Ask} (hq : InScope src q) :
    (src.rows.filter q.keeps).Pairwise fun r r' => r.item_key ≠ r'.item_key := by
  have hfilter : src.rows.filter q.keeps = (src.rows.filter (·.scope_key = src.scope)).filter q.keeps := by
    rw [List.filter_filter]
    refine filter_congr fun r hr => ?_
    cases hkeeps : q.keeps r with
    | false => rfl
    | true => rw [Bool.true_and, decide_eq_true (hq r hr hkeeps).2]
  rw [hfilter]
  exact h.distinct.filter _

theorem Served.placed {q : Ask} (hq : InScope src q) :
    (src.rows.filter q.keeps).Pairwise fun r r' => r.place ≠ r'.place := by
  refine (h.keys hq).imp_of_mem fun {r r'} hr hr' hkey hplace => hkey ?_
  obtain ⟨hr, hkeeps⟩ := mem_filter.1 hr
  obtain ⟨hr', hkeeps'⟩ := mem_filter.1 hr'
  exact h.key_of_place (hq r hr hkeeps) (hq r' hr' hkeeps') hplace

end

end Places

/-! ## The order of a read -/

section Order

variable {backward : Bool} {a b c : Place} {l m : List Row}

theorem beyond_trans (hab : beyond backward a b = true) (hbc : beyond backward b c = true) :
    beyond backward a c = true := by
  cases backward with
  | false => exact decide_eq_true ((of_decide_eq_true hab).trans (of_decide_eq_true hbc))
  | true => exact decide_eq_true ((of_decide_eq_true hbc).trans (of_decide_eq_true hab))

theorem beyond_asymm (hab : beyond backward a b = true) : beyond backward b a = false := by
  cases backward with
  | false | true => exact decide_eq_false (of_decide_eq_true hab).asymm

/-- The rows stand in the order of their places, no two in one place. -/
abbrev InPlace (backward : Bool) (l : List Row) : Prop :=
  l.Pairwise fun r r' => beyond backward r.place r'.place = true

/-- Rows in different places. -/
abbrev Placed (l : List Row) : Prop := l.Pairwise fun r r' => r.place ≠ r'.place

theorem inOrder_perm (backward : Bool) (l : List Row) : (inOrder backward l).Perm l := perm_insertionSort _ l

theorem mem_inOrder : r ∈ inOrder backward l ↔ r ∈ l := (inOrder_perm backward l).mem_iff

variable (backward) in
theorem inOrder_inPlace (h : Placed l) : InPlace backward (inOrder backward l) := by
  have hne : Placed (inOrder backward l) := h.perm (inOrder_perm backward l).symm fun hne => hne.symm
  have : Std.Total fun a b : Row => if backward then b.place ≤ a.place else a.place ≤ b.place := by
    refine ⟨fun a b => ?_⟩
    cases backward with
    | false => exact le_total a.place b.place
    | true => exact le_total b.place a.place
  have : IsTrans Row fun a b => if backward then b.place ≤ a.place else a.place ≤ b.place := by
    refine ⟨fun a b c hab hbc => ?_⟩
    cases backward with
    | false => exact le_trans (α := Place) hab hbc
    | true => exact le_trans (α := Place) hbc hab
  refine (hne.and (pairwise_insertionSort _ l)).imp fun {a b} hab => ?_
  cases backward with
  | false => exact decide_eq_true (lt_of_le_of_ne hab.2 hab.1)
  | true => exact decide_eq_true (lt_of_le_of_ne hab.2 hab.1.symm)

/-- Two lists of the same rows in order are one list. -/
theorem eq_of_inPlace (hl : InPlace backward l) (hm : InPlace backward m) (h : l.Perm m) : l = m :=
  h.eq_of_pairwise (fun a b _ _ hab hba => by rw [beyond_asymm hab] at hba; cases hba) hl hm

theorem filter_inOrder (h : Placed l) (p : Row → Bool) :
    (inOrder backward l).filter p = inOrder backward (l.filter p) :=
  eq_of_inPlace ((inOrder_inPlace backward h).filter p) (inOrder_inPlace backward (h.filter p))
    (((inOrder_perm backward l).filter p).trans (inOrder_perm backward _).symm)

end Order

/-! ## The walk -/

section Walks

variable {shown : JsVal → String} {src : Source} {input : Input} {limit : Option ℕ} {q : Ask}

/-- A row on the page of a walk. -/
def Row.candidate (r : Row) : Candidate := ⟨r, r.decoded, itemBytes r.item, some r.after⟩

/-- The page that a walk has filled so far. -/
structure OnPage (w : Walk) (rows : List Row) : Prop where
  page : w.page = rows.map Row.candidate
  bytes : w.bytes = (rows.map fun r => itemBytes r.item).sum

theorem OnPage.full {w : Walk} (h : OnPage w page) (r : Row) :
    pageFull (w.page ++ [r.candidate]).length (w.bytes + itemBytes r.item) limit =
      fullPage limit (page ++ [r]) := by
  simp [fullPage, h.page, h.bytes]

theorem OnPage.add {w : Walk} (h : OnPage w page) (r : Row) (a : Option After) (seen : Seen)
    (more : Bool) : OnPage ⟨a, seen, w.page ++ [r.candidate], w.bytes + itemBytes r.item, more⟩ (page ++ [r]) :=
  ⟨by simp [h.page], by simp [h.bytes]⟩

/-- No key of the rows was seen before. -/
def Unseen (seen : Seen) (rows : List Row) : Prop := ∀ r ∈ rows, ∀ e ∈ seen, e.1 ≠ r.item_key

theorem Unseen.cons {seen : Seen} {rows : List Row} (h : Unseen seen (r :: rows))
    (hkey : ∀ r' ∈ rows, r.item_key ≠ r'.item_key) : Unseen ((r.item_key, r.item) :: seen) rows := by
  intro r' hr' e he
  rcases mem_cons.1 he with rfl | he
  · exact hkey r' hr'
  · exact h r' (mem_cons_of_mem _ hr') e he

/-- A row whose key was not seen. -/
theorem walkRows_cons (h : Served src input) (hr : src.Serves r) (rows : List Row) (w : Walk)
    (hseen : ∀ e ∈ w.seen, e.1 ≠ r.item_key) :
    walkRows shown src.same input limit (r :: rows) w =
      if meets shown input r then
        if pageFull (w.page ++ [r.candidate]).length (w.bytes + itemBytes r.item) limit then
          .ok ⟨some r.after, (r.item_key, r.item) :: w.seen, w.page ++ [r.candidate], w.bytes + itemBytes r.item, true⟩
        else walkRows shown src.same input limit rows ⟨some r.after, (r.item_key, r.item) :: w.seen,
          w.page ++ [r.candidate], w.bytes + itemBytes r.item, w.more⟩
      else walkRows shown src.same input limit rows
        ⟨some r.after, (r.item_key, r.item) :: w.seen, w.page, w.bytes, w.more⟩ := by
  have hfresh : accept src.same w.seen r = .ok (true, (r.item_key, r.item) :: w.seen) := by
    rw [accept, find?_eq_none.2 fun e he => by simpa using hseen e he]
  have hmeets : (input.scan || predicate shown input.keyCondition input r.decoded) = meets shown input r := rfl
  rw [walkRows]
  simp only [hfresh, h.readable_eq hr, bind, Except.bind, Bool.not_true, false_eq_true, if_false, hmeets]
  cases meets shown input r <;> rfl

variable (shown limit) in
/-- What the rows of a chunk add to the page. -/
theorem walkRows_spec (h : Served src input) (rows : List Row) (hrows : ∀ r ∈ rows, src.Serves r)
    (hkeys : rows.Pairwise fun r r' => r.item_key ≠ r'.item_key) {w : Walk}
    (hpage : OnPage w page) (hmore : w.more = false) (hseen : Unseen w.seen rows) :
    ∃ w', walkRows shown src.same input limit rows w = .ok w' ∧
      OnPage w' (fill (fullPage limit) page (rows.filter (meets shown input))).1 ∧
      w'.more = (fill (fullPage limit) page (rows.filter (meets shown input))).2 ∧
      (w'.more = false → w'.after = (rows.getLast?.map Row.after <|> w.after) ∧
        ∀ e ∈ w'.seen, e ∈ w.seen ∨ ∃ r ∈ rows, e.1 = r.item_key) := by
  induction rows generalizing w page with
  | nil => exact ⟨w, rfl, hpage, hmore, fun _ => ⟨by simp, fun e he => .inl he⟩⟩
  | cons r rows ih =>
    obtain ⟨hr, hrows⟩ := forall_mem_cons.1 hrows
    obtain ⟨hkey, hkeys⟩ := pairwise_cons.1 hkeys
    have hunseen := hseen.cons hkey
    have hafter : ∀ a : Option After, (rows.getLast?.map Row.after <|> some r.after) =
        ((r :: rows).getLast?.map Row.after <|> a) := by
      intro a
      cases hlast : rows.getLast? <;> simp [getLast?_cons, hlast]
    have hback : ∀ w' : Walk, (∀ e ∈ w'.seen, e ∈ (r.item_key, r.item) :: w.seen ∨ ∃ r ∈ rows, e.1 = r.item_key) →
        ∀ e ∈ w'.seen, e ∈ w.seen ∨ ∃ r' ∈ r :: rows, e.1 = r'.item_key := by
      intro w' hw' e he
      rcases hw' e he with he | ⟨r', hr', he⟩
      · rcases mem_cons.1 he with rfl | he
        · exact .inr ⟨r, mem_cons_self, rfl⟩
        · exact .inl he
      · exact .inr ⟨r', mem_cons_of_mem _ hr', he⟩
    rw [walkRows_cons h hr rows w (hseen r mem_cons_self)]
    by_cases hmeets : meets shown input r = true
    · rw [if_pos hmeets, filter_cons_of_pos hmeets, fill, hpage.full]
      split
      · exact ⟨_, rfl, hpage.add r _ _ _, rfl, by rintro ⟨⟩⟩
      · obtain ⟨w', hrun, hpage', hmore', hrest⟩ :=
          ih hrows hkeys (hpage.add r (some r.after) ((r.item_key, r.item) :: w.seen) w.more) hmore hunseen
        refine ⟨w', hrun, hpage', hmore', fun hw => ⟨?_, hback w' (hrest hw).2⟩⟩
        rw [(hrest hw).1, hafter]
    · rw [if_neg hmeets, filter_cons_of_neg hmeets]
      obtain ⟨w', hrun, hpage', hmore', hrest⟩ :=
        ih hrows hkeys (w := ⟨some r.after, (r.item_key, r.item) :: w.seen, w.page, w.bytes, w.more⟩)
          ⟨hpage.page, hpage.bytes⟩ hmore hunseen
      refine ⟨w', hrun, hpage', hmore', fun hw => ⟨?_, hback w' (hrest hw).2⟩⟩
      rw [(hrest hw).1, hafter]

/-- The row is after the position. -/
def walkTest (backward : Bool) (a : Option After) (r : Row) : Bool :=
  a.isNone || beyond backward (After.place backward a) r.place

/-- The number and the text of a place. -/
def rangePart (a : Place) : WithBot (WithTop ℚ) ×ₗ String := toLex ((ofLex a).1, (ofLex (ofLex a).2).1)

theorem rangePart_le {a b : Place} (h : (ofLex a).1 < (ofLex b).1) : rangePart a ≤ rangePart b := by
  rw [rangePart, rangePart, Prod.Lex.toLex_le_toLex]
  exact .inl h

theorem rangePart_mono {a b : Place} (h : a < b) : rangePart a ≤ rangePart b := by
  rcases Prod.Lex.lt_iff.1 h with hn | ⟨hn, hrest⟩
  · exact rangePart_le hn
  · rw [rangePart, rangePart, Prod.Lex.toLex_le_toLex]
    refine .inr ⟨hn, ?_⟩
    rcases Prod.Lex.lt_iff.1 hrest with ht | ⟨ht, -⟩
    · exact ht.le
    · exact ht.le

theorem notBefore_of {backward : Bool} {a : Place}
    (hforward : backward = false → rangePart a ≤ rangePart r.place)
    (hbackward : backward = true → rangePart r.place ≤ rangePart a) : notBefore backward a r = true := by
  cases backward with
  | false => exact decide_eq_true (hforward rfl)
  | true => exact decide_eq_true (hbackward rfl)

/-- The bound on the range parts leaves out no row after the position. -/
theorem notBefore_of_walkTest {backward : Bool} {a : Option After} (h : walkTest backward a r = true) :
    notBefore backward (After.place backward a) r = true := by
  rw [walkTest, or_eq_true] at h
  rcases h with h | h
  · rw [isNone_iff_eq_none] at h
    subst h
    refine notBefore_of ?_ ?_
    · rintro rfl
      exact rangePart_le (WithBot.bot_lt_coe (r.sort_n : WithTop ℚ))
    · rintro rfl
      exact rangePart_le (WithBot.coe_lt_coe.2 (WithTop.coe_lt_top r.sort_n))
  · refine notBefore_of ?_ ?_
    · rintro rfl
      exact rangePart_mono (of_decide_eq_true h)
    · rintro rfl
      exact rangePart_mono (of_decide_eq_true h)

/-- The rows that the request keeps, in order. -/
def keptRows (src : Source) (q : Ask) : List Row := inOrder q.backward (src.rows.filter q.keeps)

theorem pd_result_page_eq (hplaced : Placed (src.rows.filter q.keeps)) (after : Option After) (limit : Option ℕ) :
    pd_result_page src.rows q after limit =
      limit.elim ((keptRows src q).filter (walkTest q.backward after))
        ((keptRows src q).filter (walkTest q.backward after)).take := by
  have hselected : inOrder q.backward (src.rows.filter fun r => q.keeps r &&
      notBefore q.backward (After.place q.backward after) r &&
      (after.isNone || beyond q.backward (After.place q.backward after) r.place)) =
        (keptRows src q).filter (walkTest q.backward after) := by
    rw [keptRows, filter_inOrder hplaced, List.filter_filter]
    congr 2
    funext r
    rw [← walkTest, Bool.and_comm]
    cases htest : walkTest q.backward after r with
    | false => rw [Bool.false_and]; cases q.keeps r <;> rfl
    | true => rw [notBefore_of_walkTest htest]; cases q.keeps r <;> rfl
  simp only [pd_result_page, hselected]

/-- What is after a row of a walk is what follows it. -/
theorem walkTest_after {l xs ys : List Row} {a : Option After} {backward : Bool}
    (hl : InPlace backward l)
    (hsplit : l.filter (walkTest backward a) = xs ++ r :: ys) :
    l.filter (walkTest backward (some r.after)) = ys := by
  have hrest : (l.filter (walkTest backward a)).filter (fun r' => beyond backward r.place r'.place) = ys := by
    rw [hsplit]
    exact filter_after (R := fun r r' : Row => beyond backward r.place r'.place) (fun _ _ => beyond_asymm)
      (hsplit ▸ hl.filter _)
  rw [← hrest, List.filter_filter]
  refine filter_congr fun r' hr' => ?_
  have hr : walkTest backward a r = true := by
    have : r ∈ l.filter (walkTest backward a) := by rw [hsplit]; simp
    exact (mem_filter.1 this).2
  show beyond backward r.place r'.place = (beyond backward r.place r'.place && walkTest backward a r')
  cases hbeyond : beyond backward r.place r'.place with
  | false => rfl
  | true =>
    rw [Bool.true_and, eq_comm]
    rw [walkTest, or_eq_true] at hr ⊢
    exact hr.imp_right fun hr => beyond_trans hr hbeyond

/-- A page that is not full has room for a row. -/
theorem fill_room {page l : List Row} (h : (fill (fullPage limit) page l).2 = false)
    (hroom : ∀ n, limit = some n → page.length < n) :
    ∀ n, limit = some n → (fill (fullPage limit) page l).1.length < n := by
  intro n hn
  obtain ⟨xs, ys, -, hpage, -, -, hfalse⟩ := Pages.fill_spec (fullPage limit) l page
  rw [hpage]
  rcases eq_or_ne xs [] with rfl | hxs
  · rw [append_nil]
    exact hroom n hn
  · have hfull := (hfalse h).2 hxs
    subst hn
    rw [fullPage, pageFull, or_eq_false_iff] at hfull
    simpa using hfull.1

/-- A walk fills its page with the rows after the position that satisfy the key condition. -/
theorem walkChunks_spec (shown : JsVal → String) (h : Served src input) (hq : InScope src q)
    (fuel : ℕ) {w : Walk} (hpage : OnPage w page) (hmore : w.more = false)
    (hroom : ∀ n, limit = some n → page.length < n)
    (hseen : Unseen w.seen ((keptRows src q).filter (walkTest q.backward w.after)))
    (hfuel : ((keptRows src q).filter (walkTest q.backward w.after)).length < fuel) :
    ∃ w', walkChunks shown src.same input limit src.rows q fuel w = .ok w' ∧
      OnPage w' (fill (fullPage limit) page
        (((keptRows src q).filter (walkTest q.backward w.after)).filter (meets shown input))).1 ∧
      w'.more = (fill (fullPage limit) page
        (((keptRows src q).filter (walkTest q.backward w.after)).filter (meets shown input))).2 := by
  induction fuel generalizing w page with
  | zero => omega
  | succ fuel ih =>
    generalize hrest : (keptRows src q).filter (walkTest q.backward w.after) = rest at *
    have hwant : ∃ want, limit.elim pageChunk (fun n => min pageChunk (n - w.page.length)) = want ∧ 1 ≤ want := by
      refine ⟨_, rfl, ?_⟩
      cases hlimit : limit with
      | none => exact (by decide : 1 ≤ pageChunk)
      | some n =>
        have hlen : w.page.length = page.length := by rw [hpage.page, length_map]
        have := hroom n hlimit
        simp only [Option.elim, pageChunk]
        omega
    obtain ⟨want, hwant, hone⟩ := hwant
    rw [walkChunks]
    simp only [hwant, if_neg (show ¬ want < 1 by omega)]
    have hchunk : pd_result_page src.rows q w.after (some want) = rest.take want := by
      rw [pd_result_page_eq (h.placed hq), hrest]
      rfl
    have hmem : ∀ r ∈ rest, src.Serves r := by
      intro r hr
      rw [← hrest, keptRows] at hr
      obtain ⟨hr, hkeeps⟩ := mem_filter.1 (mem_inOrder.1 (mem_filter.1 hr).1)
      exact hq r hr hkeeps
    have hkeys : rest.Pairwise fun r r' => r.item_key ≠ r'.item_key := by
      rw [← hrest]
      exact ((h.keys hq).perm (inOrder_perm _ _).symm fun hne => hne.symm).filter _
    have hsplit := take_append_drop want rest
    obtain ⟨hkeysTake, hkeysDrop, hapart⟩ := pairwise_append.1 (hsplit ▸ hkeys)
    obtain ⟨w', hrun, hpage', hmore', hnext⟩ := walkRows_spec shown limit h (rest.take want)
      (fun r hr => hmem r (mem_of_mem_take hr)) hkeysTake hpage hmore
      (fun r hr => hseen r (mem_of_mem_take hr))
    have hfilter : rest.filter (meets shown input) =
        (rest.take want).filter (meets shown input) ++ (rest.drop want).filter (meets shown input) := by
      rw [← filter_append, hsplit]
    rw [hchunk, hrun]
    simp only [bind, Except.bind]
    cases hw' : w'.more with
    | true =>
      refine ⟨w', by simp, ?_, ?_⟩
      · rw [hfilter, fill_append, ← hmore', hw', if_pos rfl]
        exact hpage'
      · rw [hfilter, fill_append, ← hmore', hw', if_pos rfl, ← hmore', hw']
    | false =>
      obtain ⟨hafter, hback⟩ := hnext hw'
      rw [hfilter, fill_append, ← hmore', hw', if_neg Bool.false_ne_true]
      by_cases hshort : (rest.take want).length < want
      · have hdrop : rest.drop want = [] := by
          rw [length_take] at hshort
          exact drop_eq_nil_of_le (by omega)
        rw [hdrop]
        refine ⟨w', ?_, hpage', hw'⟩
        rw [Bool.false_or, if_pos (decide_eq_true hshort)]
      · have hne : rest.take want ≠ [] := fun hnil => by
          rw [hnil, length_nil] at hshort
          omega
        obtain ⟨xs, r, hxs⟩ := eq_nil_or_concat (rest.take want) |>.resolve_left hne
        rw [concat_eq_append] at hxs
        rw [hxs, getLast?_concat] at hafter
        replace hafter : w'.after = some r.after := hafter
        have hrest' : (keptRows src q).filter (walkTest q.backward w'.after) = rest.drop want := by
          have hlast : (keptRows src q).filter (walkTest q.backward w.after) = xs ++ r :: rest.drop want := by
            rw [hrest, ← singleton_append, ← append_assoc, ← hxs, hsplit]
          rw [hafter]
          exact walkTest_after (inOrder_inPlace _ (h.placed hq)) hlast
        have hroom' := fill_room (hmore' ▸ hw') hroom
        obtain ⟨w'', hrun', hpage'', hmore''⟩ := ih hpage' hw' hroom' (by
            rw [hrest']
            intro r' hr' e he
            rcases hback e he with he | ⟨r'', hr'', he⟩
            · exact hseen r' (mem_of_mem_drop hr') e he
            · rw [he]
              exact hapart r'' hr'' r' hr') (by
            rw [hrest', length_drop]
            rw [length_take] at hshort
            omega)
        rw [hrest'] at hpage'' hmore''
        refine ⟨w'', ?_, hpage'', hmore''⟩
        rw [Bool.false_or, if_neg (by rw [decide_eq_true_eq]; exact hshort), hrun']

end Walks

/-! ## A read of all rows -/

section All

variable {shown : JsVal → String} {src : Source} {input : Input} {limit : Option ℕ} {q : Ask}

/-- A row on the page of a read of all rows. -/
def Row.found (r : Row) : Candidate := ⟨r, r.decoded, itemBytes r.item, none⟩

theorem collect_spec (h : Served src input) (rows : List Row) (hrows : ∀ r ∈ rows, src.Serves r)
    (hkeys : rows.Pairwise fun r r' => r.item_key ≠ r'.item_key) {seen : Seen} (hseen : Unseen seen rows) :
    collect shown src.same input rows seen = .ok ((rows.filter (meets shown input)).map Row.found) := by
  induction rows generalizing seen with
  | nil => rfl
  | cons r rows ih =>
    obtain ⟨hr, hrows⟩ := forall_mem_cons.1 hrows
    obtain ⟨hkey, hkeys⟩ := pairwise_cons.1 hkeys
    have hfresh : accept src.same seen r = .ok (true, (r.item_key, r.item) :: seen) := by
      rw [accept, find?_eq_none.2 fun e he => by simpa using hseen r mem_cons_self e he]
    have hrest := ih hrows hkeys (hseen.cons hkey)
    have hmeets : (input.scan || predicate shown input.keyCondition input r.decoded) = meets shown input r := rfl
    rw [collect]
    simp only [hfresh, h.readable_eq hr, hrest, bind, Except.bind, Bool.not_true, Bool.false_eq_true, if_false,
      hmeets, filter_cons]
    cases meets shown input r <;> rfl

/-- The order of a read of all rows. -/
def jsOrder (input : Input) (l : List Row) : List Row :=
  let sorted := l.insertionSort fun a b => compareFor input.order a.decoded b.decoded ≠ .gt
  if input.scanIndexForward then sorted else sorted.reverse

theorem orderedCandidates_eq (l : List Row) :
    orderedCandidates input (l.map Row.found) = (jsOrder input l).map Row.found := by
  have hsorted : (l.map Row.found).insertionSort (fun a b => compareFor input.order a.item b.item ≠ .gt) =
      (l.insertionSort fun a b => compareFor input.order a.decoded b.decoded ≠ .gt).map Row.found :=
    (map_insertionSort _ _ Row.found l fun _ _ _ _ => Iff.rfl).symm
  simp only [orderedCandidates, jsOrder, hsorted]
  split
  · rfl
  · rw [map_reverse]

theorem cutLoop_spec (l page : List Row) (hfull : fullPage limit page = false) :
    cutLoop limit (l.map Row.found) (page.map Row.found) (page.map fun r => itemBytes r.item).sum =
      ((fill (fullPage limit) page l).1.map Row.found,
        ((fill (fullPage limit) page l).1.map fun r => itemBytes r.item).sum) ∧
      fullPage limit (fill (fullPage limit) page l).1 = (fill (fullPage limit) page l).2 := by
  induction l generalizing page with
  | nil => exact ⟨rfl, hfull⟩
  | cons r l ih =>
    have hstep : ((page ++ [r]).map Row.found, ((page ++ [r]).map fun r => itemBytes r.item).sum) =
        (page.map Row.found ++ [r.found], (page.map fun r => itemBytes r.item).sum + r.found.bytes) := by
      simp [Row.found]
    obtain ⟨hpage, hbytes⟩ := Prod.mk.inj hstep
    rw [map_cons, cutLoop, length_map, if_neg (by rw [← fullPage, hfull]; exact Bool.false_ne_true),
      ← hpage, ← hbytes, fill]
    cases hnext : fullPage limit (page ++ [r]) with
    | false => exact ih _ hnext
    | true =>
      refine ⟨?_, hnext⟩
      rw [if_pos rfl]
      cases l with
      | nil => rfl
      | cons r' l => rw [map_cons, cutLoop, length_map, ← fullPage, if_pos hnext]

theorem cutPage_eq (hlimit : limit ≠ some 0) (l : List Row) :
    cutPage (l.map Row.found) limit =
      ((fill (fullPage limit) [] l).1.map Row.found, (fill (fullPage limit) [] l).2) := by
  have hfull : fullPage limit [] = false := by
    cases limit with
    | none => rfl
    | some n => cases n with
      | zero => exact absurd rfl hlimit
      | succ n => rfl
  obtain ⟨hloop, hmore⟩ := cutLoop_spec l [] hfull
  rw [map_nil, map_nil, sum_nil] at hloop
  rw [cutPage, hloop]
  simp only [length_map]
  rw [← fullPage, hmore]

end All

/-! ## A reply -/

section Replies

variable {shown : JsVal → String} {src : Source} {input : Input} {limit : Option ℕ} {q : Ask}

theorem request_spec (hq : request shown src input = .ok q) :
    q.scope = src.scope ∧ (input.walks = true → q.backward = input.backward) ∧
      (input.walks = false → q.backward = false) := by
  rw [request] at hq
  obtain ⟨zids, -, hq⟩ := bind_eq_ok.1 hq
  cases hwalks : input.walks with
  | true =>
    rw [hwalks, if_pos rfl, ask] at hq
    obtain ⟨hash, -, hq⟩ := bind_eq_ok.1 hq
    obtain ⟨sortEq, -, hq⟩ := bind_eq_ok.1 hq
    cases hq
    exact ⟨rfl, fun _ => rfl, nofun⟩
  | false =>
    rw [hwalks, if_neg Bool.false_ne_true] at hq
    cases hq
    exact ⟨rfl, nofun, fun _ => rfl⟩

theorem inScope_of_request (hq : request shown src input = .ok q) : InScope src q := by
  intro r hr hkeeps
  refine ⟨hr, ?_⟩
  simp only [Ask.keeps, and_eq_true, decide_eq_true_eq] at hkeeps
  rw [hkeeps.1.1.1.2, (request_spec hq).1]

variable (shown src input) in
/-- The rows that a read goes through, in the order in which it does. -/
def reading (q : Ask) : List Row :=
  if input.walks then (keptRows src q).filter (meets shown input)
  else jsOrder input ((keptRows src q).filter (meets shown input))

variable (input) in
/-- The rows that a read sees after a cursor. -/
def startTest (start : Option LastKey) : Except String (Row → Bool) :=
  if input.walks then (startAfter input start).map fun a => walkTest input.backward a
  else .ok fun r => start.all fun k => compareFor input.order r.decoded k.key =
    if input.scanIndexForward then .gt else .lt

variable (input) in
/-- The cursor that is given for a row. -/
def Row.lastKey (r : Row) : LastKey := ⟨keyOf input r.decoded, if input.walks then some r.after else none⟩

variable (shown input) in
/-- The reply with a page. -/
def replyOf (page : List Row × Bool) : Reply :=
  ⟨(page.1.map Row.decoded).filter (predicate shown input.filter input), page.1,
    if page.2 then page.1.getLast?.map (Row.lastKey input) else none⟩

theorem reply_eq {f : Row → Candidate} (hrow : ∀ r, (f r).row = r) (hitem : ∀ r, (f r).item = r.decoded)
    (hafter : ∀ r, (f r).after = if input.walks then some r.after else none) (page : List Row × Bool) :
    (⟨((page.1.map f).map (·.item)).filter (predicate shown input.filter input), (page.1.map f).map (·.row),
      if page.2 then (page.1.map f).getLast?.map fun c => ⟨keyOf input c.item, c.after⟩ else none⟩ : Reply) =
      replyOf shown input page := by
  have hrows : (Candidate.row ∘ f) = id := funext hrow
  have hitems : (Candidate.item ∘ f) = Row.decoded := funext hitem
  have hlast : (fun c => (⟨keyOf input c.item, c.after⟩ : LastKey)) ∘ f = Row.lastKey input := by
    funext r
    simp only [Function.comp, hitem, hafter, Row.lastKey]
  simp only [replyOf, List.map_map, List.getLast?_map, Option.map_map, hrows, hitems, hlast, List.map_id]

/-- A reply is the page that the rows after the cursor fill. -/
theorem readResults_eq (h : Served src input) (hq : request shown src input = .ok q) (hlimit : limit ≠ some 0)
    (start : Option LastKey) : readResults shown src input limit start = (startTest input start).map fun test =>
      replyOf shown input (fill (fullPage limit) [] ((reading shown src input q).filter test)) := by
  have hscope := inScope_of_request hq
  have hback := (request_spec hq).2.1
  rw [request] at hq
  obtain ⟨zids, hzids, hq⟩ := bind_eq_ok.1 hq
  have hroom : ∀ n, limit = some n → ([] : List Row).length < n := fun n hn =>
    Nat.pos_of_ne_zero fun h0 => hlimit (by rw [hn, h0])
  rw [readResults, if_neg hlimit, hzids]
  cases hwalks : input.walks with
  | true =>
    rw [hwalks, if_pos rfl] at hq
    replace hback := hback hwalks
    simp only [startTest, reading, hwalks, if_true, hq, bind, Except.bind, pure, Except.pure]
    cases hstart : startAfter input start with
    | error e => rfl
    | ok a =>
      simp only [Except.map]
      have hempty : OnPage ⟨a, [], [], 0, false⟩ [] := ⟨rfl, rfl⟩
      obtain ⟨w, hrun, hpage, hmore⟩ := walkChunks_spec shown h hscope (src.rows.length + 1) hempty rfl hroom
        (fun _ _ _ he => nomatch he) (Nat.lt_succ_of_le ((length_filter_le _ _).trans (by
          rw [keptRows, (inOrder_perm _ _).length_eq]
          exact length_filter_le _ _)))
      have hfilter : ((keptRows src q).filter (walkTest q.backward a)).filter (meets shown input) =
          ((keptRows src q).filter (meets shown input)).filter (walkTest input.backward a) := by
        rw [filter_comm, hback]
      simp only [hfilter] at hpage hmore
      rw [hrun]
      simp only [hpage.page, hmore]
      exact congrArg Except.ok (reply_eq (fun _ => rfl) (fun _ => rfl) (fun _ => by rw [hwalks]; rfl) _)
  | false =>
    rw [hwalks, if_neg Bool.false_ne_true] at hq
    cases hq
    simp only [startTest, reading, hwalks, if_false, false_eq_true, bind, Except.bind, pure, Except.pure]
    have hall : pd_result_page src.rows ⟨zids, src.scope, none, none, none, false⟩ none none =
        keptRows src ⟨zids, src.scope, none, none, none, false⟩ := by
      rw [pd_result_page_eq (h.placed hscope)]
      exact filter_eq_self.2 fun _ _ => rfl
    rw [hall]
    generalize (⟨zids, src.scope, none, none, none, false⟩ : Ask) = q at hscope
    have hafter : ∀ l : List Row, afterStart input (start.map fun x => x.key) (l.map Row.found) =
        (l.filter fun r => start.all fun k => compareFor input.order r.decoded k.key =
          if input.scanIndexForward then .gt else .lt).map Row.found := by
      intro l
      cases start with
      | none =>
        refine congrArg (List.map Row.found) (Eq.symm ?_)
        exact filter_eq_self.2 fun _ _ => rfl
      | some k => exact filter_map
    have hserves : ∀ r ∈ keptRows src q, src.Serves r := fun r hr =>
      have hr := mem_filter.1 (mem_inOrder.1 hr)
      hscope r hr.1 hr.2
    have hkeys := (h.keys hscope).perm (inOrder_perm q.backward _).symm fun hne => hne.symm
    have hnone : Unseen [] (keptRows src q) := fun _ _ _ he => nomatch he
    rw [collect_spec h _ hserves hkeys hnone]
    simp only [orderedCandidates_eq, hafter, cutPage_eq hlimit]
    exact congrArg Except.ok (reply_eq (fun _ => rfl) (fun _ => rfl) (fun _ => by rw [hwalks]; rfl) _)

variable (shown src input) in
/-- The rows after a row, by a cursor for it; a cursor that is refused has none. -/
def restAfter (q : Ask) (cursor : LastKey → LastKey) (o : Option Row) : List Row :=
  match startTest input (o.map fun r => cursor (r.lastKey input)) with
  | .ok test => (reading shown src input q).filter test
  | .error _ => []

/-- The items of the replies are those of the rows that were read. -/
def ItemsOf (shown : JsVal → String) (input : Input) (replies : List Reply) : Prop :=
  (replies.map Reply.items).flatten =
    ((replies.map Reply.scanned).flatten.map Row.decoded).filter (predicate shown input.filter input)

theorem ItemsOf.cons {page : List Row × Bool} (h : ItemsOf shown input replies) :
    ItemsOf shown input (replyOf shown input page :: replies) := by
  rw [ItemsOf, map_cons, map_cons, flatten_cons, flatten_cons, map_append,
    filter_append, ← show _ = _ from h]
  rfl

theorem restAfter_eq {o : Option Row} {test : Row → Bool}
    (htest : startTest input (o.map fun r => cursor (r.lastKey input)) = .ok test) :
    restAfter shown src input q cursor o = (reading shown src input q).filter test := by
  rw [restAfter, htest]

theorem replyOf_lastKey {page : List Row × Bool} {k : LastKey} :
    (replyOf shown input page).lastKey = some k ↔
      page.2 = true ∧ ∃ r, page.1.getLast? = some r ∧ r.lastKey input = k := by
  rw [replyOf]
  cases page.2 with
  | false => simp
  | true => simp [map_eq_some_iff]

theorem replyOf_lastKey_none {full : List Row → Bool} {l : List Row}
    (h : (replyOf shown input (fill full [] l)).lastKey = none) : (fill full [] l).2 = false := by
  by_contra hmore
  rw [not_eq_false] at hmore
  obtain ⟨xs, ys, -, hpage, htrue, -⟩ := fill_nil_spec full l
  have hne := (htrue hmore).1
  rw [replyOf, hmore, if_pos rfl, map_eq_none_iff, getLast?_eq_none_iff, hpage] at h
  exact hne h

/-- Replies that end are the pages of the rows that are read. -/
theorem reads_of_paged (h : Served src input) (hq : request shown src input = .ok q) (hlimit : limit ≠ some 0)
    {start : Option LastKey}
    (hpaged : Paged shown src input limit cursor start replies) :
    ∀ o : Option Row, start = o.map (fun r => cursor (r.lastKey input)) →
      Reads (fullPage limit) (restAfter shown src input q cursor) o (replies.map Reply.scanned) ∧
        ItemsOf shown input replies := by
  induction hpaged with
  | @last start reply hread hlast =>
    rintro o rfl
    rw [readResults_eq h hq hlimit] at hread
    obtain ⟨test, htest, rfl⟩ := mapped_eq_ok.1 hread
    rw [← restAfter_eq htest] at hlast ⊢
    refine ⟨.last (Prod.ext rfl (replyOf_lastKey_none hlast)), ItemsOf.cons rfl⟩
  | @more start reply k replies hread hlast hpaged ih =>
    rintro o rfl
    rw [readResults_eq h hq hlimit] at hread
    obtain ⟨test, htest, rfl⟩ := mapped_eq_ok.1 hread
    rw [← restAfter_eq htest] at hlast ⊢
    obtain ⟨hmore, r, hr, rfl⟩ := replyOf_lastKey.1 hlast
    obtain ⟨hreads, hitems⟩ := ih (some r) rfl
    exact ⟨.more (Prod.ext rfl hmore) hr hreads, hitems.cons⟩

/-- Pages of one row at most. -/
theorem fullPage_one (r : Row) : fullPage (some 1) [r] = true := rfl

/-- A cursor after which a page was read is accepted. -/
theorem accepted_of_paged (h : Served src input) (hq : request shown src input = .ok q)
    {start : Option LastKey}
    (hpaged : Paged shown src input (some 1) cursor start replies) :
    (∃ test, startTest input start = .ok test) ∧ ∀ r ∈ (replies.map Reply.scanned).flatten,
      ∃ test, startTest input (some (cursor (r.lastKey input))) = .ok test := by
  have hlimit : some 1 ≠ some 0 := by decide
  induction hpaged with
  | @last start reply hread hlast =>
    rw [readResults_eq h hq hlimit] at hread
    obtain ⟨test, htest, rfl⟩ := mapped_eq_ok.1 hread
    refine ⟨⟨test, htest⟩, ?_⟩
    have hmore := replyOf_lastKey_none hlast
    rw [fill_single fullPage_one] at hmore ⊢
    rw [isSome_eq_false_iff, isNone_iff_eq_none] at hmore
    simp [replyOf, hmore]
  | @more start reply k replies hread hlast hpaged ih =>
    rw [readResults_eq h hq hlimit] at hread
    obtain ⟨test, htest, rfl⟩ := mapped_eq_ok.1 hread
    refine ⟨⟨test, htest⟩, fun r hr => ?_⟩
    obtain ⟨hmore, r', hr', rfl⟩ := replyOf_lastKey.1 hlast
    rw [map_cons, flatten_cons, mem_append] at hr
    rcases hr with hr | hr
    · rw [fill_single fullPage_one] at hr hr'
      have : r = r' := by
        cases hhead : ((reading shown src input q).filter test).head? with
        | none => rw [hhead] at hr'; cases hr'
        | some a =>
          rw [hhead] at hr hr'
          rw [Option.some.inj hr'.symm]
          exact mem_singleton.1 hr
      rw [this]
      exact ih.1
    · exact ih.2 r hr

end Replies

end Polis.Delphi.Reads
