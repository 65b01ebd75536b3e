import Polis.Delphi.ResourceReads
import Polis.Common.Cursor
import Mathlib.Data.Prod.Lex

/-!
# Python result reads page by position

For values of one type Python's comparison of positions is a linear order, so a page is the first items
beyond the cursor in that order, and what is known of pages of a changing list applies.

Reference: `polismath/delphi_storage/resource.py`.
-/

namespace Polis.Delphi.Resource

open List Option Cursor PyValue

/-! ## The statement -/

/-- The reader supports the conditions and the filter, and takes the limit. -/
structure Supported (params : Params) (conditions filters : List Clause) : Prop where
  condition : params.conditions = .ok conditions
  binds : conditions.forM Clause.bind = .ok ()
  filter : clauses params.filter params.names params.values = .ok filters
  limit : 1 ≤ params.limit

/-- Values that Python orders among each other: texts, numbers with booleans, or binary. -/
inductive Kind
  | str
  | number
  | bytes
deriving DecidableEq, Repr

def Kind.admits : Kind → PyValue → Prop
  | .str, v => ∃ s, v = .str s
  | .number, v => ∃ q, v.number = some q
  | .bytes, v => ∃ b, v = .bytes b

variable {family : Family}
variable {l : List Item} {a b : List PyValue}
variable {index : Option Index} {served : ℕ → List (Record family)}

/-- The index attribute of every matching row is of one kind, where it has a value. -/
def OneKind (params : Params) (conditions : List Clause) (kind : Kind) (records : List (Record family)) : Prop :=
  ∀ item ∈ matching params.scope conditions records, ∀ i ∈ params.index, ∀ v,
    get item i.order = some v → pyEq v .none = false → kind.admits v

/-- One key, as Python compares. -/
def sameKey (family : Family) (a b : Item) : Bool := pyEqList (keyOf family a) (keyOf family b)

/-- One value of the index attribute, or no index. -/
def SameIndex (params : Params) (a b : Item) : Prop :=
  ∀ i ∈ params.index, pyEq ((get a i.order).getD .none) ((get b i.order).getD .none) = true

/-- Whether an item takes part in a read by the index. -/
def Indexed (index : Option Index) (item : Item) : Prop :=
  ∀ i ∈ index, ∃ v, get item i.order = some v ∧ pyEq v .none = false

/-- A served row that matches and passes the filter has the key and the index attribute of the item. -/
def Offers (family : Family) (params : Params) (conditions filters : List Clause)
    (records : List (Record family)) (item : Item) : Prop :=
  ∃ row ∈ matching params.scope conditions records, Indexed params.index row ∧
    (filters.all fun c => c.holds row) ∧ sameKey family row item ∧ SameIndex params row item

/-- In the direction of the read the first item comes before the second. -/
def Before (family : Family) (params : Params) (a b : Item) : Prop :=
  let here := position family params.index a
  let there := position family params.index b
  (if params.descending then pyLtList there here else pyLtList here there) = .ok true

/-- What a read gives that was followed to its end. -/
structure Paged (family : Family) (params : Params) (conditions filters : List Clause)
    (served : ℕ → List (Record family)) (pages : List Page) : Prop where
  once : ∀ item, (∀ i < pages.length, Offers family params conditions filters (served i) item) →
    ((pages.flatMap Page.items).filter fun a => sameKey family a item).length = 1
  moved : (pages.flatMap Page.items).Pairwise fun a b => sameKey family a b → ¬ SameIndex params a b
  ordered : (pages.flatMap Page.items).Pairwise (Before family params)
  examined : ∀ page ∈ pages, page.scannedCount ≤ params.limit ∧ page.items.length ≤ page.scannedCount
  unlimited : (∀ i < pages.length, served i = served 0) → ∀ limit, 1 ≤ limit → (served 0).length ≤ limit →
    ∃ page, read family { params with limit := limit } Option.none (served 0) = .ok page ∧
      page.lastEvaluatedKey = Option.none ∧ page.items = pages.flatMap Page.items

/-- The read comes to its end, or to a page that finds different items under one key in two scopes. -/
def Ends (family : Family) (params : Params) (served : ℕ → List (Record family)) (i : ℕ)
    (start : Option Item) : Prop :=
  ∃ fuel, (∃ pages, follow family params served fuel i start = .ok (some pages)) ∨
    follow family params served fuel i start = .error .ambiguousScopes

/-! ## Equality -/

mutual

/-- A value with its booleans as numbers. -/
def norm : PyValue → PyValue
  | .bool b => .num (if b then 1 else 0)
  | .list l => .list (normList l)
  | .dict m => .dict (normDict m)
  | v => v

def normList : List PyValue → List PyValue
  | [] => []
  | a :: l => norm a :: normList l

def normDict : List (String × PyValue) → List (String × PyValue)
  | [] => []
  | (k, a) :: m => (k, norm a) :: normDict m

end

mutual

/-- Python's equality is that of the values with booleans as numbers. -/
theorem pyEq_iff : ∀ a b, pyEq a b = true ↔ norm a = norm b
  | .list l, b => by
    cases b <;> simp [pyEq, norm, number, pyEqList_iff l]
  | .dict m, b => by
    cases b <;> simp [pyEq, norm, number, pyEqDict_iff m]
  | .str s, b => by cases b <;> simp [pyEq, norm, number]
  | .num q, b => by cases b <;> simp [pyEq, norm, number, eq_comm]
  | .bool c, b => by cases b <;> simp [pyEq, norm, number, eq_comm]
  | .bytes l, b => by cases b <;> simp [pyEq, norm, number]
  | .none, b => by cases b <;> simp [pyEq, norm, number]
  | .strs l, b => by cases b <;> simp [pyEq, norm, number]
  | .nums l, b => by cases b <;> simp [pyEq, norm, number]
  | .blobs l, b => by cases b <;> simp [pyEq, norm, number]

theorem pyEqList_iff : ∀ a b, pyEqList a b = true ↔ normList a = normList b
  | [], b => by cases b <;> simp [pyEqList, normList]
  | a :: l, b => by
    cases b with
    | nil => simp [pyEqList, normList]
    | cons c m => simp [pyEqList, normList, pyEq_iff a, pyEqList_iff l]

theorem pyEqDict_iff : ∀ a b, pyEqDict a b = true ↔ normDict a = normDict b
  | [], b => by cases b <;> simp [pyEqDict, normDict]
  | (k, a) :: l, b => by
    cases b with
    | nil => simp [pyEqDict, normDict]
    | cons c m =>
      obtain ⟨k', c⟩ := c
      simp [pyEqDict, normDict, pyEq_iff a, pyEqDict_iff l, and_assoc]

end

/-! ## Order -/

/-- A value among those of its kind. -/
abbrev Rank : Type := String ×ₗ ℚ ×ₗ List (Fin 256)

def rank : PyValue → Rank
  | .str s => toLex (s, toLex (0, []))
  | .bytes b => toLex ("", toLex (0, b))
  | v => toLex ("", toLex (v.number.getD 0, []))

theorem number_cases {v : PyValue} {q : ℚ} (h : v.number = some q) :
    v = .num q ∨ ∃ b, v = .bool b ∧ (if b then 1 else 0) = q := by
  cases v <;> simp_all [number]

theorem pyEq_iff_rank {k : Kind} {a b : PyValue} (ha : k.admits a) (hb : k.admits b) :
    pyEq a b = true ↔ rank a = rank b := by
  cases k with
  | str | bytes =>
    obtain ⟨s, rfl⟩ := ha
    obtain ⟨t, rfl⟩ := hb
    simp [pyEq, rank]
  | number =>
    obtain ⟨x, ha⟩ := ha
    obtain ⟨y, hb⟩ := hb
    rcases number_cases ha with rfl | ⟨c, rfl, rfl⟩ <;> rcases number_cases hb with rfl | ⟨d, rfl, rfl⟩ <;>
      simp [pyEq, rank, number, eq_comm]

theorem pyLt_eq_rank {k : Kind} {a b : PyValue} (ha : k.admits a) (hb : k.admits b) :
    pyLt a b = .ok (decide (rank a < rank b)) := by
  cases k with
  | str | bytes =>
    obtain ⟨s, rfl⟩ := ha
    obtain ⟨t, rfl⟩ := hb
    simp [pyLt, rank, Prod.Lex.toLex_lt_toLex]
  | number =>
    obtain ⟨x, ha⟩ := ha
    obtain ⟨y, hb⟩ := hb
    rcases number_cases ha with rfl | ⟨c, rfl, rfl⟩ <;> rcases number_cases hb with rfl | ⟨d, rfl, rfl⟩ <;>
      simp [pyLt, rank, number, Prod.Lex.toLex_lt_toLex]

/-- Tuples whose values are of the same kinds, place by place. -/
abbrev OfKinds (kinds : List Kind) (l : List PyValue) : Prop := List.Forall₂ Kind.admits kinds l

theorem pyEqList_iff_ranks {kinds : List Kind} (ha : OfKinds kinds a) (hb : OfKinds kinds b) :
    pyEqList a b = true ↔ a.map rank = b.map rank := by
  induction ha generalizing b with
  | nil =>
    cases hb
    simp [pyEqList]
  | cons hx _ ih =>
    cases hb with
    | cons hy hrest => simp [pyEqList, pyEq_iff_rank hx hy, ih hrest]

/-- Python orders tuples of the same kinds as their ranks are ordered. -/
theorem pyLtList_eq {kinds : List Kind} (ha : OfKinds kinds a) (hb : OfKinds kinds b) :
    pyLtList a b = .ok (decide (a.map rank < b.map rank)) := by
  induction ha generalizing b with
  | nil =>
    cases hb
    simp [pyLtList]
  | @cons k x kinds a hx _ ih =>
    cases hb with
    | @cons _ y _ b hy hrest =>
      rw [pyLtList]
      by_cases heq : rank x = rank y
      · rw [if_pos ((pyEq_iff_rank hx hy).2 heq), ih hrest]
        simp [heq]
      · rw [if_neg fun h => heq ((pyEq_iff_rank hx hy).1 h), pyLt_eq_rank hx hy]
        simp [cons_lt_cons_iff, heq]

/-! ## Sorting and selecting -/

section Sorting

variable {α P : Type} [LinearOrder P] {lt : α → α → Except PyError Bool} {f : α → P}

theorem insertSorted_spec {a : α} {l : List α} (hlt : ∀ b ∈ l, lt b a = .ok (decide (f b < f a)))
    (hl : l.Pairwise fun b c => f b ≤ f c) :
    ∃ l', insertSorted lt a l = .ok l' ∧ l'.Perm (a :: l) ∧ l'.Pairwise fun b c => f b ≤ f c := by
  induction l with
  | nil => exact ⟨[a], rfl, .refl _, pairwise_singleton _ _⟩
  | cons b l ih =>
    obtain ⟨hb, hlt⟩ := forall_mem_cons.1 hlt
    obtain ⟨hfirst, hl⟩ := pairwise_cons.1 hl
    obtain ⟨l', hl', hperm, hsorted⟩ := ih hlt hl
    by_cases hba : f b < f a
    · refine ⟨b :: l', ?_, ?_, pairwise_cons.2 ⟨fun c hc => ?_, hsorted⟩⟩
      · simp only [insertSorted, hb, hba, hl', bind, Except.bind, decide_true, if_true]
        rfl
      · exact (hperm.cons b).trans (.swap a b l)
      · rcases mem_cons.1 (hperm.mem_iff.1 hc) with rfl | hc
        · exact hba.le
        · exact hfirst c hc
    · refine ⟨a :: b :: l, ?_, .refl _, pairwise_cons.2 ⟨fun c hc => ?_, pairwise_cons.2 ⟨hfirst, hl⟩⟩⟩
      · simp only [insertSorted, hb, hba, bind, Except.bind, decide_false]
        rfl
      · rcases mem_cons.1 hc with rfl | hc
        · exact not_lt.1 hba
        · exact (not_lt.1 hba).trans (hfirst c hc)

/-- Where the comparison is that of a linear order, sorting succeeds and sorts. -/
theorem sort_spec (lt : α → α → Except PyError Bool) (f : α → P) {l : List α}
    (hlt : ∀ a ∈ l, ∀ b ∈ l, lt a b = .ok (decide (f a < f b))) :
    ∃ l', sort lt l = .ok l' ∧ l'.Perm l ∧ l'.Pairwise fun b c => f b ≤ f c := by
  induction l with
  | nil => exact ⟨[], rfl, .refl _, .nil⟩
  | cons a l ih =>
    obtain ⟨l', hl', hperm, hsorted⟩ := ih fun b hb c hc =>
      hlt b (mem_cons_of_mem a hb) c (mem_cons_of_mem a hc)
    obtain ⟨l₂, hl₂, hperm', hsorted'⟩ := insertSorted_spec (a := a) (l := l')
      (fun b hb => hlt b (mem_cons_of_mem a (hperm.mem_iff.1 hb)) a mem_cons_self) hsorted
    refine ⟨l₂, ?_, hperm'.trans (hperm.cons a), hsorted'⟩
    simp only [sort, hl', bind, Except.bind]
    exact hl₂

theorem filterAuxM_ok {f : α → Except PyError Bool} {p : α → Bool} {l acc : List α}
    (h : ∀ a ∈ l, f a = .ok (p a)) : l.filterAuxM f acc = .ok ((l.filter p).reverse ++ acc) := by
  induction l generalizing acc with
  | nil => rfl
  | cons a l ih =>
    obtain ⟨ha, hl⟩ := forall_mem_cons.1 h
    rw [List.filterAuxM, ha]
    cases hp : p a with
    | true | false =>
      refine (ih hl).trans ?_
      simp [hp]

theorem filterM_ok {f : α → Except PyError Bool} {p : α → Bool} {l : List α} (h : ∀ a ∈ l, f a = .ok (p a)) :
    l.filterM f = .ok (l.filter p) := by
  rw [List.filterM, filterAuxM_ok h, append_nil]
  exact congrArg Except.ok (reverse_reverse _)

end Sorting

/-! ## Places -/

/-- A key type as a kind. -/
def KeyType.kind : KeyType → Kind
  | .S => .str
  | .N => .number

theorem KeyType.admits_kind {t : KeyType} {v : PyValue} (h : t.admits v) : t.kind.admits v := by
  cases t with
  | S => exact h
  | N =>
    obtain ⟨q, rfl⟩ := h
    exact ⟨q, rfl⟩

variable {params : Params} {kind : Kind} {item item' : Item}

/-- An item with every key attribute, and the index attribute with a value of the kind. -/
structure Placed (family : Family) (index : Option Index) (kind : Kind) (item : Item) : Prop where
  keyed : ∀ k ∈ family.key, ∃ v, get item k.1 = some v ∧ k.2.admits v
  indexed : ∀ i ∈ index, ∃ v, get item i.order = some v ∧ kind.admits v

/-- Where an item stands in the order of a read. -/
def place (family : Family) (index : Option Index) (item : Item) : List Rank :=
  (position family index item).map rank

/-- The kinds of the values of a position. -/
def kinds (family : Family) (index : Option Index) (kind : Kind) : List Kind :=
  (index.map fun _ => kind).toList ++ family.key.map fun k => k.2.kind

theorem keyOf_ofKinds (keys : List (String × KeyType))
    (h : ∀ k ∈ keys, ∃ v, get item k.1 = some v ∧ k.2.admits v) :
    OfKinds (keys.map fun k => k.2.kind) (keys.filterMap fun k => get item k.1) := by
  induction keys with
  | nil => exact .nil
  | cons k keys ih =>
    obtain ⟨⟨v, hv, hadmits⟩, hkeys⟩ := forall_mem_cons.1 h
    simp only [map_cons, filterMap_cons, hv]
    exact .cons (KeyType.admits_kind hadmits) (ih hkeys)

theorem position_eq (family : Family) (index : Option Index) (item : Item) :
    position family index item = (index.bind fun i => get item i.order).toList ++ keyOf family item := by
  rw [position, ordering, filterMap_append, filterMap_map]
  congr 1
  cases index with
  | none => rfl
  | some i => cases h : get item i.order <;> simp [h]

section

variable (h : Placed family index kind item)
include h

theorem Placed.ofKinds :
    OfKinds (kinds family index kind) (position family index item) := by
  have hkeys := keyOf_ofKinds family.key h.keyed
  rw [position_eq]
  cases index with
  | none => exact hkeys
  | some i =>
    obtain ⟨v, hv, hadmits⟩ := h.indexed i rfl
    simp only [bind_some, hv]
    exact .cons hadmits hkeys

theorem Placed.key_iff (h' : Placed family index kind item') :
    pyEqList (keyOf family item) (keyOf family item') = true ↔
      (keyOf family item).map rank = (keyOf family item').map rank :=
  pyEqList_iff_ranks (keyOf_ofKinds _ h.keyed) (keyOf_ofKinds _ h'.keyed)

/-- Two items at one place have one key. -/
theorem Placed.key_of_place
    (h' : Placed family index kind item') (heq : place family index item = place family index item') :
    pyEqList (keyOf family item) (keyOf family item') = true := by
  refine (h.key_iff h').2 ?_
  rw [place, place, position_eq, position_eq] at heq
  cases index with
  | none => simpa using heq
  | some i =>
    obtain ⟨v, hv, -⟩ := h.indexed i rfl
    obtain ⟨v', hv', -⟩ := h'.indexed i rfl
    simp only [bind_some, hv, hv', toList_some, cons_append, nil_append, map_cons,
      List.cons.injEq] at heq
    exact heq.2

/-- Items with one key and equal index attributes are at one place. -/
theorem Placed.place_of_key
    (h' : Placed family index kind item') (hkey : pyEqList (keyOf family item) (keyOf family item') = true)
    (hindex : ∀ i ∈ index, pyEq ((get item i.order).getD .none) ((get item' i.order).getD .none) = true) :
    place family index item = place family index item' := by
  have hranks := (h.key_iff h').1 hkey
  rw [place, place, position_eq, position_eq, map_append, map_append, hranks]
  congr 1
  cases index with
  | none => rfl
  | some i =>
    obtain ⟨v, hv, hadmits⟩ := h.indexed i rfl
    obtain ⟨v', hv', hadmits'⟩ := h'.indexed i rfl
    have heq := hindex i rfl
    rw [hv, hv'] at heq
    simp only [bind_some, hv, hv', toList_some, map_singleton,
      (pyEq_iff_rank hadmits hadmits').1 heq]

end

/-- The order of a read: ascending or descending places. -/
def ahead (descending : Bool) (a b : List Rank) : Prop := if descending then b < a else a < b

instance (descending : Bool) : DecidableRel (ahead descending) := fun a b =>
  match descending with
  | true => inferInstanceAs (Decidable (b < a))
  | false => inferInstanceAs (Decidable (a < b))

instance (descending : Bool) : IsStrictTotalOrder (List Rank) (ahead descending) := by
  cases descending
  · exact inferInstanceAs (IsStrictTotalOrder (List Rank) (· < ·))
  · exact inferInstanceAs (IsStrictTotalOrder (List Rank) (· > ·))

theorem ahead_ne {descending : Bool} {a b : List Rank} (h : ahead descending a b) : a ≠ b := by
  rintro rfl
  exact irrefl_of (ahead descending) a h

/-! ## The list of a read -/

/-- Items that Python finds equal agree on every attribute. -/
theorem get_normDict (m : Item) (name : String) : get (normDict m) name = (get m name).map norm := by
  induction m with
  | nil => rfl
  | cons p m ih =>
    obtain ⟨k, v⟩ := p
    by_cases hk : k = name
    · simp [get, normDict, hk]
    · simpa [get, normDict, hk] using ih

theorem pyEqDict_get (h : pyEqDict item item' = true) (name : String) :
    (get item name).map norm = (get item' name).map norm := by
  rw [← get_normDict, ← get_normDict, (pyEqDict_iff item item').1 h]

/-- A clause holds of equal items alike. -/
theorem Clause.holds_congr (h : pyEqDict item item' = true) (c : Clause) : c.holds item = c.holds item' := by
  have hget := pyEqDict_get h c.key
  unfold Clause.holds
  cases c.op with
  | eq =>
    have hnorm : norm ((get item c.key).getD .none) = norm ((get item' c.key).getD .none) := by
      cases hv : get item c.key <;> cases hv' : get item' c.key <;> simp_all
    rw [Bool.eq_iff_iff, pyEq_iff, pyEq_iff, hnorm]
  | begins_with =>
    cases hv : get item c.key with
    | none =>
      rw [hv] at hget
      rw [map_eq_none_iff.1 hget.symm]
    | some v =>
      rw [hv] at hget
      obtain ⟨v', hv', hnorm⟩ := map_eq_some_iff.1 hget.symm
      rw [hv']
      cases v <;> cases v' <;> simp_all [norm]

/-- What a merge gives: matching items, one for each key, and one equal to each. -/
structure Merged (family : Family) (items out : List Item) : Prop where
  mem : ∀ s ∈ out, s ∈ items
  distinct : out.Pairwise fun a b => pyEqList (keyOf family a) (keyOf family b) = false
  covers : ∀ item ∈ items, ∃ s ∈ out, pyEqList (keyOf family s) (keyOf family item) = true ∧
    pyEqDict s item = true

theorem merge_spec {seen items out : List Item} (h : merge family seen items = .ok out)
    (hseen : seen.Pairwise fun a b => pyEqList (keyOf family a) (keyOf family b) = false) :
    (∀ s ∈ out, s ∈ seen ∨ s ∈ items) ∧ (∀ s ∈ seen, s ∈ out) ∧
      (out.Pairwise fun a b => pyEqList (keyOf family a) (keyOf family b) = false) ∧
      ∀ item ∈ items, ∃ s ∈ out, pyEqList (keyOf family s) (keyOf family item) = true ∧
        pyEqDict s item = true := by
  induction items generalizing seen with
  | nil =>
    cases h
    exact ⟨fun s hs => .inl hs, fun s hs => hs, hseen, fun _ hitem => nomatch hitem⟩
  | cons item items ih =>
    rw [merge] at h
    cases hfind : seen.find? fun s => pyEqList (keyOf family s) (keyOf family item) with
    | some s =>
      rw [hfind] at h
      dsimp only at h
      split at h
      · next hsame =>
          obtain ⟨hmem, hkeep, hdistinct, hcovers⟩ := ih h hseen
          refine ⟨fun t ht => (hmem t ht).imp_right (mem_cons_of_mem item), hkeep, hdistinct, ?_⟩
          intro t ht
          rcases mem_cons.1 ht with rfl | ht
          · exact ⟨s, hkeep s (mem_of_find?_eq_some hfind), by simpa using find?_some hfind, hsame⟩
          · exact hcovers t ht
      · cases h
    | none =>
      rw [hfind] at h
      have hnew : ∀ s ∈ seen, pyEqList (keyOf family s) (keyOf family item) = false := fun s hs => by
        simpa using find?_eq_none.1 hfind s hs
      obtain ⟨hmem, hkeep, hdistinct, hcovers⟩ := ih h (pairwise_append.2
        ⟨hseen, pairwise_singleton _ _, fun a ha b hb => mem_singleton.1 hb ▸ hnew a ha⟩)
      refine ⟨fun t ht => ?_, fun s hs => hkeep s (mem_append_left _ hs), hdistinct, ?_⟩
      · rcases hmem t ht with ht | ht
        · rcases mem_append.1 ht with ht | ht
          · exact .inl ht
          · exact .inr (mem_singleton.1 ht ▸ mem_cons_self)
        · exact .inr (mem_cons_of_mem item ht)
      · intro t ht
        rcases mem_cons.1 ht with rfl | ht
        · exact ⟨t, hkeep t (by simp), (pyEqList_iff _ _).2 rfl, (pyEqDict_iff _ _).2 rfl⟩
        · exact hcovers t ht

theorem merged {items out : List Item} (h : merge family [] items = .ok out) : Merged family items out := by
  obtain ⟨hmem, -, hdistinct, hcovers⟩ := merge_spec h .nil
  exact ⟨fun s hs => (hmem s hs).resolve_left not_mem_nil, hdistinct, hcovers⟩

theorem matching_keyed {scope : Option String} {conditions : List Clause} {records : List (Record family)}
    (h : item ∈ matching scope conditions records) :
    ∀ k ∈ family.key, ∃ v, get item k.1 = some v ∧ k.2.admits v := by
  obtain ⟨r, -, rfl⟩ := mem_map.1 h
  exact r.keyed

/-- The list that a page reads from: sorted, and one item for each matching row that takes part. -/
structure Listed (family : Family) (params : Params) (conditions : List Clause) (kind : Kind)
    (records : List (Record family)) (l : List Item) : Prop where
  placed : ∀ item ∈ l, Placed family params.index kind item ∧
    item ∈ matching params.scope conditions records
  sorted : Cursor.Sorted (ahead params.descending) (place family params.index) l
  distinct : l.Pairwise fun a b => pyEqList (keyOf family a) (keyOf family b) = false
  covers : ∀ item ∈ matching params.scope conditions records, Indexed params.index item →
    ∃ s ∈ l, pyEqList (keyOf family s) (keyOf family item) = true ∧ pyEqDict s item = true

theorem indexed_filter (index : Option Index) (items : List Item) (item : Item) :
    item ∈ (match index with
      | some index => items.filter fun item => (get item index.order).any fun v => !pyEq v .none
      | Option.none => items) ↔ item ∈ items ∧ Indexed index item := by
  cases index with
  | none => simp [Indexed]
  | some i =>
    simp only [mem_filter, Indexed, mem_def, Option.some.injEq, forall_eq', Option.any_eq_true,
      Bool.not_eq_true']

/-- A merge only refuses scopes that serve different items under one key. -/
theorem merge_total (seen items : List Item) :
    (∃ out, merge family seen items = .ok out) ∨ merge family seen items = .error .ambiguousScopes := by
  induction items generalizing seen with
  | nil => exact .inl ⟨seen, rfl⟩
  | cons item items ih =>
    rw [merge]
    split
    · split
      · exact ih seen
      · exact .inr rfl
    · exact ih (seen ++ [item])

theorem pyEqList_symm (h : pyEqList a b = false) : pyEqList b a = false := by
  rw [Bool.eq_false_iff, Ne, pyEqList_iff] at h ⊢
  exact fun heq => h heq.symm

/-- The items of a read can be sorted when the scopes can be merged. -/
theorem sorted_spec {conditions : List Clause} {records : List (Record family)}
    (hkind : OneKind params conditions kind records) :
    (∃ l, sorted family params conditions records = .ok l ∧
      Listed family params conditions kind records l) ∨
    sorted family params conditions records = .error .ambiguousScopes := by
  rcases @merge_total family [] (matching params.scope conditions records) with ⟨items, hmerge⟩ | hmerge
  swap
  · right
    rw [sorted, hmerge]
    rfl
  left
  have hmerged := merged hmerge
  rw [sorted, hmerge]
  generalize hout : (match params.index with
    | some index => items.filter fun item => (get item index.order).any fun v => !pyEq v .none
    | Option.none => items) = out
  have hmem : ∀ item, item ∈ out ↔ item ∈ items ∧ Indexed params.index item := fun item => by
    rw [← hout]
    exact indexed_filter params.index items item
  have hsub : out.Sublist items := by
    rw [← hout]
    split
    · exact filter_sublist
    · exact List.Sublist.refl _
  have hplaced : ∀ item ∈ out, Placed family params.index kind item := by
    intro item hitem
    obtain ⟨hitem, hindexed⟩ := (hmem item).1 hitem
    have hmatch := hmerged.mem item hitem
    refine ⟨matching_keyed hmatch, fun i hi => ?_⟩
    obtain ⟨v, hv, hne⟩ := hindexed i hi
    exact ⟨v, hv, hkind item hmatch i hi v hv hne⟩
  obtain ⟨l', hsort', hperm, hle⟩ := sort_spec
    (fun a b => pyLtList (position family params.index a) (position family params.index b))
    (place family params.index) fun a ha b hb =>
      (pyLtList_eq (hplaced a ha).ofKinds (hplaced b hb).ofKinds).trans
        (congrArg Except.ok (decide_eq_decide.2 Iff.rfl))
  rw [← hout] at hsort'
  refine ⟨if params.descending then l'.reverse else l', ?_, ?_⟩
  · exact (congrArg (· >>= fun items => pure (if params.descending then items.reverse else items)) hsort')
  generalize hl : (if params.descending then l'.reverse else l') = l
  have hmem' : ∀ item, item ∈ l ↔ item ∈ out := fun item => by
    rw [← hl, ← hperm.mem_iff]
    split
    · exact mem_reverse
    · exact Iff.rfl
  have hkeys : l'.Pairwise fun a b => pyEqList (keyOf family a) (keyOf family b) = false :=
    (hperm.pairwise_iff pyEqList_symm).2 (hmerged.distinct.sublist hsub)
  have hne : l'.Pairwise fun a b => place family params.index a ≠ place family params.index b := by
    refine hkeys.imp_of_mem fun {a b} ha hb hkey heq => ?_
    rw [(hplaced a (hperm.mem_iff.1 ha)).key_of_place (hplaced b (hperm.mem_iff.1 hb)) heq] at hkey
    cases hkey
  have hstrict : l'.Pairwise fun a b => place family params.index a < place family params.index b :=
    (hle.and hne).imp fun h => lt_of_le_of_ne h.1 h.2
  refine ⟨fun item hitem => ?_, ?_, ?_, fun item hitem hindexed => ?_⟩
  · have hout := (hmem' item).1 hitem
    exact ⟨hplaced item hout, hmerged.mem item ((hmem item).1 hout).1⟩
  · unfold Cursor.Sorted ahead
    rw [← hl]
    cases params.descending
    · exact hstrict
    · exact pairwise_reverse.2 hstrict
  · rw [← hl]
    split
    · exact pairwise_reverse.2 (hkeys.imp pyEqList_symm)
    · exact hkeys
  · obtain ⟨s, hs, hkey, hsame⟩ := hmerged.covers item hitem
    refine ⟨s, (hmem' s).2 ((hmem s).2 ⟨hs, fun i hi => ?_⟩), hkey, hsame⟩
    obtain ⟨v, hv, hne⟩ := hindexed i hi
    have hget := pyEqDict_get hsame i.order
    rw [hv] at hget
    obtain ⟨v', hv', hnorm⟩ := map_eq_some_iff.1 hget
    refine ⟨v', hv', ?_⟩
    rw [Bool.eq_false_iff, Ne, pyEq_iff] at hne ⊢
    rwa [hnorm]

/-! ## Cursors -/

theorem get_cons (name' : String) (v : PyValue) (m : Item) (name : String) :
    get ((name', v) :: m) name = if name' = name then some v else get m name := by
  by_cases h : name' = name <;> simp [get, h]

/-- A cursor carries the attributes it names. -/
theorem get_named {names : List String} {name : String} {v : PyValue} (hname : name ∈ names)
    (hv : get item name = some v) :
    get (names.filterMap fun name => (get item name).map fun v => (name, v)) name = some v := by
  induction names with
  | nil => cases hname
  | cons n names ih =>
    by_cases hn : n = name
    · subst hn
      simp only [filterMap_cons, hv, map_some, get_cons, if_pos]
    · have hrest := ih ((mem_cons.1 hname).resolve_left fun h => hn h.symm)
      cases hw : get item n with
      | none => simpa only [filterMap_cons, hw, map_none] using hrest
      | some w => simpa only [filterMap_cons, hw, map_some, get_cons, if_neg hn] using hrest

/-- An item has every attribute of its position, and its cursor carries it. -/
theorem Placed.get_lastKey (h : Placed family index kind item) {name : String}
    (hname : name ∈ ordering family index) :
    ∃ v, get item name = some v ∧ get (lastKey family index item) name = some v := by
  rcases mem_append.1 hname with hname | hname
  · cases index with
    | none => cases hname
    | some i =>
      obtain rfl : name = i.order := by simpa using hname
      obtain ⟨v, hv, -⟩ := h.indexed i rfl
      exact ⟨v, hv, get_named (by simp) hv⟩
  · obtain ⟨k, hk, rfl⟩ := mem_map.1 hname
    obtain ⟨v, hv, -⟩ := h.keyed k hk
    exact ⟨v, hv, get_named (mem_append_left _ (mem_map_of_mem hk)) hv⟩

/-- A cursor stands for the position of the item it was made from. -/
theorem Placed.mark_lastKey (h : Placed family index kind item) (items : List Item) :
    mark family index items (lastKey family index item) = .ok (position family index item) := by
  have hall : (ordering family index).all fun k => (get (lastKey family index item) k).isSome := by
    refine all_eq_true.2 fun k hk => ?_
    obtain ⟨v, -, hv⟩ := h.get_lastKey hk
    rw [hv]
    rfl
  rw [mark, if_pos hall]
  refine congrArg Except.ok (filterMap_congr fun k hk => ?_)
  obtain ⟨v, hitem, hkey⟩ := h.get_lastKey hk
  rw [hitem, hkey]

/-- The cursors that a read meets: none, or that of an item. -/
inductive Stands (family : Family) (params : Params) (kind : Kind) : Option Item → Option (List Rank) → Prop
  | start : Stands family params kind Option.none Option.none
  | item {item : Item} : Placed family params.index kind item → Stands family params kind
      (some (lastKey family params.index item)) (some (place family params.index item))

/-- The page starts beyond its cursor. -/
theorem after_spec {start : Option Item} {mark : Option (List Rank)}
    (hstart : Stands family params kind start mark) (hl : ∀ a ∈ l, Placed family params.index kind a) :
    after family params start l =
      .ok (rest (ahead params.descending) (place family params.index) mark l) := by
  cases hstart with
  | start => simp [after, rest]
  | @item item hitem =>
    have hname : family.hash.1 ∈ ordering family params.index :=
      mem_append_right _ (mem_map_of_mem mem_cons_self)
    obtain ⟨v, -, hfirst⟩ := hitem.get_lastKey hname
    cases hkey : lastKey family params.index item with
    | nil =>
      rw [hkey] at hfirst
      cases hfirst
    | cons p ps =>
      rw [after, ← hkey, hitem.mark_lastKey l]
      · refine filterM_ok fun a ha => ?_
        cases hd : params.descending
        · exact (pyLtList_eq hitem.ofKinds (hl a ha).ofKinds).trans
            (congrArg Except.ok (by simp [ahead, place]))
        · exact (pyLtList_eq (hl a ha).ofKinds hitem.ofKinds).trans
            (congrArg Except.ok (by simp [ahead, place]))
      · rintro ⟨⟩

/-! ## Pages -/

variable {conditions filters : List Clause} {records : List (Record family)} {start : Option Item}
  {mark : Option (List Rank)}

/-- The items that the filter keeps. -/
abbrev kept (filters : List Clause) (items : List Item) : List Item :=
  items.filter fun item => filters.all fun c => c.holds item

/-- What a page is, of the list it reads from. -/
structure PageOf (family : Family) (params : Params) (kind : Kind) (filters : List Clause)
    (mark : Option (List Rank)) (l : List Item) (page : Page) : Prop where
  items : page.items =
    kept filters (Cursor.page (ahead params.descending) (place family params.index) params.limit mark l)
  scanned : page.scannedCount =
    (Cursor.page (ahead params.descending) (place family params.index) params.limit mark l).length
  next : Stands family params kind page.lastEvaluatedKey
      (next (ahead params.descending) (place family params.index) params.limit mark l) ∧
    (page.lastEvaluatedKey = Option.none ↔
      next (ahead params.descending) (place family params.index) params.limit mark l = Option.none)

/-- The page beyond a position. -/
def pageAt (family : Family) (params : Params) (filters : List Clause) (mark : Option (List Rank)) (l : List Item) :
    Page where
  items := kept filters (Cursor.page (ahead params.descending) (place family params.index) params.limit mark l)
  scannedCount := (Cursor.page (ahead params.descending) (place family params.index) params.limit mark l).length
  lastEvaluatedKey :=
    if params.limit < (rest (ahead params.descending) (place family params.index) mark l).length then
      (Cursor.page (ahead params.descending) (place family params.index) params.limit mark l).getLast?.map
        (lastKey family params.index)
    else Option.none

theorem pageAt_spec (hl : ∀ a ∈ l, Placed family params.index kind a) :
    PageOf family params kind filters mark l (pageAt family params filters mark l) := by
  refine ⟨rfl, rfl, ?_⟩
  rw [pageAt, Cursor.next]
  split
  · cases hlast : (Cursor.page (ahead params.descending) (place family params.index) params.limit mark
      l).getLast? with
    | none => exact ⟨.start, by simp⟩
    | some item =>
      have hmem := page_subset mark l (mem_of_getLast? hlast)
      exact ⟨.item (hl item (mem_rest.1 hmem).1), by simp⟩
  · exact ⟨.start, by simp⟩

theorem PageOf.more {page : Page} {key : Item} (h : PageOf family params kind filters mark l page)
    (hkey : page.lastEvaluatedKey = some key) :
    ∃ m, Cursor.next (ahead params.descending) (place family params.index) params.limit mark l = some m :=
  ne_none_iff_exists'.1 fun hnone => absurd (h.next.2.2 hnone) (by simp [hkey])

theorem read_of_sorted (h : Supported params conditions filters)
    (hstart : Stands family params kind start mark) (hsorted : sorted family params conditions records = .ok l)
    (hl : ∀ a ∈ l, Placed family params.index kind a) :
    read family params start records = .ok (pageAt family params filters mark l) := by
  simp only [read, h.condition, h.binds, hsorted, after_spec hstart hl, h.filter, bind, Except.bind,
    if_neg (not_lt.2 h.limit)]
  rfl

/-- A supported read gives a page, unless the scopes cannot be merged. -/
theorem read_spec (h : Supported params conditions filters) (hstart : Stands family params kind start mark)
    (hkind : OneKind params conditions kind records) :
    (∃ l, sorted family params conditions records = .ok l ∧ Listed family params conditions kind records l ∧
      read family params start records = .ok (pageAt family params filters mark l)) ∨
    read family params start records = .error .ambiguousScopes := by
  rcases sorted_spec hkind with ⟨l, hsorted, hl⟩ | herror
  · exact .inl ⟨l, hsorted, hl, read_of_sorted h hstart hsorted fun a ha => (hl.placed a ha).1⟩
  · right
    simp only [read, h.condition, h.binds, herror, bind, Except.bind]

theorem follow_step {fuel i : ℕ} {page : Page}
    (hread : read family params start (served i) = .ok page) :
    follow family params served (fuel + 1) i start =
      match page.lastEvaluatedKey with
      | Option.none => .ok (some [page])
      | some key => (follow family params served fuel (i + 1) (some key)).map (Option.map (page :: ·)) := by
  rw [follow, hread]
  cases hkey : page.lastEvaluatedKey with
  | none => simp [bind, Except.bind, hkey, pure, Except.pure]
  | some key =>
    simp only [bind, Except.bind, hkey]
    cases follow family params served fuel (i + 1) (some key) <;> rfl

theorem follow_error {fuel i : ℕ} {e : PyError}
    (hread : read family params start (served i) = .error e) :
    follow family params served (fuel + 1) i start = .error e := by
  rw [follow, hread]
  rfl

/-! ## A whole read -/

/-- A read followed to its end reads the lists of its pages by position. -/
structure Followed (family : Family) (params : Params) (kind : Kind) (conditions filters : List Clause)
    (served : ℕ → List (Record family)) (i : ℕ) (mark : Option (List Rank)) (pages : List Page)
    (ls ps : List (List Item)) : Prop where
  reads : Cursor.Read (ahead params.descending) (place family params.index) params.limit mark ls ps
  lists : ∀ l ∈ ls, ∃ j, i ≤ j ∧ j < i + pages.length ∧ sorted family params conditions (served j) = .ok l ∧
    Listed family params conditions kind (served j) l
  items : pages.flatMap Page.items = kept filters ps.flatten
  pages : ∀ page ∈ pages, ∃ p ∈ ps, page.items = kept filters p ∧ page.scannedCount = p.length

theorem follow_spec (h : Supported params conditions filters)
    (hkind : ∀ i, OneKind params conditions kind (served i)) {fuel i : ℕ} {pages : List Page}
    (hstart : Stands family params kind start mark)
    (hfollow : follow family params served fuel i start = .ok (some pages)) :
    ∃ ls ps, Followed family params kind conditions filters served i mark pages ls ps := by
  induction fuel generalizing i start mark pages with
  | zero => cases hfollow
  | succ fuel ih =>
    rcases read_spec h hstart (hkind i) with ⟨l, hsorted, hl, hread⟩ | herror
    swap
    · rw [follow_error herror] at hfollow
      cases hfollow
    have hpage : PageOf family params kind filters mark l (pageAt family params filters mark l) :=
      pageAt_spec fun a ha => (hl.placed a ha).1
    generalize pageAt family params filters mark l = page at hread hpage
    rw [follow_step hread] at hfollow
    have hstands := hpage.next.1
    cases hkey : page.lastEvaluatedKey with
    | none =>
      rw [hkey] at hfollow
      obtain rfl : [page] = pages := Option.some.inj (Except.ok.inj hfollow)
      refine ⟨[l], [_], .last (hpage.next.2.1 hkey), fun l' hl' => ?_, ?_, fun page' hpage' => ?_⟩
      · obtain rfl := mem_singleton.1 hl'
        exact ⟨i, le_rfl, by simp, hsorted, hl⟩
      · simpa using hpage.items
      · obtain rfl := mem_singleton.1 hpage'
        exact ⟨_, mem_singleton_self _, hpage.items, hpage.scanned⟩
    | some key =>
      rw [hkey] at hfollow hstands
      dsimp only at hfollow
      obtain ⟨m, hm⟩ := hpage.more hkey
      rw [hm] at hstands
      cases hrest : follow family params served fuel (i + 1) (some key) with
      | error e =>
        rw [hrest] at hfollow
        cases hfollow
      | ok rest =>
        rw [hrest] at hfollow
        obtain ⟨pages', rfl, rfl⟩ := map_eq_some_iff.1 (Except.ok.inj hfollow)
        obtain ⟨ls, ps, hreads, hlists, hitems, hpages⟩ := ih hstands hrest
        refine ⟨l :: ls, _ :: ps, .more hm hreads, fun l' hl' => ?_, ?_, fun page' hpage' => ?_⟩
        · rcases mem_cons.1 hl' with rfl | hl'
          · exact ⟨i, le_rfl, by simp, hsorted, hl⟩
          · obtain ⟨j, hij, hj, hjspec⟩ := hlists l' hl'
            refine ⟨j, by omega, ?_, hjspec⟩
            rw [length_cons]
            omega
        · rw [flatMap_cons, hitems, hpage.items, flatten_cons, kept, kept, kept,
            filter_append]
        · rcases mem_cons.1 hpage' with rfl | hpage'
          · exact ⟨_, mem_cons_self, hpage.items, hpage.scanned⟩
          · obtain ⟨p, hp, hspec⟩ := hpages page' hpage'
            exact ⟨p, mem_cons_of_mem _ hp, hspec⟩

theorem sameKey_iff {a b : Item} :
    sameKey family a b = true ↔ normList (keyOf family a) = normList (keyOf family b) := pyEqList_iff _ _

theorem sameIndex_iff {a b : Item} : SameIndex params a b ↔
    ∀ i ∈ params.index, norm ((get a i.order).getD .none) = norm ((get b i.order).getD .none) :=
  forall₂_congr fun _ _ => pyEq_iff _ _

section Listed

variable {l : List Item} {a b : Item}

theorem Listed.unique (h : Listed family params conditions kind records l) (ha : a ∈ l) (hb : b ∈ l)
    (hkey : sameKey family a b = true) : a = b := by
  have hnodup : (l.map fun s => normList (keyOf family s)).Nodup :=
    pairwise_map.2 (h.distinct.imp fun hab heq => by simp [(pyEqList_iff _ _).2 heq] at hab)
  exact inj_on_of_nodup_map hnodup ha hb (sameKey_iff.1 hkey)

/-- A list holds what its snapshot offers. -/
theorem Listed.finds (h : Listed family params conditions kind records l)
    (hoffers : Offers family params conditions filters records item) :
    ∃ s ∈ l, sameKey family s item = true ∧ SameIndex params s item ∧ filters.all fun c => c.holds s := by
  obtain ⟨row, hrow, hindexed, hkept, hkey, hindex⟩ := hoffers
  obtain ⟨s, hs, hskey, hsame⟩ := h.covers row hrow hindexed
  refine ⟨s, hs, ?_, ?_, ?_⟩
  · exact sameKey_iff.2 ((sameKey_iff.1 hskey).trans (sameKey_iff.1 hkey))
  · rw [sameIndex_iff] at hindex ⊢
    intro i hi
    rw [← hindex i hi]
    have hget := pyEqDict_get hsame i.order
    cases hv : get s i.order <;> cases hv' : get row i.order <;> simp_all
  · refine all_eq_true.2 fun c hc => ?_
    rw [Clause.holds_congr hsame]
    exact all_eq_true.1 hkept c hc

end Listed

namespace Followed

variable {served : ℕ → List (Record family)} {pages : List Page} {ls ps : List (List Item)}

theorem sorted_lists {i : ℕ} (h : Followed family params kind conditions filters served i mark pages ls ps) :
    ∀ l ∈ ls, Cursor.Sorted (ahead params.descending) (place family params.index) l := by
  intro l hl
  obtain ⟨j, -, -, -, hlisted⟩ := h.lists l hl
  exact hlisted.sorted

/-- Everything read stands in the list of one of the pages. -/
theorem listed (h : Followed family params kind conditions filters served 0 mark pages ls ps) {a : Item}
    (ha : a ∈ ps.flatten) : ∃ l ∈ ls, ∃ j < pages.length,
      Listed family params conditions kind (served j) l ∧ a ∈ l := by
  obtain ⟨-, l, hl, hal⟩ := h.reads.beyond h.sorted_lists a ha
  obtain ⟨j, -, hj, -, hlisted⟩ := h.lists l hl
  exact ⟨l, hl, j, by omega, hlisted, hal⟩

theorem placed (h : Followed family params kind conditions filters served 0 mark pages ls ps) {a : Item}
    (ha : a ∈ ps.flatten) : Placed family params.index kind a := by
  obtain ⟨l, -, j, -, hlisted, hal⟩ := h.listed ha
  exact (hlisted.placed a hal).1

section

variable (h : Followed family params kind conditions filters served 0 Option.none pages ls ps)
include h

/-- What every page's snapshot offers under one key and index attribute is returned once. -/
theorem once
    (hlimit : 1 ≤ params.limit)
    (hoffers : ∀ i < pages.length, Offers family params conditions filters (served i) item) :
    ((pages.flatMap Page.items).filter fun a => sameKey family a item).length = 1 := by
  -- in each page's list the item that carries the key stands at one place
  have hfinds : ∀ l ∈ ls, ∃ s ∈ l, Placed family params.index kind s ∧ sameKey family s item = true ∧
      SameIndex params s item ∧ filters.all fun c => c.holds s := fun l hl => by
    obtain ⟨j, -, hj, -, hlisted⟩ := h.lists l hl
    obtain ⟨s, hs, hspec⟩ := hlisted.finds (hoffers j (by omega))
    exact ⟨s, hs, (hlisted.placed s hs).1, hspec⟩
  have hplace : ∀ s s', Placed family params.index kind s → Placed family params.index kind s' →
      sameKey family s item = true → sameKey family s' item = true → SameIndex params s item →
      SameIndex params s' item → place family params.index s = place family params.index s' :=
    fun s s' hs hs' hkey hkey' hindex hindex' => by
      rw [sameKey_iff] at hkey hkey'
      rw [sameIndex_iff] at hindex hindex'
      exact hs.place_of_key hs' (sameKey_iff.2 (hkey.trans hkey'.symm))
        fun i hi => (pyEq_iff _ _).2 ((hindex i hi).trans (hindex' i hi).symm)
  obtain ⟨l₀, hl₀⟩ := h.reads.nonempty
  obtain ⟨s₀, -, hs₀, hkey₀, hindex₀, -⟩ := hfinds l₀ hl₀
  -- whatever is read with the key is the item of its list
  have hread : ∀ b ∈ ps.flatten, sameKey family b item = true →
      place family params.index b = place family params.index s₀ := fun b hb hkey => by
    obtain ⟨l, hl, j, hj, hlisted, hbl⟩ := h.listed hb
    obtain ⟨s, hs, hplaced, hskey, hsindex, -⟩ := hfinds l hl
    obtain rfl := hlisted.unique hbl hs (sameKey_iff.2 ((sameKey_iff.1 hkey).trans (sameKey_iff.1 hskey).symm))
    exact hplace b s₀ hplaced hs₀ hskey hkey₀ hsindex hindex₀
  -- and whatever is read at the place has the key and passes the filter
  have hat : ∀ b ∈ ps.flatten, place family params.index b = place family params.index s₀ →
      sameKey family b item = true ∧ filters.all fun c => c.holds b := fun b hb heq => by
    obtain ⟨l, hl, j, hj, hlisted, hbl⟩ := h.listed hb
    obtain ⟨s, hs, hplaced, hskey, hsindex, hkept⟩ := hfinds l hl
    have hsame := (hlisted.placed b hbl).1.key_of_place hplaced
      (heq.trans (hplace s₀ s hs₀ hplaced hkey₀ hskey hindex₀ hsindex))
    obtain rfl := hlisted.unique hbl hs hsame
    exact ⟨hskey, hkept⟩
  obtain ⟨a, ha, haplace⟩ := h.reads.finds hlimit h.sorted_lists (p := place family params.index s₀)
    (fun _ hm => nomatch hm) fun l hl => by
      obtain ⟨s, hs, hplaced, hskey, hsindex, -⟩ := hfinds l hl
      exact ⟨s, hs, hplace s s₀ hplaced hs₀ hskey hkey₀ hsindex hindex₀⟩
  have hnodup : ((kept filters ps.flatten).map (place family params.index)).Nodup :=
    pairwise_map.2 (((h.reads.sorted h.sorted_lists).filter _).imp ahead_ne)
  rw [h.items, filter_eq_singleton hnodup (mem_filter.2 ⟨ha, (hat a ha haplace).2⟩), length_singleton]
  intro b hb
  have hb := mem_of_mem_filter hb
  rw [haplace]
  exact ⟨hread b hb, fun heq => (hat b hb heq).1⟩

/-- A key is returned again only where its index attribute has changed. -/
theorem moved :
    (pages.flatMap Page.items).Pairwise fun a b => sameKey family a b → ¬ SameIndex params a b := by
  rw [h.items]
  refine ((h.reads.sorted h.sorted_lists).filter _).imp_of_mem fun {a b} ha hb hab hkey hindex => ?_
  have ha := h.placed (mem_of_mem_filter ha)
  have hb := h.placed (mem_of_mem_filter hb)
  exact ahead_ne hab (ha.place_of_key hb hkey hindex)

theorem ordered :
    (pages.flatMap Page.items).Pairwise (Before family params) := by
  rw [h.items]
  refine ((h.reads.sorted h.sorted_lists).filter _).imp_of_mem fun {a b} ha hb hab => ?_
  have ha := (h.placed (mem_of_mem_filter ha)).ofKinds
  have hb := (h.placed (mem_of_mem_filter hb)).ofKinds
  unfold ahead place at hab
  unfold Before
  cases hd : params.descending <;> rw [hd] at hab
  · exact (pyLtList_eq ha hb).trans (congrArg Except.ok (decide_eq_true hab))
  · exact (pyLtList_eq hb ha).trans (congrArg Except.ok (decide_eq_true hab))

theorem examined :
    ∀ page ∈ pages, page.scannedCount ≤ params.limit ∧ page.items.length ≤ page.scannedCount := by
  intro page hpage
  obtain ⟨p, hp, hitems, hscanned⟩ := h.pages page hpage
  rw [hitems, hscanned]
  exact ⟨h.reads.length_le p hp, length_filter_le _ _⟩

/-- Of rows that stay the same the pages give what one large page gives. -/
theorem unlimited
    (hsupported : Supported params conditions filters) (hsame : ∀ i < pages.length, served i = served 0)
    (limit : ℕ) (hlimit : 1 ≤ limit) (hlarge : (served 0).length ≤ limit) :
    ∃ page, read family { params with limit := limit } Option.none (served 0) = .ok page ∧
      page.lastEvaluatedKey = Option.none ∧ page.items = pages.flatMap Page.items := by
  have hsupported' : Supported { params with limit := limit } conditions filters :=
    ⟨hsupported.condition, hsupported.binds, hsupported.filter, hlimit⟩
  have hlists : ∀ l ∈ ls, sorted family params conditions (served 0) = .ok l ∧
      Listed family params conditions kind (served 0) l := fun l hl => by
    obtain ⟨j, -, hj, hspec⟩ := h.lists l hl
    rwa [hsame j (by omega)] at hspec
  obtain ⟨l, hl⟩ := h.reads.nonempty
  obtain ⟨hsorted, hlisted⟩ := hlists l hl
  have hls : ∀ l' ∈ ls, l' = l := fun l' hl' => Except.ok.inj ((hlists l' hl').1.symm.trans hsorted)
  have hflat := h.reads.same hsupported.limit hlisted.sorted hls
  have hnodup : l.Nodup := hlisted.sorted.imp fun hab heq => ahead_ne hab (congrArg _ heq)
  have hsub : l ⊆ matching params.scope conditions (served 0) := fun a ha => (hlisted.placed a ha).2
  have hrest : (rest (ahead params.descending) (place family params.index) Option.none l).length ≤ limit :=
    calc (rest (ahead params.descending) (place family params.index) Option.none l).length
        ≤ l.length := length_filter_le _ _
      _ ≤ (matching params.scope conditions (served 0)).length := (subperm_of_subset hnodup hsub).length_le
      _ ≤ (served 0).length := by
        rw [matching, length_map]
        exact length_filter_le _ _
      _ ≤ limit := hlarge
  refine ⟨_, read_of_sorted hsupported' .start hsorted fun a ha => (hlisted.placed a ha).1,
    if_neg (not_lt.2 hrest), ?_⟩
  rw [h.items, hflat]
  exact congrArg (kept filters) (take_of_length_le hrest)

end

end Followed

/-! ## The end of a read -/

section Ends

variable {served : ℕ → List (Record family)} {i : ℕ}

section

variable (h : Supported params conditions filters)
include h

/-- A read ends if it does from each cursor that its first page can leave. -/
theorem ends_step (hkind : OneKind params conditions kind (served i))
    (hstart : Stands family params kind start mark)
    (hnext : ∀ l key m, sorted family params conditions (served i) = .ok l →
      Listed family params conditions kind (served i) l →
      next (ahead params.descending) (place family params.index) params.limit mark l = some m →
      Stands family params kind (some key) (some m) → Ends family params served (i + 1) (some key)) :
    Ends family params served i start := by
  rcases read_spec h hstart hkind with ⟨l, hsorted, hl, hread⟩ | herror
  swap
  · exact ⟨1, .inr (follow_error herror)⟩
  have hpage : PageOf family params kind filters mark l (pageAt family params filters mark l) :=
    pageAt_spec fun a ha => (hl.placed a ha).1
  generalize pageAt family params filters mark l = page at hread hpage
  cases hkey : page.lastEvaluatedKey with
  | none =>
    refine ⟨1, .inl ⟨[page], ?_⟩⟩
    rw [follow_step hread, hkey]
  | some key =>
    obtain ⟨m, hm⟩ := hpage.more hkey
    have hstands := hpage.next.1
    rw [hkey, hm] at hstands
    obtain ⟨fuel, hends⟩ := hnext l key m hsorted hl hm hstands
    refine ⟨fuel + 1, ?_⟩
    rw [follow_step hread, hkey]
    dsimp only
    rcases hends with ⟨pages, hpages⟩ | herror
    · exact .inl ⟨page :: pages, by rw [hpages]; rfl⟩
    · exact .inr (by rw [herror]; rfl)

/-- Once publications stop, less is left after each page. -/
theorem ends_of_stopped
    (hkind : ∀ i, OneKind params conditions kind (served i)) {N : ℕ} (hstop : ∀ i ≥ N, served i = served N)
    (hi : N ≤ i) (hstart : Stands family params kind start mark) : Ends family params served i start := by
  rcases sorted_spec (hkind N) with ⟨l, hsorted, hl⟩ | herror
  swap
  · refine ends_step h (hkind i) hstart fun l key m hsorted => ?_
    rw [hstop i hi, herror] at hsorted
    cases hsorted
  -- by induction on what is left of the list beyond the cursor
  induction hleft : (rest (ahead params.descending) (place family params.index) mark l).length
    using Nat.strong_induction_on generalizing i start mark with
  | _ left ih =>
    refine ends_step h (hkind i) hstart fun l' key m hsorted' _ hm hstands => ?_
    rw [hstop i hi, hsorted] at hsorted'
    obtain rfl := Except.ok.inj hsorted'
    exact ih _ (hleft ▸ length_rest_next hl.sorted hm) (by omega) hstands rfl

theorem ends (hkind : ∀ i, OneKind params conditions kind (served i))
    {N : ℕ} (hstop : ∀ i ≥ N, served i = served N) (hstart : Stands family params kind start mark) :
    Ends family params served i start := by
  -- by induction on the pages before publications stop
  induction hleft : N - i generalizing i start mark with
  | zero => exact ends_of_stopped h hkind hstop (by omega) hstart
  | succ n ih => exact ends_step h (hkind i) hstart fun _ _ _ _ _ _ hstands => ih hstands (by omega)

end

end Ends

/-! ## The result -/

/-- A supported read, whose index attribute is of one kind in all rows that match, comes to its end when
publications stop, and a read that has ended has paged by position. -/
theorem follow_pages {params : Params} {conditions filters : List Clause} {kind : Kind}
    (served : ℕ → List (Record family)) (h : Supported params conditions filters)
    (hkind : ∀ i, OneKind params conditions kind (served i)) :
    ((∃ N, ∀ i ≥ N, served i = served N) → Ends family params served 0 Option.none) ∧
    ∀ fuel pages, follow family params served fuel 0 Option.none = .ok (some pages) →
      Paged family params conditions filters served pages := by
  refine ⟨fun ⟨N, hstop⟩ => ends h hkind hstop .start, fun fuel pages hfollow => ?_⟩
  obtain ⟨ls, ps, hfollowed⟩ := follow_spec h hkind .start hfollow
  exact ⟨fun item => hfollowed.once h.limit, hfollowed.moved, hfollowed.ordered, hfollowed.examined,
    hfollowed.unlimited h⟩

private def configFamily : Family := ⟨"Delphi_PCAConversationConfig", ("zid", .S), Option.none⟩

private def configRecord (zid : String) (created : PyValue) : Record configFamily where
  zid := 1
  scope := "1"
  item := [("created_at", created), ("zid", .str zid)]
  keyed := by
    intro k hk
    obtain rfl : k = ("zid", KeyType.S) := by simpa [Family.key, configFamily] using hk
    exact ⟨.str zid, by simp [get], zid, rfl⟩

/-- A scan by the creation index, one item a page. -/
private def indexScan : Params where
  scope := Option.none
  condition := .none
  key := []
  filter := .none
  names := []
  values := []
  index := some .zid_created_at_index
  descending := false
  limit := 1

private theorem indexScan_supported : Supported indexScan [] [] := ⟨rfl, rfl, rfl, le_rfl⟩

private theorem indexScan_oneKind :
    OneKind indexScan [] .str [configRecord "1" (.str "a"), configRecord "2" (.str "b")] := by
  intro item hitem i hi v hv _
  obtain rfl : Index.zid_created_at_index = i := by simpa [indexScan] using hi
  have hitem : item = (configRecord "1" (.str "a")).item ∨ item = (configRecord "2" (.str "b")).item := by
    simpa [matching, indexScan] using hitem
  rcases hitem with rfl | rfl
  · exact ⟨"a", by simpa [get, configRecord, Index.order] using hv.symm⟩
  · exact ⟨"b", by simpa [get, configRecord, Index.order] using hv.symm⟩

theorem follow_pages_of_texts :
    Ends configFamily indexScan (fun _ => [configRecord "1" (.str "a"), configRecord "2" (.str "b")]) 0
      Option.none :=
  (follow_pages _ indexScan_supported fun _ => indexScan_oneKind).1 ⟨0, fun _ _ => rfl⟩

/-- Python orders sets by inclusion, so of two rows with unrelated sets in the index attribute the second is
neither before nor after the first, and no page returns it. -/
theorem follow_misses_unordered :
    let rows := [configRecord "1" (.strs ["a"]), configRecord "2" (.strs ["b"])]
    let missed := (configRecord "2" (.strs ["b"])).item
    ∃ pages, follow configFamily indexScan (fun _ => rows) 2 0 Option.none = .ok (some pages) ∧
      Offers configFamily indexScan [] [] rows missed ∧
      ((pages.flatMap Page.items).filter fun a => sameKey configFamily a missed).length = 0 := by
  refine ⟨_, rfl, ⟨_, .tail _ (.head _), ?_, rfl, rfl, ?_⟩, rfl⟩
  · rintro _ ⟨⟩
    exact ⟨_, rfl, rfl⟩
  · rintro _ ⟨⟩
    rfl

end Polis.Delphi.Resource
