import Polis.Delphi.WireNumbers

/-!
# Run records are read back, and list their keys in JavaScript's order

A map that was filled by inserting lists its entries in the order of `jsOrder`, whatever order they came in.
A text is decoded to the value that it writes, with the members of every object so ordered, unless a key is
repeated; and the encoding of a value is decoded to it.

Reference: `queue-rs/polis-contracts/src/wire.rs`.
-/

namespace Polis.Wire

open Binary64 JsonText List Option

variable {α β : Type*}
variable {l : List (String × α)}

/-! ## JavaScript's order -/

/-- The place of an array index among the others. -/
def indexOf (e : String × α) : ℕ := (array_index e.1).getD 0

def isIndex (e : String × α) : Bool := (array_index e.1).isSome

/-- Array indices first, ascending, then the other keys as they stand. -/
def jsOrder (l : List (String × α)) : List (String × α) :=
  (l.filter isIndex).insertionSort (fun a b => indexOf a ≤ indexOf b) ++ l.filter (!isIndex ·)

theorem array_index_eq_some {key : String} {n : ℕ} (h : array_index key = some n) :
    key.toList = Nat.toDigits 10 n := by
  unfold array_index at h
  dsimp only at h
  split at h
  · next hcanonical =>
    obtain ⟨hne, hall, hzero, -⟩ := hcanonical
    cases h
    cases hl : key.toList with
    | nil => exact absurd hl hne
    | cons c l =>
      rw [hl] at hall hzero
      rcases hzero with hzero | hzero
      · rw [hzero]
        rfl
      · refine (toDigits_digitsValue (all_eq_true.1 hall) fun hc => hzero ?_).symm
        rw [hc, head?_cons]
  · cases h

/-- No two keys spell the same index. -/
theorem key_eq_of_indexOf {a b : String × α} (ha : isIndex a = true) (hb : isIndex b = true)
    (h : indexOf a = indexOf b) : a.1 = b.1 := by
  obtain ⟨n, hn⟩ := isSome_iff_exists.1 ha
  obtain ⟨m, hm⟩ := isSome_iff_exists.1 hb
  rw [indexOf, indexOf, hn, hm, getD_some, getD_some] at h
  exact String.toList_injective (by rw [array_index_eq_some hn, array_index_eq_some hm, h])

theorem jsOrder_perm (l : List (String × α)) : (jsOrder l).Perm l :=
  ((perm_insertionSort _ _).append_right _).trans (filter_append_perm isIndex l)

theorem filter_insertionSort_index (l : List (String × α)) (r : String × α → String × α → Prop)
    [DecidableRel r] : ((l.filter isIndex).insertionSort r).filter isIndex =
      (l.filter isIndex).insertionSort r := by
  rw [filter_eq_self]
  intro e he
  exact (mem_filter.1 ((mem_insertionSort r).1 he)).2

/-- What is in order stays. -/
theorem jsOrder_jsOrder (l : List (String × α)) : jsOrder (jsOrder l) = jsOrder l := by
  have hfront := filter_insertionSort_index l fun a b => indexOf a ≤ indexOf b
  have hnone : ((l.filter isIndex).insertionSort fun a b => indexOf a ≤ indexOf b).filter (!isIndex ·) = [] := by
    rw [filter_eq_nil_iff]
    intro e he
    simp [(mem_filter.1 ((mem_insertionSort _).1 he)).2]
  have hrest : (l.filter (!isIndex ·)).filter isIndex = [] := by
    rw [List.filter_filter, filter_eq_nil_iff]
    simp
  have hother : (l.filter (!isIndex ·)).filter (!isIndex ·) = l.filter (!isIndex ·) := by
    rw [List.filter_filter]
    simp
  conv_lhs => unfold jsOrder
  rw [jsOrder, filter_append, filter_append, hfront, hnone, hrest, hother, append_nil,
    nil_append, (pairwise_insertionSort _ _).insertionSort_eq]

/-! ## Inserting -/

/-- The state of a map into which the entries of `l` were inserted. -/
structure Holds (m : JsMap α) (l : List (String × α)) : Prop where
  entries : m.entries = jsOrder l
  seen : ∀ key, key ∈ m.seen ↔ key ∈ l.map Prod.fst
  indexed : m.indexed = (l.filter isIndex).length
  distinct : (l.map Prod.fst).Nodup

theorem Holds.new : Holds (JsMap.new (α := α)) [] := ⟨rfl, by simp [JsMap.new], rfl, .nil⟩

/-- An index is put before the first greater one. -/
theorem sort_append {e : String × α} (he : isIndex e = true)
    (hdistinct : ((l ++ [e]).map Prod.fst).Nodup) :
    ((l ++ [e]).filter isIndex).insertionSort (fun a b => indexOf a ≤ indexOf b) =
      ((l.filter isIndex).insertionSort fun a b => indexOf a ≤ indexOf b).orderedInsert
        (fun a b => indexOf a ≤ indexOf b) e := by
  have hfilter : (l ++ [e]).filter isIndex = l.filter isIndex ++ [e] := by
    rw [filter_append, filter_cons_of_pos he, filter_nil]
  have htotal : Std.Total fun a b : String × α => indexOf a ≤ indexOf b :=
    ⟨fun a b => le_total (indexOf a) (indexOf b)⟩
  have htrans : IsTrans (String × α) fun a b => indexOf a ≤ indexOf b := ⟨fun _ _ _ => le_trans⟩
  have hperm : (((l ++ [e]).filter isIndex).insertionSort fun a b => indexOf a ≤ indexOf b).Perm
      (((l.filter isIndex).insertionSort fun a b => indexOf a ≤ indexOf b).orderedInsert
        (fun a b => indexOf a ≤ indexOf b) e) := by
    rw [hfilter]
    refine (perm_insertionSort _ _).trans ((perm_append_singleton _ _).trans ?_)
    exact ((perm_insertionSort _ _).symm.cons e).trans (perm_orderedInsert _ _ _).symm
  refine hperm.eq_of_pairwise ?_ (pairwise_insertionSort _ _)
    ((pairwise_insertionSort _ _).orderedInsert e _)
  intro a b ha hb hab hba
  have hmem : ∀ x ∈ ((l ++ [e]).filter isIndex).insertionSort (fun a b => indexOf a ≤ indexOf b),
      x ∈ l ++ [e] ∧ isIndex x = true := fun x hx => mem_filter.1 ((mem_insertionSort _).1 hx)
  obtain ⟨ha, hia⟩ := hmem a ha
  obtain ⟨hb, hib⟩ := hmem b (hperm.mem_iff.2 hb)
  exact inj_on_of_nodup_map hdistinct ha hb (key_eq_of_indexOf hia hib (le_antisymm hab hba))

/-- The entry goes before the first that does not come earlier. -/
theorem insertIdx_partitionPoint {l r : List (String × α)} {e : String × α} {p : String × α → Bool}
    (hp : ∀ a ∈ l, p a = !decide (indexOf e ≤ indexOf a)) :
    (l ++ r).insertIdx (JsMap.partitionPoint l p) e =
      l.orderedInsert (fun a b => indexOf a ≤ indexOf b) e ++ r := by
  induction l with
  | nil => rfl
  | cons a l ih =>
    have ha := hp a mem_cons_self
    rw [orderedInsert_cons, JsMap.partitionPoint, takeWhile_cons, ha]
    by_cases hle : indexOf e ≤ indexOf a
    · simp [hle]
    · have htail := ih fun b hb => hp b (mem_cons_of_mem _ hb)
      rw [JsMap.partitionPoint] at htail
      simp [hle, htail]

/-- A new key is placed where JavaScript lists it. -/
theorem Holds.insert {m : JsMap α} (h : Holds m l) {key : String}
    (hkey : key ∉ l.map Prod.fst) (value : α) :
    ∃ m', m.insert key value = .ok m' ∧ Holds m' (l ++ [(key, value)]) := by
  have hdistinct : ((l ++ [(key, value)]).map Prod.fst).Nodup := by
    rw [map_append, nodup_append]
    refine ⟨h.distinct, nodup_singleton _, ?_⟩
    rintro a ha b hb rfl
    rw [mem_singleton.1 hb] at ha
    exact hkey ha
  have hseen : ∀ k, k ∈ key :: m.seen ↔ k ∈ (l ++ [(key, value)]).map Prod.fst := by
    intro k
    simp [h.seen k, or_comm]
  unfold JsMap.insert
  rw [if_neg fun hmem => hkey ((h.seen key).1 hmem)]
  cases hindex : array_index key with
  | none =>
    have hnot : isIndex (key, value) = false := by rw [isIndex, hindex]; rfl
    refine ⟨_, rfl, ?_, hseen, ?_, hdistinct⟩
    · dsimp only
      rw [h.entries, jsOrder, jsOrder, filter_append, filter_append,
        filter_cons_of_neg (by rw [hnot]; decide), filter_nil, append_nil,
        filter_cons_of_pos (by rw [hnot]; rfl), filter_nil, append_assoc]
    · dsimp only
      rw [h.indexed, filter_append, filter_cons_of_neg (by rw [hnot]; decide), filter_nil,
        append_nil]
  | some n =>
    have hnot : isIndex (key, value) = true := by rw [isIndex, hindex]; rfl
    have hlen : ((l.filter isIndex).insertionSort fun a b => indexOf a ≤ indexOf b).length = m.indexed := by
      rw [length_insertionSort, h.indexed]
    refine ⟨_, rfl, ?_, hseen, ?_, hdistinct⟩
    · dsimp only
      have htake : m.entries.take m.indexed =
          (l.filter isIndex).insertionSort fun a b => indexOf a ≤ indexOf b := by
        rw [h.entries, jsOrder, ← hlen, take_left]
      have hpoint : ∀ a ∈ (l.filter isIndex).insertionSort (fun a b => indexOf a ≤ indexOf b),
          (array_index a.1).any (· < n) = !decide (indexOf (key, value) ≤ indexOf a) := by
        intro a ha
        obtain ⟨k, hk⟩ := isSome_iff_exists.1
          (mem_filter.1 ((mem_insertionSort _).1 ha)).2
        rw [indexOf, indexOf, hindex, hk, any_some, getD_some, getD_some]
        by_cases hlt : k < n
        · rw [decide_eq_true hlt, decide_eq_false (not_le.2 hlt), Bool.not_false]
        · rw [decide_eq_false hlt, decide_eq_true (not_lt.1 hlt), Bool.not_true]
      rw [htake, h.entries, jsOrder, jsOrder, sort_append hnot hdistinct, filter_append,
        filter_cons_of_neg (by rw [hnot]; decide), filter_nil, append_nil,
        insertIdx_partitionPoint hpoint]
    · dsimp only
      rw [h.indexed, filter_append, filter_cons_of_pos hnot, filter_nil,
        length_append, length_singleton]

theorem Holds.refuse {m : JsMap α} (h : Holds m l) {key : String}
    (hkey : key ∈ l.map Prod.fst) (value : α) : m.insert key value = .error (.duplicateKey key) := by
  rw [JsMap.insert, if_pos ((h.seen key).2 hkey)]

theorem Holds.extend {m : JsMap α} (h : Holds m l) (entries : List (String × α)) :
    (m.extend entries).toOption.map JsMap.entries =
      if ((l ++ entries).map Prod.fst).Nodup then some (jsOrder (l ++ entries)) else none := by
  induction entries generalizing m l with
  | nil =>
    rw [append_nil, if_pos h.distinct, ← h.entries]
    rfl
  | cons e entries ih =>
    rw [JsMap.extend, foldlM_cons]
    by_cases hkey : e.1 ∈ l.map Prod.fst
    · rw [h.refuse hkey, if_neg]
      · rfl
      · intro hnodup
        rw [map_append, nodup_append] at hnodup
        exact hnodup.2.2 e.1 hkey e.1 (by simp) rfl
    · obtain ⟨m', hm', hholds⟩ := h.insert hkey e.2
      rw [hm']
      have := ih hholds
      rwa [append_assoc, singleton_append] at this

/-- Inserting accepts exactly the lists without a repeated key. -/
theorem try_from_entries_eq (l : List (String × α)) :
    (JsMap.try_from_entries l).toOption.map JsMap.entries =
      if (l.map Prod.fst).Nodup then some (jsOrder l) else none :=
  Holds.new.extend l

theorem isRecord_iff {m : List (String × Value)} :
    IsRecord m ↔ ∃ l : List (String × Value), (l.map Prod.fst).Nodup ∧ m = jsOrder l := by
  have htoOption : ∀ {β : Type} (x : Except Invalid β) (y : β), x = .ok y ↔ x.toOption = some y := by
    intro β x y
    cases x with
    | error e => exact iff_of_false nofun nofun
    | ok z => exact ⟨fun h => congrArg some (Except.ok.inj h), fun h => congrArg _ (Option.some.inj h)⟩
  refine exists_congr fun l => ?_
  have hmap : ((JsMap.try_from_entries l).map JsMap.entries).toOption =
      (JsMap.try_from_entries l).toOption.map JsMap.entries := by
    cases JsMap.try_from_entries l <;> rfl
  rw [htoOption, hmap, try_from_entries_eq]
  split
  · next h => exact ⟨fun heq => ⟨h, (Option.some.inj heq).symm⟩, fun heq => congrArg some heq.2.symm⟩
  · next h => exact iff_of_false nofun fun heq => h heq.1

/-! ## The value that is written -/

mutual

/-- The value of a tree, with the members as they are listed. -/
def written : Tree → Option Value
  | .null => some .null
  | .bool b => some (.bool b)
  | .number n => (decodeNumber n).map .number
  | .string s => (decodeString s).map .string
  | .array items => (writtenItems items).map .array
  | .object members => (writtenMembers members).map .object

def writtenItems : List Tree → Option (List Value)
  | [] => some []
  | v :: items => do
    let x ← written v
    let a ← writtenItems items
    pure (x :: a)

def writtenMembers : List (Str × Tree) → Option (List (String × Value))
  | [] => some []
  | (k, v) :: members => do
    let key ← decodeString k
    let value ← written v
    let m ← writtenMembers members
    pure ((key, value) :: m)

end

mutual

/-- No object repeats a key. -/
def distinct : Value → Bool
  | .array a => distinctItems a
  | .object m => (m.map Prod.fst).Nodup && distinctMembers m
  | _ => true

def distinctItems : List Value → Bool
  | [] => true
  | v :: a => distinct v && distinctItems a

def distinctMembers : List (String × Value) → Bool
  | [] => true
  | (_, v) :: m => distinct v && distinctMembers m

end

mutual

/-- Every object in JavaScript's order. -/
def order : Value → Value
  | .array a => .array (orderItems a)
  | .object m => .object (jsOrder (orderMembers m))
  | v => v

def orderItems : List Value → List Value
  | [] => []
  | v :: a => order v :: orderItems a

def orderMembers : List (String × Value) → List (String × Value)
  | [] => []
  | (k, v) :: m => (k, order v) :: orderMembers m

end

theorem orderMembers_eq (m : List (String × Value)) : orderMembers m = m.map (Prod.map id order) := by
  induction m with
  | nil => rfl
  | cons p m ih =>
    rw [orderMembers, ih]
    rfl

theorem orderItems_eq (a : List Value) : orderItems a = a.map order := by
  induction a with
  | nil => rfl
  | cons v a ih => rw [orderItems, ih, map_cons]

theorem map_fst_orderMembers (m : List (String × Value)) : (orderMembers m).map Prod.fst = m.map Prod.fst := by
  rw [orderMembers_eq, List.map_map]
  rfl

/-! ## Decoding -/

/-- What the decoder makes of a value that is written. -/
def accepted (w : Value) : Option Value := if distinct w then some (order w) else none

theorem decodeItems_eq {items : List Tree} (ih : ∀ t ∈ items, decodeTree t = (written t).bind accepted) :
    decodeItems items = (writtenItems items).bind fun a =>
      if distinctItems a then some (orderItems a) else none := by
  induction items with
  | nil => rfl
  | cons t items ih' =>
    rw [decodeItems, writtenItems, ih t mem_cons_self,
      ih' fun u hu => ih u (mem_cons_of_mem _ hu)]
    cases written t with
    | none => rfl
    | some w =>
      cases writtenItems items with
      | none => cases h : distinct w <;> simp [accepted, h]
      | some a => cases h : distinct w <;> cases h' : distinctItems a <;>
          simp [accepted, distinctItems, orderItems, h, h']

/-- The members are inserted one by one, in the order of the text. -/
theorem decodeMembers_eq {members : List (Str × Tree)}
    (ih : ∀ e ∈ members, decodeTree e.2 = (written e.2).bind accepted) {m : JsMap Value}
    {l : List (String × Value)} (hm : Holds m l) :
    (decodeMembers members m).map JsMap.entries = (writtenMembers members).bind fun ms =>
      if distinctMembers ms ∧ ((l ++ ms).map Prod.fst).Nodup then some (jsOrder (l ++ orderMembers ms))
      else none := by
  induction members generalizing m l with
  | nil =>
    have hcond : distinctMembers [] = true ∧ ((l ++ []).map Prod.fst).Nodup := by
      rw [append_nil]
      exact ⟨rfl, hm.distinct⟩
    rw [decodeMembers, writtenMembers, bind_some, if_pos hcond, orderMembers, append_nil,
      map_some, hm.entries]
  | cons e members ih' =>
    obtain ⟨k, t⟩ := e
    have ih' := fun {m l} => ih' (fun e he => ih e (mem_cons_of_mem _ he)) (m := m) (l := l)
    rw [decodeMembers, writtenMembers, ih (k, t) mem_cons_self]
    cases decodeString k with
    | none => rfl
    | some key =>
      cases written t with
      | none => rfl
      | some w =>
        simp only [bind_eq_bind, bind_some, accepted]
        by_cases hw : distinct w = true
        · rw [if_pos hw, bind_some]
          by_cases hkey : key ∈ l.map Prod.fst
          · rw [hm.refuse hkey]
            cases writtenMembers members with
            | none => rfl
            | some ms =>
              have hnot : ¬((l ++ (key, w) :: ms).map Prod.fst).Nodup := by
                intro hnodup
                rw [map_append, nodup_append] at hnodup
                exact hnodup.2.2 key hkey key (by simp) rfl
              simp only [Except.toOption, bind_none, map_none, bind_some,
                Option.pure_def, if_neg fun h => hnot (And.right h)]
          · obtain ⟨m', hm', hholds⟩ := hm.insert hkey (order w)
            rw [hm']
            refine (ih' hholds).trans ?_
            cases writtenMembers members with
            | none => rfl
            | some ms => simp [distinctMembers, orderMembers, hw]
        · rw [if_neg hw, bind_none]
          cases writtenMembers members with
          | none => rfl
          | some ms => simp [distinctMembers, hw]

/-- A tree is decoded to the value it writes with the keys in order, unless one is repeated. -/
theorem decodeTree_eq (t : Tree) : decodeTree t = (written t).bind accepted := by
  induction t using Tree.induct with
  | null => rfl
  | bool b => rfl
  | number n =>
    rw [decodeTree, written]
    cases decodeNumber n <;> rfl
  | string s =>
    rw [decodeTree, written]
    cases decodeString s <;> rfl
  | array items ih =>
    rw [decodeTree, written, decodeItems_eq ih]
    cases writtenItems items with
    | none => rfl
    | some a => cases h : distinctItems a <;> simp [accepted, distinct, order, h]
  | object members ih =>
    have hmembers := decodeMembers_eq ih Holds.new
    simp only [nil_append] at hmembers
    have hmap : decodeTree (.object members) =
        ((decodeMembers members .new).map JsMap.entries).map .object := by
      rw [decodeTree, Option.map_map]
      rfl
    rw [hmap, hmembers, written]
    cases writtenMembers members with
    | none => rfl
    | some ms =>
      simp only [bind_some, map_some, accepted, distinct, order, Bool.and_eq_true,
        decide_eq_true_eq]
      by_cases h : distinctMembers ms = true ∧ (ms.map Prod.fst).Nodup
      · rw [if_pos h, if_pos h.symm, map_some]
      · rw [if_neg h, if_neg fun h' => h h'.symm, map_none]

/-! ## The values of the type -/

theorem madeItems_iff (a : List Value) : MadeItems a ↔ ∀ v ∈ a, Made v := by
  induction a with
  | nil => simp [MadeItems]
  | cons v a ih => rw [MadeItems, ih, forall_mem_cons]

theorem madeMembers_iff (m : List (String × Value)) : MadeMembers m ↔ ∀ p ∈ m, Made p.2 := by
  induction m with
  | nil => simp [MadeMembers]
  | cons p m ih => rw [MadeMembers, ih, forall_mem_cons]

theorem distinctItems_iff (a : List Value) : distinctItems a = true ↔ ∀ v ∈ a, distinct v = true := by
  induction a with
  | nil => simp [distinctItems]
  | cons v a ih => rw [distinctItems, Bool.and_eq_true, ih, forall_mem_cons]

theorem distinctMembers_iff (m : List (String × Value)) :
    distinctMembers m = true ↔ ∀ p ∈ m, distinct p.2 = true := by
  induction m with
  | nil => simp [distinctMembers]
  | cons p m ih => rw [distinctMembers, Bool.and_eq_true, ih, forall_mem_cons]

/-- A value of the type repeats no key and is in order. -/
theorem Made.ordered {v : Value} (h : Made v) : distinct v = true ∧ order v = v := by
  induction v using Json.induct with
  | array a ih =>
    have ha := (madeItems_iff a).1 h
    refine ⟨(distinctItems_iff a).2 fun v hv => (ih v hv (ha v hv)).1, ?_⟩
    rw [order, orderItems_eq, map_congr_left fun v hv => (ih v hv (ha v hv)).2, List.map_id']
  | object m ih =>
    have hm := (madeMembers_iff m).1 h.2
    obtain ⟨l, hl, hml⟩ := isRecord_iff.1 h.1
    have hnodup : (m.map Prod.fst).Nodup := by
      rw [hml]
      exact ((jsOrder_perm l).map _).nodup_iff.2 hl
    refine ⟨?_, ?_⟩
    · rw [distinct, Bool.and_eq_true, decide_eq_true_eq]
      exact ⟨hnodup, (distinctMembers_iff m).2 fun p hp => (ih p hp (hm p hp)).1⟩
    · have hself : orderMembers m = m := by
        rw [orderMembers_eq]
        refine (map_congr_left fun p hp => ?_).trans (map_id m)
        rw [Prod.map, (ih p hp (hm p hp)).2]
        rfl
      rw [order, hself, hml, jsOrder_jsOrder]
  | _ => exact ⟨rfl, rfl⟩

/-- The decoder makes values of the type. -/
theorem made_order {w : Value} (h : distinct w = true) : Made (order w) := by
  induction w using Json.induct with
  | array a ih =>
    have ha := (distinctItems_iff a).1 h
    rw [order, orderItems_eq]
    refine (madeItems_iff _).2 fun v hv => ?_
    obtain ⟨w, hw, rfl⟩ := mem_map.1 hv
    exact ih w hw (ha w hw)
  | object m ih =>
    rw [distinct, Bool.and_eq_true, decide_eq_true_eq] at h
    have hm := (distinctMembers_iff m).1 h.2
    rw [order]
    refine ⟨isRecord_iff.2 ⟨orderMembers m, by rw [map_fst_orderMembers]; exact h.1, rfl⟩, ?_⟩
    refine (madeMembers_iff _).2 fun p hp => ?_
    have hp' := (jsOrder_perm _).mem_iff.1 hp
    rw [orderMembers_eq] at hp'
    obtain ⟨q, hq, rfl⟩ := mem_map.1 hp'
    exact ih q hq (hm q hq)
  | _ => exact trivial

/-! ## The round trip -/

theorem decodeString_pieces (s : String) : decodeString (pieces s) = some s := by
  rw [decodeString, decode_pieces, Except.toOption, map_some, String.ofList_toList]

/-- The text of a value writes that value. -/
theorem written_tree (v : Value) : written (tree spell v) = some v := by
  induction v using Json.induct with
  | null => rfl
  | bool b => rfl
  | number x => rw [tree, written, decodeNumber_spell, map_some]
  | string s => rw [tree, written, decodeString_pieces, map_some]
  | array a ih =>
    have hitems : writtenItems (a.map (tree spell)) = some a := by
      induction a with
      | nil => rfl
      | cons v a ih' =>
        rw [map_cons, writtenItems, ih v mem_cons_self,
          ih' fun w hw => ih w (mem_cons_of_mem _ hw)]
        rfl
    rw [tree, treeItems_eq, written, hitems, map_some]
  | object m ih =>
    have hmembers : writtenMembers (m.map fun p => (pieces p.1, tree spell p.2)) = some m := by
      induction m with
      | nil => rfl
      | cons p m ih' =>
        rw [map_cons, writtenMembers, decodeString_pieces, ih p mem_cons_self,
          ih' fun q hq => ih q (mem_cons_of_mem _ hq)]
        rfl
    rw [tree, treeMembers_eq, written, hmembers, map_some]

/-- The value that a text writes, with the members as they are listed. -/
def read (text : List Char) : Option Value := (parse text).bind written

theorem read_encode (v : Value) : read (encode v) = some v := by
  rw [read, encode, spelled.parse_text, bind_some, written_tree]

theorem decode_eq (text : List Char) :
    decode text = (parse text).bind fun t =>
      if maxDepth < t.depth then none else (written t).bind accepted := by
  unfold decode
  simp only [decodeTree_eq]
  rfl

theorem decode_encode {v : Value} (hv : Made v) :
    decode (encode v) = if maxDepth < depth v then none else some v := by
  rw [decode_eq, encode, spelled.parse_text, bind_some, depth_tree, written_tree, bind_some,
    accepted, if_pos hv.ordered.1, hv.ordered.2]

theorem decode_eq_some {text : List Char} {v : Value} (h : decode text = some v) :
    ∃ w, read text = some w ∧ distinct w = true ∧ v = order w := by
  rw [decode_eq] at h
  obtain ⟨t, ht, h⟩ := bind_eq_some_iff.1 h
  split at h
  · cases h
  · obtain ⟨w, hw, h⟩ := bind_eq_some_iff.1 h
    unfold accepted at h
    split at h
    · next hdistinct =>
      refine ⟨w, ?_, hdistinct, (Option.some.inj h).symm⟩
      rw [read, ht, bind_some, hw]
    · cases h

theorem decode_repeated {text : List Char} {w : Value} (h : read text = some w)
    (hw : distinct w = false) : decode text = none := by
  obtain ⟨t, ht, h⟩ := bind_eq_some_iff.1 h
  rw [decode_eq, ht, bind_some, h, bind_some, accepted, hw]
  split <;> rfl

/-! ## The codec -/

/-- `js_number` lays the shortest digits of a double out as ECMAScript does, and loses none of them. -/
structure WrittenAsInJavaScript (x : JsNumber) : Prop where
  zero : x.value = 0 → js_number x = ['0']
  digits : x.value ≠ 0 → ∃ s j, Shortest |x.value| s j ∧
    js_number x = (if x.value < 0 then ['-'] else []) ++ textOf s j ∧
    ∃ N, readNumber (js_number x) = some N ∧ N.value = (if x.value < 0 then -1 else 1) * (s * 10 ^ j)
  fastPath : x.value.den = 1 → |x.value| ≤ maxSafeInteger → (toString x.value.num).toList = js_number x

theorem writtenAsInJavaScript (x : JsNumber) : WrittenAsInJavaScript x where
  zero := js_number_zero x
  digits h := by
    obtain ⟨s, j, hspec, htext⟩ := js_number_spec x h
    obtain ⟨N, hread, hval⟩ := readNumber_textOf (decide (x.value < 0)) hspec.pos j
    simp only [decide_eq_true_eq] at hread hval
    exact ⟨s, j, hspec, htext, N, by rw [htext, hread], hval⟩
  fastPath := fastPath x

/-- A value nested at most as deep as `serde_json` reads is decoded from its encoding. A text is decoded to
the value it writes, with the keys of every object in JavaScript's order, in which the encoding lists them;
a repeated key is refused. Numbers are written as ECMAScript prescribes. -/
theorem wire_codec :
    (∀ v, Made v → depth v ≤ maxDepth → decode (encode v) = some v) ∧
    (∀ text v, decode text = some v → Made v ∧ read (encode v) = some v ∧
      ∃ w, read text = some w ∧ distinct w = true ∧ v = order w) ∧
    (∀ text w, read text = some w → distinct w = false → decode text = none) ∧
    (∀ digits e, Digits digits → digits ≠ [] → -2 ^ 63 ≤ e → e < 2 ^ 63 →
      layout (lowerExp digits e) = numberToString digits (e + 1)) ∧
    ∀ x, WrittenAsInJavaScript x := by
  refine ⟨?roundTrip, ?keys, fun text w => decode_repeated, fun digits e => layout_lowerExp,
    writtenAsInJavaScript⟩
  case roundTrip =>
    intro v hv hdepth
    rw [decode_encode hv, if_neg (not_lt.2 hdepth)]
  case keys =>
    intro text v h
    obtain ⟨w, hw, hdistinct, rfl⟩ := decode_eq_some h
    exact ⟨made_order hdistinct, read_encode _, w, hw, hdistinct, rfl⟩

private theorem isDouble_half : IsDouble (3 / 2) := by
  refine ⟨3, -1, by norm_num, by norm_num, by norm_num, ?_⟩
  rw [abs_of_pos (by norm_num)]
  exact lt_of_lt_of_le (by norm_num) (pow_le_pow_right₀ one_le_two (by norm_num : 1 ≤ 1024))

/-- A record with an index among its keys. -/
private def sampleRecord : Value :=
  .object [("7", .bool true), ("a", .array [.number ⟨3 / 2, isDouble_half⟩])]

private theorem sampleRecord_made : Made sampleRecord :=
  ⟨⟨[("a", .array [.number ⟨3 / 2, isDouble_half⟩]), ("7", .bool true)], rfl⟩, trivial, ⟨trivial, trivial⟩,
    trivial⟩

/-- The text of an object with one key twice. -/
private def repeatedText : List Char :=
  ['\x7b', '"', 'a', '"', ':', 'n', 'u', 'l', 'l', ',', '"', 'a', '"', ':', '[', ']', '\x7d']

theorem wire_codec_sample : decode (encode sampleRecord) = some sampleRecord ∧ Made sampleRecord ∧
    decode repeatedText = none ∧ layout (lowerExp ['1', '5'] (-7)) = ['1', '.', '5', 'e', '-', '7'] := by
  have hread := wire_codec.1 sampleRecord sampleRecord_made (by decide)
  have hrepeated := wire_codec.2.2.1 repeatedText
    (.object [(String.ofList ['a'], .null), (String.ofList ['a'], .array [])]) rfl rfl
  have hlayout := wire_codec.2.2.2.1 ['1', '5'] (-7) (by decide) (by decide) (by decide) (by decide)
  exact ⟨hread, (wire_codec.2.1 _ _ hread).1, hrepeated, hlayout.trans (by decide)⟩

/-- Arrays within arrays. -/
private def nested : ℕ → Value
  | 0 => .null
  | n + 1 => .array [nested n]

private theorem nested_spec (n : ℕ) : Made (nested n) ∧ depth (nested n) = n := by
  induction n with
  | zero => exact ⟨trivial, rfl⟩
  | succ n ih => exact ⟨⟨ih.1, trivial⟩, by rw [nested, depth, depthItems, depthItems, ih.2, Nat.max_zero]⟩

/-- A value of 128 levels is written but not read back. -/
theorem nested_not_read : Made (nested 128) ∧ decode (encode (nested 128)) = none := by
  obtain ⟨hmade, hdepth⟩ := nested_spec 128
  exact ⟨hmade, by rw [decode_encode hmade, hdepth]; rfl⟩

end Polis.Wire
