import Polis.Common.Decimal
import Mathlib.Data.List.Pairwise
import Mathlib.Data.List.Nodup

/-!
# Objects in the order of JavaScript

An object lists its array-index keys first, in ascending order, and then its other keys in the order in
which they were created. Calls that assign and delete keep this order: the object is at all times the one
that a dictionary in the order of creation is listed as.

Reference: `queue-rs/polis-api/src/js.rs`.
-/

namespace Polis.Js

open List

variable {α : Type*}

/-- The index of a key that is the decimal spelling of a number up to `2 ^ 32 - 2`. -/
def array_index (key : String) : Option ℕ :=
  let bytes := key.toList
  if bytes = [] ∨ 10 < bytes.length ∨ ¬bytes.all Char.isDigit then none
  else if 1 < bytes.length ∧ bytes.head? = some '0' then none
  else if digitsValue bytes ≤ 4294967294 then some (digitsValue bytes)
  else none

/-- The entries of an object. -/
abbrev Obj (α : Type*) := List (String × α)

namespace Obj

def keys (o : Obj α) : List String := o.map Prod.fst

/-- `*slot = value`, for the first entry of a key. -/
def assignSlot : Obj α → String → α → Obj α
  | [], _, _ => []
  | p :: o, key, value => if p.1 = key then (p.1, value) :: o else p :: assignSlot o key value

/-- An entry that a new array index comes after. -/
def below (index : ℕ) (p : String × α) : Bool := (array_index p.1).any (· ≤ index)

/-- `obj[key] = value` -/
def set (o : Obj α) (key : String) (value : α) : Obj α :=
  if key ∈ o.keys then o.assignSlot key value
  else match array_index key with
    -- The position is that of the first entry that has no index or a larger one.
    | some index => o.takeWhile (below index) ++ (key, value) :: o.dropWhile (below index)
    | none => o ++ [(key, value)]

/-- `delete obj[key]` -/
def remove (o : Obj α) (key : String) : Obj α := o.eraseP (·.1 = key)

/-- `Object.assign(self, other)` -/
def assign (o other : Obj α) : Obj α := other.foldl (fun o p => o.set p.1 p.2) o

end Obj

/-! ## Array indices -/

theorem array_index_eq_some {key : String} {n : ℕ} (h : array_index key = some n) :
    ∃ c l, key.toList = c :: l ∧ Digits (c :: l) ∧ (c = '0' → l = []) ∧ n = digitsValue (c :: l) := by
  unfold array_index at h
  simp only at h
  split_ifs at h with h1 h2 h3
  obtain ⟨hne, -, hdigits⟩ := not_or.1 h1 |>.imp id not_or.1
  rw [not_not] at hdigits
  obtain ⟨c, l, hkey⟩ := exists_cons_of_ne_nil hne
  rw [hkey] at h hdigits h2
  refine ⟨c, l, hkey, all_eq_true.1 hdigits, fun hc => ?_, (Option.some.inj h).symm⟩
  rw [length_cons, head?_cons, hc] at h2
  exact length_eq_zero_iff.1 (by simpa using h2)

/-- A number is spelled in one way. -/
theorem array_index_inj {k k' : String} {n : ℕ} (h : array_index k = some n) (h' : array_index k' = some n) :
    k = k' := by
  have spelled : ∀ {key : String}, array_index key = some n → key.toList = Nat.toDigits 10 n := by
    intro key hkey
    obtain ⟨c, l, htext, hdigits, hzero, rfl⟩ := array_index_eq_some hkey
    rw [htext]
    by_cases hc : c = '0'
    · rw [hzero hc, hc]
      rfl
    · exact (toDigits_digitsValue hdigits hc).symm
  exact String.toList_injective ((spelled h).trans (spelled h').symm)

/-! ## The order of the entries -/

/-- An entry with an array index comes before those with a larger one and those that have none. -/
def Before (p q : String × α) : Prop :=
  match array_index p.1, array_index q.1 with
  | some i, some j => i < j
  | some _, none => True
  | none, some _ => False
  | none, none => True

def Unindexed (p : String × α) : Bool := (array_index p.1).isNone

/-- An object lists the entries of a dictionary: those with an array index first and in ascending order, and
then the others as the dictionary has them. -/
structure Listed (created o : Obj α) : Prop where
  nodup : created.keys.Nodup
  perm : o.Perm created
  before : o.Pairwise Before
  unindexed : o.filter Unindexed = created.filter Unindexed

variable {created o o' : Obj α} {p q : String × α} {key : String} {value : α}

theorem before_iff_of_index {i : ℕ} (hp : array_index p.1 = some i) :
    Before p q ↔ ∀ j, array_index q.1 = some j → i < j := by
  unfold Before
  rw [hp]
  cases array_index q.1 <;> simp

theorem before_iff_of_unindexed (hp : array_index p.1 = none) : Before p q ↔ array_index q.1 = none := by
  unfold Before
  rw [hp]
  cases array_index q.1 <;> simp

theorem before_congr {p' q' : String × α} (hp : p.1 = p'.1) (hq : q.1 = q'.1) : Before p q ↔ Before p' q' := by
  rw [Before, Before, hp, hq]

theorem Listed.nodup' (h : Listed created o) : o.keys.Nodup := (h.perm.map _).nodup_iff.2 h.nodup

theorem Listed.mem_keys (h : Listed created o) : key ∈ o.keys ↔ key ∈ created.keys := (h.perm.map _).mem_iff

/-- The order leaves one way to list a dictionary. -/
theorem Listed.unique (h : Listed created o) (h' : Listed created o') : o = o' := by
  have split : ∀ {o : Obj α}, o.Pairwise Before →
      o.filter (fun p => !Unindexed p) ++ o.filter Unindexed = o := by
    intro o ho
    induction o with
    | nil => rfl
    | cons p o ih =>
      obtain ⟨hp, ho⟩ := pairwise_cons.1 ho
      cases hindex : array_index p.1 with
      | some i =>
        have hun : Unindexed p = false := by rw [Unindexed, hindex]; rfl
        rw [filter_cons_of_pos (by rw [hun]; rfl), filter_cons_of_neg (by rw [hun]; simp),
          cons_append, ih ho]
      | none =>
        have hall : ∀ q ∈ p :: o, Unindexed q = true := by
          intro q hq
          rcases mem_cons.1 hq with rfl | hq
          · rw [Unindexed, hindex]; rfl
          · rw [Unindexed, (before_iff_of_unindexed hindex).1 (hp q hq)]; rfl
        rw [filter_eq_nil_iff.2 fun q hq => by simp [hall q hq], filter_eq_self.2 hall]
        rfl
  rw [← split h.before, ← split h'.before, h.unindexed, h'.unindexed]
  congr 1
  refine List.Perm.eq_of_pairwise ?_ (h.before.filter _) (h'.before.filter _)
    ((h.perm.trans h'.perm.symm).filter _)
  intro p q hp hq hpq hqp
  have hindexed : ∀ {r : String × α} {o : Obj α}, r ∈ o.filter (fun p => !Unindexed p) →
      ∃ i, array_index r.1 = some i := fun hr => by
    have := (mem_filter.1 hr).2
    rw [Unindexed, Bool.not_eq_true'] at this
    exact Option.isSome_iff_exists.1 (by rw [← Option.not_isNone, this]; rfl)
  obtain ⟨i, hi⟩ := hindexed hp
  obtain ⟨j, hj⟩ := hindexed hq
  have hij := (before_iff_of_index hi).1 hpq j hj
  have hji := (before_iff_of_index hj).1 hqp i hi
  omega

/-! ## Calls keep the order -/

namespace Obj

/-- The entry of a key in a dictionary, whose entries stay in the order in which their keys were created. -/
def put (d : Obj α) (key : String) (value : α) : Obj α :=
  if key ∈ d.keys then d.assignSlot key value else d ++ [(key, value)]

def putAll (d other : Obj α) : Obj α := other.foldl (fun d p => d.put p.1 p.2) d

theorem assignSlot_eq_map {o : Obj α} (h : o.keys.Nodup) (key : String) (value : α) :
    o.assignSlot key value = o.map fun p => if p.1 = key then (p.1, value) else p := by
  induction o with
  | nil => rfl
  | cons p o ih =>
    obtain ⟨hp, ho⟩ := nodup_cons.1 h
    rw [assignSlot, map_cons]
    by_cases hkey : p.1 = key
    · have hrest : o.map (fun q => if q.1 = key then (q.1, value) else q) = o := by
        conv_rhs => rw [← map_id o]
        refine map_congr_left fun q hq => if_neg fun heq => hp ?_
        rw [hkey, ← heq]
        exact mem_map_of_mem hq
      rw [if_pos hkey, if_pos hkey, hrest]
    · rw [if_neg hkey, if_neg hkey, ih ho]

theorem remove_eq_filter {o : Obj α} (h : o.keys.Nodup) (key : String) : o.remove key = o.filter (·.1 ≠ key) := by
  induction o with
  | nil => rfl
  | cons p o ih =>
    obtain ⟨hp, ho⟩ := nodup_cons.1 h
    by_cases hkey : p.1 = key
    · rw [remove, eraseP_cons_of_pos (by simpa using hkey), filter_cons_of_neg (by simpa using hkey),
        filter_eq_self.2]
      intro q hq
      refine decide_eq_true fun heq => hp ?_
      rw [hkey, ← heq]
      exact mem_map_of_mem hq
    · rw [remove, eraseP_cons_of_neg (by simpa using hkey), filter_cons_of_pos (by simpa using hkey),
        ← ih ho]
      rfl

end Obj

section Assign

/-- An entry with another value. -/
private def reassign (key : String) (value : α) (p : String × α) : String × α :=
  if p.1 = key then (p.1, value) else p

private theorem reassign_fst : (reassign key value p).1 = p.1 := by
  unfold reassign
  split <;> rfl

theorem Listed.assignSlot (h : Listed created o) (key : String) (value : α) :
    Listed (created.assignSlot key value) (o.assignSlot key value) := by
  have hkeys : ∀ l : Obj α, (l.map (reassign key value)).map Prod.fst = l.map Prod.fst := fun l => by
    rw [map_map]
    exact map_congr_left fun p _ => reassign_fst
  have hfilter : ∀ l : Obj α, (l.map (reassign key value)).filter Unindexed =
      (l.filter Unindexed).map (reassign key value) := fun l => by
    rw [filter_map]
    congr 1
    refine filter_congr fun p _ => ?_
    rw [Function.comp_apply, Unindexed, Unindexed, reassign_fst]
  rw [Obj.assignSlot_eq_map h.nodup, Obj.assignSlot_eq_map h.nodup']
  refine ⟨?_, h.perm.map _, ?_, ?_⟩
  · exact (congrArg List.Nodup (hkeys created)).mpr h.nodup
  · exact pairwise_map.2 (h.before.imp fun hpq => (before_congr reassign_fst reassign_fst).2 hpq)
  · exact (hfilter o).trans (by rw [h.unindexed]; exact (hfilter created).symm)

end Assign

/-- A new array index goes after the smaller ones and before all else. -/
theorem before_insert (ho : o.Pairwise Before) (hnew : key ∉ o.keys) {i : ℕ} (hi : array_index key = some i) :
    (o.takeWhile (Obj.below i) ++ (key, value) :: o.dropWhile (Obj.below i)).Pairwise Before := by
  have hsplit := o.takeWhile_append_dropWhile (p := Obj.below i)
  have hpair := ho
  rw [← hsplit, pairwise_append] at hpair
  obtain ⟨htake, hdrop, hacross⟩ := hpair
  have hafter : ∀ q ∈ o.dropWhile (Obj.below i), Before (key, value) q := by
    intro q hq
    refine (before_iff_of_index hi).2 fun j hj => ?_
    obtain ⟨r, rest, hrest⟩ := exists_cons_of_ne_nil (ne_nil_of_mem hq)
    have hr : Obj.below i r = false := by
      have := head_dropWhile_not (Obj.below i) (l := o) (by rw [hrest]; exact cons_ne_nil r rest)
      simpa only [hrest, head_cons, Bool.not_eq_true] using this
    rw [Obj.below, Option.any_eq_false] at hr
    rw [hrest] at hq hdrop
    rcases mem_cons.1 hq with rfl | hq
    · simpa using hr j hj
    · have hrq := (pairwise_cons.1 hdrop).1 q hq
      cases hindex : array_index r.1 with
      | none => rw [(before_iff_of_unindexed hindex).1 hrq] at hj; cases hj
      | some k =>
        have hik : ¬k ≤ i := by simpa using hr k hindex
        have hkj := (before_iff_of_index hindex).1 hrq j hj
        omega
  refine pairwise_append.2 ⟨htake, pairwise_cons.2 ⟨hafter, hdrop⟩, fun p hp q hq => ?_⟩
  rcases mem_cons.1 hq with rfl | hq
  · have hbelow := mem_takeWhile_imp hp
    obtain ⟨j, hj, hle⟩ := (Option.any_eq_true ..).1 hbelow
    refine (before_iff_of_index hj).2 fun k hk => ?_
    cases hi.symm.trans hk
    have hne : j ≠ i := fun heq => hnew (by
      rw [← array_index_inj (heq ▸ hj) hi]
      exact mem_map_of_mem ((takeWhile_sublist _).subset hp))
    have hle' : j ≤ i := by simpa using hle
    omega
  · exact hacross p hp q hq

theorem Listed.set (h : Listed created o) (key : String) (value : α) :
    Listed (created.put key value) (o.set key value) := by
  unfold Obj.set Obj.put
  by_cases hkey : key ∈ created.keys
  · rw [if_pos hkey, if_pos (h.mem_keys.2 hkey)]
    exact h.assignSlot key value
  have hnew : key ∉ o.keys := fun hmem => hkey (h.mem_keys.1 hmem)
  rw [if_neg hkey, if_neg hnew]
  have hnodup : Obj.keys (created ++ [(key, value)]) |>.Nodup := by
    rw [Obj.keys, map_append]
    exact h.nodup.append (nodup_singleton _) (disjoint_singleton.2 hkey)
  split
  · next i hi =>
    have hun : Unindexed (key, value) = false := by rw [Unindexed, hi]; rfl
    refine ⟨hnodup, ?_, before_insert h.before hnew hi, ?_⟩
    · refine perm_middle.trans ?_
      rw [takeWhile_append_dropWhile]
      exact (h.perm.cons _).trans (perm_append_singleton _ _).symm
    · rw [filter_append, filter_cons_of_neg (by rw [hun]; simp), ← filter_append,
        takeWhile_append_dropWhile, filter_append, filter_cons_of_neg (by rw [hun]; simp),
        filter_nil, append_nil, h.unindexed]
  · next hnone =>
    refine ⟨hnodup, h.perm.append_right _, ?_, ?_⟩
    · refine pairwise_append.2 ⟨h.before, pairwise_singleton .., fun p _ q hq => ?_⟩
      cases mem_singleton.1 hq
      cases hp : array_index p.1 with
      | none => exact (before_iff_of_unindexed hp).2 hnone
      | some i => exact (before_iff_of_index hp).2 fun j hj => by rw [hnone] at hj; cases hj
    · rw [filter_append, filter_append, h.unindexed]

theorem Listed.remove (h : Listed created o) (key : String) : Listed (created.remove key) (o.remove key) := by
  rw [Obj.remove_eq_filter h.nodup, Obj.remove_eq_filter h.nodup']
  refine ⟨h.nodup.sublist (filter_sublist.map _), h.perm.filter _, h.before.filter _, ?_⟩
  rw [filter_filter, filter_filter]
  simp only [Bool.and_comm (Unindexed _)]
  rw [← filter_filter, ← filter_filter, h.unindexed]

theorem Listed.assign (h : Listed created o) (other : Obj α) : Listed (created.putAll other) (o.assign other) := by
  unfold Obj.putAll Obj.assign
  induction other generalizing created o with
  | nil => exact h
  | cons p other ih => exact ih (h.set p.1 p.2)

theorem Listed.nil : Listed ([] : Obj α) [] := ⟨nodup_nil, .nil, .nil, rfl⟩

/-! ## Sequences of calls -/

inductive Op (α : Type*)
  | set (key : String) (value : α)
  | remove (key : String)
  | assign (other : Obj α)

def Op.apply (o : Obj α) : Op α → Obj α
  | .set key value => o.set key value
  | .remove key => o.remove key
  | .assign other => o.assign other

/-- What a call does to the dictionary in the order of creation. -/
def Op.create (d : Obj α) : Op α → Obj α
  | .set key value => d.put key value
  | .remove key => d.remove key
  | .assign other => d.putAll other

theorem listed_run (ops : List (Op α)) : Listed (ops.foldl Op.create []) (ops.foldl Op.apply []) := by
  have hrun : ∀ {d o : Obj α}, Listed d o → Listed (ops.foldl Op.create d) (ops.foldl Op.apply o) := by
    induction ops with
    | nil => exact fun h => h
    | cons op ops ih =>
      intro d o h
      refine ih ?_
      cases op with
      | set key value => exact h.set key value
      | remove key => exact h.remove key
      | assign other => exact h.assign other
  exact hrun .nil

/-- An object that calls build is the list of its own entries. -/
theorem Listed.self (h : Listed created o) : Listed o o := ⟨h.nodup', .refl _, h.before, rfl⟩

/-- Entries with keys of their own are put one after the other. -/
theorem putAll_nil {o : Obj α} (h : o.keys.Nodup) : Obj.putAll [] o = o := by
  have hrun : ∀ d : Obj α, (Obj.keys (d ++ o)).Nodup → d.putAll o = d ++ o := by
    clear h
    induction o with
    | nil => exact fun d _ => (append_nil d).symm
    | cons p o ih =>
      intro d hd
      have hp : p.1 ∉ d.keys := fun hmem => by
        rw [Obj.keys, map_append, map_cons] at hd
        exact (nodup_append.1 hd).2.2 _ hmem _ mem_cons_self rfl
      rw [← singleton_append, ← append_assoc] at hd ⊢
      rw [← ih _ hd, Obj.putAll, singleton_append, foldl_cons, Obj.put, if_neg hp]
      rfl
  exact hrun [] h

end Polis.Js
