import Polis.Common.Decimal
import Polis.Conversation.MathBundle
import Mathlib.Algebra.Order.BigOperators.Group.List
import Mathlib.Data.Int.Interval
import Mathlib.Data.Int.ConditionallyCompleteOrder

/-!
# Which groups are read

`pidsForGid` takes the id of a group for its position, while the engine may leave a gap in the ids. The
answers are right exactly if every group with a participant stands where its id says.

Reference: `server/src/utils/mathBundle.ts`, `queue-rs/polis-api/src/math_bundle.rs`,
`delphi/polismath/conversation/conversation.py`.
-/

namespace Polis.MathBundle

open List Option

variable {b : MathBundle} {g pid bid : ℤ} {i : ℕ} {G H : GroupCluster} {row : List ℤ}

/-! ## The statement -/

/-- A bundle as the engine publishes it. -/
structure Published (b : MathBundle) : Prop where
  distinct : b.ids.Nodup
  aligned : b.rows.length = b.ids.length
  disjoint : b.rows.Pairwise List.Disjoint
  groupIds : (b.groups.map (·.id)).Nodup
  partition : (b.groups.flatMap (·.members)).Perm b.ids

/-- The list of pids that stands at the place of a base cluster. -/
def rowOf (b : MathBundle) (bid : ℤ) : List ℤ := ((b.ids.zip b.rows).find? (·.1 = bid)).elim [] (·.2)

/-- The participants of the group with an id. -/
def pidsOfGroup (b : MathBundle) (g : ℤ) : List ℤ :=
  (b.groups.filter (·.id = g)).flatMap fun G => G.members.flatMap b.rowOf

/-- The group has a participant. -/
def Populated (b : MathBundle) (G : GroupCluster) : Prop := ∃ bid ∈ G.members, b.rowOf bid ≠ []

/-- Every group with a participant stands at the position that is its id. -/
def Placed (b : MathBundle) : Prop :=
  ∀ (i : ℕ) (G : GroupCluster), b.groups[i]? = some G → b.Populated G → G.id = i

/-- What the accessors of the server are to answer. -/
structure ReadsGroups (b : MathBundle) : Prop where
  sorted : ∀ g, (b.pidsForGid g).Pairwise (· ≤ ·)
  union : ∀ g, (b.pidsForGid g).Perm (b.pidsOfGroup g)
  disjoint : ∀ G ∈ b.groups, ∀ H ∈ b.groups, G.id ≠ H.id →
    (b.pidsForGid G.id).Disjoint (b.pidsForGid H.id)
  cover : ∀ row ∈ b.rows, ∀ pid ∈ row, ∃ G ∈ b.groups, pid ∈ b.pidsForGid G.id
  bids : ∀ pids, ∀ pid ∈ pids, ∀ G ∈ b.groups,
    (∃ bid ∈ G.members, (pid, some bid) ∈ b.bidsForPids pids) ↔ pid ∈ b.pidsForGid G.id

/-- The service answers as the server does, or leaves a group of too many participants to it. A mapping
that it reads has no such group. -/
structure PortAgrees (b : MathBundle) : Prop where
  bid : ∀ pid, b.bid pid = b.bidForPid pid
  pids : ∀ g, b.pids g = some (b.pidsForGid g) ∨
    b.pids g = none ∧ maxPids < (b.pidsForGid g).length
  answers : b.rows.flatten.Nodup → b.mappingText.length ≤ maxText →
    ∀ g, b.pids g = some (b.pidsForGid g)

/-! ## Positions -/

theorem at?_natCast {α : Type*} (l : List α) (i : ℕ) : at? l i = l[i]? := by
  simp [at?]

theorem at?_eq_some {α : Type*} {l : List α} {i : ℤ} {a : α} :
    at? l i = some a ↔ ∃ n : ℕ, i = n ∧ l[n]? = some a := by
  unfold at?
  split
  · next h =>
    constructor
    · exact fun ha => ⟨i.toNat, (Int.toNat_of_nonneg h).symm, ha⟩
    · rintro ⟨n, rfl, ha⟩
      simpa using ha
  · next h =>
    refine iff_of_false nofun ?_
    rintro ⟨n, rfl, -⟩
    exact h (Int.natCast_nonneg n)

/-- The assigned index keeps the last occurrence of an id. -/
theorem bidToIndex_eq (b : MathBundle) (bid : ℤ) : b.bidToIndex bid = rposition b.ids bid := by
  have hfold : ∀ (l : List (ℤ × ℕ)) (index : ℤ → Option ℕ),
      l.foldl (fun (index : ℤ → Option ℕ) (e : ℤ × ℕ) => Function.update index e.1 (some e.2)) index bid =
        ((l.reverse.find? (·.1 = bid)).map (·.2)).or (index bid) := by
    intro l
    induction l with
    | nil => exact fun index => rfl
    | cons e l ih =>
      intro index
      rw [foldl_cons, ih, reverse_cons, find?_append]
      cases l.reverse.find? (·.1 = bid) with
      | some e' => rfl
      | none =>
        by_cases h : e.1 = bid
        · simp [h]
        · simp [h, Function.update_of_ne (Ne.symm h)]
  rw [bidToIndex, hfold, or_none]
  rfl

theorem rposition_eq_some {l : List ℤ} (hl : l.Nodup) : rposition l bid = some i ↔ l[i]? = some bid := by
  unfold rposition
  constructor
  · intro h
    obtain ⟨⟨bid', j⟩, hfind, rfl⟩ := map_eq_some_iff.1 h
    have hmem := mem_reverse.1 (mem_of_find?_eq_some hfind)
    obtain rfl : bid' = bid := by simpa using find?_some hfind
    exact mk_mem_zipIdx_iff_getElem?.1 hmem
  · intro h
    have hmem : (bid, i) ∈ l.zipIdx.reverse :=
      mem_reverse.2 (mk_mem_zipIdx_iff_getElem?.2 h)
    cases hfind : l.zipIdx.reverse.find? (·.1 = bid) with
    | none => simpa using find?_eq_none.1 hfind _ hmem
    | some e =>
      obtain ⟨bid', j⟩ := e
      obtain rfl : bid' = bid := by simpa using find?_some hfind
      have hj := mk_mem_zipIdx_iff_getElem?.1
        (mem_reverse.1 (mem_of_find?_eq_some hfind))
      obtain ⟨hi', hi⟩ := List.getElem?_eq_some_iff.1 h
      obtain ⟨hj', hj⟩ := List.getElem?_eq_some_iff.1 hj
      rw [map_some, hl.getElem_inj_iff.1 (hj.trans hi.symm)]

theorem mem_pidsOfGroup :
    pid ∈ b.pidsOfGroup g ↔ ∃ G ∈ b.groups, G.id = g ∧ ∃ bid ∈ G.members, pid ∈ b.rowOf bid := by
  simp [pidsOfGroup, and_assoc]

/-! ## Base clusters -/

namespace Published

section

variable (h : Published b)
include h

theorem row_eq (hi : b.ids[i]? = some bid) (hr : b.rows[i]? = some row) :
    b.rowOf bid = row := by
  have hmem : (bid, row) ∈ b.ids.zip b.rows := by
    refine mem_iff_getElem?.2 ⟨i, ?_⟩
    rw [getElem?_zip_eq_some]
    exact ⟨hi, hr⟩
  have hkeys : ((b.ids.zip b.rows).map (·.1)).Nodup := by
    rw [map_fst_zip h.aligned.ge]
    exact h.distinct
  unfold rowOf
  cases hfind : (b.ids.zip b.rows).find? (·.1 = bid) with
  | none => simpa using find?_eq_none.1 hfind _ hmem
  | some e =>
    obtain rfl : e = (bid, row) := inj_on_of_nodup_map hkeys
      (mem_of_find?_eq_some hfind) hmem (by simpa using find?_some hfind)
    rfl

theorem row_exists (hi : b.ids[i]? = some bid) : ∃ row, b.rows[i]? = some row := by
  obtain ⟨hlt, -⟩ := List.getElem?_eq_some_iff.1 hi
  rw [← h.aligned] at hlt
  exact ⟨b.rows[i], getElem?_eq_getElem hlt⟩

theorem id_exists (hr : b.rows[i]? = some row) : ∃ bid, b.ids[i]? = some bid := by
  obtain ⟨hlt, -⟩ := List.getElem?_eq_some_iff.1 hr
  rw [h.aligned] at hlt
  exact ⟨b.ids[i], getElem?_eq_getElem hlt⟩

theorem mem_rowOf :
    pid ∈ b.rowOf bid ↔
      ∃ (i : ℕ) (row : List ℤ), b.ids[i]? = some bid ∧ b.rows[i]? = some row ∧ pid ∈ row := by
  constructor
  · intro hpid
    unfold rowOf at hpid
    cases hfind : (b.ids.zip b.rows).find? (·.1 = bid) with
    | none => simp [hfind] at hpid
    | some e =>
      obtain ⟨bid', row⟩ := e
      obtain rfl : bid' = bid := by simpa using find?_some hfind
      obtain ⟨i, hi⟩ := mem_iff_getElem?.1 (mem_of_find?_eq_some hfind)
      obtain ⟨hid, hrow⟩ := getElem?_zip_eq_some.1 hi
      exact ⟨i, row, hid, hrow, by simpa [hfind] using hpid⟩
  · rintro ⟨i, row, hi, hr, hpid⟩
    rwa [h.row_eq hi hr]

theorem pidsOfBid_eq (bid : ℤ) : b.pidsOfBid bid = b.rowOf bid := by
  unfold pidsOfBid
  rw [bidToIndex_eq]
  cases hpos : rposition b.ids bid with
  | none =>
    rw [bind_none, getD_none, eq_comm, eq_nil_iff_forall_not_mem]
    intro pid hpid
    obtain ⟨i, row, hi, -, -⟩ := h.mem_rowOf.1 hpid
    rw [(rposition_eq_some h.distinct).2 hi] at hpos
    cases hpos
  | some i =>
    have hi := (rposition_eq_some h.distinct).1 hpos
    obtain ⟨row, hr⟩ := h.row_exists hi
    rw [bind_some, hr, getD_some, h.row_eq hi hr]

/-- A participant stands in one list of the mapping. -/
theorem row_unique {j : ℕ} {row' : List ℤ} (hi : b.rows[i]? = some row)
    (hj : b.rows[j]? = some row') (hpid : pid ∈ row) (hpid' : pid ∈ row') : i = j := by
  obtain ⟨hilt, rfl⟩ := List.getElem?_eq_some_iff.1 hi
  obtain ⟨hjlt, rfl⟩ := List.getElem?_eq_some_iff.1 hj
  have hrows := pairwise_iff_getElem.1 h.disjoint
  rcases lt_trichotomy i j with hlt | heq | hlt
  · exact (hrows i j hilt hjlt hlt hpid hpid').elim
  · exact heq
  · exact (hrows j i hjlt hilt hlt hpid' hpid).elim

theorem bidForPid_eq_some : b.bidForPid pid = some bid ↔ pid ∈ b.rowOf bid := by
  rw [h.mem_rowOf]
  unfold bidForPid
  constructor
  · intro hbid
    obtain ⟨i, hi, hid⟩ := map_eq_some_iff.1 hbid
    obtain ⟨hlt, hpid, -⟩ := findIdx?_eq_some_iff_getElem.1 hi
    have hr : b.rows[i]? = some b.rows[i] := getElem?_eq_getElem hlt
    obtain ⟨bid', hi'⟩ := h.id_exists hr
    rw [hi', getD_some] at hid
    exact ⟨i, b.rows[i], hid ▸ hi', hr, of_decide_eq_true hpid⟩
  · rintro ⟨i, row, hi, hr, hpid⟩
    have hfind : (b.rows.findIdx? (pid ∈ ·)).isSome := by
      rw [findIdx?_isSome, List.any_eq_true]
      exact ⟨row, mem_of_getElem? hr, decide_eq_true hpid⟩
    obtain ⟨j, hj⟩ := isSome_iff_exists.1 hfind
    obtain ⟨hlt, hpid', -⟩ := findIdx?_eq_some_iff_getElem.1 hj
    obtain rfl : i = j :=
      h.row_unique hr (getElem?_eq_getElem hlt) hpid (of_decide_eq_true hpid')
    rw [hj, map_some, hi, getD_some]

theorem bid_unique {bid' : ℤ} (hpid : pid ∈ b.rowOf bid)
    (hpid' : pid ∈ b.rowOf bid') : bid = bid' :=
  Option.some.inj ((h.bidForPid_eq_some.2 hpid).symm.trans (h.bidForPid_eq_some.2 hpid'))

/-! ## Groups -/

/-- A base cluster is a member of one group. -/
theorem group_unique (hG : G ∈ b.groups) (hH : H ∈ b.groups)
    (hbid : bid ∈ G.members) (hbid' : bid ∈ H.members) : G = H := by
  have hnodup := nodup_flatMap.1 (h.partition.nodup_iff.2 h.distinct)
  have : Std.Symm (Function.onFun List.Disjoint fun G : GroupCluster => G.members) :=
    ⟨fun _ _ hdisj => List.Disjoint.symm hdisj⟩
  by_contra hne
  exact hnodup.2.forall hG hH hne hbid hbid'

theorem pidsOfGroup_id (hG : G ∈ b.groups) :
    b.pidsOfGroup G.id = G.members.flatMap b.rowOf := by
  rw [pidsOfGroup, filter_key h.groupIds hG, flatMap_singleton]

/-- The list that `pidsForGid` sorts. -/
theorem pidsForGid_perm (g : ℤ) :
    (b.pidsForGid g).Perm ((at? b.groups g).elim [] fun G => G.members.flatMap b.rowOf) := by
  unfold pidsForGid
  cases at? b.groups g with
  | none => exact .refl _
  | some G =>
    rw [funext h.pidsOfBid_eq]
    exact perm_insertionSort _ _

end

theorem pidsForGid_sorted (b : MathBundle) (g : ℤ) : (b.pidsForGid g).Pairwise (· ≤ ·) := by
  unfold pidsForGid
  cases at? b.groups g with
  | none => exact .nil
  | some G => exact pairwise_insertionSort _ _

/-- Where every populated group stands at its id, the position of an id and the id itself lead to the
same participants. -/
theorem union_of_placed (h : Published b) (hp : Placed b) (g : ℤ) :
    (b.pidsForGid g).Perm (b.pidsOfGroup g) := by
  refine (h.pidsForGid_perm g).trans (.of_eq ?_)
  by_cases hpop : ∃ G ∈ b.groups, G.id = g ∧ b.Populated G
  · obtain ⟨G, hG, rfl, hpop⟩ := hpop
    obtain ⟨i, hi⟩ := mem_iff_getElem?.1 hG
    rw [h.pidsOfGroup_id hG, hp i G hi hpop, at?_natCast, hi]
    rfl
  · have hnone : b.pidsOfGroup g = [] := by
      refine eq_nil_iff_forall_not_mem.2 fun pid hpid => hpop ?_
      obtain ⟨G, hG, hid, bid, hbid, hrow⟩ := mem_pidsOfGroup.1 hpid
      exact ⟨G, hG, hid, bid, hbid, ne_nil_of_mem hrow⟩
    rw [hnone]
    cases hat : at? b.groups g with
    | none => rfl
    | some G =>
      obtain ⟨i, rfl, hi⟩ := at?_eq_some.1 hat
      refine flatMap_eq_nil_iff.2 fun bid hbid => ?_
      by_contra hrow
      exact hpop ⟨G, mem_of_getElem? hi, hp i G hi ⟨bid, hbid, hrow⟩, bid, hbid, hrow⟩

theorem readsGroups (h : Published b) (hp : Placed b) : ReadsGroups b := by
  have hmem : ∀ {G}, G ∈ b.groups → ∀ pid,
      pid ∈ b.pidsForGid G.id ↔ ∃ bid ∈ G.members, pid ∈ b.rowOf bid := by
    intro G hG pid
    rw [(h.union_of_placed hp G.id).mem_iff, h.pidsOfGroup_id hG, mem_flatMap]
  refine ⟨pidsForGid_sorted b, h.union_of_placed hp, ?disjoint, ?cover, ?bids⟩
  case disjoint =>
    intro G hG H hH hne pid hpid hpid'
    obtain ⟨bid, hbid, hrow⟩ := (hmem hG pid).1 hpid
    obtain ⟨bid', hbid', hrow'⟩ := (hmem hH pid).1 hpid'
    obtain rfl := h.bid_unique hrow hrow'
    exact hne (congrArg _ (h.group_unique hG hH hbid hbid'))
  case cover =>
    intro row hr pid hpid
    obtain ⟨i, hi⟩ := mem_iff_getElem?.1 hr
    obtain ⟨bid, hid⟩ := h.id_exists hi
    have hbid : bid ∈ b.groups.flatMap (·.members) := h.partition.mem_iff.2 (mem_of_getElem? hid)
    obtain ⟨G, hG, hbid⟩ := mem_flatMap.1 hbid
    exact ⟨G, hG, (hmem hG pid).2 ⟨bid, hbid, h.mem_rowOf.2 ⟨i, row, hid, hi, hpid⟩⟩⟩
  case bids =>
    intro pids pid hpid G hG
    rw [hmem hG pid]
    refine exists_congr fun bid => and_congr_right fun _ => ?_
    rw [← h.bidForPid_eq_some, bidsForPids, List.mem_map]
    constructor
    · rintro ⟨pid', -, heq⟩
      obtain ⟨rfl, hbid⟩ := Prod.mk.inj heq
      exact hbid
    · exact fun hbid => ⟨pid, hpid, by rw [hbid]⟩

/-- A populated group that is read at its position is the group with that id. -/
theorem placed (h : Published b) (hunion : ∀ g, (b.pidsForGid g).Perm (b.pidsOfGroup g)) : Placed b := by
  intro i G hi hpop
  obtain ⟨bid, hbid, hrow⟩ := hpop
  obtain ⟨pid, hpid⟩ := exists_mem_of_ne_nil _ hrow
  have hread : pid ∈ b.pidsForGid i := by
    rw [(h.pidsForGid_perm i).mem_iff, at?_natCast, hi]
    exact mem_flatMap.2 ⟨bid, hbid, hpid⟩
  obtain ⟨H, hH, hid, bid', hbid', hpid'⟩ := mem_pidsOfGroup.1 ((hunion i).mem_iff.1 hread)
  obtain rfl := h.bid_unique hpid hpid'
  rw [h.group_unique (mem_of_getElem? hi) hH hbid hbid', hid]

end Published

/-! ## The service -/

theorem pidsOfBid_cases (b : MathBundle) (bid : ℤ) :
    (b.baseIds.bind (rposition · bid)).bind (fun i => b.bidToPid.bind (·[i]?)) =
      (b.bidToIndex bid).bind (b.rows[·]?) := by
  have hindex : b.baseIds.bind (rposition · bid) = b.bidToIndex bid := by
    rw [bidToIndex_eq, ids]
    cases b.baseIds with
    | none => rfl
    | some ids => rfl
  rw [hindex]
  refine bind_congr fun i _ => ?_
  unfold rows
  cases b.bidToPid with
  | none => rfl
  | some rows => rfl

/-- The loop collects every list, unless they are more than it takes together. -/
theorem collectPids_eq (b : MathBundle) (bids pids : List ℤ) (hpids : pids.length ≤ maxPids) :
    b.collectPids bids pids = some (pids ++ bids.flatMap b.pidsOfBid) ∧
        (pids ++ bids.flatMap b.pidsOfBid).length ≤ maxPids ∨
      b.collectPids bids pids = none ∧ maxPids < (pids ++ bids.flatMap b.pidsOfBid).length := by
  induction bids generalizing pids with
  | nil => exact .inl (by simpa [collectPids] using hpids)
  | cons bid bids ih =>
    rw [collectPids, pidsOfBid_cases, flatMap_cons]
    cases hrow : (b.bidToIndex bid).bind (b.rows[·]?) with
    | none => simpa [pidsOfBid, hrow] using ih pids hpids
    | some row =>
      have hbid : b.pidsOfBid bid = row := by rw [pidsOfBid, hrow, getD_some]
      dsimp only
      rw [hbid, ← append_assoc]
      split
      · next hlt =>
        refine .inr ⟨rfl, ?_⟩
        simp only [length_append] at hlt ⊢
        omega
      · next hle =>
        rw [← length_append, not_lt] at hle
        exact ih _ hle

theorem pids_cases (b : MathBundle) (g : ℤ) :
    b.pids g = some (b.pidsForGid g) ∨ b.pids g = none ∧ maxPids < (b.pidsForGid g).length := by
  have hgroups : b.groupClusters.bind (at? · g) = at? b.groups g := by
    unfold groups
    cases b.groupClusters with
    | none => simp [at?]
    | some groups => rfl
  rw [pids, pidsForGid, hgroups]
  cases at? b.groups g with
  | none => exact .inl rfl
  | some G =>
    rcases b.collectPids_eq G.members [] (Nat.zero_le _) with ⟨hsome, -⟩ | ⟨hnone, hlt⟩
    · exact .inl (by simp [hsome])
    · exact .inr ⟨by simp [hnone], by simpa using hlt⟩

theorem bid_eq (b : MathBundle) (pid : ℤ) : b.bid pid = b.bidForPid pid := by
  rw [bid, bidForPid, rows, ids]
  cases b.bidToPid with
  | none => rfl
  | some rows =>
    rw [bind_some, getD_some]
    congr 1
    funext position
    cases b.baseIds with
    | none => rfl
    | some ids => rfl

/-! ## The size of a mapping -/

theorem length_intercalate (items : List (List Char)) :
    (items.map (·.length + 2)).sum ≤ ('[' :: [',', ' '].intercalate items ++ [']']).length := by
  have hsum : ∀ item (items : List (List Char)),
      ([',', ' '].intercalate (item :: items)).length + 2 = ((item :: items).map (·.length + 2)).sum := by
    intro item items
    induction items generalizing item with
    | nil => simp [List.intercalate]
    | cons next items ih =>
      have h := ih next
      simp only [List.intercalate, intersperse_cons_cons, flatten_cons, length_append,
        map_cons, sum_cons, length_cons, length_nil] at h ⊢
      omega
  cases items with
  | nil => exact Nat.zero_le _
  | cons item items =>
    rw [← hsum item items]
    simp only [length_append, length_cons, length_nil]
    omega

/-- Every participant takes the text of the pid and two more characters. -/
theorem le_mappingText (b : MathBundle) :
    (b.rows.flatten.map fun pid => (toString pid).toList.length + 2).sum ≤ b.mappingText.length := by
  refine le_trans ?_ (length_intercalate _)
  rw [map_flatten, sum_flatten, List.map_map, List.map_map]
  refine sum_le_sum fun row _ => le_trans ?_ (Nat.le_add_right _ 2)
  have h := length_intercalate (row.map fun pid => (toString pid).toList)
  rwa [List.map_map] at h

theorem toString_short (h : (toString pid).toList.length ≤ 2) : pid ∈ Finset.Icc (-9 : ℤ) 99 := by
  rw [Finset.mem_Icc]
  cases pid with
  | ofNat n =>
    have hn : (Nat.toDigits 10 n).length ≤ 2 := by simpa [toString, Int.repr, Nat.repr] using h
    rw [Nat.length_toDigits_le_iff (by omega) (by omega)] at hn
    simp only [Int.ofNat_eq_natCast]
    omega
  | negSucc n =>
    have hn : (Nat.toDigits 10 (n + 1)).length ≤ 1 := by
      simpa [toString, Int.repr, Nat.repr] using h
    rw [Nat.length_toDigits_le_iff (by omega) (by omega)] at hn
    omega

/-- Distinct pids are longer than two characters, but for 109 of them. -/
theorem length_le_of_text {l : List ℤ} (hl : l.Nodup)
    (h : (l.map fun pid => (toString pid).toList.length + 2).sum ≤ maxText) : l.length ≤ maxPids := by
  let short : ℤ → Bool := fun pid => (toString pid).toList.length ≤ 2
  have hshort : (l.filter short).length ≤ 109 := by
    rw [← toFinset_card_of_nodup (hl.filter _)]
    have hsub : (l.filter short).toFinset ⊆ Finset.Icc (-9 : ℤ) 99 := by
      intro pid hpid
      exact toString_short (of_decide_eq_true (mem_filter.1 (mem_toFinset.1 hpid)).2)
    exact (Finset.card_le_card hsub).trans (by simp)
  have hlong : ∀ l : List ℤ, 5 * (l.length - (l.filter short).length) ≤
      (l.map fun pid => (toString pid).toList.length + 2).sum := by
    intro l
    induction l with
    | nil => simp
    | cons pid l ih =>
      rw [map_cons, sum_cons, length_cons, filter_cons]
      split
      · rw [length_cons]
        omega
      · next hpid =>
        have hlen : ¬(toString pid).toList.length ≤ 2 := fun hle => hpid (decide_eq_true hle)
        omega
  have := hlong l
  unfold maxText at h
  unfold maxPids
  omega

/-- No group of a mapping that the service reads has too many participants. -/
theorem Published.length_pidsForGid (h : Published b) (hnodup : b.rows.flatten.Nodup)
    (htext : b.mappingText.length ≤ maxText) (g : ℤ) : (b.pidsForGid g).length ≤ maxPids := by
  refine le_trans ?_ (length_le_of_text hnodup (b.le_mappingText.trans htext))
  have hmem : ∀ bid, ∀ pid ∈ b.rowOf bid, pid ∈ b.rows.flatten := by
    intro bid pid hpid
    obtain ⟨i, row, -, hr, hpid⟩ := h.mem_rowOf.1 hpid
    exact mem_flatten.2 ⟨row, mem_of_getElem? hr, hpid⟩
  have hrow : ∀ bid, (b.rowOf bid).Nodup := by
    intro bid
    by_cases hne : b.rowOf bid = []
    · rw [hne]
      exact .nil
    · obtain ⟨pid, hpid⟩ := exists_mem_of_ne_nil _ hne
      obtain ⟨i, row, hi, hr, -⟩ := h.mem_rowOf.1 hpid
      rw [h.row_eq hi hr]
      exact (nodup_flatten.1 hnodup).1 row (mem_of_getElem? hr)
  rw [(h.pidsForGid_perm g).length_eq]
  cases hat : at? b.groups g with
  | none => exact Nat.zero_le _
  | some G =>
    obtain ⟨i, -, hi⟩ := at?_eq_some.1 hat
    have hmembers : G.members.Nodup :=
      (nodup_flatMap.1 (h.partition.nodup_iff.2 h.distinct)).1 G (mem_of_getElem? hi)
    have hdisjoint : (G.members.flatMap b.rowOf).Nodup := by
      refine nodup_flatMap.2 ⟨fun bid _ => hrow bid, hmembers.imp ?_⟩
      exact fun hne pid hpid hpid' => hne (h.bid_unique hpid hpid')
    refine (hdisjoint.subperm fun pid hpid => ?_).length_le
    obtain ⟨bid, -, hpid⟩ := mem_flatMap.1 hpid
    exact hmem bid pid hpid

theorem Published.portAgrees (h : Published b) : PortAgrees b where
  bid := b.bid_eq
  pids := b.pids_cases
  answers hnodup htext g :=
    (b.pids_cases g).resolve_right fun hcut =>
      absurd (h.length_pidsForGid hnodup htext g) (not_le.2 hcut.2)

/-! ## The answers -/

/-- The groups of a published bundle are read as they are, by the server and by the service, exactly if
every group with a participant stands at the position that is its id. -/
theorem Published.reads_iff (h : Published b) : ReadsGroups b ∧ PortAgrees b ↔ Placed b :=
  ⟨fun hread => h.placed hread.1.union, fun hp => ⟨h.readsGroups hp, h.portAgrees⟩⟩

/-- Two groups whose ids are their positions. -/
private def placedBundle : MathBundle :=
  ⟨some [3, 5], some [⟨0, [5]⟩, ⟨1, [3]⟩], some [[7, 8], [4]]⟩

private theorem placedBundle_published : Published placedBundle :=
  ⟨by decide, by decide, by simp [placedBundle, rows], by decide, by decide⟩

theorem reads_iff_placed : ReadsGroups placedBundle ∧ PortAgrees placedBundle :=
  (Published.reads_iff placedBundle_published).2 <| by
    intro i G hi _
    match i, hi with
    | 0, hi => exact Option.some.inj hi ▸ rfl
    | 1, hi => exact Option.some.inj hi ▸ rfl

/-- The group with id 2 stands at position 1: the engine left out a group of an earlier tick. -/
private def gapBundle : MathBundle :=
  ⟨some [3, 5], some [⟨0, [5]⟩, ⟨2, [3]⟩], some [[7, 8], [4]]⟩

/-- The participants of group 2 are not found under its id, and are found under an id of no group. -/
theorem gapBundle_misread : Published gapBundle ∧ ¬ReadsGroups gapBundle ∧
    gapBundle.pidsForGid 2 = [] ∧ gapBundle.pidsForGid 1 = [7, 8] ∧ gapBundle.pids 2 = some [] := by
  refine ⟨⟨by decide, by decide, by simp [gapBundle, rows], by decide, by decide⟩, fun hread => ?_,
    by decide, by decide, by decide⟩
  have := (hread.union 2).length_eq
  exact absurd this (by decide)

end Polis.MathBundle
