import Polis.Serving.NextComment

/-!
# What the draw of the next statement gives

Where Rust's draw succeeds every weight is a number, and Node adds up the same numbers in the same order. In
exact arithmetic the weights are positive, so that every candidate is drawn with the share of its weight.
-/

namespace Polis.NextComment

open Js Draw List

variable {F : Type*} {A : Arith F} {P : Printing F} {priorities : Option (Obj (Json F))}

/-! ## The totals of both servers -/

/-- The loop of `select` adds up the weights of the candidates. -/
theorem foldlM_addWeight {tids : List ℤ} {s s' : List F × F} :
    tids.foldlM (addWeight A priorities) s = .ok s' ↔
      ∃ ws, List.Forall₂ (fun tid w => weight A priorities tid = .ok w) tids ws ∧
        s' = (s.1 ++ totals A.add s.2 ws, ws.foldl A.add s.2) := by
  induction tids generalizing s with
  | nil =>
    refine ⟨fun h => ⟨[], .nil, ?_⟩, ?_⟩
    · cases h
      simp [totals]
    · rintro ⟨ws, ⟨⟩, h⟩
      rw [h]
      simp [totals, pure, Except.pure]
  | cons tid tids ih =>
    rw [foldlM_cons]
    cases hw : weight A priorities tid with
    | error e =>
      simp only [addWeight, hw, Except.map, bind, Except.bind]
      refine ⟨by rintro ⟨⟩, ?_⟩
      rintro ⟨_, ⟨⟩ | ⟨hhead, _⟩, _⟩
      cases hw.symm.trans hhead
    | ok w =>
      simp only [addWeight, hw, Except.map, bind, Except.bind]
      rw [ih]
      constructor
      · rintro ⟨ws, hws, rfl⟩
        exact ⟨w :: ws, .cons hw hws, by simp [totals]⟩
      · rintro ⟨ws, hws, rfl⟩
        cases hws with
        | cons hhead htail =>
          cases hw.symm.trans hhead
          exact ⟨_, htail, by simp [totals]⟩

/-- `select` finds the slot of the random number among the totals of the weights. -/
theorem select_eq_ok {tids : List ℤ} {unit r : F} {i : ℕ} :
    select A tids priorities unit = .ok (i, r) ↔
      ∃ ws, List.Forall₂ (fun tid w => weight A priorities tid = .ok w) tids ws ∧
        r = A.mul unit (ws.foldl A.add A.zero) ∧ (totals A.add A.zero ws).findIdx? (A.lt r) = some i := by
  unfold select
  cases hloop : tids.foldlM (addWeight A priorities) ([], A.zero) with
  | error e =>
    refine ⟨fun h => (nomatch h), fun ⟨ws, hws, _⟩ => ?_⟩
    cases hloop.symm.trans (foldlM_addWeight.2 ⟨ws, hws, rfl⟩)
  | ok s =>
    obtain ⟨ws, hws, rfl⟩ := foldlM_addWeight.1 hloop
    simp only [nil_append, bind, Except.bind]
    constructor
    · intro h
      split at h
      · next selected hfind =>
          cases h
          exact ⟨ws, hws, rfl, hfind⟩
      · cases h
    · rintro ⟨ws', hws', rfl, hfind⟩
      have hsame : ws' = ws := by
        have hunique : Relator.RightUnique fun tid w => weight A priorities tid = .ok w :=
          fun _ _ _ h h' => Except.ok.inj (h.symm.trans h')
        exact hunique.forall₂ hws' hws
      rw [hsame] at hfind ⊢
      rw [hfind]
      rfl

/-- Node takes the weight that Rust takes. -/
theorem priority_of_weight {tid : ℤ} {w : F} (h : weight A priorities tid = .ok w) :
    priority A (priorities.getD []) tid = .number w := by
  have hget : priorities.bind (get · tid) = get (priorities.getD []) tid := by
    cases priorities with
    | none => rfl
    | some o => rfl
  unfold weight at h
  rw [hget] at h
  unfold priority
  split at h
  · next hnone =>
      cases h
      rw [hnone]
  · next hnull =>
      cases h
      rw [hnull]
      rfl
  · next hfalse =>
      cases h
      rw [hfalse]
      rfl
  · next n hnumber =>
      rw [hnumber]
      split at h
      · next hzero =>
          cases h
          simp [isTruthy, hzero]
      · next hzero =>
          split at h
          · next hfinite =>
              cases h
              simp [isTruthy, hzero, A.isNaN_of_isFinite _ hfinite]
          · cases h
  · cases h

/-- Node's reduction has the totals of the weights beside the candidates. -/
theorem foldl_addCandidate {comments : List (Candidate F)} {ws : List F}
    (h : List.Forall₂ (fun c w => weight A priorities c.tid = .ok w) comments ws) (start : F)
    (acc : List (Sum F × Candidate F)) :
    comments.foldl (addCandidate A P (priorities.getD [])) (.number start, acc) =
      (.number (ws.foldl A.add start), acc ++ ((totals A.add start ws).map .number).zip comments) := by
  induction h generalizing start acc with
  | nil => simp [totals]
  | @cons c w comments ws hhead _ ih =>
    rw [foldl_cons, addCandidate, priority_of_weight hhead]
    simp only [plus]
    rw [ih]
    simp [totals]

/-- The first pair whose left side has a property is at the index of that side. -/
theorem find?_zip {α β : Type*} {p : α → Bool} {xs : List α} {ys : List β} {i : ℕ}
    (hlen : xs.length = ys.length) (h : xs.findIdx? p = some i) :
    ∃ x y, ys[i]? = some y ∧ (xs.zip ys).find? (fun q => p q.1) = some (x, y) := by
  induction xs generalizing ys i with
  | nil => cases h
  | cons x xs ih =>
    cases ys with
    | nil => cases hlen
    | cons y ys =>
      rw [findIdx?_cons] at h
      cases hx : p x with
      | true =>
        rw [hx, if_pos rfl, Option.some.injEq] at h
        subst h
        exact ⟨x, y, rfl, by simp [hx]⟩
      | false =>
        rw [hx, if_neg Bool.false_ne_true, Option.map_eq_some_iff] at h
        obtain ⟨j, hj, rfl⟩ := h
        obtain ⟨x', y', hy', hfind⟩ := ih (by simpa using hlen) hj
        exact ⟨x', y', by simpa using hy', by simpa [hx] using hfind⟩

/-- Whatever Rust's draw gives, Node's gives with the same random number. -/
theorem selectProbabilistically_of_select {comments : List (Candidate F)} {unit r : F} {i : ℕ}
    (h : select A (comments.map (·.tid)) priorities unit = .ok (i, r)) :
    ∃ c, comments[i]? = some c ∧
      selectProbabilistically A P comments (priorities.getD []) unit = some { c with randomN := some r } := by
  obtain ⟨ws, hws, rfl, hfind⟩ := select_eq_ok.1 h
  rw [List.forall₂_map_left_iff] at hws
  have hlen : ((totals A.add A.zero ws).map (Sum.number (F := F))).length = comments.length := by
    rw [length_map, length_totals, hws.length_eq]
  have hnumbers : ((totals A.add A.zero ws).map (Sum.number (F := F))).findIdx?
      (fun x => A.lt (A.mul unit (ws.foldl A.add A.zero)) (x.toNumber P)) = some i := by
    rw [findIdx?_map]
    exact hfind
  obtain ⟨x, c, hc, hpair⟩ := find?_zip hlen hnumbers
  refine ⟨c, hc, ?_⟩
  unfold selectProbabilistically
  rw [foldl_addCandidate hws]
  have htotal : (Sum.number (ws.foldl A.add A.zero)).toNumber P = ws.foldl A.add A.zero := rfl
  simp only [nil_append, htotal]
  rw [hpair]
  rfl

/-! ## Exact arithmetic -/

section Exact

variable {K : Type*} [Field K] [LinearOrder K] {map : Option (Obj (Json K))} {tids : List ℤ} {i : ℕ}

/-- The priorities of the candidates are numbers that are not negative, or absent. -/
def NonNegative (map : Option (Obj (Json K))) (tids : List ℤ) : Prop :=
  ∀ tid ∈ tids, ∀ v, map.bind (get · tid) = some v → ∃ n, v = .number n ∧ 0 ≤ n

/-- What a candidate counts for: its priority, and 1 if that is absent or 0. -/
def share (map : Option (Obj (Json K))) (tid : ℤ) : K :=
  match map.bind (get · tid) with
  | some (.number n) => if n = 0 then 1 else n
  | _ => 1

/-- What the first candidates count for together. -/
def before (map : Option (Obj (Json K))) (tids : List ℤ) (i : ℕ) : K := ((tids.take i).map (share map)).sum

theorem weight_exact (h : NonNegative map tids) {tid : ℤ} (htid : tid ∈ tids) :
    weight (.exact K) map tid = .ok (share map tid) := by
  unfold weight share
  cases hget : map.bind (get · tid) with
  | none => rfl
  | some v =>
    obtain ⟨n, rfl, -⟩ := h tid htid v hget
    by_cases hzero : n = 0
    · simp [Arith.exact, hzero]
    · simp [Arith.exact, hzero]

variable [IsStrictOrderedRing K]

theorem share_pos (h : NonNegative map tids) {tid : ℤ} (htid : tid ∈ tids) : 0 < share map tid := by
  unfold share
  split
  · next n hget =>
      obtain ⟨m, hm, hnonneg⟩ := h tid htid _ hget
      cases hm
      split
      · exact one_pos
      · next hne => exact lt_of_le_of_ne hnonneg (Ne.symm hne)
  · exact one_pos

theorem shares_nonneg (h : NonNegative map tids) : ∀ w ∈ tids.map (share map), 0 ≤ w := by
  intro w hw
  obtain ⟨tid, htid, rfl⟩ := mem_map.1 hw
  exact (share_pos h htid).le

theorem sum_shares_pos (h : NonNegative map tids) (hne : tids ≠ []) : 0 < (tids.map (share map)).sum := by
  refine sum_pos _ (fun w hw => ?_) (by simpa using hne)
  obtain ⟨tid, htid, rfl⟩ := mem_map.1 hw
  exact share_pos h htid

omit [IsStrictOrderedRing K] in
theorem foldl_add (ws : List K) (start : K) : ws.foldl (Arith.exact K).add start = start + ws.sum := by
  induction ws generalizing start with
  | nil => simp
  | cons w ws ih =>
    rw [foldl_cons, ih, sum_cons, ← add_assoc]
    rfl

omit [IsStrictOrderedRing K] in
/-- With exact numbers `select` finds the slot of the random number. -/
theorem select_exact (h : NonNegative map tids) {unit r : K} :
    select (.exact K) tids map unit = .ok (i, r) ↔ r = unit * (tids.map (share map)).sum ∧
      (totals (· + ·) 0 (tids.map (share map))).findIdx? (unit * (tids.map (share map)).sum < ·) = some i := by
  have hweights : List.Forall₂ (fun tid w => weight (.exact K) map tid = .ok w) tids
      (tids.map (share map)) := by
    rw [List.forall₂_map_right_iff, List.forall₂_same]
    exact fun tid htid => weight_exact h htid
  have htotal : (tids.map (share map)).foldl (Arith.exact K).add 0 = (tids.map (share map)).sum := by
    rw [foldl_add, zero_add]
  rw [select_eq_ok]
  constructor
  · rintro ⟨ws, hws, rfl, hfind⟩
    have hunique : Relator.RightUnique fun tid w => weight (.exact K) map tid = .ok w :=
      fun _ _ _ h h' => Except.ok.inj (h.symm.trans h')
    cases hunique.forall₂ hws hweights
    have hr : (Arith.exact K).mul unit ((tids.map (share map)).foldl (Arith.exact K).add (Arith.exact K).zero) =
        unit * (tids.map (share map)).sum := congrArg (unit * ·) htotal
    rw [hr] at hfind ⊢
    exact ⟨rfl, hfind⟩
  · rintro ⟨rfl, hfind⟩
    exact ⟨_, hweights, congrArg (unit * ·) htotal.symm, hfind⟩

/-- The draw takes the candidate whose slot the random number is in. -/
theorem select_slot (h : NonNegative map tids) {unit : K} (hunit : 0 ≤ unit) :
    select (.exact K) tids map unit = .ok (i, unit * before map tids tids.length) ↔
      i < tids.length ∧ before map tids i ≤ unit * before map tids tids.length ∧
        unit * before map tids tids.length < before map tids (i + 1) := by
  have htotal : before map tids tids.length = (tids.map (share map)).sum := by rw [before, take_length]
  have hnonneg : 0 ≤ (tids.map (share map)).sum := sum_nonneg (shares_nonneg h)
  rw [select_exact h, htotal, findIdx?_totals (shares_nonneg h) (mul_nonneg hunit hnonneg), zero_add, zero_add,
    length_map, ← map_take, ← map_take]
  exact and_iff_right rfl

/-- Every point of the unit interval draws a candidate. -/
theorem exists_slot (h : NonNegative map tids) (hne : tids ≠ []) {unit : K} (hunit : 0 ≤ unit)
    (hlt : unit < 1) :
    ∃ i < tids.length, select (.exact K) tids map unit = .ok (i, unit * before map tids tids.length) ∧
      before map tids i ≤ unit * before map tids tids.length ∧
        unit * before map tids tids.length < before map tids (i + 1) := by
  have hpos := sum_shares_pos h hne
  have htotal : before map tids tids.length = (tids.map (share map)).sum := by rw [before, take_length]
  have hbound : unit * (tids.map (share map)).sum < 0 + (tids.map (share map)).sum := by
    rw [zero_add]
    calc unit * (tids.map (share map)).sum < 1 * (tids.map (share map)).sum := mul_lt_mul_of_pos_right hlt hpos
      _ = (tids.map (share map)).sum := one_mul _
  obtain ⟨i, hi⟩ := exists_findIdx? (shares_nonneg h) (mul_nonneg hunit hpos.le) hbound
  have hselect : select (.exact K) tids map unit = .ok (i, unit * before map tids tids.length) :=
    (select_exact h).2 ⟨by rw [htotal], hi⟩
  obtain ⟨hlen, hle, hlt⟩ := (select_slot h hunit).1 hselect
  exact ⟨i, hlen, hselect, hle, hlt⟩

end Exact

/-! ## The draw -/

section Uniform

open MeasureTheory

variable {map : Option (Obj (Json ℝ))} {tids : List ℤ} {i : ℕ}

/-- A uniform random number draws a candidate with its share of the total. -/
theorem volume_select (h : NonNegative map tids) (hi : i < tids.length) :
    volume {u : ℝ | u ∈ Set.Ico 0 1 ∧ ∃ r, select (.exact ℝ) tids map u = .ok (i, r)} =
      ENNReal.ofReal (share map tids[i] / before map tids tids.length) := by
  have hne : tids ≠ [] := ne_nil_of_length_pos (by omega)
  have htotal : before map tids tids.length = (tids.map (share map)).sum := by rw [before, take_length]
  have hdrawn : ∀ u : ℝ, (∃ r, select (.exact ℝ) tids map u = .ok (i, r)) ↔
      (totals (· + ·) 0 (tids.map (share map))).findIdx? (u * (tids.map (share map)).sum < ·) = some i := by
    intro u
    refine ⟨fun ⟨r, hr⟩ => ((select_exact h).1 hr).2, fun hfind => ⟨_, (select_exact h).2 ⟨rfl, hfind⟩⟩⟩
  simp only [hdrawn]
  rw [volume_slot (shares_nonneg h) (sum_shares_pos h hne) (by rwa [length_map]), getElem_map, htotal]

/-- Some random number draws each candidate. -/
theorem exists_unit (h : NonNegative map tids) (hi : i < tids.length) :
    ∃ unit : ℝ, 0 ≤ unit ∧ unit < 1 ∧
      select (.exact ℝ) tids map unit = .ok (i, unit * before map tids tids.length) := by
  have hne : tids ≠ [] := ne_nil_of_length_pos (by omega)
  have htotal : before map tids tids.length = (tids.map (share map)).sum := by rw [before, take_length]
  have hpos : 0 < before map tids tids.length := htotal ▸ sum_shares_pos h hne
  have hstep : before map tids (i + 1) = before map tids i + share map tids[i] := by
    rw [before, before, ← take_append_getElem hi, map_append, sum_append, map_singleton,
      sum_singleton]
  have hlt : before map tids i < before map tids (i + 1) := by
    rw [hstep]
    exact lt_add_of_pos_right _ (share_pos h (getElem_mem hi))
  have hle : before map tids (i + 1) ≤ before map tids tids.length := by
    rw [htotal, before, map_take]
    exact sum_take_succ_le (shares_nonneg h)
  have hnonneg : 0 ≤ before map tids i := by
    rw [before, map_take]
    exact sum_nonneg fun w hw => shares_nonneg h w (mem_of_mem_take hw)
  have hunit : 0 ≤ before map tids i / before map tids tids.length := div_nonneg hnonneg hpos.le
  have hpoint : before map tids i / before map tids tids.length * before map tids tids.length =
      before map tids i := div_mul_cancel₀ _ hpos.ne'
  refine ⟨before map tids i / before map tids tids.length, hunit, ?_, ?_⟩
  · rw [div_lt_one hpos]
    exact hlt.trans_le hle
  · rw [select_slot h hunit, hpoint]
    exact ⟨hi, le_rfl, hlt⟩

/-- In exact arithmetic the draw takes every candidate with its share of the total, and Node draws whatever
Rust does. -/
theorem next_comment_draw :
    (∀ (tids : List ℤ) (map : Option (Obj (Json ℝ))), tids ≠ [] → NonNegative map tids →
      (∀ unit, 0 ≤ unit → unit < 1 → ∃ i < tids.length,
        select (.exact ℝ) tids map unit = .ok (i, unit * before map tids tids.length) ∧
          before map tids i ≤ unit * before map tids tids.length ∧
            unit * before map tids tids.length < before map tids (i + 1)) ∧
      ∀ i, ∀ hi : i < tids.length, 0 < share map (tids.get ⟨i, hi⟩) ∧
        (∃ unit, 0 ≤ unit ∧ unit < 1 ∧
          select (.exact ℝ) tids map unit = .ok (i, unit * before map tids tids.length)) ∧
        volume {u : ℝ | u ∈ Set.Ico 0 1 ∧ ∃ r, select (.exact ℝ) tids map u = .ok (i, r)} =
          ENNReal.ofReal (share map (tids.get ⟨i, hi⟩) / before map tids tids.length)) ∧
    ∀ (F : Type) (A : Arith F) (P : Printing F) (comments : List (Candidate F))
      (map : Option (Obj (Json F))) (unit r : F) (i : ℕ),
      select A (comments.map (·.tid)) map unit = .ok (i, r) →
        ∃ c, comments[i]? = some c ∧
          selectProbabilistically A P comments (map.getD []) unit = some { c with randomN := some r } :=
  ⟨fun _ _ hne h => ⟨fun _ hunit hlt => exists_slot h hne hunit hlt,
    fun _ hi => ⟨share_pos h (getElem_mem hi), exists_unit h hi, volume_select h hi⟩⟩,
    fun _ _ _ _ _ _ _ _ h => selectProbabilistically_of_select h⟩

end Uniform

/-- Of the priorities 0 and 3 the first counts for 1, and a random number of a quarter draws the second. -/
private def zeroAndThree : Obj (Json ℝ) := [("0", .number 0), ("1", .number 3)]

/-- The two candidates as Node has them. -/
private def twoCandidates : List (Candidate ℝ) := [{ tid := 0 }, { tid := 1 }]

private noncomputable def printing : Printing ℝ := ⟨fun _ => "", fun _ => 0⟩

theorem next_comment_draw_second : ∃ i c,
    select (.exact ℝ) [0, 1] (some zeroAndThree) (1 / 4) =
      .ok (i, 1 / 4 * before (some zeroAndThree) [0, 1] 2) ∧ twoCandidates[i]? = some c ∧
    selectProbabilistically (.exact ℝ) printing twoCandidates zeroAndThree (1 / 4) =
      some { c with randomN := some (1 / 4 * before (some zeroAndThree) [0, 1] 2) } := by
  have hpriorities : NonNegative (some zeroAndThree) [0, 1] := by
    intro tid htid v hv
    rcases mem_cons.1 htid with rfl | htid
    · cases hv
      exact ⟨0, rfl, le_rfl⟩
    · rw [mem_singleton.1 htid] at hv
      cases hv
      exact ⟨3, rfl, by norm_num⟩
  obtain ⟨i, -, hselect, -⟩ := (next_comment_draw.1 [0, 1] (some zeroAndThree) (by simp) hpriorities).1 (1 / 4)
    (by norm_num) (by norm_num)
  obtain ⟨c, hc, hnode⟩ := next_comment_draw.2 ℝ (.exact ℝ) printing twoCandidates (some zeroAndThree) (1 / 4)
    (1 / 4 * before (some zeroAndThree) [0, 1] 2) i hselect
  exact ⟨i, c, hselect, hc, hnode⟩

end Polis.NextComment
