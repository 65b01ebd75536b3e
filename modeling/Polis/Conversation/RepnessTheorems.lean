import Polis.Conversation.Repness
import Mathlib.Data.List.Induction
import Mathlib.Algebra.Field.Rat

/-!
# What is selected of a group

The pass knows of the rows so far which of them pass the tests, and keeps a candidate for either slot as soon as
there is one. The entries are then those that pass with the greatest metrics, after the best agreement if there
is one.

Reference: `delphi/polismath/pca_kmeans_rep/repness.py`.
-/

namespace Polis.Repness

open List Option

variable {R : Type*} [StatNumber R] {stats_df rows : List (Row R)} {row best : Row R} {s : Selection R}
  {mod_out : List ℤ} {preserve_order : Bool} {e : Entry R} {entries : List (Entry R)}

/-! ## The statement -/

/-- What holds of the entries of a group. -/
structure RepComments (stats_df : List (Row R)) (mod_out : List ℤ) (preserve_order : Bool)
    (entries : List (Entry R)) : Prop where
  few : entries.length ≤ 5
  distinct : (entries.map (·.comment_id)).Nodup
  eligible : ∀ e ∈ entries, e.comment_id ∉ mod_out ∧
    ∃ row ∈ stats_df, e = finalize_row_for_output row e.best_agree
  agreesFirst : entries.Pairwise fun a b => b.repful = .agree → a.repful = .agree
  /-- Once a row has beaten the best agreement of the rows before it, there is one at the end. -/
  bestAgree : ∀ pre row post, Repness.eligible stats_df mod_out preserve_order = pre ++ row :: post →
    beats_best_agr row (pass pre).best_agree →
    ∃ best, (pass (Repness.eligible stats_df mod_out preserve_order)).best_agree = some best ∧
      finalize_row_for_output best true ∈ entries
  flagged : ∀ e ∈ entries, e.best_agree →
    ∃ best, (pass (Repness.eligible stats_df mod_out preserve_order)).best_agree = some best ∧
      e = finalize_row_for_output best true
  passing : (∃ row ∈ stats_df, row.comment ∉ mod_out ∧ passes_by_test row) →
    (∀ e ∈ entries, ¬ e.best_agree → ∃ row ∈ stats_df, passes_by_test row ∧
      e = finalize_row_for_output row false) ∧
    ∀ row ∈ stats_df, row.comment ∉ mod_out → passes_by_test row → row.comment ∉ entries.map (·.comment_id) →
      ∀ e ∈ entries, ¬ e.best_agree → sort_key (finalize_row_for_output row false) ≤ sort_key e
  empty : entries = [] → ∀ row ∈ stats_df, row.comment ∈ mod_out

/-! ## The pass -/

theorem pass_concat (rows : List (Row R)) (row : Row R) : pass (rows ++ [row]) = select (pass rows) row :=
  foldl_append

section Step

@[simp] theorem addSufficient_sufficient : (addSufficient s row).sufficient =
    s.sufficient ++ if passes_by_test row then [finalize_row_for_output row false] else [] := by
  unfold addSufficient
  split
  · rfl
  · simp

@[simp] theorem addSufficient_best : (addSufficient s row).best = s.best := by
  unfold addSufficient
  split <;> rfl

@[simp] theorem addSufficient_best_max_rt : (addSufficient s row).best_max_rt = s.best_max_rt := by
  unfold addSufficient
  split <;> rfl

@[simp] theorem addSufficient_best_agree : (addSufficient s row).best_agree = s.best_agree := by
  unfold addSufficient
  split <;> rfl

@[simp] theorem updateBest_sufficient : (updateBest s row).sufficient = s.sufficient := by
  unfold updateBest
  split <;> rfl

@[simp] theorem updateBest_best_agree : (updateBest s row).best_agree = s.best_agree := by
  unfold updateBest
  split <;> rfl

/-- The best one has a score. -/
theorem updateBest_best : (updateBest s row).best = s.best ∧ (updateBest s row).best_max_rt = s.best_max_rt ∧
      (s.sufficient = [] → s.best_max_rt ≠ none) ∨
    (updateBest s row).best = some (finalize_row_for_output row false) ∧ (updateBest s row).best_max_rt ≠ none := by
  unfold updateBest
  split
  case isTrue => exact .inr ⟨rfl, some_ne_none _⟩
  next hkept =>
    refine .inl ⟨rfl, rfl, fun hnil hnone => hkept ⟨hnil, ?_⟩⟩
    rw [hnone]
    rfl

@[simp] theorem updateBestAgree_sufficient : (updateBestAgree s row).sufficient = s.sufficient := by
  unfold updateBestAgree
  split <;> rfl

@[simp] theorem updateBestAgree_best : (updateBestAgree s row).best = s.best := by
  unfold updateBestAgree
  split <;> rfl

@[simp] theorem updateBestAgree_best_max_rt : (updateBestAgree s row).best_max_rt = s.best_max_rt := by
  unfold updateBestAgree
  split <;> rfl

theorem select_best_agree : (select s row).best_agree =
    if beats_best_agr row s.best_agree then some row else s.best_agree := by
  unfold select updateBestAgree
  simp only [updateBest_best_agree, addSufficient_best_agree]
  split <;> simp

end Step

/-- What the pass has of its rows. -/
structure Passed (rows : List (Row R)) (s : Selection R) : Prop where
  sufficient : s.sufficient = (rows.filter (passes_by_test ·)).map (finalize_row_for_output · false)
  best : ∀ e ∈ s.best, ∃ row ∈ rows, e = finalize_row_for_output row false
  scored : s.best_max_rt ≠ none → s.best ≠ none
  some_best : s.sufficient = [] → rows ≠ [] → s.best ≠ none
  best_agree : ∀ row ∈ s.best_agree, row ∈ rows

theorem passed (rows : List (Row R)) : Passed rows (pass rows) := by
  induction rows using List.reverseRecOn with
  | nil => exact ⟨rfl, nofun, fun h => absurd rfl h, fun _ h => absurd rfl h, nofun⟩
  | append_singleton rows row ih =>
    rw [pass_concat]
    generalize pass rows = s at ih
    have hbest := @updateBest_best R _ row (addSufficient s row)
    rw [addSufficient_best, addSufficient_best_max_rt] at hbest
    refine ⟨?_, fun e he => ?_, fun hscore => ?_, fun hnone _ => ?_, fun best hagree => ?_⟩
    · simp only [select, updateBestAgree_sufficient, updateBest_sufficient, addSufficient_sufficient,
        ih.sufficient, filter_append, map_append]
      congr 1
      by_cases hpass : passes_by_test row <;> simp [hpass]
    · rw [select, updateBestAgree_best] at he
      rcases hbest with ⟨hkept, -, -⟩ | ⟨hnew, -⟩
      · rw [hkept] at he
        obtain ⟨row', hrow, heq⟩ := ih.best e he
        exact ⟨row', mem_append_left _ hrow, heq⟩
      · rw [hnew] at he
        exact ⟨row, by simp, (Option.some.inj he).symm⟩
    · rw [select, updateBestAgree_best_max_rt] at hscore
      rw [select, updateBestAgree_best]
      rcases hbest with ⟨hkept, hsame, -⟩ | ⟨hnew, -⟩
      · rw [hkept]
        exact ih.scored (hsame ▸ hscore)
      · rw [hnew]
        exact some_ne_none _
    · rw [select, updateBestAgree_sufficient, updateBest_sufficient] at hnone
      rw [select, updateBestAgree_best]
      rcases hbest with ⟨hkept, -, hscored⟩ | ⟨hnew, -⟩
      · rw [hkept]
        exact ih.scored (hscored hnone)
      · rw [hnew]
        exact some_ne_none _
    · rw [select_best_agree] at hagree
      split at hagree
      · exact mem_append_right _ (by simp [Option.some.inj hagree])
      · exact mem_append_left _ (ih.best_agree best hagree)

/-- A best agreement is only ever replaced by another one. -/
theorem best_agree_append (rows post : List (Row R)) (h : (pass rows).best_agree ≠ none) :
    (pass (rows ++ post)).best_agree ≠ none := by
  induction post using List.reverseRecOn with
  | nil => rwa [append_nil]
  | append_singleton post row ih =>
    rw [← append_assoc, pass_concat, select_best_agree]
    split
    · exact some_ne_none _
    · exact ih

/-! ## The entries -/

omit [StatNumber R] in
theorem agreesFirst_perm (entries : List (Entry R)) : (agreesFirst entries).Perm entries := by
  have hsides : entries.filter (·.repful = .disagree) = entries.filter fun e => !decide (e.repful = .agree) := by
    refine filter_congr fun e _ => ?_
    cases e.repful <;> rfl
  rw [agreesFirst, hsides]
  exact filter_append_perm _ _

omit [StatNumber R] in
theorem agreesFirst_pairwise (entries : List (Entry R)) :
    (agreesFirst entries).Pairwise fun a b => b.repful = .agree → a.repful = .agree := by
  have hagree : ∀ a ∈ entries.filter (·.repful = .agree), a.repful = .agree := fun a ha => by
    simpa using (mem_filter.1 ha).2
  have hdisagree : ∀ a ∈ entries.filter (·.repful = .disagree), a.repful = .disagree := fun a ha => by
    simpa using (mem_filter.1 ha).2
  refine pairwise_append.2 ⟨?_, ?_, fun a ha _ _ _ => hagree a ha⟩
  · exact List.Pairwise.imp_of_mem (fun ha _ _ _ => hagree _ ha) (pairwise_of_forall fun _ _ => trivial)
  · refine List.Pairwise.imp_of_mem (fun _ hb _ heq => ?_) (pairwise_of_forall fun _ _ => trivial)
    rw [hdisagree _ hb] at heq
    cases heq

omit [StatNumber R] in
theorem iter_df_perm : (iter_df stats_df preserve_order).Perm stats_df := by
  unfold iter_df
  split
  · exact .refl _
  · exact perm_insertionSort _ _

omit [StatNumber R] in
theorem mem_eligible : row ∈ eligible stats_df mod_out preserve_order ↔ row ∈ stats_df ∧ row.comment ∉ mod_out := by
  rw [eligible, mem_filter, iter_df_perm.mem_iff, decide_eq_true_iff]

omit [StatNumber R] in
theorem eligible_nodup (h : (stats_df.map (·.comment)).Nodup) :
    ((eligible stats_df mod_out preserve_order).map (·.comment)).Nodup :=
  ((iter_df_perm.map _).nodup_iff.2 h).sublist (filter_sublist.map _)

/-- The entries beside the best agreement. -/
structure Beside (rows : List (Row R)) (best_agree : Option (Row R)) (rep_df : List (Entry R)) : Prop where
  few : rep_df.length + best_agree.toList.length ≤ 5
  distinct : (rep_df.map (·.comment_id)).Nodup
  others : ∀ e ∈ rep_df, some e.comment_id ≠ best_agree.map (·.comment)
  ofRow : ∀ e ∈ rep_df, ∃ row ∈ rows, e = finalize_row_for_output row false
  passing : (∃ row ∈ rows, passes_by_test row) → ∀ e ∈ rep_df,
    ∃ row ∈ rows, passes_by_test row ∧ e = finalize_row_for_output row false
  leftOut : ∀ row ∈ rows, passes_by_test row → some row.comment ≠ best_agree.map (·.comment) →
    row.comment ∉ rep_df.map (·.comment_id) →
    ∀ e ∈ rep_df, sort_key (finalize_row_for_output row false) ≤ sort_key e
  empty : rep_df = [] → best_agree = none → rows = []

theorem mem_sufficient (h : Passed rows s) (he : e ∈ s.sufficient) :
    ∃ row ∈ rows, passes_by_test row ∧ e = finalize_row_for_output row false := by
  rw [h.sufficient, List.mem_map] at he
  obtain ⟨row, hrow, rfl⟩ := he
  exact ⟨row, (mem_filter.1 hrow).1, (mem_filter.1 hrow).2, rfl⟩

theorem sufficient_ne_nil (h : Passed rows s) (hrow : row ∈ rows) (hpass : passes_by_test row) :
    s.sufficient ≠ [] := by
  rw [h.sufficient]
  exact ne_nil_of_mem (mem_map_of_mem (mem_filter.2 ⟨hrow, hpass⟩))

/-- The entries when some row is sufficient. -/
theorem beside_ranked (h : Passed rows s) (hrows : (rows.map (·.comment)).Nodup) (hsome : s.sufficient ≠ []) :
    Beside rows s.best_agree (agreesFirst (ranked sort_key (5 - if s.best_agree.isSome then 1 else 0)
      (s.sufficient.filter fun entry => some entry.comment_id ≠ s.best_agree.map (·.comment)))) := by
  generalize hdeduped : s.sufficient.filter (fun entry => some entry.comment_id ≠ s.best_agree.map (·.comment)) =
    deduped
  generalize hcap : (5 - if s.best_agree.isSome then 1 else 0) = cap
  have hperm := agreesFirst_perm (ranked sort_key cap deduped)
  have hmem : ∀ e ∈ deduped, e ∈ s.sufficient ∧ some e.comment_id ≠ s.best_agree.map (·.comment) := fun e he => by
    rw [← hdeduped, mem_filter] at he
    exact ⟨he.1, of_decide_eq_true he.2⟩
  have hnodup : (deduped.map (·.comment_id)).Nodup := by
    have hall : (s.sufficient.map (·.comment_id)).Nodup := by
      rw [h.sufficient, List.map_map]
      exact hrows.sublist (filter_sublist.map _)
    rw [← hdeduped]
    exact hall.sublist (filter_sublist.map _)
  have hranked : ∀ {e}, e ∈ agreesFirst (ranked sort_key cap deduped) → e ∈ ranked sort_key cap deduped :=
    fun he => hperm.mem_iff.1 he
  refine ⟨?_, ?_, fun e he => ?_, fun e he => ?_, fun _ e he => ?_, fun row hrow hpass hother hout e he => ?_, ?_⟩
  · rw [hperm.length_eq]
    have := @length_ranked_le _ _ _ (sort_key (R := R)) cap deduped
    rw [← hcap] at this ⊢
    cases hagree : s.best_agree with
    | none | some => simp [hagree] at this ⊢; omega
  · exact (hperm.map _).nodup_iff.2 (ranked_map_nodup hnodup)
  · exact (hmem e (mem_of_mem_ranked (hranked he))).2
  · obtain ⟨row, hrow, -, heq⟩ := mem_sufficient h (hmem e (mem_of_mem_ranked (hranked he))).1
    exact ⟨row, hrow, heq⟩
  · exact mem_sufficient h (hmem e (mem_of_mem_ranked (hranked he))).1
  · -- A row that passes and is not shown was cut off from the ranking.
    refine ranked_le (hranked he) ?_ fun hkept => hout (mem_map.2 ⟨_, hperm.mem_iff.2 hkept, rfl⟩)
    rw [← hdeduped, mem_filter]
    refine ⟨?_, decide_eq_true hother⟩
    rw [h.sufficient]
    exact mem_map_of_mem (mem_filter.2 ⟨hrow, hpass⟩)
  · intro hnil hnone
    have hfilter : deduped = s.sufficient := by
      rw [← hdeduped, hnone]
      exact filter_eq_self.2 fun _ _ => by simp
    refine absurd (List.Perm.nil_eq (hnil ▸ hperm)).symm (ranked_ne_nil ?_ (hfilter ▸ hsome))
    rw [← hcap, hnone]
    simp

/-- The entries beside the best agreement, and it. -/
theorem select_spec (hdistinct : (stats_df.map (·.comment)).Nodup) :
    let rows := eligible stats_df mod_out preserve_order
    Beside rows (pass rows).best_agree (select_rep_comments_df stats_df mod_out preserve_order).1 ∧
      (select_rep_comments_df stats_df mod_out preserve_order).2 =
        (pass rows).best_agree.map (finalize_row_for_output · true) := by
  intro rows
  have h := passed rows
  have hrows : (rows.map (·.comment)).Nodup := eligible_nodup hdistinct
  unfold select_rep_comments_df
  dsimp only
  rw [show eligible stats_df mod_out preserve_order = rows from rfl]
  generalize pass rows = s at h
  by_cases hnone : s.sufficient = []
  · have hfail : ∀ row ∈ rows, ¬ passes_by_test row := fun row hrow hpass =>
      sufficient_ne_nil h hrow hpass hnone
    rw [if_pos hnone]
    cases hagree : s.best_agree with
    | some best =>
      refine ⟨⟨by simp, nodup_nil, by simp, by simp, by simp, by simp, ?_⟩, rfl⟩
      rintro _ ⟨⟩
    | none =>
      rw [map_none]
      refine ⟨⟨?_, ?_, by simp, fun e he => ?_, ?_, fun row hrow hpass => ?_, fun hnil _ => ?_⟩, rfl⟩
      · cases s.best <;> simp
      · cases s.best <;> simp
      · exact h.best e (mem_toList.1 he)
      · rintro ⟨row, hrow, hpass⟩
        exact absurd hpass (hfail row hrow)
      · exact absurd hpass (hfail row hrow)
      · by_contra hne
        exact h.some_best hnone hne (toList_eq_nil_iff.1 hnil)
  · rw [if_neg hnone, isSome_map]
    exact ⟨beside_ranked h hrows hnone, rfl⟩

/-- The entries of a group. -/
theorem assemble_rep_comments_spec (hdistinct : (stats_df.map (·.comment)).Nodup) :
    RepComments stats_df mod_out preserve_order (assemble_rep_comments stats_df mod_out preserve_order) := by
  obtain ⟨hbeside, hhead⟩ := @select_spec R _ stats_df mod_out preserve_order hdistinct
  have heq : assemble_rep_comments stats_df mod_out preserve_order =
      agreesFirst ((select_rep_comments_df stats_df mod_out preserve_order).2.toList ++
        (select_rep_comments_df stats_df mod_out preserve_order).1) := rfl
  rw [heq, hhead]
  have hbest := (passed (eligible stats_df mod_out preserve_order)).best_agree
  have happend : ∀ pre row post, eligible stats_df mod_out preserve_order = pre ++ row :: post →
      beats_best_agr row (pass pre).best_agree →
      (pass (eligible stats_df mod_out preserve_order)).best_agree ≠ none := fun pre row post hsplit hbeats => by
    have hpre : (pass (pre ++ [row])).best_agree ≠ none := by
      rw [pass_concat, select_best_agree, if_pos hbeats]
      exact some_ne_none _
    rw [hsplit, append_cons]
    exact best_agree_append _ post hpre
  generalize (select_rep_comments_df stats_df mod_out preserve_order).1 = rep_df at hbeside
  generalize hagree : (pass (eligible stats_df mod_out preserve_order)).best_agree = best_agree at *
  have hperm := agreesFirst_perm ((best_agree.map (finalize_row_for_output · true)).toList ++ rep_df)
  have hpairwise := agreesFirst_pairwise ((best_agree.map (finalize_row_for_output · true)).toList ++ rep_df)
  have hmem : ∀ {e}, e ∈ agreesFirst ((best_agree.map (finalize_row_for_output · true)).toList ++ rep_df) ↔
      (∃ best, best_agree = some best ∧ e = finalize_row_for_output best true) ∨ e ∈ rep_df := by
    intro e
    rw [hperm.mem_iff, mem_append, mem_toList]
    cases best_agree <;> simp [eq_comm]
  generalize agreesFirst ((best_agree.map (finalize_row_for_output · true)).toList ++ rep_df) = entries at *
  have hids : (entries.map (·.comment_id)).Perm
      ((best_agree.map (·.comment)).toList ++ rep_df.map (·.comment_id)) := by
    refine (hperm.map _).trans (List.Perm.of_eq ?_)
    rw [map_append]
    cases best_agree <;> rfl
  -- An entry that is not flagged is beside the best agreement.
  have hplain : ∀ e ∈ entries, ¬ e.best_agree → e ∈ rep_df := fun e he hflag => by
    rcases hmem.1 he with ⟨best, -, rfl⟩ | he
    · exact absurd rfl hflag
    · exact he
  refine ⟨?few, ?distinct, ?eligible, hpairwise, ?bestAgree, ?flagged, ?passing, ?empty⟩
  case few =>
    have hlen := hbeside.few
    rw [hperm.length_eq, length_append]
    cases best_agree <;> simp at hlen ⊢ <;> omega
  case distinct =>
    refine hids.nodup_iff.2 (nodup_append.2 ⟨?_, hbeside.distinct, ?_⟩)
    · cases best_agree <;> simp
    · rintro a ha b hb rfl
      obtain ⟨e, he, rfl⟩ := mem_map.1 hb
      exact hbeside.others e he (mem_toList.1 ha).symm
  case eligible =>
    intro e he
    rcases hmem.1 he with ⟨best, hsome, rfl⟩ | he
    · obtain ⟨hrow, hout⟩ := mem_eligible.1 (hbest best hsome)
      exact ⟨hout, best, hrow, rfl⟩
    · obtain ⟨row, hrow, rfl⟩ := hbeside.ofRow e he
      obtain ⟨hrow, hout⟩ := mem_eligible.1 hrow
      exact ⟨hout, row, hrow, rfl⟩
  case bestAgree =>
    intro pre row post hsplit hbeats
    obtain ⟨best, hsome⟩ := ne_none_iff_exists'.1 (happend pre row post hsplit hbeats)
    exact ⟨best, hagree.trans hsome, hmem.2 (.inl ⟨best, hsome, rfl⟩)⟩
  case flagged =>
    intro e he hflag
    rcases hmem.1 he with ⟨best, hsome, rfl⟩ | he
    · exact ⟨best, hagree.trans hsome, rfl⟩
    · obtain ⟨row, -, rfl⟩ := hbeside.ofRow e he
      exact absurd hflag (by simp [finalize_row_for_output])
  case passing =>
    rintro ⟨row, hrow, hout, hpass⟩
    refine ⟨fun e he hflag => ?_, fun row hrow hout hpass hshown e he hflag => ?_⟩
    · obtain ⟨row, hrow, hpass, heq⟩ :=
        hbeside.passing ⟨row, mem_eligible.2 ⟨hrow, hout⟩, hpass⟩ e (hplain e he hflag)
      exact ⟨row, (mem_eligible.1 hrow).1, hpass, heq⟩
    · rw [hids.mem_iff, mem_append, not_or] at hshown
      exact hbeside.leftOut row (mem_eligible.2 ⟨hrow, hout⟩) hpass
        (fun hsome => hshown.1 (mem_toList.2 hsome.symm)) hshown.2 e (hplain e he hflag)
  case empty =>
    intro hnil row hrow
    subst hnil
    have hrep : rep_df = [] := eq_nil_iff_forall_not_mem.2 fun e he => nomatch hmem.2 (.inr he)
    have hnone : best_agree = none := eq_none_iff_forall_ne_some.2 fun best hsome =>
      nomatch hmem.2 (.inl ⟨best, hsome, rfl⟩)
    by_contra hout
    have hmem : row ∈ eligible stats_df mod_out preserve_order := mem_eligible.2 ⟨hrow, hout⟩
    rw [hbeside.empty hrep hnone] at hmem
    cases hmem

/-- Exact numbers, with no loss in single precision. -/
private instance : StatNumber ℚ where
  toLinearOrder := inferInstance
  toMul := inferInstance
  toOne := inferInstance
  Z_90 := 12816 / 10000
  half := 1 / 2
  float32 := id

private def sampleRow (comment : ℤ) (rat rdt pat pdt agree_metric disagree_metric : ℚ) : Row ℚ :=
  { na := 3, nd := 1, ns := 4, pa := 2 / 3, pd := 1 / 3, pat, pdt, ra := 2, rd := 1 / 2, rat, rdt, agree_metric,
    disagree_metric, comment, group_id := 0 }

/-- Seven rows that pass: the first is best agreed on, the second moderated out and the last cut off. -/
private def sampleRows : List (Row ℚ) :=
  [sampleRow 0 2 1 2 1 6 1, sampleRow 1 2 1 2 1 5 1, sampleRow 2 1 2 1 2 1 9, sampleRow 3 2 1 2 1 4 1,
    sampleRow 4 2 1 2 1 3 1, sampleRow 5 2 1 2 1 2 1, sampleRow 6 2 1 2 1 1 1]

theorem sample_entries : RepComments sampleRows [1] false (assemble_rep_comments sampleRows [1] false) ∧
    (assemble_rep_comments sampleRows [1] false).map (·.comment_id) = [0, 3, 4, 5, 2] :=
  ⟨assemble_rep_comments_spec (by decide), by decide +kernel⟩

end Polis.Repness
