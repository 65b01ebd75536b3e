import Polis.Poller.Window
import Polis.Common.Run
import Mathlib.Data.List.Count

/-!
# Every committed row is handled once

The window counts copies, so the statements count copies too: after a poll, the polls so far have
handled every row as often as it had been committed.

Reference: `polismath/poller/service.py`.
-/

set_option linter.unusedSectionVars false

namespace Polis.Poller

open List

variable {ρ κ γ : Type*} [DecidableEq ρ] [DecidableEq κ] [DecidableEq γ] {kind : WindowKind ρ κ γ}
variable {es : List (PollEvent ρ κ γ)} {s s' : PollState ρ κ γ} {rows : List ρ} {overlapMs start : ℤ}
  {e : PollEvent ρ κ γ}

/-! ## Watermarks -/

theorem le_advanceWatermark (current : ℤ) (timestamps : List (Option ℤ)) :
    current ≤ advanceWatermark current timestamps := by
  unfold advanceWatermark
  induction timestamps generalizing current with
  | nil => exact le_rfl
  | cons ts timestamps ih =>
    rw [foldl_cons]
    refine le_trans ?_ (ih _)
    cases ts with
    | none => exact le_rfl
    | some ts =>
      dsimp only
      split
      · next h => exact h.le
      · exact le_rfl

/-! ## Dividing a poll -/

theorem splitLoop_cons (win : PollWindow κ γ) (remaining : κ → ℕ) (row : ρ) (rows : List ρ) :
    win.splitLoop kind remaining (row :: rows) =
      if remaining (kind.key row) ≠ 0 then
        win.splitLoop kind
          (fun k => if k = kind.key row then remaining (kind.key row) - 1 else remaining k) rows
      else if win.supersedes kind row then
        ((win.splitLoop kind remaining rows).1, row :: (win.splitLoop kind remaining rows).2)
      else (row :: (win.splitLoop kind remaining rows).1, (win.splitLoop kind remaining rows).2) :=
  rfl

/-- A row is handled now as often as it was read beyond the copies already handled. -/
theorem splitLoop_count (hkey : Function.Injective kind.key) (win : PollWindow κ γ)
    (remaining : κ → ℕ) (rows : List ρ) (row : ρ) :
    (win.splitLoop kind remaining rows).1.count row +
        (win.splitLoop kind remaining rows).2.count row =
      rows.count row - remaining (kind.key row) := by
  induction rows generalizing remaining with
  | nil => simp [PollWindow.splitLoop]
  | cons a rows ih =>
    rw [splitLoop_cons]
    by_cases hcopies : remaining (kind.key a) ≠ 0
    · rw [if_pos hcopies, ih]
      by_cases hrow : a = row
      · subst hrow
        rw [if_pos rfl, count_cons_self]
        omega
      · rw [if_neg fun h => hrow (hkey h).symm, count_cons_of_ne hrow]
    · rw [if_neg hcopies]
      have ih := ih remaining
      by_cases hrow : a = row
      · subst hrow
        split <;> simp only [count_cons_self] <;> omega
      · split <;> simp only [count_cons_of_ne hrow, ih]

/-- Where a handled row stands: superseded rows have a newer row of their cell, fresh ones not. -/
theorem splitLoop_supersedes (win : PollWindow κ γ) (remaining : κ → ℕ) (rows : List ρ) :
    (∀ row ∈ (win.splitLoop kind remaining rows).1, win.supersedes kind row = false) ∧
    ∀ row ∈ (win.splitLoop kind remaining rows).2, win.supersedes kind row = true := by
  induction rows generalizing remaining with
  | nil => simp [PollWindow.splitLoop]
  | cons a rows ih =>
    rw [splitLoop_cons]
    split
    · exact ih _
    · obtain ⟨hfresh, hsuperseded⟩ := ih remaining
      split
      · next h => exact ⟨hfresh, forall_mem_cons.2 ⟨h, hsuperseded⟩⟩
      · next h => exact ⟨forall_mem_cons.2 ⟨by simpa using h, hfresh⟩, hsuperseded⟩

/-! ## The next window -/

theorem advanced_handled (hkey : Function.Injective kind.key) (win : PollWindow κ γ)
    (rows : List ρ) (watermark overlapMs : ℤ) (row : ρ)
    (h : (win.advanced kind rows watermark overlapMs).lower < kind.stamp row) :
    (win.advanced kind rows watermark overlapMs).handled (kind.key row) = rows.count row := by
  unfold PollWindow.advanced at h ⊢
  dsimp only at h ⊢
  rw [count_map_of_injective _ _ hkey, count_filter]
  exact decide_eq_true h

theorem advanced_newest_mem (win : PollWindow κ γ) {watermark overlapMs : ℤ}
    {cell : γ} {newest : ℤ}
    (h : (win.advanced kind rows watermark overlapMs).newest cell = some newest) :
    ∃ row ∈ rows, kind.cell row = some cell ∧ kind.stamp row = newest := by
  obtain ⟨row, hrow, hstamp⟩ := mem_map.1 (max?_eq_some_iff.1 h).1
  obtain ⟨hkept, hcell⟩ := mem_filter.1 hrow
  exact ⟨row, (mem_filter.1 hkept).1, of_decide_eq_true hcell, hstamp⟩

theorem advanced_newest (win : PollWindow κ γ) (watermark overlapMs : ℤ) {row : ρ}
    {cell : γ} (hrow : row ∈ rows) (hcell : kind.cell row = some cell)
    (h : (win.advanced kind rows watermark overlapMs).lower < kind.stamp row) :
    ∃ newest, (win.advanced kind rows watermark overlapMs).newest cell = some newest ∧
      kind.stamp row ≤ newest := by
  unfold PollWindow.advanced at h ⊢
  dsimp only at h ⊢
  have hmem : kind.stamp row ∈ ((rows.filter fun row =>
      max win.lower (watermark - overlapMs) < kind.stamp row).filter fun row =>
        kind.cell row = some cell).map kind.stamp :=
    mem_map_of_mem (mem_filter.2 ⟨mem_filter.2 ⟨hrow, decide_eq_true h⟩,
      decide_eq_true hcell⟩)
  cases hmax : (((rows.filter fun row =>
      max win.lower (watermark - overlapMs) < kind.stamp row).filter fun row =>
        kind.cell row = some cell).map kind.stamp).max? with
  | none => rw [max?_eq_none_iff.1 hmax] at hmem; simp at hmem
  | some newest => exact ⟨newest, rfl, (max?_eq_some_iff.1 hmax).2 _ hmem⟩

/-! ## One poll -/

/-- What a poll handles, counted: the copies it read beyond those its window had handled. -/
theorem cycle_outcome_count (hkey : Function.Injective kind.key) (overlapMs : ℤ)
    (s : PollState ρ κ γ) (rows : List ρ) (row : ρ) :
    (s.cycle kind overlapMs rows).outcome.count row =
      rows.count row - s.currentWindow.handled (kind.key row) := by
  rw [Cycle.outcome, count_append]
  exact splitLoop_count hkey _ _ _ _

/-- After a poll the stored window is the one the next poll works with. -/
theorem currentWindow_next (s : PollState ρ κ γ) (next : PollWindow κ γ) :
    ({ s with watermark := next.watermark, window := some next } :
      PollState ρ κ γ).currentWindow = next :=
  if_pos rfl

@[simp] theorem currentWindow_commit (s : PollState ρ κ γ) (rows : List ρ) :
    ({ s with committed := rows } : PollState ρ κ γ).currentWindow = s.currentWindow := rfl

theorem cycle_lower_le (kind : WindowKind ρ κ γ) (overlapMs : ℤ) (s : PollState ρ κ γ)
    (rows : List ρ) :
    s.currentWindow.lower ≤ (s.cycle kind overlapMs rows).next.lower :=
  le_max_left _ _

/-- Neither the watermark nor the lower bound ever moves down. -/
theorem step_monotone (h : s.Step kind overlapMs e s') :
    s.watermark ≤ s'.watermark ∧ s.currentWindow.lower ≤ s'.currentWindow.lower := by
  cases e with
  | commit row =>
    obtain rfl : s' = { s with committed := s.committed ++ [row] } := h
    exact ⟨le_rfl, le_rfl⟩
  | poll cycle =>
    obtain ⟨rows, -, rfl, rfl⟩ := h
    rw [currentWindow_next]
    exact ⟨le_advanceWatermark _ _, cycle_lower_le kind overlapMs s rows⟩

/-! ## What the window knows -/

@[simp] theorem commits_append (es es' : List (PollEvent ρ κ γ)) :
    commits (es ++ es') = commits es ++ commits es' :=
  filterMap_append

@[simp] theorem outcomes_append (es es' : List (PollEvent ρ κ γ)) :
    outcomes (es ++ es') = outcomes es ++ outcomes es' :=
  flatMap_append

@[simp] theorem commits_commit (row : ρ) :
    commits [(.commit row : PollEvent ρ κ γ)] = [row] := rfl

@[simp] theorem commits_poll (cycle : Cycle ρ κ γ) : commits [.poll cycle] = [] := rfl

@[simp] theorem outcomes_commit (row : ρ) :
    outcomes [(.commit row : PollEvent ρ κ γ)] = [] := rfl

@[simp] theorem outcomes_poll (cycle : Cycle ρ κ γ) : outcomes [.poll cycle] = cycle.outcome := by
  simp [outcomes]

/-- The window against the history: no row is handled more often than committed, and above the lower
bound the window knows the copies handled and a newest stamp for each cell. -/
structure Tracked (kind : WindowKind ρ κ γ) (es : List (PollEvent ρ κ γ))
    (s : PollState ρ κ γ) : Prop where
  committed : s.committed = commits es
  counted : ∀ row, (outcomes es).count row ≤ (commits es).count row
  handled : ∀ row, s.currentWindow.lower < kind.stamp row →
    s.currentWindow.handled (kind.key row) = (outcomes es).count row
  newest : ∀ row ∈ outcomes es, ∀ cell, kind.cell row = some cell →
    s.currentWindow.lower < kind.stamp row →
    ∃ newest, s.currentWindow.newest cell = some newest ∧ kind.stamp row ≤ newest
  newest_mem : ∀ cell newest, s.currentWindow.newest cell = some newest →
    ∃ row ∈ outcomes es, kind.cell row = some cell ∧ kind.stamp row = newest

theorem Tracked.init (watermark : ℤ) :
    Tracked kind [] (PollState.init watermark : PollState ρ κ γ) where
  committed := rfl
  counted := fun _ => le_rfl
  handled := fun _ _ => rfl
  newest := fun _ h => absurd h not_mem_nil
  newest_mem := fun _ _ h => by
    simp [PollState.currentWindow, PollState.init, PollWindow.start] at h

/-- The rows a poll reads, counted. -/
theorem count_read
    (h : rows.Perm (s.committed.filter fun row => s.currentWindow.lower < kind.stamp row))
    (row : ρ) :
    rows.count row =
      if s.currentWindow.lower < kind.stamp row then s.committed.count row else 0 := by
  rw [h.count_eq]
  split
  · next hlt => exact count_filter (decide_eq_true hlt)
  · next hle =>
      refine count_eq_zero.2 fun hmem => hle ?_
      exact of_decide_eq_true (mem_filter.1 hmem).2

/-- Above the lower bound of a poll its window knows every copy; so after it, every committed copy
is handled. Below, nothing is. -/
theorem Tracked.outcome_count (hkey : Function.Injective kind.key)
    (h : Tracked kind es s) (overlapMs : ℤ)
    (hrows : rows.Perm (s.committed.filter fun row => s.currentWindow.lower < kind.stamp row))
    (row : ρ) :
    (outcomes es).count row + (s.cycle kind overlapMs rows).outcome.count row =
      if s.currentWindow.lower < kind.stamp row then (commits es).count row
      else (outcomes es).count row := by
  rw [cycle_outcome_count hkey, count_read hrows]
  by_cases hlt : s.currentWindow.lower < kind.stamp row
  · have := h.counted row
    rw [if_pos hlt, if_pos hlt, h.handled row hlt, h.committed]
    omega
  · rw [if_neg hlt, if_neg hlt]
    omega

theorem Tracked.step (hkey : Function.Injective kind.key)
    (h : Tracked kind es s) (hs : s.Step kind overlapMs e s') :
    Tracked kind (es ++ [e]) s' := by
  cases e with
  | commit row =>
    obtain rfl : s' = { s with committed := s.committed ++ [row] } := hs
    refine ⟨by simp [h.committed], fun r => ?_, ?_, ?_, ?_⟩
    · have := h.counted r
      simp only [outcomes_append, outcomes_commit, append_nil, commits_append,
        count_append]
      omega
    · simpa using h.handled
    · simpa using h.newest
    · simpa using h.newest_mem
  | poll cycle =>
    obtain ⟨rows, hrows, rfl, rfl⟩ := hs
    have hcount := h.outcome_count hkey overlapMs hrows
    have hlower := cycle_lower_le kind overlapMs s rows
    have hall : ∀ r, s.currentWindow.lower < kind.stamp r →
        (outcomes (es ++ [.poll (s.cycle kind overlapMs rows)])).count r =
          (commits es).count r := fun r hr => by
      rw [outcomes_append, outcomes_poll, count_append, hcount, if_pos hr]
    refine ⟨by simp [h.committed], fun r => ?_, fun r hr => ?_, fun r hr cell hcell hlt => ?_,
      fun cell newest hnewest => ?_⟩
    · have := h.counted r
      simp only [outcomes_append, outcomes_poll, commits_append, commits_poll, append_nil,
        count_append, hcount]
      split <;> omega
    · rw [currentWindow_next] at hr ⊢
      rw [hall r (hlower.trans_lt hr), ← h.committed]
      refine (advanced_handled hkey _ rows _ _ r hr).trans ?_
      rw [count_read hrows, if_pos (hlower.trans_lt hr)]
    · rw [currentWindow_next] at hlt ⊢
      -- a handled row above the new lower bound was read by this poll
      have hread : r ∈ rows := by
        rw [← count_pos_iff, count_read hrows, if_pos (hlower.trans_lt hlt), h.committed,
          ← hall r (hlower.trans_lt hlt)]
        exact count_pos_iff.2 hr
      exact advanced_newest _ _ _ hread hcell hlt
    · rw [currentWindow_next] at hnewest
      obtain ⟨r, hr, hcell, hstamp⟩ := advanced_newest_mem _ hnewest
      obtain ⟨hr, hlt⟩ := mem_filter.1 (hrows.mem_iff.1 hr)
      refine ⟨r, ?_, hcell, hstamp⟩
      rw [← count_pos_iff, hall r (of_decide_eq_true hlt), ← h.committed]
      exact count_pos_iff.2 hr

/-- Every run keeps the window true to the history. -/
theorem run_tracked (hkey : Function.Injective kind.key)
    (h : Run (PollState.Step kind overlapMs) (.init start) es s) : Tracked kind es s :=
  h.invariant (Tracked kind) (Tracked.init start) fun _ _ _ _ _ hi hs => hi.step hkey hs

/-- Every handled row has been committed. -/
theorem Tracked.outcomes_subset (h : Tracked kind es s) : outcomes es ⊆ commits es := fun row hrow =>
  count_pos_iff.1 ((count_pos_iff.2 hrow).trans_le (h.counted row))

/-- The lower bound stays at or above the start. -/
theorem run_start_le (h : Run (PollState.Step kind overlapMs) (.init start) es s) :
    start ≤ s.currentWindow.lower :=
  h.keeps (fun s => start ≤ s.currentWindow.lower) le_rfl fun _ _ _ hi hs =>
    hi.trans (step_monotone hs).2

/-- What a poll handles it has read. -/
theorem mem_read_of_mem_outcome (hkey : Function.Injective kind.key) {row : ρ}
    (h : row ∈ (s.cycle kind overlapMs rows).outcome) : row ∈ rows := by
  have hpos := count_pos_iff.2 h
  rw [cycle_outcome_count hkey] at hpos
  exact count_pos_iff.1 (by omega)

/-- A fresh row is at least as new as every row of its cell handled before. -/
theorem Tracked.fresh_newest (hkey : Function.Injective kind.key)
    (h : Tracked kind es s)
    (hrows : rows.Perm (s.committed.filter fun row => s.currentWindow.lower < kind.stamp row))
    {row row' : ρ} (hrow : row ∈ (s.cycle kind overlapMs rows).fresh) (hrow' : row' ∈ outcomes es)
    {cell : γ} (hcell : kind.cell row = some cell) (hcell' : kind.cell row' = some cell) :
    kind.stamp row' ≤ kind.stamp row := by
  by_cases hlt : s.currentWindow.lower < kind.stamp row'
  · obtain ⟨newest, hnewest, hle⟩ := h.newest row' hrow' cell hcell' hlt
    have hnot := (splitLoop_supersedes s.currentWindow _ rows).1 row hrow
    simp only [PollWindow.supersedes, hcell, Option.bind_some, hnewest, decide_eq_false_iff_not,
      not_lt] at hnot
    exact hle.trans hnot
  · have hread := mem_read_of_mem_outcome hkey (mem_append_left _ hrow)
    have := of_decide_eq_true (mem_filter.1 (hrows.mem_iff.1 hread)).2
    omega

/-- A superseded row is older than a row of its cell handled before, and than every fresh row of its
cell. -/
theorem Tracked.superseded_older (h : Tracked kind es s) {row : ρ}
    (hrow : row ∈ (s.cycle kind overlapMs rows).superseded) :
    ∃ cell, kind.cell row = some cell ∧
      (∃ row' ∈ outcomes es, kind.cell row' = some cell ∧ kind.stamp row < kind.stamp row') ∧
      ∀ row' ∈ (s.cycle kind overlapMs rows).fresh, kind.cell row' = some cell →
        kind.stamp row < kind.stamp row' := by
  have hsup := (splitLoop_supersedes s.currentWindow _ rows).2 row hrow
  rw [PollWindow.supersedes] at hsup
  cases hcell : kind.cell row with
  | none => simp [hcell] at hsup
  | some cell =>
    cases hnewest : s.currentWindow.newest cell with
    | none => simp [hcell, hnewest] at hsup
    | some newest =>
      simp only [hcell, Option.bind_some, hnewest, decide_eq_true_eq] at hsup
      obtain ⟨row', hrow', hcell', rfl⟩ := h.newest_mem cell newest hnewest
      refine ⟨cell, rfl, ⟨row', hrow', hcell', hsup⟩, fun row₂ hrow₂ hcell₂ => ?_⟩
      have hnot := (splitLoop_supersedes s.currentWindow _ rows).1 row₂ hrow₂
      simp only [PollWindow.supersedes, hcell₂, Option.bind_some, hnewest,
        decide_eq_false_iff_not, not_lt] at hnot
      exact hsup.trans_le hnot

/-! ## Exactly once -/

/-- Every row above the start commits before a poll whose `bound` has reached its stamp: the bound
of every earlier poll is below it. -/
def CommitsBefore (kind : WindowKind ρ κ γ) (bound : Cycle ρ κ γ → ℤ) (start : ℤ)
    (es : List (PollEvent ρ κ γ)) : Prop :=
  ∀ es₁ row es₂, es = es₁ ++ .commit row :: es₂ → start < kind.stamp row →
    ∀ cycle, .poll cycle ∈ es₁ → bound cycle < kind.stamp row

theorem CommitsBefore.nil (bound : Cycle ρ κ γ → ℤ) (start : ℤ) :
    CommitsBefore kind bound start [] := by
  intro es₁ row es₂ h
  simp at h

/-- One more event: a poll asks nothing, a commit asks for the polls so far. -/
theorem commitsBefore_snoc {bound : Cycle ρ κ γ → ℤ} {start : ℤ} :
    CommitsBefore kind bound start (es ++ [e]) ↔
      CommitsBefore kind bound start es ∧ ∀ row, e = .commit row → start < kind.stamp row →
        ∀ cycle, .poll cycle ∈ es → bound cycle < kind.stamp row := by
  constructor
  · refine fun h => ⟨fun es₁ row es₂ hes => h es₁ row (es₂ ++ [e]) (by simp [hes]), ?_⟩
    rintro row rfl
    exact h es row [] rfl
  · rintro ⟨h, hlast⟩ es₁ row es₂ hes
    rcases eq_nil_or_concat es₂ with rfl | ⟨es₂, e', rfl⟩
    · obtain ⟨rfl, he⟩ := append_inj' hes rfl
      exact hlast row (by simpa using he)
    · rw [concat_eq_append, ← cons_append, ← append_assoc] at hes
      obtain ⟨rfl, -⟩ := append_inj' hes rfl
      exact h es₁ row es₂ rfl

/-- The window of a timely history: at or below its lower bound nothing is left unhandled. -/
structure Complete (kind : WindowKind ρ κ γ) (start : ℤ) (es : List (PollEvent ρ κ γ))
    (s : PollState ρ κ γ) : Prop where
  lower_left : s.currentWindow.lower = start ∨
    ∃ cycle, .poll cycle ∈ es ∧ cycle.next.lower = s.currentWindow.lower
  complete : ∀ row, start < kind.stamp row → kind.stamp row ≤ s.currentWindow.lower →
    (outcomes es).count row = (commits es).count row

theorem Complete.init (start : ℤ) :
    Complete kind start [] (PollState.init start : PollState ρ κ γ) where
  lower_left := .inl rfl
  complete := fun _ _ _ => rfl

/-- After a poll of a timely history every committed copy has been handled. -/
theorem Complete.poll (hkey : Function.Injective kind.key)
    {cycle : Cycle ρ κ γ}
    (h : Complete kind start es s) (ht : Tracked kind es s)
    (hs : s.Step kind overlapMs (.poll cycle) s') {row : ρ} (hrow : start < kind.stamp row) :
    (outcomes (es ++ [.poll cycle])).count row = (commits es).count row := by
  obtain ⟨rows, hrows, rfl, rfl⟩ := hs
  rw [outcomes_append, outcomes_poll, count_append, ht.outcome_count hkey overlapMs hrows]
  split
  · rfl
  · next hle => exact h.complete row hrow (not_lt.1 hle)

theorem Complete.step (hkey : Function.Injective kind.key)
    (h : Complete kind start es s) (ht : Tracked kind es s) (hs : s.Step kind overlapMs e s')
    (htimely : CommitsBefore kind (fun cycle => cycle.next.lower) start (es ++ [e])) :
    Complete kind start (es ++ [e]) s' := by
  cases e with
  | commit row =>
    obtain rfl : s' = { s with committed := s.committed ++ [row] } := hs
    refine ⟨?_, fun r hr hle => ?_⟩
    · rw [currentWindow_commit]
      exact h.lower_left.imp_right fun ⟨cycle, hc, heq⟩ =>
        ⟨cycle, mem_append_left _ hc, heq⟩
    · rw [currentWindow_commit] at hle
      -- the row just committed is above the lower bound the last poll left
      have hne : r ≠ row := by
        rintro rfl
        rcases h.lower_left with hlower | ⟨cycle, hc, hlower⟩
        · omega
        · have := (commitsBefore_snoc.1 htimely).2 r rfl hr cycle hc
          omega
      have hzero : [row].count r = 0 := count_eq_zero.2 (by simpa using hne)
      simp [h.complete r hr hle, hzero]
  | poll cycle =>
    refine ⟨.inr ⟨cycle, by simp, ?_⟩, fun r hr _ => ?_⟩
    · obtain ⟨rows, -, rfl, rfl⟩ := hs
      rw [currentWindow_next]
    · rw [h.poll hkey ht hs hr]
      simp

theorem run_complete (hkey : Function.Injective kind.key)
    (h : Run (PollState.Step kind overlapMs) (.init start) es s)
    (htimely : CommitsBefore kind (fun cycle => cycle.next.lower) start es) :
    Complete kind start es s := by
  induction h with
  | nil => exact Complete.init start
  | snoc hrun hs ih =>
    exact (ih (commitsBefore_snoc.1 htimely).1).step hkey (run_tracked hkey hrun) hs htimely

/-! ## The vote poll -/

theorem voteKind_key_injective : Function.Injective voteKind.key := by
  intro r r' h
  cases r
  cases r'
  simp only [voteKind, Prod.mk.injEq] at h
  obtain ⟨rfl, rfl, rfl, rfl, rfl⟩ := h
  rfl

/-- The vote poll handles every committed row exactly once. When each row above the starting
watermark commits while the lower bound left by every earlier poll is still below its stamp, then
after each poll the polls so far have listed it, as fresh or superseded, as often as it had been
committed. At no time has a row been listed more often than committed, and neither the watermark nor
the lower bound ever moves down. -/
theorem votePoll_exactly_once {overlapMs start : ℤ}
    {es : List (PollEvent VoteRow VoteKey VoteCell)} {s : PollState VoteRow VoteKey VoteCell}
    (hrun : Run (PollState.Step voteKind overlapMs) (.init start) es s)
    (htimely : CommitsBefore voteKind (fun cycle => cycle.next.lower) start es) :
    (∀ es₁ cycle es₂, es = es₁ ++ .poll cycle :: es₂ → ∀ row : VoteRow, start < row.created →
      (outcomes (es₁ ++ [.poll cycle])).count row = (commits es₁).count row) ∧
    (∀ row, (outcomes es).count row ≤ (commits es).count row) ∧
    ∀ e s', s.Step voteKind overlapMs e s' →
      s.watermark ≤ s'.watermark ∧ s.currentWindow.lower ≤ s'.currentWindow.lower := by
  refine ⟨?_, (run_tracked voteKind_key_injective hrun).counted, fun e s' hs => step_monotone hs⟩
  rintro es₁ cycle es₂ rfl row hrow
  rw [← singleton_append, ← append_assoc] at hrun
  obtain ⟨s₂, hrun₂⟩ := hrun.prefix_run
  obtain ⟨s₁, hrun₁, hs⟩ := hrun₂.snoc_inv
  have htimely₁ : CommitsBefore voteKind (fun cycle => cycle.next.lower) start es₁ :=
    fun es row es₃ hes => htimely es row (es₃ ++ .poll cycle :: es₂) (by simp [hes])
  exact (run_complete voteKind_key_injective hrun₁ htimely₁).poll voteKind_key_injective
    (run_tracked voteKind_key_injective hrun₁) hs hrow

private def earlyRow : VoteRow := ⟨1, 1, 1, 1, 100000⟩

private def lateRow : VoteRow := ⟨1, 2, 1, 1, 30000⟩

private def afterEarly : PollState VoteRow VoteKey VoteCell :=
  { (PollState.init 0 : PollState VoteRow VoteKey VoteCell) with committed := [earlyRow] }

private def firstCycle (overlapMs : ℤ) : Cycle VoteRow VoteKey VoteCell :=
  afterEarly.cycle voteKind overlapMs [earlyRow]

private def afterLate (overlapMs : ℤ) : PollState VoteRow VoteKey VoteCell :=
  ⟨[earlyRow, lateRow], (firstCycle overlapMs).next.watermark, some (firstCycle overlapMs).next⟩

private def secondCycle (overlapMs : ℤ) (rows : List VoteRow) : Cycle VoteRow VoteKey VoteCell :=
  (afterLate overlapMs).cycle voteKind overlapMs rows

/-- A row is polled, an earlier-stamped one commits after it, and a second poll reads `rows`. -/
private def lateHistory (overlapMs : ℤ) (rows : List VoteRow) :
    List (PollEvent VoteRow VoteKey VoteCell) :=
  [.commit earlyRow, .poll (firstCycle overlapMs), .commit lateRow,
    .poll (secondCycle overlapMs rows)]

private theorem run_lateHistory (overlapMs : ℤ) (rows : List VoteRow)
    (hrows : rows.Perm ((afterLate overlapMs).committed.filter fun row =>
      (afterLate overlapMs).currentWindow.lower < voteKind.stamp row)) :
    ∃ s, Run (PollState.Step voteKind overlapMs) (.init 0) (lateHistory overlapMs rows) s := by
  have h₁ : Run (PollState.Step voteKind overlapMs) (.init 0) [.commit earlyRow] afterEarly :=
    .snoc .nil rfl
  have h₂ : Run (PollState.Step voteKind overlapMs) (.init 0)
      [.commit earlyRow, .poll (firstCycle overlapMs)] _ :=
    .snoc h₁ ⟨[earlyRow], .of_eq (by decide), rfl, rfl⟩
  have h₃ : Run (PollState.Step voteKind overlapMs) (.init 0)
      [.commit earlyRow, .poll (firstCycle overlapMs), .commit lateRow] (afterLate overlapMs) :=
    .snoc h₂ rfl
  exact ⟨_, .snoc h₃ ⟨rows, hrows, rfl, rfl⟩⟩

private theorem commitsBefore_lateHistory {bound : Cycle VoteRow VoteKey VoteCell → ℤ}
    {rows : List VoteRow} (h : bound (firstCycle overlapMs) < 30000) :
    CommitsBefore voteKind bound 0 (lateHistory overlapMs rows) := by
  have h₂ : CommitsBefore voteKind bound 0 ([.commit earlyRow] ++ [.poll (firstCycle overlapMs)]) :=
    commitsBefore_snoc.2 ⟨commitsBefore_snoc.2 ⟨.nil bound 0, by simp⟩, by simp⟩
  refine commitsBefore_snoc.2 ⟨commitsBefore_snoc.2 ⟨h₂, ?_⟩, by simp⟩
  rintro row hrow - cycle hcycle
  obtain rfl : lateRow = row := by simpa using hrow
  obtain rfl : cycle = firstCycle overlapMs := by simpa using hcycle
  exact h

/-- The row commits before the first poll whose own lower bound has reached its stamp, but after the
last poll that reads below it, and no poll ever lists it. -/
theorem votePoll_misses_late_commit :
    ∃ es s, Run (PollState.Step voteKind defaultVoteOverlapMs) (.init 0) es s ∧
      CommitsBefore voteKind (fun cycle => cycle.window.lower) 0 es ∧
      (∃ es₁ cycle, es = es₁ ++ [.poll cycle] ∧ (commits es₁).count lateRow = 1) ∧
      (0 : ℤ) < lateRow.created ∧ (outcomes es).count lateRow = 0 := by
  obtain ⟨s, hrun⟩ := run_lateHistory defaultVoteOverlapMs [earlyRow] (by decide)
  exact ⟨_, s, hrun, commitsBefore_lateHistory (by decide),
    ⟨[.commit earlyRow, .poll (firstCycle _), .commit lateRow], _, rfl, by decide⟩,
    by decide, by decide⟩

/-- With a longer overlap the second poll still reads the late row, and lists it once. -/
theorem votePoll_exactly_once_late_commit :
    (outcomes (lateHistory 80000 [lateRow, earlyRow])).count lateRow = 1 := by
  obtain ⟨s, hrun⟩ := run_lateHistory 80000 [lateRow, earlyRow] (by decide)
  exact (votePoll_exactly_once hrun (commitsBefore_lateHistory (by decide))).1
    [.commit earlyRow, .poll (firstCycle _), .commit lateRow] _ [] rfl lateRow (by decide)

end Polis.Poller
