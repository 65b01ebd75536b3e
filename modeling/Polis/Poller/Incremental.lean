import Polis.Poller.WindowTheorems
import Polis.Conversation.VotesTheorems
import Mathlib.Data.List.Pairwise

/-!
# Incremental ingestion equals a rebuild

Applying each poll's fresh rows in poll order leaves in every cell the vote that the full history
leaves there. Within a poll the engine takes the newest row; across polls a fresh row is never older
than what was handled before it; and a superseded row is older than a row that was applied.

Reference: `polismath/poller/service.py`.
-/

set_option linter.unusedSectionVars false

namespace Polis.Poller

open Clustering List VoteRow

variable {K : Type*} [Field K] [LinearOrder K] [Numerics K]

/-! ## Applying polled rows -/

/-- A polled row as the engine reads it. -/
def VoteRow.toDict (row : VoteRow) : VoteDict :=
  ⟨some row.pid, some row.tid, some (.num row.vote), some row.created⟩

/-- The vote the engine stores for a row. -/
def VoteRow.value (row : VoteRow) : Vote := .ofNum row.vote

/-- The rows of one conversation: a batch of `_group_by_zid`. -/
def ofZid (zid : ℤ) (rows : List VoteRow) : List VoteRow := rows.filter fun row => row.zid = zid

/-- The vote step of `_compute_and_publish` and of `_load_or_init`. -/
def applyVotes (c : Conversation K) (votes : List VoteRow) : Conversation K :=
  if votes.isEmpty then c
  else
    let lastTs := advanceWatermark c.lastUpdated (votes.map fun v => some v.created)
    c.updateVotes ⟨votes.map toDict, some lastTs⟩ false

/-- The polls of a history applied to the cached conversation of a zid, each poll's fresh rows as
one batch. -/
def applyPolls (zid : ℤ) (c : Conversation K) (es : List (PollEvent VoteRow VoteKey VoteCell)) :
    Conversation K :=
  es.foldl (fun c e =>
    match e with
    | .commit _ => c
    | .poll cycle => applyVotes c (ofZid zid cycle.fresh)) c

/-- Whether a row is for the cell. -/
def VoteRow.hits (zid p t : ℤ) (row : VoteRow) : Bool :=
  row.zid = zid && row.pid = p && row.tid = t

/-- In every cell of the raw matrix, the vote of greatest `created` for it in the log. -/
def HoldsNewest (zid : ℤ) (log : List VoteRow) (c : Conversation K) : Prop :=
  ∀ p t, c.rawRatingMat.cell p t =
    (newest created (hits zid p t) log).map value

/-- The rows of one conversation decide its cells. -/
theorem newest_ofZid (zid p t : ℤ) (rows : List VoteRow) :
    newest created (hits zid p t) (ofZid zid rows) =
      newest created (hits zid p t) rows := by
  unfold ofZid
  induction rows with
  | nil => rfl
  | cons row rows ih =>
    rw [filter_cons, newest]
    by_cases hzid : row.zid = zid
    · rw [if_pos (decide_eq_true hzid), newest, ih]
    · rw [if_neg (by simpa using hzid), ih]
      have hmiss : row.hits zid p t = false := by simp [hits, hzid]
      cases newest created (hits zid p t) rows <;> simp [hmiss]

/-- The update the engine makes of a row. -/
def VoteRow.toUpdate (row : VoteRow) : VoteUpdate :=
  ⟨row.pid, row.tid, some row.value, row.created⟩

theorem acceptedUpdates_toDict (c : Conversation K) (rows : List VoteRow) (last : Option ℤ) :
    c.acceptedUpdates ⟨rows.map toDict, last⟩ = rows.map toUpdate := by
  rw [Conversation.acceptedUpdates, filterMap_map]
  refine Eq.trans (filterMap_congr fun row _ => ?_)
    (congrFun (List.filterMap_eq_map (f := toUpdate)) rows)
  simp [toDict, toUpdate, VoteDict.update?, VoteValue.convert, value]

/-- A batch is one ingestion of its rows. -/
theorem applyVotes_eq (c : Conversation K) (rows : List VoteRow) :
    ∃ last, applyVotes c rows = c.ingestVotes ⟨rows.map toDict, last⟩ := by
  unfold applyVotes
  by_cases hempty : rows.isEmpty
  · refine ⟨none, ?_⟩
    rw [if_pos hempty, Conversation.ingestVotes, if_pos (by simpa using hempty)]
  · refine ⟨some (advanceWatermark c.lastUpdated (rows.map fun v => some v.created)), ?_⟩
    rw [if_neg hempty, Conversation.updateVotes, if_neg (by simpa using hempty)]
    rfl

/-- A cell after a batch: the newest row of the batch for it, else what it held. -/
theorem applyVotes_cell (c : Conversation K) (zid : ℤ) (rows : List VoteRow) (p t : ℤ) :
    (applyVotes c (ofZid zid rows)).rawRatingMat.cell p t =
      match newest created (hits zid p t) rows with
      | some row => some row.value
      | none => c.rawRatingMat.cell p t := by
  rw [← newest_ofZid]
  obtain ⟨last, hlast⟩ := applyVotes_eq c (ofZid zid rows)
  rw [hlast, ingestVotes_cell, acceptedUpdates_toDict, newest_map]
  have hhits : ∀ row ∈ ofZid zid rows,
      (VoteUpdate.hits p t ∘ toUpdate) row = row.hits zid p t := fun row hrow => by
    have hzid : row.zid = zid := of_decide_eq_true (mem_filter.1 hrow).2
    simp only [Function.comp_apply, VoteUpdate.hits, toUpdate, hits, hzid,
      decide_true, Bool.true_and]
    rfl
  have hstamp : VoteUpdate.created ∘ toUpdate = created := rfl
  rw [newest_congr hhits, hstamp]
  cases newest created (hits zid p t) (ofZid zid rows) <;> rfl

theorem applyPolls_append (zid : ℤ) (c : Conversation K)
    (es es' : List (PollEvent VoteRow VoteKey VoteCell)) :
    applyPolls zid c (es ++ es') = applyPolls zid (applyPolls zid c es) es' :=
  foldl_append

/-! ## Distinct stamps -/

/-- No two rows of one cell share a stamp. -/
def DistinctStamps (log : List VoteRow) : Prop :=
  log.Pairwise fun row row' => voteKind.cell row = voteKind.cell row' → row.created ≠ row'.created

/-- Rows of one cell with the same stamp are the same row. -/
theorem DistinctStamps.eq_of {log : List VoteRow} (h : DistinctStamps log) {row row' : VoteRow}
    (hrow : row ∈ log) (hrow' : row' ∈ log) (hcell : voteKind.cell row = voteKind.cell row')
    (hstamp : row.created = row'.created) : row = row' := by
  by_contra hne
  have : Std.Symm fun row row' : VoteRow =>
      voteKind.cell row = voteKind.cell row' → row.created ≠ row'.created :=
    ⟨fun _ _ h hcell hstamp => h hcell.symm hstamp.symm⟩
  exact List.Pairwise.forall h hrow hrow' hne hcell hstamp

theorem hits_iff {zid p t : ℤ} {row : VoteRow} :
    row.hits zid p t = true ↔ voteKind.cell row = some (zid, p, t) := by
  simp [hits, voteKind, and_assoc]

/-- With distinct stamps the newest row of a cell is the one no row of the cell is newer than. -/
theorem newest_eq_of_le {log rows : List VoteRow} (h : DistinctStamps log) (hrows : rows ⊆ log)
    {zid p t : ℤ} {row : VoteRow} (hrow : row ∈ rows) (hhit : row.hits zid p t = true)
    (hle : ∀ row' ∈ rows, row'.hits zid p t = true → row'.created ≤ row.created) :
    newest created (hits zid p t) rows = some row := by
  refine newest_of_max hrow hhit fun row' hrow' hhit' => ?_
  rcases (hle row' hrow' hhit').lt_or_eq with hlt | heq
  · exact .inr hlt
  · exact .inl (h.eq_of (hrows hrow') (hrows hrow)
      ((hits_iff.1 hhit').trans (hits_iff.1 hhit).symm) heq)

/-- With distinct stamps the newest rows of two lists of the same rows agree. -/
theorem newest_eq_of_mem_iff {log rows rows' : List VoteRow} (h : DistinctStamps log)
    (hrows : rows ⊆ log) (hmem : ∀ row, row ∈ rows ↔ row ∈ rows') (zid p t : ℤ) :
    newest created (hits zid p t) rows =
      newest created (hits zid p t) rows' := by
  cases hn : newest created (hits zid p t) rows' with
  | none => exact newest_eq_none.2 fun row hrow => newest_eq_none.1 hn row ((hmem row).1 hrow)
  | some row =>
    obtain ⟨hrow, hhit, hle⟩ := newest_some hn
    exact newest_eq_of_le h hrows ((hmem row).2 hrow) hhit fun row' hrow' =>
      hle row' ((hmem row').1 hrow')

/-! ## Incremental ingestion -/

/-- One poll: the rows handled so far stay held, though the superseded ones are never applied. -/
theorem HoldsNewest.poll {overlapMs start zid : ℤ} {log base : List VoteRow}
    {es : List (PollEvent VoteRow VoteKey VoteCell)} {s : PollState VoteRow VoteKey VoteCell}
    {rows : List VoteRow} {c : Conversation K} (hlog : DistinctStamps log)
    (ht : Tracked voteKind es s)
    (hrows : rows.Perm (s.committed.filter fun row => s.currentWindow.lower < voteKind.stamp row))
    (hstart : start ≤ s.currentWindow.lower) (hbase : ∀ row ∈ base, row.created ≤ start)
    (hsub : base ++ outcomes es ++ (s.cycle voteKind overlapMs rows).outcome ⊆ log)
    (h : HoldsNewest zid (base ++ outcomes es) c) :
    HoldsNewest zid (base ++ outcomes es ++ (s.cycle voteKind overlapMs rows).outcome)
      (applyVotes c (ofZid zid (s.cycle voteKind overlapMs rows).fresh)) := by
  intro p t
  rw [applyVotes_cell]
  cases hfresh : newest created (hits zid p t)
      (s.cycle voteKind overlapMs rows).fresh with
  | some row =>
    obtain ⟨hrow, hhit, hle⟩ := newest_some hfresh
    have hread := mem_read_of_mem_outcome voteKind_key_injective (mem_append_left _ hrow)
    have hlower : s.currentWindow.lower < row.created :=
      of_decide_eq_true (mem_filter.1 (hrows.mem_iff.1 hread)).2
    -- the newest fresh row is the newest of all: base, handled and superseded rows are older
    rw [newest_eq_of_le hlog hsub (mem_append_right _ (mem_append_left _ hrow)) hhit]
    · rfl
    · intro row' hrow' hhit'
      rcases mem_append.1 hrow' with hold | hnew
      · rcases mem_append.1 hold with hb | hout
        · have := hbase row' hb
          omega
        · exact ht.fresh_newest voteKind_key_injective hrows hrow hout (hits_iff.1 hhit)
            (hits_iff.1 hhit')
      · rcases mem_append.1 hnew with hf | hsup
        · exact hle row' hf hhit'
        · obtain ⟨cell, hcell, -, hall⟩ := ht.superseded_older hsup
          rw [hits_iff.1 hhit'] at hcell
          obtain rfl := Option.some.inj hcell
          exact (hall row hrow (hits_iff.1 hhit)).le
  | none =>
    change c.rawRatingMat.cell p t = _
    rw [h p t]
    congr 1
    -- no fresh row for the cell; a superseded one is older than a handled one
    cases hold : newest created (hits zid p t) (base ++ outcomes es) with
    | some row =>
      obtain ⟨hrow, hhit, hle⟩ := newest_some hold
      refine (newest_eq_of_le hlog hsub (mem_append_left _ hrow) hhit ?_).symm
      intro row' hrow' hhit'
      rcases mem_append.1 hrow' with hin | hnew
      · exact hle row' hin hhit'
      · rcases mem_append.1 hnew with hf | hsup
        · simp [newest_eq_none.1 hfresh row' hf] at hhit'
        · obtain ⟨cell, hcell, ⟨row₂, hrow₂, hcell₂, hlt⟩, -⟩ := ht.superseded_older hsup
          rw [← hcell, hits_iff.1 hhit'] at hcell₂
          have := hle row₂ (mem_append_right _ hrow₂) (hits_iff.2 hcell₂)
          exact hlt.le.trans this
    | none =>
      refine (newest_eq_none.2 fun row' hrow' => ?_).symm
      rcases mem_append.1 hrow' with hin | hnew
      · exact newest_eq_none.1 hold row' hin
      · rcases mem_append.1 hnew with hf | hsup
        · exact newest_eq_none.1 hfresh row' hf
        · by_contra hhit'
          rw [Bool.not_eq_false] at hhit'
          obtain ⟨cell, hcell, ⟨row₂, hrow₂, hcell₂, -⟩, -⟩ := ht.superseded_older hsup
          rw [← hcell, hits_iff.1 hhit'] at hcell₂
          have := newest_eq_none.1 hold row₂ (mem_append_right _ hrow₂)
          rw [hits_iff.2 hcell₂] at this
          simp at this

/-- A whole history: what was held at the start and every row handled since is held. -/
theorem run_holdsNewest {overlapMs start zid : ℤ} {log base : List VoteRow} {c₀ : Conversation K}
    {es : List (PollEvent VoteRow VoteKey VoteCell)} {s : PollState VoteRow VoteKey VoteCell}
    (hlog : DistinctStamps log)
    (hrun : Run (PollState.Step voteKind overlapMs) (.init start) es s)
    (hbase : ∀ row ∈ base, row.created ≤ start) (hsub : base ++ commits es ⊆ log)
    (h₀ : HoldsNewest zid base c₀) :
    HoldsNewest zid (base ++ outcomes es) (applyPolls zid c₀ es) := by
  induction hrun with
  | nil => simpa [outcomes, applyPolls] using h₀
  | @snoc es s e s' hrun hs ih =>
    have ht := run_tracked voteKind_key_injective hrun
    have hsub₁ : base ++ commits es ⊆ log := fun row hrow => hsub <| by
      rw [commits_append, ← append_assoc]
      exact mem_append_left _ hrow
    have hheld := ih hsub₁
    rw [applyPolls_append, outcomes_append, ← append_assoc]
    cases e with
    | commit row => simpa [applyPolls] using hheld
    | poll cycle =>
      have ht' := ht.step voteKind_key_injective hs
      obtain ⟨rows, hrows, rfl, rfl⟩ := hs
      rw [outcomes_poll]
      refine hheld.poll hlog ht hrows (run_start_le hrun) hbase fun row hrow => hsub ?_
      rw [append_assoc, ← outcomes_poll, ← outcomes_append] at hrow
      rcases mem_append.1 hrow with hb | hout
      · exact mem_append_left _ hb
      · exact mem_append_right _ (ht'.outcomes_subset hout)

/-- Incremental ingestion equals a rebuild. Take a log without two rows of one cell at one stamp, a
history that ends in a poll and in which every row above the starting watermark commits while the
lower bound left by the earlier polls is still below its stamp, and a conversation that holds the
rows at or below the starting watermark. Applying each poll's fresh rows leaves in every cell the
vote of greatest `created` among all committed rows, which is what the full history gives. -/
theorem incremental_eq_rebuild {overlapMs start : ℤ}
    {es : List (PollEvent VoteRow VoteKey VoteCell)} {cycle : Cycle VoteRow VoteKey VoteCell}
    {s : PollState VoteRow VoteKey VoteCell}
    (hrun : Run (PollState.Step voteKind overlapMs) (.init start) (es ++ [.poll cycle]) s)
    (hstamps : DistinctStamps (commits es))
    (htimely : CommitsBefore voteKind (fun cycle => cycle.next.lower) start es) (zid : ℤ)
    (c₀ : Conversation K)
    (hinit : HoldsNewest zid ((commits es).filter fun row => row.created ≤ start) c₀) :
    HoldsNewest zid (commits es) (applyPolls zid c₀ (es ++ [.poll cycle])) ∧
    ∀ (cold : Conversation K) (history : List VoteRow), HoldsNewest zid [] cold →
      history.Perm (ofZid zid (commits es)) → ∀ p t,
      (applyPolls zid c₀ (es ++ [.poll cycle])).rawRatingMat.cell p t =
        (applyVotes cold history).rawRatingMat.cell p t := by
  have hbase : ∀ row ∈ (commits es).filter fun row => row.created ≤ start, row.created ≤ start :=
    fun row hrow => of_decide_eq_true (mem_filter.1 hrow).2
  have hsub : (commits es).filter (fun row => row.created ≤ start) ++
      commits (es ++ [.poll cycle]) ⊆ commits es := by
    rw [commits_append, commits_poll, append_nil]
    exact append_subset.2 ⟨filter_sublist.subset, fun _ h => h⟩
  have hheld := run_holdsNewest hstamps hrun hbase hsub hinit
  -- after the last poll the base and the handled rows are the committed rows
  have hmem : ∀ row, row ∈ commits es ↔ row ∈ ((commits es).filter fun row =>
      row.created ≤ start) ++ outcomes (es ++ [.poll cycle]) := by
    obtain ⟨s₁, hrun₁, hs⟩ := hrun.snoc_inv
    have ht := run_tracked voteKind_key_injective hrun₁
    intro row
    constructor
    · intro hrow
      by_cases hstart : row.created ≤ start
      · exact mem_append_left _ (mem_filter.2 ⟨hrow, decide_eq_true hstart⟩)
      · refine mem_append_right _ (count_pos_iff.1 ?_)
        rw [(run_complete voteKind_key_injective hrun₁ htimely).poll voteKind_key_injective ht hs
          (not_le.1 hstart)]
        exact count_pos_iff.2 hrow
    · intro hrow
      rcases mem_append.1 hrow with hb | hout
      · exact filter_sublist.subset hb
      · have hcommits := (run_tracked voteKind_key_injective hrun).outcomes_subset hout
        simpa using hcommits
  have hnewest : HoldsNewest zid (commits es) (applyPolls zid c₀ (es ++ [.poll cycle])) :=
    fun p t => by
      rw [hheld p t, ← newest_eq_of_mem_iff hstamps (fun _ h => h) hmem]
  refine ⟨hnewest, fun cold history hcold hhistory p t => ?_⟩
  have hzid : ofZid zid history = history := filter_eq_self.2 fun row hrow =>
    (mem_filter.1 (hhistory.mem_iff.1 hrow)).2
  have hsame : newest created (hits zid p t) (ofZid zid (commits es)) =
      newest created (hits zid p t) history :=
    newest_eq_of_mem_iff hstamps filter_sublist.subset (fun _ => hhistory.mem_iff.symm) zid p t
  rw [hnewest p t, ← hzid, applyVotes_cell, hcold p t, ← newest_ofZid zid p t (commits es), hsame]
  cases newest created (hits zid p t) history <;> rfl

private def newerVote : VoteRow := ⟨1, 7, 3, -1, 20⟩

private def olderVote : VoteRow := ⟨1, 7, 3, 1, 10⟩

private def pollState (committed : List VoteRow) (cycle : Cycle VoteRow VoteKey VoteCell) :
    PollState VoteRow VoteKey VoteCell :=
  ⟨committed, cycle.next.watermark, some cycle.next⟩

private def newerCycle : Cycle VoteRow VoteKey VoteCell :=
  (⟨[newerVote], 0, none⟩ : PollState VoteRow VoteKey VoteCell).cycle voteKind 100 [newerVote]

private def olderCycle : Cycle VoteRow VoteKey VoteCell :=
  (pollState [newerVote, olderVote] newerCycle).cycle voteKind 100 [olderVote, newerVote]

/-- The older vote is committed after the newer one was polled; it is superseded, and the newer vote
stays in the cell. -/
theorem incremental_eq_rebuild_superseded :
    HoldsNewest 1 [newerVote, olderVote] (applyPolls 1 (Conversation.new 1 1 1 : Conversation ℚ)
      [.commit newerVote, .poll newerCycle, .commit olderVote, .poll olderCycle]) := by
  have h₂ : Run (PollState.Step voteKind 100) (.init 0) [.commit newerVote, .poll newerCycle]
      (pollState [newerVote] newerCycle) :=
    .snoc (.snoc .nil rfl) ⟨[newerVote], by decide, rfl, rfl⟩
  have h₄ : Run (PollState.Step voteKind 100) (.init 0)
      ([.commit newerVote, .poll newerCycle, .commit olderVote] ++ [.poll olderCycle])
      (pollState [newerVote, olderVote] olderCycle) :=
    .snoc (.snoc h₂ rfl) ⟨[olderVote, newerVote], by decide, rfl, rfl⟩
  have htimely : CommitsBefore voteKind (fun cycle => cycle.next.lower) 0
      ([.commit newerVote, .poll newerCycle] ++ [.commit olderVote]) := by
    refine commitsBefore_snoc.2 ⟨commitsBefore_snoc.2 ⟨commitsBefore_snoc.2 ⟨.nil _ 0, by simp⟩,
      by simp⟩, ?_⟩
    rintro row hrow - cycle hcycle
    obtain rfl : olderVote = row := by simpa using hrow
    obtain rfl : cycle = newerCycle := by simpa using hcycle
    decide
  exact (incremental_eq_rebuild h₄ (by unfold DistinctStamps; decide) htimely 1 _
    fun p t => rfl).1

end Polis.Poller
