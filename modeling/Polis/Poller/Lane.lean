import Polis.Poller.Service
import Polis.Poller.WorkerPoolTheorems

/-!
# One zid of the live service

A lane is what the service holds of one zid. `Lane.Sound` says where every delivered vote is: in the
queue, in the batch being processed, in the last committed bundle and the cache, or, after a park,
only in the database, and then the cache is empty before the zid runs again.

Reference: `polismath/poller/service.py`.
-/

set_option linter.unusedSectionVars false

namespace Polis.Poller

open Clustering List

variable {K : Type*} [Field K] [LinearOrder K] [Numerics K]
variable {committed' : List VoteRow} {batch : Batch} {stage : EngineStage K}

/-! ## Held votes -/

/-- The conversation holds, in the cell of the row, a committed vote at least as new. -/
def HoldsVote (committed : List VoteRow) (c : Conversation K) (row : VoteRow) : Prop :=
  ∃ vote ∈ committed, voteKind.cell vote = voteKind.cell row ∧ row.created ≤ vote.created ∧
    c.rawRatingMat.cell row.pid row.tid = some vote.value

/-- The row is newer than none of the rows of its cell. -/
def NotNewer (row : VoteRow) (rows : List VoteRow) : Prop :=
  ∀ row' ∈ rows, voteKind.cell row' = voteKind.cell row → row.created ≤ row'.created

/-- Every delivered row that is not excused is held. -/
def Covers (committed delivered excused : List VoteRow) (c : Conversation K) : Prop :=
  ∀ row ∈ delivered, row ∈ excused ∨ HoldsVote committed c row

section

variable {committed delivered excused rows : List VoteRow} {c c' : Conversation K} {row : VoteRow}

theorem HoldsVote.mono (hsub : committed ⊆ committed') (h : HoldsVote committed c row) :
    HoldsVote committed' c row := by
  obtain ⟨vote, hvote, hrest⟩ := h
  exact ⟨vote, hsub hvote, hrest⟩

theorem HoldsVote.of_sameRaw (hraw : c'.rawRatingMat = c.rawRatingMat)
    (h : HoldsVote committed c row) : HoldsVote committed c' row := by
  unfold HoldsVote
  rwa [hraw]

theorem NotNewer.append {rows' : List VoteRow} :
    NotNewer row (rows ++ rows') ↔ NotNewer row rows ∧ NotNewer row rows' :=
  forall_mem_append

theorem NotNewer.nil : NotNewer row [] := fun _ h => absurd h not_mem_nil

theorem Covers.mono {committed' excused' : List VoteRow} (hcommitted : committed ⊆ committed')
    (hexcused : ∀ row ∈ delivered, row ∈ excused → row ∈ excused')
    (h : Covers committed delivered excused c) : Covers committed' delivered excused' c :=
  fun row hrow => (h row hrow).imp (hexcused row hrow) (HoldsVote.mono hcommitted)

/-- Rows that are delivered now are excused as long as they are queued. -/
theorem Covers.deliver (h : Covers committed delivered excused c) (rows : List VoteRow) :
    Covers committed (delivered ++ rows) (excused ++ rows) c := by
  intro row hrow
  rcases mem_append.1 hrow with hold | hnew
  · exact (h row hold).imp_left (mem_append_left _)
  · exact .inl (mem_append_right _ hnew)

/-- A batch leaves in the cell of a row a vote at least as new, when the row is in it, or was held
and is newer than none of it. -/
theorem holdsVote_applyVotes {zid : ℤ} {batch : List VoteRow}
    (hbatch : ∀ row ∈ batch, row.zid = zid ∧ row ∈ committed) (hzid : row.zid = zid)
    (h : row ∈ batch ∨ HoldsVote committed c row ∧ NotNewer row batch) :
    HoldsVote committed (applyVotes c batch) row := by
  have hself : ofZid zid batch = batch :=
    filter_eq_self.2 fun r hr => decide_eq_true (hbatch r hr).1
  have hcell := applyVotes_cell c zid batch row.pid row.tid
  rw [hself] at hcell
  have hhit : row.hits zid row.pid row.tid = true := by simp [VoteRow.hits, hzid]
  cases hn : newest VoteRow.created (VoteRow.hits zid row.pid row.tid) batch with
  | some vote =>
    obtain ⟨hvote, hvhit, hmax⟩ := newest_some hn
    have hsame : voteKind.cell vote = voteKind.cell row :=
      (hits_iff.1 hvhit).trans (hits_iff.1 hhit).symm
    refine ⟨vote, (hbatch vote hvote).2, hsame, ?_, by rw [hcell, hn]⟩
    rcases h with hmem | ⟨-, hnot⟩
    · exact hmax row hmem hhit
    · exact hnot vote hvote hsame
  | none =>
    rcases h with hmem | ⟨⟨vote, hvote, hsame, hle, hval⟩, -⟩
    · simp [newest_eq_none.1 hn row hmem] at hhit
    · exact ⟨vote, hvote, hsame, hle, by rw [hcell, hn]; exact hval⟩

theorem computeUpdate_raw (c : Conversation K) (batch : Batch) (mods : Moderation) :
    (computeUpdate c batch mods).rawRatingMat = (applyVotes c batch.votes).rawRatingMat := by
  simp only [computeUpdate]
  rw [(recompute_sameInputs _).toSameRaw.rawRatingMat]
  split <;> rfl

theorem loadOrInit_raw (zid : ℤ) (row : Option (MathRow K)) (votes : List VoteRow)
    (mods : Moderation) (coordinatorRebuild : Bool) :
    (loadOrInit zid row votes mods coordinatorRebuild).rawRatingMat =
      (applyVotes (initialConversation zid row) votes).rawRatingMat := by
  simp only [loadOrInit]
  rw [(recompute_sameInputs _).toSameRaw.rawRatingMat]
  cases coordinatorRebuild <;> rfl

end

/-! ## Lanes -/

/-- A feeder stands in the phase with a message for the zid. -/
def FeederState.isAt (s : FeederState) (zid : ℤ) (phase : UnparkPhase) : Bool :=
  s.todo.head?.any (fun head => head.1 = zid) && s.phase = phase

/-- What the service holds of one zid: its queue and its run, whether it is parked, its cache entry,
the conversations written for it, the votes delivered for it, and which feeders have dropped its
cache entry without having unparked it, or unparked it without having submitted. -/
@[ext]
structure Lane (K : Type*) where
  queue : List ServiceMessage
  stage : Option (Stage VoteRow CommentRow (EngineStage K))
  parked : Bool
  conv : Option (Conversation K)
  published : List (Conversation K)
  delivered : List VoteRow
  dropped : Feeder → Bool
  unparked : Feeder → Bool

/-- The lane of a zid. -/
def ServiceState.lane (s : ServiceState K) (zid : ℤ) : Lane K where
  queue := s.pool.queues zid
  stage := (s.pool.runs zid).head?
  parked := zid ∈ s.pool.parked
  conv := s.convs zid
  published := s.published zid
  delivered := s.delivered zid
  dropped f := (s.feeders f).isAt zid .cacheDropped
  unparked f := (s.feeders f).isAt zid .unparked

/-- The rows a run of the engine still has in hand. -/
def EngineStage.rows (batch : Batch) : EngineStage K → List VoteRow
  | .requeueing messages => messages.flatMap Message.voteRows
  | .done _ => []
  | _ => batch.votes

/-- The rows a run still has in hand. -/
def Stage.rows : Stage VoteRow CommentRow (EngineStage K) → List VoteRow
  | .processing batch _ stage => stage.rows batch
  | _ => []

/-- The engine still works on its batch. -/
def EngineStage.working : EngineStage K → Bool
  | .requeueing _ | .parking | .done _ => false
  | _ => true

/-- The run will commit a bundle, requeue a message or park the zid. -/
def EngineStage.pending : EngineStage K → Bool
  | .written _ | .remembered | .requeueing [] | .done _ => false
  | _ => true

theorem EngineStage.rows_of_working (h : stage.working = true) :
    stage.rows batch = batch.votes := by
  cases stage <;> first | rfl | simp [EngineStage.working] at h

/-- A message that makes a run compute: live, and not an empty batch. -/
def IsWork : ServiceMessage → Prop
  | .votes batch => batch ≠ []
  | .moderation batch => batch ≠ []
  | .rebuild => True
  | .backfill => False

namespace Lane

/-- The rows in the queue. -/
def queued (l : Lane K) : List VoteRow := l.queue.flatMap Message.voteRows

/-- The rows in the hands of the run. -/
def inFlight (l : Lane K) : List VoteRow := l.stage.elim [] Stage.rows

/-- What the conversation of a run holds, stage by stage. -/
def EngineSound (committed : List VoteRow) (l : Lane K) (batch : Batch) : EngineStage K → Prop
  | .lookedUp (some c) => Covers committed l.delivered (batch.votes ++ l.queued) c
  | .computed c => Covers committed l.delivered l.queued c
  | .written c => Covers committed l.delivered l.queued c ∧ l.published.getLast? = some c
  | .remembered =>
    ∃ c, Covers committed l.delivered l.queued c ∧ l.published.getLast? = some c ∧
      (l.conv = none ∨ l.conv = some c)
  | .requeueing messages =>
    (∀ m ∈ messages, IsWork m) ∧ ∀ row ∈ messages.flatMap Message.voteRows, row ∈ l.delivered
  | _ => True

/-- The run of a lane: a batch of delivered rows, none of them newer than a queued one while the
engine works on it. -/
structure RunSound (committed : List VoteRow) (l : Lane K) (batch : Batch)
    (stage : EngineStage K) : Prop where
  live : batch.hasLiveWork = true
  rows : ∀ row ∈ batch.votes, row ∈ l.delivered
  ordered : stage.working = true → ∀ row ∈ batch.votes, NotNewer row l.queued
  engine : l.EngineSound committed batch stage

/-- The last bundle and the cache hold every delivered row that is not on its way. -/
structure Intact (committed : List VoteRow) (l : Lane K) : Prop where
  bundle : ∀ row ∈ l.delivered, row ∈ l.inFlight ++ l.queued ∨
    ∃ c, l.published.getLast? = some c ∧ HoldsVote committed c row
  conv : ∀ c, l.conv = some c → Covers committed l.delivered (l.inFlight ++ l.queued) c

/-- Nothing is cached, and a run that loads the history has begun or will. -/
structure Recovering (l : Lane K) : Prop where
  conv : l.conv = none
  coming : l.queue ≠ [] ∨ (∃ f, l.unparked f = true) ∨
    ∃ batch live stage, l.stage = some (.processing batch live stage) ∧ stage.pending = true

/-- The invariant of a lane. -/
structure Sound (committed : List VoteRow) (zid : ℤ) (l : Lane K) : Prop where
  delivered : ∀ row ∈ l.delivered, row.zid = zid ∧ row ∈ committed
  work : ∀ m ∈ l.queue, IsWork m
  queued : ∀ row ∈ l.queued, row ∈ l.delivered
  ordered : ∀ row ∈ l.delivered,
    row ∈ l.inFlight ++ l.queued ∨ NotNewer row (l.inFlight ++ l.queued)
  run : ∀ batch live stage, l.stage = some (.processing batch live stage) →
    l.RunSound committed batch stage
  parked : l.parked = true → l.queue = [] ∧
    ∀ batch live stage, l.stage = some (.processing batch live stage) → ∃ ok, stage = .done ok
  published : ∀ c, l.conv = some c → c ∈ l.published
  dropped : ∀ f, l.dropped f = true → l.parked = true → l.conv = none
  safe : l.parked = true ∨ l.Intact committed ∨ l.Recovering

variable {committed : List VoteRow} {zid : ℤ} {l : Lane K}

/-! ## Small facts -/

/-- Only the run that is there counts. -/
theorem forall_processing {live : Bool}
    {motive : Batch → Bool → EngineStage K → Prop} :
    (∀ batch' live' stage', (some (.processing batch live stage) :
      Option (Stage VoteRow CommentRow (EngineStage K))) = some (.processing batch' live' stage') →
        motive batch' live' stage') ↔ motive batch live stage := by
  constructor
  · exact fun h => h _ _ _ rfl
  · rintro h batch' live' stage' hs
    obtain ⟨rfl, rfl, rfl⟩ := Stage.processing.inj (Option.some.inj hs)
    exact h

theorem inFlight_eq {live : Bool}
    (hstage : l.stage = some (.processing batch live stage)) : l.inFlight = stage.rows batch := by
  rw [inFlight, hstage]
  rfl

/-- Rows that stay on their way keep a lane intact. -/
theorem Intact.congr {l' : Lane K} (h : l.Intact committed)
    (hdelivered : l'.delivered = l.delivered)
    (hpublished : l'.published = l.published) (hconv : l'.conv = l.conv)
    (hway : ∀ row, row ∈ l.inFlight ++ l.queued → row ∈ l'.inFlight ++ l'.queued) :
    l'.Intact committed where
  bundle row hrow := by
    rw [hdelivered] at hrow
    rw [hpublished]
    exact (h.bundle row hrow).imp_left (hway row)
  conv c hc := by
    rw [hconv] at hc
    rw [hdelivered]
    exact (h.conv c hc).mono (fun _ h => h) fun row _ => hway row

theorem EngineSound.mono (hsub : committed ⊆ committed')
    (h : l.EngineSound committed batch stage) :
    l.EngineSound committed' batch stage := by
  have hcovers : ∀ {excused : List VoteRow} {c : Conversation K},
      Covers committed l.delivered excused c → Covers committed' l.delivered excused c :=
    fun h => h.mono hsub fun _ _ h => h
  cases stage with
  | lookedUp conv =>
    cases conv with
    | none => trivial
    | some c => exact hcovers h
  | computed c => exact hcovers h
  | written c => exact ⟨hcovers h.1, h.2⟩
  | remembered =>
    obtain ⟨c, hc, hrest⟩ := h
    exact ⟨c, hcovers hc, hrest⟩
  | _ => exact h

/-- More committed votes. -/
theorem Sound.mono (hsub : committed ⊆ committed') (h : l.Sound committed zid) :
    l.Sound committed' zid where
  delivered row hrow := ⟨(h.delivered row hrow).1, hsub (h.delivered row hrow).2⟩
  work := h.work
  queued := h.queued
  ordered := h.ordered
  run batch live stage hstage := by
    have hrun := h.run batch live stage hstage
    exact ⟨hrun.live, hrun.rows, hrun.ordered, hrun.engine.mono hsub⟩
  parked := h.parked
  published := h.published
  dropped := h.dropped
  safe := h.safe.imp_right <| Or.imp_left fun hi =>
    { bundle := fun row hrow => (hi.bundle row hrow).imp_right fun ⟨c, hlast, hc⟩ =>
        ⟨c, hlast, hc.mono hsub⟩
      conv := fun c hc => (hi.conv c hc).mono hsub fun _ _ h => h }

end Lane

end Polis.Poller
