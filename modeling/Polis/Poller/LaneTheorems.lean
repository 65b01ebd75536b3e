import Polis.Poller.Lane

/-!
# The steps of a lane

Each step of the service, seen from one zid, keeps `Lane.Sound`: the cache entry goes, the zid is
unparked, a message is submitted, and the run drains, computes, writes, caches, requeues or parks.

Reference: `polismath/poller/service.py`.
-/

set_option linter.unusedSectionVars false

namespace Polis.Poller

open Clustering List EngineStage

variable {K : Type*} [Field K] [LinearOrder K] [Numerics K]
variable {message : ServiceMessage}

namespace Lane

variable {committed : List VoteRow} {zid : ℤ} {l : Lane K}

/-! ## Uncaching and unparking -/

/-- The cache entry goes, by eviction or by a feeder. -/
theorem Sound.uncache (h : l.Sound committed zid) (dropped : Feeder → Bool) :
    ({ l with conv := none, dropped := dropped } : Lane K).Sound committed zid where
  delivered := h.delivered
  work := h.work
  queued := h.queued
  ordered := h.ordered
  run batch live stage hstage := by
    have hrun := h.run batch live stage hstage
    refine ⟨hrun.live, hrun.rows, hrun.ordered, ?_⟩
    cases stage with
    | remembered =>
      obtain ⟨c, hc, hlast, -⟩ := hrun.engine
      exact ⟨c, hc, hlast, .inl rfl⟩
    | lookedUp conv => cases conv <;> exact hrun.engine
    | _ => exact hrun.engine
  parked := h.parked
  published c hc := by simp at hc
  dropped _ _ _ := rfl
  safe := by
    rcases h.safe with hparked | hintact | hrec
    · exact .inl hparked
    · exact .inr (.inl ⟨hintact.bundle, fun c hc => by simp at hc⟩)
    · exact .inr (.inr ⟨rfl, hrec.coming⟩)

/-- A feeder that has dropped the cache entry unparks the zid. -/
theorem Sound.unpark (h : l.Sound committed zid) {f : Feeder} (hf : l.dropped f = true)
    (dropped : Feeder → Bool) {unparked : Feeder → Bool} (hunparked : unparked f = true)
    (hmono : ∀ g, l.unparked g = true → unparked g = true) :
    ({ l with parked := false, dropped := dropped, unparked := unparked } : Lane K).Sound
      committed zid where
  delivered := h.delivered
  work := h.work
  queued := h.queued
  ordered := h.ordered
  run batch live stage hstage := by
    have hrun := h.run batch live stage hstage
    exact ⟨hrun.live, hrun.rows, hrun.ordered, hrun.engine⟩
  parked hp := by simp at hp
  published := h.published
  dropped _ _ hp := by simp at hp
  safe := by
    rcases h.safe with hparked | hintact | hrec
    · exact .inr (.inr ⟨h.dropped f hf hparked, .inr (.inl ⟨f, hunparked⟩)⟩)
    · exact .inr (.inl ⟨hintact.bundle, hintact.conv⟩)
    · refine .inr (.inr ⟨hrec.conv, ?_⟩)
      rcases hrec.coming with hqueue | ⟨g, hg⟩ | hrun
      · exact .inl hqueue
      · exact .inr (.inl ⟨g, hmono g hg⟩)
      · exact .inr (.inr hrun)

/-! ## Submitting -/

/-- The lane after `submit`: a parked zid drops the message, another queues it and gets a run. -/
def submit (l : Lane K) (message : ServiceMessage) : Lane K :=
  if l.parked then l
  else { l with queue := l.queue ++ [message], stage := l.stage.or (some .waiting) }

/-- A run that was there stays; a new one waits. -/
theorem processing_of_submit {batch : Batch} {live : Bool} {stage : EngineStage K}
    (h : l.stage.or (some .waiting) = some (.processing batch live stage)) :
    l.stage = some (.processing batch live stage) := by
  cases hs : l.stage with
  | none => simp [hs] at h
  | some st => simpa [hs] using h

/-- A parked zid has nothing on its way. -/
theorem Sound.nothing_of_parked (h : l.Sound committed zid) (hparked : l.parked = true) :
    l.inFlight ++ l.queued = [] := by
  obtain ⟨hqueue, hidle⟩ := h.parked hparked
  have hflight : l.inFlight = [] := by
    rw [inFlight]
    cases hs : l.stage with
    | none => rfl
    | some st =>
      cases st with
      | processing batch live stage =>
        obtain ⟨ok, rfl⟩ := hidle batch live stage hs
        rfl
      | _ => rfl
  rw [hflight, Lane.queued, hqueue]
  rfl

/-- The rows a message may deliver: committed ones of the zid, none older than a delivered row of
its cell. -/
def Fresh (committed : List VoteRow) (zid : ℤ) (delivered rows : List VoteRow) : Prop :=
  ∀ row ∈ rows, row.zid = zid ∧ row ∈ committed ∧
    ∀ row' ∈ delivered, voteKind.cell row' = voteKind.cell row → row'.created ≤ row.created

theorem Fresh.notNewer {delivered rows : List VoteRow} (h : Fresh committed zid delivered rows)
    {row : VoteRow} (hrow : row ∈ delivered) : NotNewer row rows :=
  fun row' hrow' hcell => (h row' hrow').2.2 row hrow hcell.symm

theorem Sound.delivered_append (h : l.Sound committed zid) {rows : List VoteRow}
    (hrows : Fresh committed zid l.delivered rows) :
    ∀ row ∈ l.delivered ++ rows, row.zid = zid ∧ row ∈ committed := by
  intro row hrow
  rcases mem_append.1 hrow with hold | hnew
  · exact h.delivered row hold
  · exact ⟨(hrows row hnew).1, (hrows row hnew).2.1⟩

/-- A parked zid drops the message; the database still has its rows. -/
theorem Sound.submit_parked (h : l.Sound committed zid) (hparked : l.parked = true)
    {rows : List VoteRow} (hrows : Fresh committed zid l.delivered rows)
    (unparked : Feeder → Bool) :
    ({ l with delivered := l.delivered ++ rows, unparked := unparked } : Lane K).Sound
      committed zid where
  delivered := h.delivered_append hrows
  work := h.work
  queued row hrow := mem_append_left _ (h.queued row hrow)
  ordered row _ := .inr <| by
    change NotNewer row (l.inFlight ++ l.queued)
    rw [h.nothing_of_parked hparked]
    exact NotNewer.nil
  run batch live stage hs := by
    obtain ⟨ok, rfl⟩ := (h.parked hparked).2 batch live stage hs
    have hrun := h.run batch live _ hs
    exact ⟨hrun.live, fun row hrow => mem_append_left _ (hrun.rows row hrow),
      fun hw => by simp [working] at hw, trivial⟩
  parked := h.parked
  published := h.published
  dropped := h.dropped
  safe := .inl hparked

/-- What the conversation of a run holds survives a submission. -/
theorem EngineSound.submit {batch : Batch} {stage : EngineStage K}
    (h : l.EngineSound committed batch stage) {l' : Lane K}
    (hqueued : l'.queued = l.queued ++ message.voteRows)
    (hdelivered : l'.delivered = l.delivered ++ message.voteRows)
    (hpublished : l'.published = l.published) (hconv : l'.conv = l.conv) :
    l'.EngineSound committed batch stage := by
  cases stage with
  | lookedUp conv =>
    cases conv with
    | none => trivial
    | some c =>
      change Covers committed l'.delivered (batch.votes ++ l'.queued) c
      rw [hqueued, hdelivered, ← append_assoc]
      exact Covers.deliver h _
  | computed c =>
    change Covers committed l'.delivered l'.queued c
    rw [hqueued, hdelivered]
    exact Covers.deliver h _
  | written c =>
    obtain ⟨hc, hlast⟩ := h
    refine ⟨?_, by rw [hpublished]; exact hlast⟩
    rw [hqueued, hdelivered]
    exact hc.deliver _
  | remembered =>
    obtain ⟨c, hc, hlast, hcached⟩ := h
    refine ⟨c, ?_, by rw [hpublished]; exact hlast, by rw [hconv]; exact hcached⟩
    rw [hqueued, hdelivered]
    exact hc.deliver _
  | requeueing messages =>
    refine ⟨h.1, fun row hrow => ?_⟩
    rw [hdelivered]
    exact mem_append_left _ (h.2 row hrow)
  | _ => trivial

/-- Another zid queues the message, and has a run. -/
theorem Sound.submit_accepted (h : l.Sound committed zid) (hparked : l.parked = false)
    (hwork : IsWork message)
    (hrows : Fresh committed zid l.delivered message.voteRows) (unparked : Feeder → Bool) :
    ({ l with
      queue := l.queue ++ [message], stage := l.stage.or (some .waiting)
      delivered := l.delivered ++ message.voteRows, unparked := unparked } : Lane K).Sound
      committed zid := by
  set l' : Lane K := { l with
    queue := l.queue ++ [message], stage := l.stage.or (some .waiting)
    delivered := l.delivered ++ message.voteRows, unparked := unparked } with hl'
  have hqueued : l'.queued = l.queued ++ message.voteRows := by simp [hl', Lane.queued]
  have hflight : l'.inFlight = l.inFlight := by
    simp only [hl', Lane.inFlight]
    cases l.stage <;> rfl
  have hway : l'.inFlight ++ l'.queued = l.inFlight ++ l.queued ++ message.voteRows := by
    rw [hflight, hqueued, append_assoc]
  exact { h with
    delivered := h.delivered_append hrows
    work := by
      intro m hm
      rcases mem_append.1 hm with hold | hnew
      · exact h.work m hold
      · obtain rfl := mem_singleton.1 hnew
        exact hwork
    queued := by
      intro row hrow
      rw [hqueued] at hrow
      rcases mem_append.1 hrow with hold | hnew
      · exact mem_append_left _ (h.queued row hold)
      · exact mem_append_right _ hnew
    ordered := by
      intro row hrow
      rw [hway]
      rcases mem_append.1 hrow with hold | hnew
      · rcases h.ordered row hold with hmem | hnot
        · exact .inl (mem_append_left _ hmem)
        · exact .inr (NotNewer.append.2 ⟨hnot, hrows.notNewer hold⟩)
      · exact .inl (mem_append_right _ hnew)
    run := by
      intro batch live stage hs
      have hrun := h.run batch live stage (processing_of_submit hs)
      refine ⟨hrun.live, fun row hrow => mem_append_left _ (hrun.rows row hrow),
        fun hw row hrow => ?_, hrun.engine.submit hqueued rfl rfl rfl⟩
      rw [hqueued]
      exact NotNewer.append.2 ⟨hrun.ordered hw row hrow, hrows.notNewer (hrun.rows row hrow)⟩
    parked := fun hp => absurd (hparked.symm.trans hp) (by decide)
    dropped := fun _ _ hp => absurd (hparked.symm.trans hp) (by decide)
    safe := by
      rcases h.safe with hp | hintact | hrec
      · exact absurd (hparked.symm.trans hp) (by decide)
      · refine .inr (.inl ⟨fun row hrow => ?_, fun c hc => ?_⟩)
        · rw [hway]
          rcases mem_append.1 hrow with hold | hnew
          · exact (hintact.bundle row hold).imp_left (mem_append_left _)
          · exact .inl (mem_append_right _ hnew)
        · rw [hway]
          exact (hintact.conv c hc).deliver _
      · exact .inr (.inr ⟨hrec.conv, .inl (by simp [hl'])⟩) }

/-- A message whose rows are newer than all delivered before is submitted. -/
theorem Sound.submit (h : l.Sound committed zid) (hwork : IsWork message)
    (hrows : Fresh committed zid l.delivered message.voteRows) (unparked : Feeder → Bool) :
    ({ l.submit message with
      delivered := l.delivered ++ message.voteRows, unparked := unparked } : Lane K).Sound
      committed zid := by
  rw [Lane.submit]
  split
  · next hparked => exact h.submit_parked hparked hrows unparked
  · next hparked => exact h.submit_accepted (by simpa using hparked) hwork hrows unparked

/-! ## The run -/

/-- A queue of work coalesces into a batch of live work. -/
theorem hasLiveWork_of_isWork {messages : List ServiceMessage} (hne : messages ≠ [])
    (hwork : ∀ m ∈ messages, IsWork m) : (coalesceMessages messages).hasLiveWork = true := by
  obtain ⟨m, hm⟩ := exists_mem_of_ne_nil messages hne
  have hm' := hwork m hm
  rw [coalesceMessages_eq]
  simp only [CoalescedBatch.hasLiveWork, Bool.or_eq_true, Bool.not_eq_true',
    isEmpty_eq_false_iff]
  cases m with
  | votes batch =>
    obtain ⟨row, hrow⟩ := exists_mem_of_ne_nil batch hm'
    exact .inl (.inl (ne_nil_of_mem (mem_flatMap.2 ⟨_, hm, hrow⟩)))
  | moderation batch =>
    obtain ⟨row, hrow⟩ := exists_mem_of_ne_nil batch hm'
    exact .inl (.inr (ne_nil_of_mem (mem_flatMap.2 ⟨_, hm, hrow⟩)))
  | rebuild => exact .inr (any_eq_true.2 ⟨_, hm, rfl⟩)
  | backfill => exact hm'.elim

theorem voteRows_coalesce (messages : List ServiceMessage) :
    (coalesceMessages messages).votes = messages.flatMap Message.voteRows := by
  rw [coalesceMessages_eq]

/-- A waiting run drains the queue. -/
theorem Sound.drain (h : l.Sound committed zid) (hstage : l.stage = some .waiting)
    (hqueue : l.queue ≠ []) (hparked : l.parked = false) :
    ({ l with queue := [], stage := some (Stage.afterDrain .begun l.queue) } : Lane K).Sound
      committed zid := by
  have hlive := hasLiveWork_of_isWork hqueue h.work
  have hwork : (coalesceMessages l.queue).hasWork = true := by
    simp only [CoalescedBatch.hasLiveWork] at hlive
    simp only [CoalescedBatch.hasWork, hlive, Bool.true_or]
  have hvotes : (coalesceMessages l.queue).votes = l.queued := voteRows_coalesce l.queue
  have hflight : l.inFlight = [] := by rw [inFlight, hstage]; rfl
  set l' : Lane K :=
    { l with queue := [], stage := some (Stage.afterDrain .begun l.queue) } with hl'
  have hstage' : l'.stage =
      some (.processing (coalesceMessages l.queue) (l.queue.any Message.isLive) .begun) := by
    simp only [hl', Stage.afterDrain, hwork, if_true]
  have hway : l'.inFlight ++ l'.queued = l.inFlight ++ l.queued := by
    rw [inFlight_eq hstage', hflight]
    simp [rows, hvotes, hl', Lane.queued]
  exact { h with
    work := fun m hm => absurd hm not_mem_nil
    queued := fun row hrow => absurd hrow not_mem_nil
    ordered := fun row hrow => by
      rw [hway]
      exact h.ordered row hrow
    run := by
      rw [hstage']
      exact forall_processing.2
        ⟨hlive, fun row hrow => h.queued row (hvotes ▸ hrow), fun _ _ _ => NotNewer.nil, trivial⟩
    parked := fun hp => absurd (hparked.symm.trans hp) (by decide)
    safe := by
      rcases h.safe with hp | hintact | hrec
      · exact .inl hp
      · exact .inr (.inl (hintact.congr rfl rfl rfl fun row hrow => hway ▸ hrow))
      · exact .inr (.inr ⟨hrec.conv, .inr (.inr ⟨_, _, _, hstage', rfl⟩)⟩) }

/-- A run with nothing in hand and nothing to do goes on, outside the engine, or ends. -/
theorem Sound.rest (h : l.Sound committed zid) (hflight : l.inFlight = [])
    (hpending : ∀ batch live stage, l.stage = some (.processing batch live stage) →
      stage.pending = false)
    {stage' : Option (Stage VoteRow CommentRow (EngineStage K))}
    (hout : ∀ batch live stage, stage' ≠ some (.processing batch live stage)) :
    ({ l with stage := stage' } : Lane K).Sound committed zid := by
  have hflight' : ({ l with stage := stage' } : Lane K).inFlight = l.inFlight := by
    rw [hflight, inFlight]
    cases stage' with
    | none => rfl
    | some st =>
      cases st with
      | processing batch live stage => exact absurd rfl (hout batch live stage)
      | _ => rfl
  exact { h with
    ordered := fun row hrow => by
      rw [hflight']
      exact h.ordered row hrow
    run := fun batch live stage hs => absurd hs (hout batch live stage)
    parked := fun hp =>
      ⟨(h.parked hp).1, fun batch live stage hs => absurd hs (hout batch live stage)⟩
    safe := by
      rcases h.safe with hp | hintact | hrec
      · exact .inl hp
      · exact .inr (.inl (hintact.congr rfl rfl rfl fun row hrow => by rw [hflight']; exact hrow))
      · refine .inr (.inr ⟨hrec.conv, ?_⟩)
        rcases hrec.coming with hqueue | hfeeder | ⟨batch, live, stage, hs, hp⟩
        · exact .inl hqueue
        · exact .inr (.inl hfeeder)
        · exact absurd ((hpending batch live stage hs).symm.trans hp) (by decide) }

/-! ## The engine -/

section Engine

variable {batch : Batch} {live : Bool} {stage stage' : EngineStage K} {c : Conversation K}

section

variable (h : l.Sound committed zid)
include h

/-- A run that is not done is not that of a parked zid. -/
theorem Sound.not_parked
    (hstage : l.stage = some (.processing batch live stage)) (hdone : ∀ ok, stage ≠ .done ok) :
    l.parked = false := by
  by_contra hp
  obtain ⟨ok, hok⟩ := (h.parked (by simpa using hp)).2 batch live stage hstage
  exact hdone ok hok

/-- The run goes on with the same rows in hand. -/
theorem Sound.setStage
    (hstage : l.stage = some (.processing batch live stage)) (hdone : ∀ ok, stage ≠ .done ok)
    (hrows : stage'.rows batch = stage.rows batch)
    (hworking : stage'.working = true → stage.working = true)
    (hpending : stage.pending = true → stage'.pending = true)
    (hengine : l.EngineSound committed batch stage') :
    ({ l with stage := some (.processing batch live stage') } : Lane K).Sound committed zid := by
  have hrun := h.run batch live stage hstage
  have hparked := h.not_parked hstage hdone
  set l' : Lane K := { l with stage := some (.processing batch live stage') } with hl'
  have hflight : l'.inFlight = l.inFlight := by
    rw [inFlight_eq hstage, ← hrows]
    rfl
  exact { h with
    ordered := fun row hrow => by
      rw [hflight]
      exact h.ordered row hrow
    run := forall_processing.2 ⟨hrun.live, hrun.rows, fun hw => hrun.ordered (hworking hw), by
      cases stage' <;> exact hengine⟩
    parked := fun hp => absurd (hparked.symm.trans hp) (by decide)
    safe := by
      rcases h.safe with hp | hintact | hrec
      · exact .inl hp
      · exact .inr (.inl (hintact.congr rfl rfl rfl fun row hrow => by rw [hflight]; exact hrow))
      · refine .inr (.inr ⟨hrec.conv, ?_⟩)
        rcases hrec.coming with hqueue | hfeeder | ⟨batch', live', stage'', hs, hp⟩
        · exact .inl hqueue
        · exact .inr (.inl hfeeder)
        · obtain ⟨rfl, rfl, rfl⟩ : batch = batch' ∧ live = live' ∧ stage = stage'' := by
            simpa [hstage] using hs
          exact .inr (.inr ⟨batch, live, stage', rfl, hpending hp⟩) }

/-- A cold load holds every committed row of the zid. -/
theorem Sound.covers_load (row : Option (MathRow K))
    {history : List VoteRow} (hhistory : history.Perm (ofZid zid committed)) (mods : Moderation)
    (coordinatorRebuild : Bool) :
    Covers committed l.delivered l.queued (loadOrInit zid row history mods coordinatorRebuild) := by
  have hmem : ∀ r, r ∈ history ↔ r ∈ committed ∧ r.zid = zid := fun r => by
    rw [hhistory.mem_iff, ofZid, mem_filter, decide_eq_true_eq]
  intro r hr
  obtain ⟨hzid, hcommitted⟩ := h.delivered r hr
  refine .inr (HoldsVote.of_sameRaw (loadOrInit_raw zid row history mods coordinatorRebuild) ?_)
  exact holdsVote_applyVotes (fun r' hr' => ((hmem r').1 hr').symm) hzid
    (.inl ((hmem r).2 ⟨hcommitted, hzid⟩))

/-- An update holds what the cached conversation held and its batch. -/
theorem Sound.covers_update
    (hstage : l.stage = some (.processing batch live (.lookedUp (some c)))) (mods : Moderation) :
    Covers committed l.delivered l.queued (computeUpdate c batch mods) := by
  have hrun := h.run batch live _ hstage
  have hflight : l.inFlight = batch.votes := inFlight_eq hstage
  intro row hrow
  by_cases hqueued : row ∈ l.queued
  · exact .inl hqueued
  refine .inr (HoldsVote.of_sameRaw (computeUpdate_raw c batch mods) ?_)
  refine holdsVote_applyVotes (fun r hr => h.delivered r (hrun.rows r hr))
    (h.delivered row hrow).1 ?_
  by_cases hbatch : row ∈ batch.votes
  · exact .inl hbatch
  have hout : row ∉ batch.votes ++ l.queued := by simp [hbatch, hqueued]
  have hheld := (hrun.engine row hrow).resolve_left hout
  have hnot := (h.ordered row hrow).resolve_left (hflight ▸ hout)
  rw [hflight] at hnot
  exact .inr ⟨hheld, (NotNewer.append.1 hnot).1⟩

end

/-- A conversation that covers what is not queued is all that is needed of bundle and cache. -/
theorem Intact.of_covers (hcovers : Covers committed l.delivered l.queued c)
    (hlast : l.published.getLast? = some c) (hconv : l.conv = none ∨ l.conv = some c) :
    l.Intact committed where
  bundle row hrow := (hcovers row hrow).imp (mem_append_right _) fun hc => ⟨c, hlast, hc⟩
  conv c' hc' := by
    obtain rfl : c = c' := by
      rcases hconv with hnone | hsome
      · simp [hnone] at hc'
      · exact Option.some.inj (hsome.symm.trans hc')
    exact hcovers.mono (fun _ h => h) fun _ _ => mem_append_right _

section

variable (h : l.Sound committed zid)
include h

/-- The write commits. -/
theorem Sound.write
    (hstage : l.stage = some (.processing batch live (.computed c))) :
    ({ l with
      stage := some (.processing batch live (.written c))
      published := l.published ++ [c] } : Lane K).Sound committed zid := by
  have hrun := h.run batch live _ hstage
  have hparked := h.not_parked hstage (by simp)
  have hcovers : Covers committed l.delivered l.queued c := hrun.engine
  have hlast : (l.published ++ [c]).getLast? = some c := by simp
  have hflight : l.inFlight = batch.votes := inFlight_eq hstage
  exact { h with
    ordered := fun row hrow => by
      change _ ∈ batch.votes ++ l.queued ∨ NotNewer row (batch.votes ++ l.queued)
      rw [← hflight]
      exact h.ordered row hrow
    run := forall_processing.2
      ⟨hrun.live, hrun.rows, fun _ => hrun.ordered rfl, hcovers, hlast⟩
    parked := fun hp => absurd (hparked.symm.trans hp) (by decide)
    published := fun c' hc' => mem_append_left _ (h.published c' hc')
    safe := by
      refine .inr (.inl ⟨fun row hrow => ?_, fun c' hc' => ?_⟩)
      · exact (hcovers row hrow).imp (mem_append_right _) fun hc => ⟨c, hlast, hc⟩
      · -- the cache still holds the conversation of before, if any
        rcases h.safe with hp | hintact | hrec
        · exact absurd (hparked.symm.trans hp) (by decide)
        · have hold := hintact.conv c' hc'
          rw [hflight] at hold
          exact hold
        · exact absurd (hrec.conv.symm.trans hc') (by simp) }

/-- The written conversation is cached. -/
theorem Sound.remember
    (hstage : l.stage = some (.processing batch live (.written c))) :
    ({ l with
      stage := some (.processing batch live .remembered), conv := some c } : Lane K).Sound
      committed zid := by
  have hrun := h.run batch live _ hstage
  have hparked := h.not_parked hstage (by simp)
  obtain ⟨hcovers, hlast⟩ := hrun.engine
  have hflight : l.inFlight = batch.votes := inFlight_eq hstage
  exact { h with
    ordered := fun row hrow => by
      change _ ∈ batch.votes ++ l.queued ∨ NotNewer row (batch.votes ++ l.queued)
      rw [← hflight]
      exact h.ordered row hrow
    run := forall_processing.2
      ⟨hrun.live, hrun.rows, fun _ => hrun.ordered rfl, c, hcovers, hlast, .inr rfl⟩
    parked := fun hp => absurd (hparked.symm.trans hp) (by decide)
    published := fun c' hc' => by
      obtain rfl := Option.some.inj hc'
      exact mem_of_getLast? hlast
    dropped := fun _ _ hp => absurd (hparked.symm.trans hp) (by decide)
    safe := .inr (.inl (Intact.of_covers hcovers hlast (.inr rfl))) }

/-- The run has succeeded: its rows are held. -/
theorem Sound.succeed
    (hstage : l.stage = some (.processing batch live .remembered)) :
    ({ l with stage := some (.processing batch live (.done true)) } : Lane K).Sound
      committed zid := by
  have hrun := h.run batch live _ hstage
  have hparked := h.not_parked hstage (by simp)
  obtain ⟨c, hcovers, hlast, hconv⟩ := hrun.engine
  have hflight : l.inFlight = batch.votes := inFlight_eq hstage
  exact { h with
    ordered := fun row hrow => by
      change row ∈ l.queued ∨ NotNewer row l.queued
      rcases h.ordered row hrow with hmem | hnot
      · rcases mem_append.1 hmem with hbatch | hqueued
        · exact .inr (hrun.ordered rfl row (hflight ▸ hbatch))
        · exact .inl hqueued
      · exact .inr (NotNewer.append.1 hnot).2
    run := forall_processing.2
      ⟨hrun.live, hrun.rows, fun hw => by simp [working] at hw, trivial⟩
    parked := fun hp => absurd (hparked.symm.trans hp) (by decide)
    safe := .inr (.inl (Intact.of_covers hcovers hlast hconv)) }

/-- The next message of a failed batch goes back to the queue. -/
theorem Sound.requeue {rest : List ServiceMessage}
    (hstage : l.stage = some (.processing batch live (.requeueing (message :: rest)))) :
    ({ l with
      queue := l.queue ++ [message]
      stage := some (.processing batch live (.requeueing rest)) } : Lane K).Sound
      committed zid := by
  have hrun := h.run batch live _ hstage
  have hparked := h.not_parked hstage (by simp)
  obtain ⟨hwork, hrows⟩ := hrun.engine
  have hflight : l.inFlight = message.voteRows ++ rest.flatMap Message.voteRows :=
    inFlight_eq hstage
  set l' : Lane K := { l with
    queue := l.queue ++ [message]
    stage := some (.processing batch live (.requeueing rest)) } with hl'
  have hway : ∀ row, row ∈ l'.inFlight ++ l'.queued ↔ row ∈ l.inFlight ++ l.queued := by
    intro row
    have hflight' : l'.inFlight = rest.flatMap Message.voteRows := rfl
    have hqueued' : l'.queued = l.queued ++ message.voteRows := by simp [hl', Lane.queued]
    rw [hflight', hqueued', hflight]
    simp only [mem_append]
    tauto
  exact { h with
    work := by
      intro m hm
      rcases mem_append.1 hm with hold | hnew
      · exact h.work m hold
      · obtain rfl := mem_singleton.1 hnew
        exact hwork m mem_cons_self
    queued := by
      intro row hrow
      have hrow' := (hway row).1 (mem_append_right _ hrow)
      rcases mem_append.1 hrow' with hin | hold
      · rw [hflight] at hin
        exact hrows row hin
      · exact h.queued row hold
    ordered := by
      intro row hrow
      refine (h.ordered row hrow).imp (hway row).2
        fun hnot row' hrow' => hnot row' ((hway row').1 hrow')
    run := forall_processing.2
      ⟨hrun.live, hrun.rows, fun hw => by simp [working] at hw,
        fun m hm => hwork m (mem_cons_of_mem _ hm),
        fun row hrow => hrows row (mem_append_right _ hrow)⟩
    parked := fun hp => absurd (hparked.symm.trans hp) (by decide)
    safe := by
      rcases h.safe with hp | hintact | hrec
      · exact .inl hp
      · exact .inr (.inl (hintact.congr rfl rfl rfl fun row => (hway row).2))
      · exact .inr (.inr ⟨hrec.conv, .inl (by simp [hl'])⟩) }

/-- The zid is parked, while no feeder has dropped its cache entry without having unparked it. -/
theorem Sound.park
    (hstage : l.stage = some (.processing batch live .parking))
    (hdropped : ∀ f, l.dropped f = false) :
    ({ l with
      queue := [], parked := true
      stage := some (.processing batch live (.done false)) } : Lane K).Sound committed zid := by
  have hrun := h.run batch live _ hstage
  exact { h with
    work := fun m hm => absurd hm not_mem_nil
    queued := fun row hrow => absurd hrow not_mem_nil
    ordered := fun row _ => .inr NotNewer.nil
    run := forall_processing.2
      ⟨hrun.live, hrun.rows, fun hw => by simp [working] at hw, trivial⟩
    parked := fun _ => ⟨rfl, forall_processing.2 ⟨false, rfl⟩⟩
    dropped := fun f hf => absurd ((hdropped f).symm.trans hf) (by decide)
    safe := .inl rfl }

end

theorem isWork_requeueMessages (batch : Batch) : ∀ m ∈ requeueMessages batch, IsWork m := by
  intro m hm
  simp only [requeueMessages, mem_append, mem_ite_nil_right, mem_ite_nil_left,
    mem_singleton, List.isEmpty_iff] at hm
  rcases hm with (⟨-, rfl⟩ | ⟨hne, rfl⟩) | ⟨hne, rfl⟩
  · trivial
  · exact hne
  · exact hne

/-- `_requeue` submits exactly the vote rows of the batch. -/
theorem voteRows_requeueMessages (batch : Batch) :
    (requeueMessages batch).flatMap Message.voteRows = batch.votes := by
  unfold requeueMessages
  cases hv : batch.votes <;> cases batch.rebuild <;> cases batch.moderation <;>
    simp [Message.voteRows]

theorem requeueMessages_ne_nil (h : batch.hasLiveWork = true) : requeueMessages batch ≠ [] := by
  simp only [CoalescedBatch.hasLiveWork, Bool.or_eq_true, Bool.not_eq_true'] at h
  unfold requeueMessages
  rcases h with (hvotes | hmod) | hrebuild
  · simp [hvotes]
  · simp [hmod]
  · simp [hrebuild]

/-- One step of the engine. -/
theorem Sound.engine {config : ServiceConfig} {retries : Option ℤ} {e : EngineEvent K}
    {after : EngineState K} (h : l.Sound committed zid)
    (hstage : l.stage = some (.processing batch live stage))
    (hs : EngineState.Step config zid committed l.parked batch
      ⟨stage, l.conv, l.published, retries⟩ e
      after) :
    ({ l with
      stage := some (.processing batch live after.stage)
      conv := after.conv, published := after.published } : Lane K).Sound committed zid := by
  have hrun := h.run batch live stage hstage
  cases e with
  | isParked =>
    obtain ⟨rfl, rfl⟩ := hs
    have hparked := h.not_parked hstage (by simp)
    have hchecked :
        ({ l with stage := some (.processing batch live .checked) } : Lane K).Sound
          committed zid :=
      h.setStage hstage (by simp) rfl (fun _ => rfl) (fun _ => rfl) trivial
    simpa only [hparked, Bool.false_eq_true, if_false] using hchecked
  | lookup =>
    obtain ⟨rfl, rfl⟩ := hs
    refine h.setStage hstage (by simp) rfl (fun _ => rfl) (fun _ => rfl) ?_
    cases hconv : (if batch.rebuild then none else l.conv) with
    | none => trivial
    | some c =>
      have hcached : l.conv = some c := by
        split at hconv
        · simp at hconv
        · exact hconv
      rcases h.safe with hp | hintact | hrec
      · exact absurd ((h.not_parked hstage (by simp)).symm.trans hp) (by decide)
      · have hcovers := hintact.conv c hcached
        rw [inFlight_eq hstage] at hcovers
        exact hcovers
      · exact absurd (hrec.conv.symm.trans hcached) (by simp)
  | load row history mods =>
    obtain ⟨rfl, hhistory, rfl⟩ := hs
    exact h.setStage hstage (by simp) rfl (fun _ => rfl) (fun _ => rfl)
      (h.covers_load row hhistory mods _)
  | update mods =>
    obtain ⟨c, rfl, rfl⟩ := hs
    exact h.setStage hstage (by simp) rfl (fun _ => rfl) (fun _ => rfl)
      (h.covers_update hstage mods)
  | write =>
    obtain ⟨c, rfl, rfl⟩ := hs
    exact h.write hstage
  | remember =>
    obtain ⟨c, rfl, rfl⟩ := hs
    exact h.remember hstage
  | succeed =>
    obtain ⟨rfl, rfl⟩ := hs
    exact h.succeed hstage
  | raise =>
    obtain ⟨htry, rfl⟩ := hs
    have hworking : stage.working = true := by
      cases stage <;> simp_all [inTry, working]
    refine h.setStage hstage ?_ ?_ (fun _ => hworking) (fun _ => rfl) trivial
    · rintro ok rfl
      simp [inTry] at htry
    · rw [rows_of_working hworking]
      rfl
  | countFailure =>
    obtain ⟨rfl, rfl⟩ := hs
    have hrequeued := voteRows_requeueMessages batch
    by_cases hcap : retries.getD 0 + 1 ≤ config.retryCap
    · simp only [hcap, if_true]
      refine h.setStage hstage (by simp) hrequeued (fun _ => rfl) (fun _ => ?_)
        ⟨isWork_requeueMessages batch, fun row hrow => hrun.rows row (hrequeued ▸ hrow)⟩
      cases hmessages : requeueMessages batch with
      | nil => exact absurd hmessages (requeueMessages_ne_nil hrun.live)
      | cons m rest => rfl
    · simp only [hcap, if_false]
      exact h.setStage hstage (by simp) rfl (fun _ => rfl) (fun _ => rfl) trivial
  | requeued =>
    obtain ⟨rfl, rfl⟩ := hs
    exact h.setStage hstage (by simp) rfl (fun hw => by simp [working] at hw)
      (fun hp => by simp [pending] at hp) trivial

end Engine

end Lane

end Polis.Poller
