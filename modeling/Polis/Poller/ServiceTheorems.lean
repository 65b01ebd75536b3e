import Polis.Poller.ServiceLanes

/-!
# No polled vote is lost

An idle, unparked zid that no feeder is about to submit for holds every vote delivered for it, in
its last bundle and in its cache; what is cached has been committed; and a zid leaves the parked
state without a cache entry, so that its next run loads the history.

Reference: `polismath/poller/service.py`.
-/

set_option linter.unusedSectionVars false

namespace Polis.Poller

open Clustering List Function

variable {K : Type*} [Field K] [LinearOrder K] [Numerics K]
variable {es : List (ServiceEvent K)}

variable {config : ServiceConfig} {s s' : ServiceState K} {e : ServiceEvent K} {zid : ℤ}

/-! ## Leaving the parked state -/

/-- The step computes a conversation. -/
def EngineEvent.computes : EngineEvent K → Bool
  | .load .. | .update _ => true
  | _ => false

/-- The run has no cached conversation in hand, and none it has computed. -/
def EngineStage.cold : EngineStage K → Bool
  | .lookedUp (some _) | .computed _ | .written _ => false
  | _ => true

/-- The zid has no cache entry, and its runs no conversation. -/
structure Cold (s : ServiceState K) (zid : ℤ) : Prop where
  conv : s.convs zid = none
  runs : ∀ batch live stage, .processing batch live stage ∈ s.pool.runs zid → stage.cold = true

/-- Only the third step of `_unpark` takes a zid out of the parked ones. -/
theorem unpark_of_step (hs : s.Step config e s') (hparked : zid ∈ s.pool.parked)
    (hleft : zid ∉ s'.pool.parked) :
    ∃ f, (s.lane zid).dropped f = true ∧ s'.convs = s.convs ∧ s'.pool.runs = s.pool.runs := by
  have hsubmit : ∀ (z : ℤ) (message : ServiceMessage) (now : ℤ)
      (pool : PoolState VoteRow CommentRow (EngineStage K)),
      (pool.submit z message now).parked = pool.parked := fun z message now pool => by
    unfold PoolState.submit
    split <;> rfl
  cases e with
  | commitVote row =>
    obtain ⟨poll, -, rfl⟩ := hs
    exact absurd hparked hleft
  | pollVotes cycle =>
    obtain ⟨-, poll, -, rfl⟩ := hs
    exact absurd hparked hleft
  | pollModeration | reconcile =>
    obtain ⟨-, rfl⟩ := hs
    exact absurd hparked hleft
  | feed f now =>
    obtain ⟨z, message, rest, htodo, rfl⟩ := hs
    unfold ServiceState.feed at hleft ⊢
    cases hphase : (s.feeders f).phase with
    | cacheDropped =>
      simp only [hphase] at hleft
      have hz : zid = z := by
        by_contra hne
        exact hleft (Finset.mem_erase.2 ⟨hne, hparked⟩)
      subst hz
      exact ⟨f, by simp [ServiceState.lane, FeederState.isAt, htodo, hphase], rfl, rfl⟩
    | unparked | notParked =>
      simp only [hphase, hsubmit] at hleft
      exact absurd hparked hleft
    | _ =>
      simp only [hphase] at hleft
      exact absurd hparked hleft
  | submitRebuild z now =>
    obtain rfl := hs
    exact absurd hparked (hsubmit z _ now s.pool ▸ hleft)
  | evict z =>
    obtain rfl := hs
    exact absurd hparked hleft
  | drain z now =>
    obtain ⟨messages, pool, ⟨-, -, -, runs', -, rfl⟩, rfl⟩ := hs
    exact absurd hparked hleft
  | engine z e =>
    obtain ⟨batch, live, stage, after, runs', -, -, rfl⟩ := hs
    exact absurd hparked hleft
  | requeue z now =>
    obtain ⟨batch, live, message, rest, runs', -, rfl⟩ := hs
    simp only [hsubmit] at hleft
    exact absurd hparked hleft
  | park z =>
    obtain ⟨batch, live, runs', -, rfl⟩ := hs
    exact absurd (Finset.mem_insert_of_mem hparked) hleft
  | finish z =>
    obtain ⟨batch, live, liveOk, runs', -, rfl⟩ := hs
    exact absurd hparked hleft
  | settle z =>
    obtain ⟨outcome, live, pool, ⟨runs', -, rfl⟩, rfl⟩ := hs
    refine absurd hparked ?_
    dsimp only at hleft
    unfold PoolState.settle at hleft
    split at hleft <;> exact hleft
  | release z =>
    obtain ⟨pool, ⟨-, before, after, -, rfl⟩, rfl⟩ := hs
    exact absurd hparked hleft

/-- A zid that leaves the parked state is cold. -/
theorem cold_of_unpark (h : Lanes s) (hpool : PoolOpen s.pool) (hs : s.Step config e s')
    (hparked : zid ∈ s.pool.parked) (hleft : zid ∉ s'.pool.parked) : Cold s' zid := by
  obtain ⟨f, hdropped, hconvs, hruns⟩ := unpark_of_step hs hparked hleft
  have hlane : (s.lane zid).parked = true := by simpa [ServiceState.lane] using hparked
  refine ⟨?_, fun batch live stage hmem => ?_⟩
  · rw [hconvs]
    exact (h zid).dropped f hdropped hlane
  · rw [hruns] at hmem
    obtain ⟨before, after, hsplit⟩ := append_of_mem hmem
    obtain ⟨rfl, rfl⟩ := hpool.wellFormed.only_run hsplit
    obtain ⟨ok, rfl⟩ := ((h zid).parked hlane).2 batch live stage (by
      simp [ServiceState.lane, hsplit])
    rfl

theorem Cold.pop (h : Cold s zid) (z : ℤ) : PoolState.pop s.convs z zid = none := by
  by_cases hz : zid = z
  · rw [PoolState.pop, hz, update_self]
  · rw [PoolState.pop, update_of_ne hz]
    exact h.conv

/-- A submission starts a run at its beginning. -/
theorem mem_runs_submit {pool : PoolState VoteRow CommentRow (EngineStage K)} {z now : ℤ}
    {message : ServiceMessage} {batch : Batch} {live : Bool} {stage : EngineStage K}
    (h : .processing batch live stage ∈ (pool.submit z message now).runs zid) :
    .processing batch live stage ∈ pool.runs zid := by
  unfold PoolState.submit at h
  split at h
  · dsimp only at h
    split at h
    · exact h
    · by_cases hz : zid = z
      · subst hz
        simpa using h
      · rwa [update_of_ne hz] at h
  · exact h

/-- A run that moves to a cold stage. -/
theorem Cold.moves (h : Cold s zid) (hpool : PoolOpen s.pool) {z : ℤ}
    {stage stage' : Stage VoteRow CommentRow (EngineStage K)}
    {runs' : ℤ → List (Stage VoteRow CommentRow (EngineStage K))}
    (hm : s.pool.Moves z stage stage' runs')
    (hcold : z = zid → ∀ batch live work, stage' = .processing batch live work → work.cold = true) :
    ∀ batch live work, .processing batch live work ∈ runs' zid → work.cold = true := by
  obtain ⟨-, -, rfl⟩ := hpool.wellFormed.moves hm
  intro batch live work hmem
  by_cases hz : zid = z
  · subst hz
    rw [update_self, mem_singleton] at hmem
    exact hcold rfl batch live work hmem.symm
  · rw [update_of_ne hz] at hmem
    exact h.runs batch live work hmem

/-- A step of the engine that computes nothing keeps a cold run cold, and caches nothing. -/
theorem cold_of_engine {committed : List VoteRow} {parked : Bool} {batch : Batch}
    {before after : EngineState K} {e : EngineEvent K}
    (hs : before.Step config zid committed parked batch e after) (hcold : before.stage.cold = true)
    (hconv : before.conv = none) (he : e.computes = false) :
    after.stage.cold = true ∧ after.conv = none := by
  cases e with
  | isParked | countFailure =>
    obtain ⟨-, rfl⟩ := hs
    exact ⟨by dsimp only; split <;> rfl, hconv⟩
  | lookup =>
    obtain ⟨-, rfl⟩ := hs
    exact ⟨by simp only [hconv, ite_self]; rfl, hconv⟩
  | load | update => simp [EngineEvent.computes] at he
  | write | remember =>
    obtain ⟨conv, hstage, -⟩ := hs
    simp [hstage, EngineStage.cold] at hcold
  | succeed | raise | requeued =>
    obtain ⟨-, rfl⟩ := hs
    exact ⟨rfl, hconv⟩

/-- A cold zid stays cold until a run of it computes. -/
theorem Cold.step (h : Cold s zid) (hpool : PoolOpen s.pool) (hs : s.Step config e s')
    (hidle : ∀ e', e = .engine zid e' → e'.computes = false) : Cold s' zid := by
  cases e with
  | commitVote row =>
    obtain ⟨poll, -, rfl⟩ := hs
    exact ⟨h.conv, h.runs⟩
  | pollVotes cycle =>
    obtain ⟨-, poll, -, rfl⟩ := hs
    exact ⟨h.conv, h.runs⟩
  | pollModeration | reconcile =>
    obtain ⟨-, rfl⟩ := hs
    exact ⟨h.conv, h.runs⟩
  | feed f now =>
    obtain ⟨z, message, rest, -, rfl⟩ := hs
    unfold ServiceState.feed
    cases (s.feeders f).phase with
    | retriesPopped => exact ⟨h.pop z, h.runs⟩
    | unparked => exact ⟨h.conv, fun batch live stage hmem => h.runs _ _ _ (mem_runs_submit hmem)⟩
    | notParked =>
      exact ⟨h.conv, fun batch live stage hmem => h.runs _ _ _ (mem_runs_submit hmem)⟩
    | _ => exact ⟨h.conv, h.runs⟩
  | submitRebuild z now =>
    obtain rfl := hs
    exact ⟨h.conv, fun batch live stage hmem => h.runs _ _ _ (mem_runs_submit hmem)⟩
  | evict z =>
    obtain rfl := hs
    exact ⟨h.pop z, h.runs⟩
  | drain z now =>
    obtain ⟨messages, pool, ⟨-, -, -, runs', hm, rfl⟩, rfl⟩ := hs
    refine ⟨h.conv, h.moves hpool hm fun _ batch live work hwork => ?_⟩
    unfold Stage.afterDrain at hwork
    dsimp only at hwork
    split at hwork
    · obtain ⟨-, -, rfl⟩ := Stage.processing.inj hwork
      rfl
    · simp at hwork
  | engine z e =>
    obtain ⟨batch, live, stage, after, runs', hm, hs, rfl⟩ := hs
    by_cases hz : z = zid
    · subst hz
      obtain ⟨-, hrun, -⟩ := hpool.wellFormed.moves hm
      have hcold := h.runs batch live stage (by rw [hrun]; exact mem_singleton_self _)
      obtain ⟨hstage, hconv⟩ := cold_of_engine hs hcold h.conv (hidle e rfl)
      refine ⟨by simpa [ServiceState.setEngine] using hconv,
        h.moves hpool hm fun _ batch' live' work hwork => ?_⟩
      obtain ⟨-, -, rfl⟩ := Stage.processing.inj hwork
      exact hstage
    · refine ⟨?_, h.moves hpool hm fun hzid => absurd hzid hz⟩
      simpa [ServiceState.setEngine, update_of_ne (Ne.symm hz)] using h.conv
  | requeue z now =>
    obtain ⟨batch, live, message, rest, runs', hm, rfl⟩ := hs
    refine ⟨h.conv, fun batch' live' stage hmem => ?_⟩
    refine h.moves hpool hm (fun _ b l work hwork => ?_) _ _ _ (mem_runs_submit hmem)
    obtain ⟨-, -, rfl⟩ := Stage.processing.inj hwork
    rfl
  | park z =>
    obtain ⟨batch, live, runs', hm, rfl⟩ := hs
    refine ⟨h.conv, h.moves hpool hm fun _ b l work hwork => ?_⟩
    obtain ⟨-, -, rfl⟩ := Stage.processing.inj hwork
    rfl
  | finish z =>
    obtain ⟨batch, live, liveOk, runs', hm, rfl⟩ := hs
    exact ⟨h.conv, h.moves hpool hm fun _ b l work hwork => by simp at hwork⟩
  | settle z =>
    obtain ⟨outcome, live, pool, ⟨runs', hm, rfl⟩, rfl⟩ := hs
    refine ⟨h.conv, ?_⟩
    have hruns := h.moves hpool hm fun _ b l work hwork => by simp at hwork
    unfold PoolState.settle
    split <;> exact hruns
  | release z =>
    obtain ⟨pool, ⟨-, before, after, hruns, rfl⟩, rfl⟩ := hs
    refine ⟨h.conv, fun batch live stage hmem => ?_⟩
    dsimp only at hmem
    by_cases hz : zid = z
    · subst hz
      rw [update_self] at hmem
      refine h.runs batch live stage (hruns ▸ ?_)
      rcases mem_append.1 hmem with hb | ha
      · exact mem_append_left _ hb
      · exact mem_append_right _ (mem_cons_of_mem _ ha)
    · rw [update_of_ne hz] at hmem
      exact h.runs batch live stage hmem

/-! ## Runs of the service -/

/-- A step in which no zid is parked while a feeder stands between dropping its cache entry and
unparking it. -/
def ServiceState.CleanStep (config : ServiceConfig) (s : ServiceState K) (e : ServiceEvent K)
    (s' : ServiceState K) : Prop :=
  s.Step config e s' ∧
    ∀ zid, e = .park zid → ∀ f, (s.feeders f).isAt zid .cacheDropped = false

/-- The conversation holds, in every cell with a delivered row, a committed vote at least as new as
every row delivered for the cell. -/
def HoldsDelivered (s : ServiceState K) (zid : ℤ) (c : Conversation K) : Prop :=
  ∀ p t, (∃ row ∈ s.delivered zid, row.hits zid p t = true) →
    ∃ vote ∈ s.votePoll.committed, vote.hits zid p t = true ∧
      c.rawRatingMat.cell p t = some vote.value ∧
      ∀ row ∈ s.delivered zid, row.hits zid p t = true → row.created ≤ vote.created

/-- What holds in every state of a clean run. -/
structure Safe (s : ServiceState K) : Prop where
  pool : PoolOpen s.pool
  feeding : ∃ es, Feeding es s
  lanes : Lanes s

theorem Safe.init (watermark : ℤ) : Safe (ServiceState.init watermark : ServiceState K) where
  pool := ⟨.init, rfl⟩
  feeding := ⟨[], .init watermark⟩
  lanes z :=
    { delivered := fun _ h => absurd h not_mem_nil
      work := fun _ h => absurd h not_mem_nil
      queued := fun _ h => absurd h not_mem_nil
      ordered := fun _ h => absurd h not_mem_nil
      run := fun _ _ _ h => by simp [ServiceState.lane, ServiceState.init, PoolState.init] at h
      parked := fun h => by simp [ServiceState.lane, ServiceState.init, PoolState.init] at h
      published := fun _ h => by simp [ServiceState.lane, ServiceState.init] at h
      dropped := fun _ _ _ => rfl
      safe := .inr (.inl ⟨fun _ h => absurd h not_mem_nil, fun _ h => by
        simp [ServiceState.lane, ServiceState.init] at h⟩) }

theorem Safe.step (h : Safe s) (hs : s.CleanStep config e s') : Safe s' := by
  obtain ⟨es, hfeeding⟩ := h.feeding
  exact ⟨h.pool.service_step hs.1, hfeeding.step hs.1, h.lanes.step h.pool hfeeding hs.1 hs.2⟩

theorem run_safe {watermark : ℤ}
    (hrun : Run (ServiceState.CleanStep config) (.init watermark) es s) : Safe s :=
  hrun.keeps Safe (.init watermark) fun _ _ _ h hs => h.step hs

/-- A conversation that holds every delivered row holds in each cell one as new as all of them. -/
theorem holdsDelivered_of_covers {c : Conversation K}
    (h : Covers s.votePoll.committed (s.delivered zid) [] c) : HoldsDelivered s zid c := by
  intro p t ⟨row, hrow, hhit⟩
  cases hn : newest VoteRow.created (VoteRow.hits zid p t) (s.delivered zid) with
  | none => simp [newest_eq_none.1 hn row hrow] at hhit
  | some newestRow =>
    obtain ⟨hmem, hhit', hmax⟩ := newest_some hn
    obtain ⟨vote, hvote, hcell, hle, hval⟩ := (h newestRow hmem).resolve_left not_mem_nil
    have hvhit : vote.hits zid p t = true := hits_iff.2 (hcell.trans (hits_iff.1 hhit'))
    have hpt : newestRow.pid = p ∧ newestRow.tid = t := by
      simp only [VoteRow.hits, Bool.and_eq_true, decide_eq_true_eq] at hhit'
      exact ⟨hhit'.1.2, hhit'.2⟩
    rw [hpt.1, hpt.2] at hval
    exact ⟨vote, hvote, hvhit, hval, fun row' hrow' hhit'' => (hmax row' hrow' hhit'').trans hle⟩

/-! ## The contract -/

/-- A step that computes nothing for a cold zid. -/
theorem run_cold
    (hrun : Run (ServiceState.CleanStep config) s es s') (hsafe : Safe s) (hcold : Cold s zid)
    (hidle : ∀ e', .engine zid e' ∈ es → e'.computes = false) : Safe s' ∧ Cold s' zid := by
  induction hrun with
  | nil => exact ⟨hsafe, hcold⟩
  | snoc hrun hs ih =>
    obtain ⟨hsafe₁, hcold₁⟩ := ih fun e' he' => hidle e' (mem_append_left _ he')
    refine ⟨hsafe₁.step hs, hcold₁.step hsafe₁.pool hs.1 fun e' he' => hidle e' ?_⟩
    rw [he']
    exact mem_append_right _ (mem_singleton_self _)

/-- No polled vote is lost, in every run in which no zid is parked while a feeder stands between
dropping its cache entry and unparking it. When a zid has no queued message, no run, is not parked,
and no feeder has unparked it without having submitted, its last committed bundle and its cached
conversation hold every row delivered for it. A cached conversation has been committed. A zid leaves
the parked state without a cache entry, and the next conversation computed for it is a load of its
full history. -/
theorem no_vote_lost {watermark : ℤ} {es : List (ServiceEvent K)}
    (hrun : Run (ServiceState.CleanStep config) (.init watermark) es s) :
    (∀ zid, s.pool.queues zid = [] → zid ∉ s.pool.active → zid ∉ s.pool.parked →
      (∀ f, (s.feeders f).isAt zid .unparked = false) →
      (s.delivered zid ≠ [] → s.published zid ≠ []) ∧
      (∀ c, (s.published zid).getLast? = some c → HoldsDelivered s zid c) ∧
      ∀ c, s.convs zid = some c → HoldsDelivered s zid c) ∧
    (∀ zid c, s.convs zid = some c → c ∈ s.published zid) ∧
    (∀ zid e s₁, s.CleanStep config e s₁ → zid ∈ s.pool.parked → zid ∉ s₁.pool.parked →
      s.convs zid = none ∧ s₁.convs zid = none ∧
      ∀ es' e' s₂, Run (ServiceState.CleanStep config) s₁ (es' ++ [.engine zid e']) s₂ →
        (∀ e'', .engine zid e'' ∈ es' → e''.computes = false) → e'.computes = true →
        ∃ row history mods, e' = .load row history mods) := by
  have hsafe := run_safe hrun
  refine ⟨fun zid hqueue hactive hparked hfeeders => ?_,
    fun zid c hc => (hsafe.lanes zid).published c hc, fun zid e s₁ hs hparked hleft => ?_⟩
  · have hlane := hsafe.lanes zid
    have hruns : s.pool.runs zid = [] := (hsafe.pool.run_eq zid).2 hactive
    have hstage : (s.lane zid).stage = none := by simp [ServiceState.lane, hruns]
    have hway : (s.lane zid).inFlight ++ (s.lane zid).queued = [] := by
      rw [Lane.inFlight, hstage, Lane.queued]
      simp [ServiceState.lane, hqueue]
    -- nothing is parked or coming, so the lane is intact
    have hintact : (s.lane zid).Intact s.votePoll.committed := by
      rcases hlane.safe with hp | hintact | hrec
      · exact absurd (of_decide_eq_true hp) hparked
      · exact hintact
      · rcases hrec.coming with hq | ⟨f, hf⟩ | ⟨batch, live, stage, hs, -⟩
        · exact absurd hqueue hq
        · exact absurd ((hfeeders f).symm.trans hf) (by decide)
        · simp [hstage] at hs
    have hbundle : ∀ row ∈ s.delivered zid, ∃ c, (s.published zid).getLast? = some c ∧
        HoldsVote s.votePoll.committed c row := fun row hrow =>
      (hintact.bundle row hrow).resolve_left (hway ▸ not_mem_nil)
    refine ⟨fun hne hnone => ?_, fun c hc => ?_, fun c hc => ?_⟩
    · obtain ⟨row, hrow⟩ := exists_mem_of_ne_nil _ hne
      obtain ⟨c, hc, -⟩ := hbundle row hrow
      simp [hnone] at hc
    · refine holdsDelivered_of_covers fun row hrow => .inr ?_
      obtain ⟨c', hc', hheld⟩ := hbundle row hrow
      obtain rfl : c = c' := Option.some.inj (hc.symm.trans hc')
      exact hheld
    · have hcovers := hintact.conv c hc
      rw [hway] at hcovers
      exact holdsDelivered_of_covers hcovers
  · have hcold := cold_of_unpark hsafe.lanes hsafe.pool hs.1 hparked hleft
    obtain ⟨f, hdropped, hconvs, -⟩ := unpark_of_step hs.1 hparked hleft
    refine ⟨hconvs ▸ hcold.conv, hcold.conv, fun es' e' s₂ hrun₁ hidle hcomputes => ?_⟩
    obtain ⟨s₃, hrun₃, hs₃⟩ := hrun₁.snoc_inv
    obtain ⟨hsafe₃, hcold₃⟩ := run_cold hrun₃ (hsafe.step hs) hcold hidle
    obtain ⟨batch, live, stage, after, runs', hm, hstep, -⟩ := hs₃.1
    obtain ⟨-, hruns, -⟩ := hsafe₃.pool.wellFormed.moves hm
    have hstage := hcold₃.runs batch live stage (by rw [hruns]; exact mem_singleton_self _)
    cases e' with
    | load row history mods => exact ⟨row, history, mods, rfl⟩
    | update mods =>
      obtain ⟨conv, hlooked, -⟩ := hstep
      have hlooked : stage = .lookedUp (some conv) := hlooked
      simp [hlooked, EngineStage.cold] at hstage
    | _ => simp [EngineEvent.computes] at hcomputes

/-! ## Lost votes -/

/-- A step of a run of the engine. -/
private theorem engine_step (zid : ℤ) (e : EngineEvent K) {batch : Batch} {live : Bool}
    {stage : EngineStage K} {after : EngineState K}
    (hruns : s.pool.runs zid = [.processing batch live stage])
    (hs : (s.engineState zid stage).Step config zid s.votePoll.committed
      (decide (zid ∈ s.pool.parked)) batch e after) :
    s.CleanStep config (.engine zid e) (s.setEngine zid
      (update s.pool.runs zid [.processing batch live after.stage]) after) :=
  ⟨⟨batch, live, stage, after, _, ⟨[], [], hruns, rfl⟩, hs, rfl⟩, by simp⟩

/-- A step that is not a park. -/
private theorem clean_of_step (e : ServiceEvent K) (hs : s.Step config e s')
    (he : ∀ z, e ≠ .park z) :
    s.CleanStep config e s' := ⟨hs, fun z hz => absurd hz (he z)⟩

private def serviceConfig : ServiceConfig := ⟨60000, 0, false, fun _ => true⟩

private def firstVote : VoteRow := ⟨1, 7, 3, 1, 10⟩

private def secondVote : VoteRow := ⟨1, 8, 3, 1, 20⟩

private def noMods : Moderation := ⟨[], [], [], [], none⟩

private def loaded : Conversation ℚ := loadOrInit 1 none [firstVote] noMods false

private def comment : CommentRow := ⟨1, 3, 30, .int 1, false⟩

/-- A vote is delivered, loaded, written and cached. A second vote is delivered, its run fails and
parks the zid, and the moderation poll unparks it. -/
private theorem exists_loaded_lost :
    (∃ (es : List (ServiceEvent ℚ)) (s : ServiceState ℚ),
      Run (ServiceState.CleanStep serviceConfig) (.init 0) es s ∧ s.pool.queues 1 = [] ∧
      1 ∉ s.pool.active ∧ 1 ∉ s.pool.parked ∧ (∀ f, (s.feeders f).isAt 1 .unparked = false) ∧
      s.convs 1 = some loaded ∧ s.delivered 1 = [firstVote] ∧ s.votePoll.committed = [firstVote]) ∧
    ∃ (es : List (ServiceEvent ℚ)) (s : ServiceState ℚ),
      Run (ServiceState.CleanStep serviceConfig) (.init 0) es s ∧ s.pool.queues 1 = [] ∧
      1 ∉ s.pool.active ∧ 1 ∉ s.pool.parked ∧ (s.published 1).getLast? = some loaded ∧
      s.delivered 1 = [firstVote, secondVote] := by
  have h : Run (ServiceState.CleanStep serviceConfig) (.init 0 : ServiceState ℚ) [] (.init 0) :=
    .nil
  replace h := h.snoc (clean_of_step (.commitVote firstVote) ⟨_, rfl, rfl⟩ (by simp))
  replace h := h.snoc (clean_of_step (.pollVotes _)
    ⟨rfl, _, ⟨[firstVote], by decide, rfl, rfl⟩, rfl⟩ (by simp))
  replace h := h.snoc (clean_of_step (.feed .votePoll 0)
    ⟨1, .votes [firstVote], [], rfl, rfl⟩ (by simp))
  replace h := h.snoc (clean_of_step (.feed .votePoll 0)
    ⟨1, .votes [firstVote], [], rfl, rfl⟩ (by simp))
  replace h := h.snoc (clean_of_step (.drain 1 0)
    ⟨_, _, ⟨rfl, by decide, by decide, _, ⟨[], [], rfl, rfl⟩, rfl⟩, rfl⟩ (by simp))
  replace h := h.snoc (engine_step 1 .isParked rfl ⟨rfl, rfl⟩)
  replace h := h.snoc (engine_step 1 .lookup rfl ⟨rfl, rfl⟩)
  replace h := h.snoc (engine_step 1 (.load none [firstVote] noMods) rfl ⟨rfl, by decide, rfl⟩)
  replace h := h.snoc (engine_step 1 .write rfl ⟨loaded, rfl, rfl⟩)
  replace h := h.snoc (engine_step 1 .remember rfl ⟨loaded, rfl, rfl⟩)
  replace h := h.snoc (engine_step 1 .succeed rfl ⟨rfl, rfl⟩)
  replace h := h.snoc (clean_of_step (.finish 1) ⟨_, _, _, _, ⟨[], [], rfl, rfl⟩, rfl⟩ (by simp))
  replace h := h.snoc (clean_of_step (.settle 1)
    ⟨_, _, _, ⟨_, ⟨[], [], rfl, rfl⟩, rfl⟩, rfl⟩ (by simp))
  have hloaded :=
    h.snoc (clean_of_step (.release 1) ⟨_, ⟨.inl rfl, [], [], rfl, rfl⟩, rfl⟩ (by simp))
  refine ⟨⟨_, _, hloaded, rfl, by decide, by decide, by rintro (_ | _ | _) <;> rfl, rfl, rfl,
    rfl⟩, ?_⟩
  replace h := hloaded.snoc (clean_of_step (.commitVote secondVote) ⟨_, rfl, rfl⟩ (by simp))
  replace h := h.snoc (clean_of_step (.pollVotes _)
    ⟨rfl, _, ⟨[firstVote, secondVote], by decide, rfl, rfl⟩, rfl⟩ (by simp))
  replace h := h.snoc (clean_of_step (.feed .votePoll 0)
    ⟨1, .votes [secondVote], [], rfl, rfl⟩ (by simp))
  replace h := h.snoc (clean_of_step (.feed .votePoll 0)
    ⟨1, .votes [secondVote], [], rfl, rfl⟩ (by simp))
  replace h := h.snoc (clean_of_step (.drain 1 0)
    ⟨_, _, ⟨rfl, by decide, by decide, _, ⟨[], [], rfl, rfl⟩, rfl⟩, rfl⟩ (by simp))
  replace h := h.snoc (engine_step 1 .isParked rfl ⟨rfl, rfl⟩)
  replace h := h.snoc (engine_step 1 .raise rfl ⟨rfl, rfl⟩)
  replace h := h.snoc (engine_step 1 .countFailure rfl ⟨rfl, rfl⟩)
  replace h := h.snoc (show ServiceState.CleanStep serviceConfig _ (.park 1) _ from
    ⟨⟨_, _, _, ⟨[], [], rfl, rfl⟩, rfl⟩, by rintro z hz (_ | _ | _) <;> rfl⟩)
  replace h := h.snoc (clean_of_step (.finish 1) ⟨_, _, _, _, ⟨[], [], rfl, rfl⟩, rfl⟩ (by simp))
  replace h := h.snoc (clean_of_step (.settle 1)
    ⟨_, _, _, ⟨_, ⟨[], [], rfl, rfl⟩, rfl⟩, rfl⟩ (by simp))
  replace h := h.snoc (clean_of_step (.release 1) ⟨_, ⟨.inl rfl, [], [], rfl, rfl⟩, rfl⟩ (by simp))
  replace h := h.snoc (clean_of_step (.pollModeration [comment]) ⟨rfl, rfl⟩ (by simp))
  have hunpark : ∀ {s : ServiceState ℚ} {phase},
      s.feeders .modPoll = ⟨[(1, .moderation [comment])], phase⟩ →
      s.CleanStep serviceConfig (.feed .modPoll 0)
        (s.feed .modPoll 1 (.moderation [comment]) [] 0) :=
    fun hf => clean_of_step _ ⟨1, _, [], by rw [hf], rfl⟩ (by simp)
  replace h := (((h.snoc (hunpark rfl)).snoc (hunpark rfl)).snoc (hunpark rfl)).snoc (hunpark rfl)
  exact ⟨_, _, h, rfl, by decide, by decide, rfl, rfl⟩

private theorem snoc_step {watermark : ℤ}
    (h : Run (ServiceState.Step config) (.init watermark) es s) (e : ServiceEvent K)
    (hs : s.Step config e s') : Run (ServiceState.Step config) (.init watermark) (es ++ [e]) s' :=
  h.snoc hs

/-- The moderation poll has dropped the cache entry of a parked zid; the vote poll unparks it, a run
caches a conversation, the next run parks the zid, and the moderation poll unparks it. -/
private theorem exists_unpark_cached :
    ∃ (es : List (ServiceEvent ℚ)) (s : ServiceState ℚ) (e : ServiceEvent ℚ) (s' : ServiceState ℚ),
      Run (ServiceState.Step serviceConfig) (.init 0) es s ∧ s.Step serviceConfig e s' ∧
      1 ∈ s.pool.parked ∧ 1 ∉ s'.pool.parked ∧ s'.convs 1 = some loaded := by
  have h : Run (ServiceState.Step serviceConfig) (.init 0 : ServiceState ℚ) [] (.init 0) := .nil
  have hmod : ∀ {s : ServiceState ℚ} {phase},
      s.feeders .modPoll = ⟨[(1, .moderation [comment])], phase⟩ →
      s.Step serviceConfig (.feed .modPoll 0) (s.feed .modPoll 1 (.moderation [comment]) [] 0) :=
    fun hf => ⟨1, _, [], by rw [hf], rfl⟩
  have hvote : ∀ {s : ServiceState ℚ} {phase},
      s.feeders .votePoll = ⟨[(1, .votes [firstVote])], phase⟩ →
      s.Step serviceConfig (.feed .votePoll 0) (s.feed .votePoll 1 (.votes [firstVote]) [] 0) :=
    fun hf => ⟨1, _, [], by rw [hf], rfl⟩
  -- a rebuild fails and parks the zid
  replace h := snoc_step h (.submitRebuild 1 0) rfl
  replace h := snoc_step h (.drain 1 0)
    ⟨_, _, ⟨rfl, by decide, by decide, _, ⟨[], [], rfl, rfl⟩, rfl⟩, rfl⟩
  replace h := h.snoc (engine_step 1 .isParked rfl ⟨rfl, rfl⟩).1
  replace h := h.snoc (engine_step 1 .raise rfl ⟨rfl, rfl⟩).1
  replace h := h.snoc (engine_step 1 .countFailure rfl ⟨rfl, rfl⟩).1
  replace h := snoc_step h (.park 1) ⟨_, _, _, ⟨[], [], rfl, rfl⟩, rfl⟩
  replace h := snoc_step h (.finish 1) ⟨_, _, _, _, ⟨[], [], rfl, rfl⟩, rfl⟩
  replace h := snoc_step h (.settle 1) ⟨_, _, _, ⟨_, ⟨[], [], rfl, rfl⟩, rfl⟩, rfl⟩
  -- the moderation poll drops the cache entry
  replace h := snoc_step h (.pollModeration [comment]) ⟨rfl, rfl⟩
  replace h := ((h.snoc (hmod rfl)).snoc (hmod rfl)).snoc (hmod rfl)
  -- the vote poll unparks and submits, and the vote is loaded and cached
  replace h := snoc_step h (.commitVote firstVote) ⟨_, rfl, rfl⟩
  replace h := snoc_step h (.pollVotes _) ⟨rfl, _, ⟨[firstVote], by decide, rfl, rfl⟩, rfl⟩
  replace h := ((h.snoc (hvote rfl)).snoc (hvote rfl)).snoc (hvote rfl)
  replace h := (h.snoc (hvote rfl)).snoc (hvote rfl)
  replace h := snoc_step h (.drain 1 0)
    ⟨_, _, ⟨rfl, by decide, by decide, _, ⟨[], [], rfl, rfl⟩, rfl⟩, rfl⟩
  replace h := h.snoc (engine_step 1 .isParked rfl ⟨rfl, rfl⟩).1
  replace h := h.snoc (engine_step 1 .lookup rfl ⟨rfl, rfl⟩).1
  replace h := h.snoc (engine_step 1 (.load none [firstVote] noMods) rfl ⟨rfl, by decide, rfl⟩).1
  replace h := h.snoc (engine_step 1 .write rfl ⟨loaded, rfl, rfl⟩).1
  replace h := h.snoc (engine_step 1 .remember rfl ⟨loaded, rfl, rfl⟩).1
  replace h := h.snoc (engine_step 1 .succeed rfl ⟨rfl, rfl⟩).1
  replace h := snoc_step h (.finish 1) ⟨_, _, _, _, ⟨[], [], rfl, rfl⟩, rfl⟩
  replace h := snoc_step h (.settle 1) ⟨_, _, _, ⟨_, ⟨[], [], rfl, rfl⟩, rfl⟩, rfl⟩
  -- the next run parks the zid again, over its cache entry
  replace h := snoc_step h (.submitRebuild 1 0) rfl
  replace h := snoc_step h (.drain 1 0)
    ⟨_, _, ⟨rfl, by decide, by decide, _, ⟨[], [], rfl, rfl⟩, rfl⟩, rfl⟩
  replace h := h.snoc (engine_step 1 .isParked rfl ⟨rfl, rfl⟩).1
  replace h := h.snoc (engine_step 1 .raise rfl ⟨rfl, rfl⟩).1
  replace h := h.snoc (engine_step 1 .countFailure rfl ⟨rfl, rfl⟩).1
  replace h := snoc_step h (.park 1) ⟨_, _, _, ⟨[], [], rfl, rfl⟩, rfl⟩
  exact ⟨_, _, _, _, h, hmod rfl, by decide, by decide, rfl⟩

/-- The vote that was loaded and cached is held. -/
theorem no_vote_lost_loaded :
    ∃ (s : ServiceState ℚ) (c : Conversation ℚ), s.convs 1 = some c ∧ s.delivered 1 = [firstVote] ∧
      c ∈ s.published 1 ∧ c.rawRatingMat.cell 7 3 = some .agree := by
  obtain ⟨es, s, hrun, hqueue, hactive, hparked, hfeeders, hconv, hdelivered, hcommitted⟩ :=
    exists_loaded_lost.1
  have hsafe := no_vote_lost hrun
  obtain ⟨-, -, hcached⟩ := hsafe.1 1 hqueue hactive hparked hfeeders
  refine ⟨s, loaded, hconv, hdelivered, hsafe.2.1 1 loaded hconv, ?_⟩
  obtain ⟨vote, hvote, -, hcell, -⟩ := hcached loaded hconv 7 3
    ⟨firstVote, by rw [hdelivered]; exact mem_singleton_self _, rfl⟩
  rw [hcommitted, mem_singleton] at hvote
  rw [hcell, hvote]
  rfl

/-- Two runs against the unconditional contract. In the first a zid is idle and unparked, by a
feeder that is still to submit, and its last bundle lacks a delivered vote. In the second a zid
leaves the parked state with a cache entry, that of a run between the cache drop and the unpark. -/
theorem vote_missing_after_unpark :
    (∃ (es : List (ServiceEvent ℚ)) (s : ServiceState ℚ) (c : Conversation ℚ),
      Run (ServiceState.Step serviceConfig) (.init 0) es s ∧ s.pool.queues 1 = [] ∧
      1 ∉ s.pool.active ∧ 1 ∉ s.pool.parked ∧ (s.published 1).getLast? = some c ∧
      ¬ HoldsDelivered s 1 c) ∧
    ∃ (es : List (ServiceEvent ℚ)) (s : ServiceState ℚ) (e : ServiceEvent ℚ) (s' : ServiceState ℚ),
      Run (ServiceState.Step serviceConfig) (.init 0) es s ∧ s.Step serviceConfig e s' ∧
      1 ∈ s.pool.parked ∧ 1 ∉ s'.pool.parked ∧ s'.convs 1 ≠ none := by
  constructor
  · obtain ⟨es, s, hrun, hqueue, hactive, hparked, hlast, hdelivered⟩ := exists_loaded_lost.2
    refine ⟨es, s, loaded, hrun.mono fun _ _ _ hs => hs.1, hqueue, hactive, hparked, hlast,
      fun h => ?_⟩
    obtain ⟨vote, -, -, hcell, -⟩ := h 8 3
      ⟨secondVote, by rw [hdelivered]; simp, rfl⟩
    have hnone := applyVotes_cell (initialConversation 1 none : Conversation ℚ) 1 [firstVote] 8 3
    rw [loaded, loadOrInit_raw] at hcell
    have hempty : (initialConversation 1 none : Conversation ℚ).rawRatingMat.cell 8 3 = none := rfl
    exact absurd (hcell.symm.trans hnone) (by simp [newest, VoteRow.hits, firstVote, hempty])
  · obtain ⟨es, s, e, s', hrun, hs, hparked, hleft, hconv⟩ := exists_unpark_cached
    exact ⟨es, s, e, s', hrun, hs, hparked, hleft, by rw [hconv]; simp⟩

end Polis.Poller
