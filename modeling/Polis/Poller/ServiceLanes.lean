import Polis.Poller.LaneTheorems

/-!
# The service, lane by lane

What an event of the service does to the lane of each zid, and what the feeders carry. Every event
keeps every lane sound, as long as no zid is parked while a feeder stands between dropping its cache
entry and unparking it.

Reference: `polismath/poller/service.py`.
-/

set_option linter.unusedSectionVars false

namespace Polis.Poller

open Clustering List Function ServiceState PoolState

variable {K : Type*} [Field K] [LinearOrder K] [Numerics K]
variable {phase : UnparkPhase} {live : Bool}
variable {es : List (PollEvent VoteRow VoteKey VoteCell)}
  {runs' : ℤ → List (Stage VoteRow CommentRow (EngineStage K))}
  {pool' : PoolState VoteRow CommentRow (EngineStage K)}
  {stage stage' : Stage VoteRow CommentRow (EngineStage K)}
  {pool : PoolState VoteRow CommentRow (EngineStage K)} {message : ServiceMessage} {f : Feeder}
  {rest : List (ℤ × ServiceMessage)}

variable {config : ServiceConfig} {s s' : ServiceState K} {e : ServiceEvent K} {zid : ℤ}

/-! ## The pool -/

/-- The pool of a running service: well formed, and not closed. -/
structure PoolOpen (pool : PoolState VoteRow CommentRow (EngineStage K)) : Prop where
  wellFormed : pool.WellFormed
  closed : pool.closed = false

section Pool

variable {pool : PoolState VoteRow CommentRow (EngineStage K)}

theorem PoolOpen.accepts_iff (h : PoolOpen pool) : pool.accepts zid ↔ zid ∉ pool.parked := by
  simp [accepts, h.closed]

theorem PoolOpen.submit (h : PoolOpen pool) (message : ServiceMessage) (now : ℤ) :
    PoolOpen (pool.submit zid message now) := by
  refine ⟨h.wellFormed.submit message now, ?_⟩
  unfold PoolState.submit
  split <;> exact h.closed

theorem PoolOpen.moves (h : PoolOpen pool) (hm : pool.Moves zid stage stage' runs') :
    PoolOpen { pool with runs := runs' } := by
  obtain ⟨hactive, -, rfl⟩ := h.wellFormed.moves hm
  exact ⟨h.wellFormed.set_run hactive stage', h.closed⟩

/-- A step of the pool other than its shutdown. -/
theorem PoolOpen.step (h : PoolOpen pool)
    {e : PoolEvent VoteRow CommentRow (EngineStage K)} (hs : pool.Step .begun e pool')
    (hclosed : pool'.closed = pool.closed) : PoolOpen pool' :=
  ⟨h.wellFormed.step hs, hclosed.trans h.closed⟩

theorem drain_closed {now : ℤ}
    {messages : List ServiceMessage} (hs : pool.Step .begun (.drain zid now messages) pool') :
    pool'.closed = pool.closed := by
  obtain ⟨-, -, -, runs', -, rfl⟩ := hs
  rfl

theorem settle_closed
    {outcome : Option Bool} (hs : pool.Step .begun (.settle zid outcome live) pool') :
    pool'.closed = pool.closed := by
  obtain ⟨runs', -, rfl⟩ := hs
  unfold settle
  split <;> rfl

theorem release_closed (hs : pool.Step .begun (.release zid) pool') : pool'.closed = pool.closed := by
  obtain ⟨-, before, after, -, rfl⟩ := hs
  rfl

end Pool

theorem feed_pool (s : ServiceState K) (f : Feeder) (zid : ℤ) (message : ServiceMessage)
    (rest : List (ℤ × ServiceMessage)) (now : ℤ) :
    (s.feed f zid message rest now).pool = s.pool ∨
    (s.feed f zid message rest now).pool = s.pool.unpark zid ∨
    (s.feed f zid message rest now).pool = s.pool.submit zid message now := by
  unfold ServiceState.feed
  cases (s.feeders f).phase <;> simp

/-- Every event keeps the pool open. -/
theorem PoolOpen.service_step (h : PoolOpen s.pool) (hs : s.Step config e s') :
    PoolOpen s'.pool := by
  cases e with
  | commitVote row =>
    obtain ⟨poll, -, rfl⟩ := hs
    exact h
  | pollVotes cycle =>
    obtain ⟨-, poll, -, rfl⟩ := hs
    exact h
  | pollModeration | reconcile =>
    obtain ⟨-, rfl⟩ := hs
    exact h
  | feed f now =>
    obtain ⟨zid, message, rest, -, rfl⟩ := hs
    rcases feed_pool s f zid message rest now with hp | hp | hp <;> rw [hp]
    · exact h
    · exact ⟨h.wellFormed.unpark, h.closed⟩
    · exact h.submit message now
  | submitRebuild zid now =>
    obtain rfl := hs
    exact h.submit .rebuild now
  | evict zid =>
    obtain rfl := hs
    exact h
  | drain zid now =>
    obtain ⟨messages, pool, hs, rfl⟩ := hs
    exact h.step hs (drain_closed hs)
  | engine zid e =>
    obtain ⟨batch, live, stage, after, runs', hm, -, rfl⟩ := hs
    exact h.moves hm
  | requeue zid now =>
    obtain ⟨batch, live, message, rest, runs', hm, rfl⟩ := hs
    exact (h.moves hm).submit message now
  | park zid =>
    obtain ⟨batch, live, runs', hm, rfl⟩ := hs
    exact ⟨(h.moves hm).wellFormed.park, h.closed⟩
  | finish zid =>
    obtain ⟨batch, live, liveOk, runs', hm, rfl⟩ := hs
    exact h.moves hm
  | settle zid =>
    obtain ⟨outcome, live, pool, hs, rfl⟩ := hs
    exact h.step hs (settle_closed hs)
  | release zid =>
    obtain ⟨pool, hs, rfl⟩ := hs
    exact h.step hs (release_closed hs)

/-! ## Lanes after an event -/

/-- A lane is made of the zid's own entries. -/
theorem lane_eq {z : ℤ} (hqueue : s'.pool.queues z = s.pool.queues z)
    (hruns : s'.pool.runs z = s.pool.runs z) (hparked : z ∈ s'.pool.parked ↔ z ∈ s.pool.parked)
    (hconv : s'.convs z = s.convs z) (hpublished : s'.published z = s.published z)
    (hdelivered : s'.delivered z = s.delivered z)
    (hfeeders : ∀ g, (s'.feeders g).isAt z .cacheDropped = (s.feeders g).isAt z .cacheDropped ∧
      (s'.feeders g).isAt z .unparked = (s.feeders g).isAt z .unparked) :
    s'.lane z = s.lane z :=
  Lane.ext hqueue (congrArg List.head? hruns) (by simp only [lane, hparked]) hconv
    hpublished hdelivered (funext fun g => (hfeeders g).1) (funext fun g => (hfeeders g).2)

/-- The run of a zid of an open pool. -/
theorem PoolOpen.run_eq (h : PoolOpen s.pool) (z : ℤ) :
    (z ∈ s.pool.active → ∃ stage, s.pool.runs z = [stage]) ∧
    (z ∉ s.pool.active → s.pool.runs z = []) := by
  have hlen := h.wellFormed.runs_active z
  refine ⟨fun hz => ?_, fun hz => ?_⟩
  · rw [if_pos hz] at hlen
    exact length_eq_one_iff.1 hlen
  · rw [if_neg hz] at hlen
    exact length_eq_zero_iff.1 hlen

/-- A submission is one of the zid's lane. -/
theorem lane_submit (h : PoolOpen s.pool) (zid : ℤ) (message : ServiceMessage) (now z : ℤ) :
    ({ s with pool := s.pool.submit zid message now } : ServiceState K).lane z =
      if z = zid then (s.lane z).submit message else s.lane z := by
  by_cases hparked : zid ∈ s.pool.parked
  · have hpool : s.pool.submit zid message now = s.pool :=
      if_neg fun hacc => h.accepts_iff.1 hacc hparked
    rw [hpool]
    split
    · next hz =>
        subst hz
        rw [Lane.submit, if_pos (by simpa [lane] using hparked)]
    · rfl
  · have hacc := h.accepts_iff.2 hparked
    rw [PoolState.submit, if_pos hacc]
    by_cases hz : z = zid
    · subst hz
      have hlane : ¬ (s.lane z).parked = true := by simpa [lane] using hparked
      rw [if_pos rfl, Lane.submit, if_neg hlane]
      refine Lane.ext (update_self ..) ?_ rfl rfl rfl rfl rfl rfl
      by_cases hactive : z ∈ s.pool.active
      · obtain ⟨stage, hrun⟩ := (h.run_eq z).1 hactive
        simp [lane, hactive, hrun]
      · have hrun := (h.run_eq z).2 hactive
        simp [lane, hactive, hrun]
    · rw [if_neg hz]
      refine lane_eq (update_of_ne hz _ _) ?_ Iff.rfl rfl rfl rfl fun _ => ⟨rfl, rfl⟩
      by_cases hactive : zid ∈ s.pool.active <;> simp [hactive, hz]

/-- A run that takes a step is the run of its lane; the other lanes are as before. -/
theorem lane_moves (h : PoolOpen s.pool) (hm : s.pool.Moves zid stage stage' runs') :
    (s.lane zid).stage = some stage ∧
    ∀ z, ({ s with pool := { s.pool with runs := runs' } } : ServiceState K).lane z =
      if z = zid then { s.lane z with stage := some stage' } else s.lane z := by
  obtain ⟨-, hrun, rfl⟩ := h.wellFormed.moves hm
  refine ⟨by simp [lane, hrun], fun z => ?_⟩
  split
  · next hz =>
      subst hz
      exact Lane.ext rfl (by simp [lane]) rfl rfl rfl rfl rfl rfl
  · next hz => exact lane_eq rfl (by simp [hz]) Iff.rfl rfl rfl rfl fun _ => ⟨rfl, rfl⟩

/-- The lanes after a step of a run. -/
theorem lane_setEngine (h : PoolOpen s.pool)
    (hm : s.pool.Moves zid stage stage' runs') (after : EngineState K) (z : ℤ) :
    (s.setEngine zid runs' after).lane z =
      if z = zid then
        { s.lane z with stage := some stage', conv := after.conv, published := after.published }
      else s.lane z := by
  obtain ⟨-, hrun, rfl⟩ := h.wellFormed.moves hm
  split
  · next hz =>
      subst hz
      exact Lane.ext rfl (by simp [lane, setEngine]) rfl
        (update_self ..) (update_self ..) rfl rfl rfl
  · next hz =>
      refine lane_eq rfl ?_ Iff.rfl ?_ ?_ rfl fun _ => ⟨rfl, rfl⟩ <;>
        simp [setEngine, hz]

/-! ## Feeders -/

theorem isAt_eq_false {f : FeederState} {z : ℤ}
    (h : f.todo = [] ∨ f.phase ≠ phase ∨
    ∃ zid message rest, f.todo = (zid, message) :: rest ∧ z ≠ zid) :
    f.isAt z phase = false := by
  rcases h with hnil | hphase | ⟨zid, message, rest, htodo, hz⟩
  · simp [FeederState.isAt, hnil]
  · simp [FeederState.isAt, hphase]
  · simp [FeederState.isAt, htodo, Ne.symm hz]

/-- A feeder that is not in the phase, and was not, does not count. -/
theorem isAt_update {feeders : Feeder → FeederState} {st : FeederState} {z : ℤ}
    (hold : (feeders f).isAt z phase = false) (hnew : st.isAt z phase = false) (g : Feeder) :
    (update feeders f st g).isAt z phase = (feeders g).isAt z phase := by
  by_cases hg : g = f
  · rw [hg, update_self, hold, hnew]
  · rw [update_of_ne hg]

theorem assign_feeders (s : ServiceState K) (f : Feeder) (todo : List (ℤ × ServiceMessage)) :
    (s.assign f todo).feeders f = ⟨todo, .start⟩ :=
  update_self ..

theorem assign_feeders_of_ne (s : ServiceState K) {f g : Feeder} (h : g ≠ f)
    (todo : List (ℤ × ServiceMessage)) : (s.assign f todo).feeders g = s.feeders g :=
  update_of_ne h _ _

/-- New messages do not change a lane. -/
theorem lane_assign (hnil : (s.feeders f).todo = []) (todo : List (ℤ × ServiceMessage)) (z : ℤ) :
    (s.assign f todo).lane z = s.lane z := by
  have hold : ∀ phase, (s.feeders f).isAt z phase = false := fun _ => isAt_eq_false (.inl hnil)
  have hnew : ∀ phase, phase ≠ .start → (⟨todo, .start⟩ : FeederState).isAt z phase = false :=
    fun _ hphase => isAt_eq_false (.inr (.inl hphase.symm))
  exact lane_eq rfl rfl Iff.rfl rfl rfl rfl fun g =>
    ⟨isAt_update (hold _) (hnew _ (by decide)) g, isAt_update (hold _) (hnew _ (by decide)) g⟩

/-! ## What the feeders carry -/

/-- What a poll submits for a zid are all of its rows, and there are some. -/
theorem mem_submissions {ρ : Type*} {zidOf : ρ → ℤ} {message : List ρ → ServiceMessage}
    {rows : List ρ} {item : ℤ × ServiceMessage}
    (h : item ∈ submissions config zidOf message rows) :
    ∃ batch, item.2 = message batch ∧ batch ≠ [] ∧
      ∀ row ∈ batch, row ∈ rows ∧ zidOf row = item.1 := by
  obtain ⟨group, hgroup, rfl⟩ := mem_map.1 h
  obtain ⟨zid, hzid, rfl⟩ := mem_map.1 (mem_filter.1 hgroup).1
  obtain ⟨row, hrow, rfl⟩ := mem_map.1 ((mem_appendNew.1 hzid).resolve_left not_mem_nil)
  refine ⟨_, rfl, ne_nil_of_mem (mem_filter.2 ⟨hrow, by simp⟩), fun row' hrow' => ?_⟩
  exact ⟨(mem_filter.1 hrow').1, of_decide_eq_true (mem_filter.1 hrow').2⟩

/-- A poll submits once for a zid. -/
theorem submissions_nodup {ρ : Type*} {zidOf : ρ → ℤ} {message : List ρ → ServiceMessage}
    {rows : List ρ} : ((submissions config zidOf message rows).map Prod.fst).Nodup := by
  rw [submissions, map_map]
  refine List.Nodup.sublist (filter_sublist.map _) ?_
  rw [groupByZid, map_map]
  have hid : ∀ l : List ℤ,
      l.map ((Prod.fst ∘ fun group : ℤ × List ρ => (group.1, message group.2)) ∘
        fun z => (z, rows.filter fun row => zidOf row = z)) = l := fun l => map_id l
  rw [hid]
  exact appendNew_nodup .nil

/-- The feeders against the history of the vote poll: the delivered rows were handled by polls, the
vote poll has for each zid at most one batch to submit, with rows not older than the delivered ones,
and the others submit no rows. -/
structure Feeding (es : List (PollEvent VoteRow VoteKey VoteCell)) (s : ServiceState K) : Prop where
  tracked : Tracked voteKind es s.votePoll
  delivered : ∀ z, s.delivered z ⊆ outcomes es
  votes_nodup : ((s.feeders .votePoll).todo.map Prod.fst).Nodup
  votes : ∀ item ∈ (s.feeders .votePoll).todo, IsWork item.2 ∧ item.2.voteRows ⊆ outcomes es ∧
    Lane.Fresh s.votePoll.committed item.1 (s.delivered item.1) item.2.voteRows
  others : ∀ f ≠ .votePoll, ∀ item ∈ (s.feeders f).todo, IsWork item.2 ∧ item.2.voteRows = []

theorem Feeding.init (watermark : ℤ) :
    Feeding [] (init watermark : ServiceState K) where
  tracked := Tracked.init watermark
  delivered _ := List.Subset.refl _
  votes_nodup := .nil
  votes _ h := absurd h not_mem_nil
  others _ _ _ h := absurd h not_mem_nil

/-- What the vote poll and the submissions do not touch. -/
theorem Feeding.congr (h : Feeding es s)
    (hpoll : s'.votePoll = s.votePoll) (hdelivered : s'.delivered = s.delivered)
    (htodo : ∀ f, (s'.feeders f).todo = (s.feeders f).todo) : Feeding es s' where
  tracked := hpoll ▸ h.tracked
  delivered := hdelivered ▸ h.delivered
  votes_nodup := htodo .votePoll ▸ h.votes_nodup
  votes item hitem := by
    rw [hpoll, hdelivered]
    exact h.votes item (htodo .votePoll ▸ hitem)
  others f hf item hitem := h.others f hf item (htodo f ▸ hitem)

/-- A poll that finds votes. -/
theorem Feeding.poll (h : Feeding es s)
    {cycle : Cycle VoteRow VoteKey VoteCell} {poll : PollState VoteRow VoteKey VoteCell}
    (hs : s.votePoll.Step voteKind config.voteOverlapMs (.poll cycle) poll) :
    Feeding (es ++ [.poll cycle]) ({ s with votePoll := poll }.assign .votePoll
      (submissions config VoteRow.zid .votes cycle.fresh)) := by
  have htracked := h.tracked.step voteKind_key_injective hs
  obtain ⟨rows, hrows, rfl, rfl⟩ := hs
  have hout : outcomes (es ++ [.poll (s.votePoll.cycle voteKind config.voteOverlapMs rows)]) =
      outcomes es ++ (s.votePoll.cycle voteKind config.voteOverlapMs rows).outcome := by
    rw [outcomes_append, outcomes_poll]
  refine ⟨htracked, fun z row hrow => ?_, ?_, fun item hitem => ?_, fun f hf item hitem => ?_⟩
  · rw [hout]
    exact mem_append_left _ (h.delivered z hrow)
  · exact submissions_nodup
  · obtain ⟨batch, hmessage, hne, hbatch⟩ := mem_submissions hitem
    rw [hmessage]
    refine ⟨hne, fun row hrow => ?_,
      fun row hrow => ⟨(hbatch row hrow).2, ?_, fun row' hrow' hcell => ?_⟩⟩
    · rw [hout]
      exact mem_append_right _ (mem_append_left _ (hbatch row hrow).1)
    · have hread := mem_read_of_mem_outcome voteKind_key_injective
        (mem_append_left _ (hbatch row hrow).1)
      exact (mem_filter.1 (hrows.mem_iff.1 hread)).1
    · exact h.tracked.fresh_newest voteKind_key_injective hrows (hbatch row hrow).1
        (h.delivered item.1 hrow') rfl hcell
  · rw [assign_feeders_of_ne _ hf] at hitem
    exact h.others f hf item hitem

/-- A feeder submits its first message. -/
theorem Feeding.submit (h : Feeding es s) (htodo : (s.feeders f).todo = (zid, message) :: rest)
    (pool : PoolState VoteRow CommentRow (EngineStage K)) :
    Feeding es { s with
      pool := pool
      delivered := update s.delivered zid (s.delivered zid ++ message.voteRows)
      feeders := update s.feeders f ⟨rest, .start⟩ } := by
  by_cases hf : f = .votePoll
  · subst hf
    have hnodup := h.votes_nodup
    rw [htodo, map_cons, nodup_cons] at hnodup
    have hhead := h.votes _ (by rw [htodo]; exact mem_cons_self)
    refine ⟨h.tracked, fun z => ?_, ?_, fun item hitem => ?_, fun g hg item hitem => ?_⟩
    · by_cases hz : z = zid
      · subst hz
        simp only [update_self]
        exact append_subset.2 ⟨h.delivered z, hhead.2.1⟩
      · simp only [update_of_ne hz]
        exact h.delivered z
    · simpa only [update_self] using hnodup.2
    · simp only [update_self] at hitem
      -- the other batches are for other zids
      have hne : item.1 ≠ zid := fun hz =>
        hnodup.1 (mem_map.2 ⟨item, hitem, hz⟩)
      simp only [update_of_ne hne]
      exact h.votes item (by rw [htodo]; exact mem_cons_of_mem _ hitem)
    · simp only [update_of_ne hg] at hitem
      exact h.others g hg item hitem
  · have hhead := h.others f hf _ (by rw [htodo]; exact mem_cons_self)
    have hdelivered : update s.delivered zid (s.delivered zid ++ message.voteRows) =
        s.delivered := by
      rw [hhead.2, append_nil, update_eq_self]
    rw [hdelivered]
    have hvotes : update s.feeders f ⟨rest, .start⟩ .votePoll = s.feeders .votePoll :=
      update_of_ne (Ne.symm hf) _ _
    refine ⟨h.tracked, h.delivered, ?_, fun item hitem => ?_, fun g hg item hitem => ?_⟩
    · simpa only [hvotes] using h.votes_nodup
    · simp only [hvotes] at hitem
      exact h.votes item hitem
    · by_cases hgf : g = f
      · subst hgf
        simp only [update_self] at hitem
        exact h.others g hg item (by rw [htodo]; exact mem_cons_of_mem _ hitem)
      · simp only [update_of_ne hgf] at hitem
        exact h.others g hg item hitem

/-- A feeder takes on messages without votes. -/
theorem Feeding.assign (h : Feeding es s)
    (hf : f ≠ .votePoll) {todo : List (ℤ × ServiceMessage)}
    (htodo : ∀ item ∈ todo, IsWork item.2 ∧ item.2.voteRows = []) :
    Feeding es (s.assign f todo) := by
  have hvotes := assign_feeders_of_ne s (Ne.symm hf) todo
  refine ⟨h.tracked, h.delivered, hvotes ▸ h.votes_nodup, fun item hitem => ?_,
    fun g hg item hitem => ?_⟩
  · rw [hvotes] at hitem
    exact h.votes item hitem
  · by_cases hgf : g = f
    · subst hgf
      rw [assign_feeders] at hitem
      exact htodo item hitem
    · rw [assign_feeders_of_ne _ hgf] at hitem
      exact h.others g hg item hitem

/-- A step of `_unpark` keeps the messages of all feeders. -/
theorem todo_goto {todo : List (ℤ × ServiceMessage)}
    (htodo : (s.feeders f).todo = todo) (g : Feeder) :
    (update s.feeders f ⟨todo, phase⟩ g).todo = (s.feeders g).todo := by
  by_cases hg : g = f
  · rw [hg, update_self, htodo]
  · rw [update_of_ne hg]

/-- Every event keeps the feeders right, for a history of the vote poll. -/
theorem Feeding.step (h : Feeding es s) (hs : s.Step config e s') : ∃ es', Feeding es' s' := by
  cases e with
  | commitVote row =>
    obtain ⟨poll, hs, rfl⟩ := hs
    have htracked := h.tracked.step voteKind_key_injective hs
    obtain rfl := hs
    refine ⟨_, htracked, ?_, h.votes_nodup, fun item hitem => ?_, h.others⟩
    · simpa using h.delivered
    · obtain ⟨hwork, hsub, hfresh⟩ := h.votes item hitem
      refine ⟨hwork, by simpa using hsub, fun row' hrow' => ?_⟩
      obtain ⟨hzid, hcommitted, hnewer⟩ := hfresh row' hrow'
      exact ⟨hzid, mem_append_left _ hcommitted, hnewer⟩
  | pollVotes cycle =>
    obtain ⟨-, poll, hs, rfl⟩ := hs
    exact ⟨_, h.poll hs⟩
  | pollModeration rows =>
    obtain ⟨-, rfl⟩ := hs
    refine ⟨es, h.assign (by decide) fun item hitem => ?_⟩
    obtain ⟨batch, hmessage, hne, -⟩ := mem_submissions hitem
    rw [hmessage]
    exact ⟨hne, rfl⟩
  | reconcile =>
    obtain ⟨-, rfl⟩ := hs
    refine ⟨es, h.assign (by decide) fun item hitem => ?_⟩
    obtain ⟨z, -, rfl⟩ := mem_map.1 hitem
    exact ⟨trivial, rfl⟩
  | feed f now =>
    obtain ⟨zid, message, rest, htodo, rfl⟩ := hs
    unfold ServiceState.feed
    refine ⟨es, ?_⟩
    cases (s.feeders f).phase with
    | unparked | notParked => exact h.submit htodo _
    | _ => exact h.congr rfl rfl (todo_goto htodo)
  | submitRebuild | evict =>
    obtain rfl := hs
    exact ⟨es, h.congr rfl rfl fun _ => rfl⟩
  | drain zid now =>
    obtain ⟨messages, pool, -, rfl⟩ := hs
    exact ⟨es, h.congr rfl rfl fun _ => rfl⟩
  | engine zid e =>
    obtain ⟨batch, live, stage, after, runs', -, -, rfl⟩ := hs
    exact ⟨es, h.congr rfl rfl fun _ => rfl⟩
  | requeue zid now =>
    obtain ⟨batch, live, message, rest, runs', -, rfl⟩ := hs
    exact ⟨es, h.congr rfl rfl fun _ => rfl⟩
  | park zid =>
    obtain ⟨batch, live, runs', -, rfl⟩ := hs
    exact ⟨es, h.congr rfl rfl fun _ => rfl⟩
  | finish zid =>
    obtain ⟨batch, live, liveOk, runs', -, rfl⟩ := hs
    exact ⟨es, h.congr rfl rfl fun _ => rfl⟩
  | settle zid =>
    obtain ⟨outcome, live, pool, -, rfl⟩ := hs
    exact ⟨es, h.congr rfl rfl fun _ => rfl⟩
  | release zid =>
    obtain ⟨pool, -, rfl⟩ := hs
    exact ⟨es, h.congr rfl rfl fun _ => rfl⟩

/-! ## Every lane stays sound -/

/-- Every lane is sound. -/
def Lanes (s : ServiceState K) : Prop := ∀ z, (s.lane z).Sound s.votePoll.committed z

section

variable (h : Lanes s)
include h

/-- An event that changes one lane. -/
theorem Lanes.update (hcommitted : s'.votePoll = s.votePoll) (lane : ℤ → Lane K)
    (hlane : ∀ z, s'.lane z = if z = zid then lane z else s.lane z)
    (hsound : (lane zid).Sound s.votePoll.committed zid) : Lanes s' := by
  intro z
  rw [hlane, hcommitted]
  split
  · next hz =>
      subst hz
      exact hsound
  · exact h z

/-- An event that changes no lane. -/
theorem Lanes.same (hcommitted : s'.votePoll = s.votePoll)
    (hlane : ∀ z, s'.lane z = s.lane z) : Lanes s' := by
  intro z
  rw [hlane, hcommitted]
  exact h z

section

variable (hpool : PoolOpen s.pool)
include hpool

/-- A feeder submits. -/
theorem Lanes.submit (hfeeding : Feeding es s)
    (htodo : (s.feeders f).todo = (zid, message) :: rest)
    (hphase : (s.feeders f).phase ≠ .cacheDropped) (now : ℤ) :
    Lanes { s with
      pool := s.pool.submit zid message now
      delivered := Function.update s.delivered zid (s.delivered zid ++ message.voteRows)
      feeders := Function.update s.feeders f ⟨rest, .start⟩ } := by
  have hhead : (zid, message) ∈ (s.feeders f).todo := by rw [htodo]; exact mem_cons_self
  have hfresh : IsWork message ∧
      Lane.Fresh s.votePoll.committed zid (s.delivered zid) message.voteRows := by
    by_cases hf : f = .votePoll
    · subst hf
      obtain ⟨hwork, -, hfresh⟩ := hfeeding.votes _ hhead
      exact ⟨hwork, hfresh⟩
    · obtain ⟨hwork, hnone⟩ := hfeeding.others f hf _ hhead
      have hnone : message.voteRows = [] := hnone
      exact ⟨hwork, by rw [hnone]; exact fun _ h => absurd h not_mem_nil⟩
  have hdropped : ∀ z g, (Function.update s.feeders f ⟨rest, .start⟩ g).isAt z .cacheDropped =
      (s.feeders g).isAt z .cacheDropped := fun z =>
    isAt_update (isAt_eq_false (.inr (.inl hphase))) (isAt_eq_false (.inr (.inl (by simp))))
  set unparked : Feeder → Bool := fun g =>
    (Function.update s.feeders f ⟨rest, .start⟩ g).isAt zid .unparked
  refine h.update rfl (fun z => { (s.lane z).submit message with
    delivered := s.delivered z ++ message.voteRows, unparked := unparked }) (fun z => ?_)
    ((h zid).submit hfresh.1 hfresh.2 unparked)
  have hlane := lane_submit hpool zid message now z
  change ({ lane { s with pool := s.pool.submit zid message now } z with
    delivered := Function.update s.delivered zid (s.delivered zid ++ message.voteRows) z
    dropped := fun g => (Function.update s.feeders f ⟨rest, .start⟩ g).isAt z .cacheDropped
    unparked := fun g => (Function.update s.feeders f ⟨rest, .start⟩ g).isAt z .unparked } :
      Lane K) = _
  rw [hlane]
  by_cases hz : z = zid
  · subst hz
    rw [if_pos rfl, if_pos rfl]
    have hkeeps : ((s.lane z).submit message).dropped = (s.lane z).dropped := by
      rw [Lane.submit]
      split <;> rfl
    exact Lane.ext rfl rfl rfl rfl rfl (update_self ..)
      ((funext (hdropped z)).trans hkeeps.symm) rfl
  · rw [if_neg hz, if_neg hz]
    have hunparked : ∀ g, (Function.update s.feeders f ⟨rest, .start⟩ g).isAt z .unparked =
        (s.feeders g).isAt z .unparked :=
      isAt_update (isAt_eq_false (.inr (.inr ⟨zid, message, rest, htodo, hz⟩)))
        (isAt_eq_false (.inr (.inl (by simp))))
    exact Lane.ext rfl rfl rfl rfl rfl (update_of_ne hz _ _) (funext (hdropped z))
      (funext hunparked)

/-- One step of a feeder. -/
theorem Lanes.feed (hfeeding : Feeding es s)
    (htodo : (s.feeders f).todo = (zid, message) :: rest) (now : ℤ) :
    Lanes (s.feed f zid message rest now) := by
  -- a feeder elsewhere does not show in a lane
  have hother : ∀ z ≠ zid, ∀ phase phase' g,
      (Function.update s.feeders f ⟨(zid, message) :: rest, phase'⟩ g).isAt z phase =
        (s.feeders g).isAt z phase := fun z hz phase phase' =>
    isAt_update (isAt_eq_false (.inr (.inr ⟨zid, message, rest, htodo, hz⟩)))
      (isAt_eq_false (.inr (.inr ⟨zid, message, rest, rfl, hz⟩)))
  have hold : ∀ z phase, (s.feeders f).phase ≠ phase → (s.feeders f).isAt z phase = false :=
    fun _ _ hne => isAt_eq_false (.inr (.inl hne))
  unfold ServiceState.feed
  cases hphase : (s.feeders f).phase with
  | start =>
    rw [hphase] at hold
    refine h.same rfl fun z => lane_eq rfl rfl Iff.rfl rfl rfl rfl fun g =>
      ⟨isAt_update (hold z _ (by decide)) (isAt_eq_false (.inr (.inl ?_))) g,
        isAt_update (hold z _ (by decide)) (isAt_eq_false (.inr (.inl ?_))) g⟩
    all_goals
      dsimp only
      split <;> decide
  | parkedSeen =>
    rw [hphase] at hold
    exact h.same rfl fun z => lane_eq rfl rfl Iff.rfl rfl rfl rfl fun g =>
      ⟨isAt_update (hold z _ (by decide)) (isAt_eq_false (.inr (.inl (by simp)))) g,
        isAt_update (hold z _ (by decide)) (isAt_eq_false (.inr (.inl (by simp)))) g⟩
  | retriesPopped =>
    set dropped : Feeder → Bool := fun g =>
      (Function.update s.feeders f ⟨(zid, message) :: rest, .cacheDropped⟩ g).isAt zid
        .cacheDropped
    refine h.update rfl (fun z => { s.lane z with conv := none, dropped := dropped })
      (fun z => ?_) ((h zid).uncache dropped)
    by_cases hz : z = zid
    · subst hz
      rw [if_pos rfl]
      rw [hphase] at hold
      exact Lane.ext rfl rfl rfl (Function.update_self ..) rfl rfl rfl
        (funext (isAt_update (hold z _ (by decide)) (isAt_eq_false (.inr (.inl (by simp))))))
    · rw [if_neg hz]
      exact lane_eq rfl rfl Iff.rfl (update_of_ne hz _ _) rfl rfl
        fun g => ⟨hother z hz _ _ g, hother z hz _ _ g⟩
  | cacheDropped =>
    have hdropped : (s.lane zid).dropped f = true := by
      simp [lane, FeederState.isAt, htodo, hphase]
    set dropped : Feeder → Bool := fun g =>
      (Function.update s.feeders f ⟨(zid, message) :: rest, .unparked⟩ g).isAt zid .cacheDropped
    set unparked : Feeder → Bool := fun g =>
      (Function.update s.feeders f ⟨(zid, message) :: rest, .unparked⟩ g).isAt zid .unparked
      with hunparked
    refine h.update rfl (fun z => { s.lane z with
      parked := false, dropped := dropped, unparked := unparked }) (fun z => ?_)
      ((h zid).unpark hdropped dropped ?_ fun g hg => ?_)
    · by_cases hz : z = zid
      · subst hz
        rw [if_pos rfl]
        exact Lane.ext rfl rfl (by simp [lane, unpark]) rfl rfl rfl rfl rfl
      · rw [if_neg hz]
        exact lane_eq rfl rfl (by simp [unpark, hz]) rfl rfl rfl
          fun g => ⟨hother z hz _ _ g, hother z hz _ _ g⟩
    · simp [hunparked, FeederState.isAt]
    · by_cases hgf : g = f
      · simp [hunparked, hgf, FeederState.isAt]
      · have hg' : (s.feeders g).isAt zid .unparked = true := hg
        simpa only [hunparked, update_of_ne hgf] using hg'
  | unparked | notParked => exact h.submit hpool hfeeding htodo (by rw [hphase]; simp) now

/-- A rebuild is requested. -/
theorem Lanes.submitRebuild (zid now : ℤ) :
    Lanes { s with pool := s.pool.submit zid .rebuild now } := by
  have hfresh : Lane.Fresh s.votePoll.committed zid (s.lane zid).delivered
      (Message.rebuild : ServiceMessage).voteRows := fun _ h => absurd h not_mem_nil
  refine h.update rfl (fun z => (s.lane z).submit .rebuild) (lane_submit hpool zid .rebuild now) ?_
  have hsound := (h zid).submit (show IsWork .rebuild from trivial) hfresh (s.lane zid).unparked
  -- a rebuild delivers no rows
  have hsame : ({ (s.lane zid).submit .rebuild with
      delivered := (s.lane zid).delivered ++ []
      unparked := (s.lane zid).unparked } : Lane K) = (s.lane zid).submit .rebuild := by
    rw [Lane.submit]
    split <;> simp
  exact hsame ▸ hsound

/-! ## The runs of the pool -/

/-- The lanes after a drain. -/
theorem Lanes.drain {now : ℤ}
    {messages : List ServiceMessage} (hs : s.pool.Step .begun (.drain zid now messages) pool) :
    Lanes { s with pool := pool } := by
  obtain ⟨rfl, hne, hparked, runs', hm, rfl⟩ := hs
  obtain ⟨-, hrun, rfl⟩ := hpool.wellFormed.moves hm
  have hstage : (s.lane zid).stage = some .waiting := by simp [lane, hrun]
  refine h.update rfl (fun z => { s.lane z with
    queue := [], stage := some (Stage.afterDrain .begun (s.pool.queues z)) }) (fun z => ?_)
    ((h zid).drain hstage hne (by simpa [lane] using hparked))
  by_cases hz : z = zid
  · subst hz
    rw [if_pos rfl]
    exact Lane.ext (update_self ..) (by simp [lane]) rfl rfl rfl rfl rfl rfl
  · rw [if_neg hz]
    exact lane_eq (update_of_ne hz _ _) (update_of_ne hz _ _) Iff.rfl rfl rfl rfl
      fun _ => ⟨rfl, rfl⟩

/-- The lanes after a settle. -/
theorem Lanes.settle {outcome : Option Bool}
    (hs : s.pool.Step .begun (.settle zid outcome live) pool) : Lanes { s with pool := pool } := by
  obtain ⟨runs', hm, rfl⟩ := hs
  obtain ⟨hstage, hlane⟩ := lane_moves hpool hm
  refine h.update rfl (fun z => { s.lane z with stage := some .waiting }) (fun z => ?_)
    ((h zid).rest (by rw [Lane.inFlight, hstage]; rfl) (by simp [hstage]) (by simp))
  rw [← hlane z]
  unfold settle
  split <;> rfl

/-- The lanes after a run has ended. -/
theorem Lanes.release
    (hs : s.pool.Step .begun (.release zid) pool) : Lanes { s with pool := pool } := by
  obtain ⟨hempty, before, after, hruns, rfl⟩ := hs
  obtain ⟨rfl, rfl⟩ := hpool.wellFormed.only_run hruns
  have hstage : (s.lane zid).stage = some .waiting := by simp [lane, hruns]
  have hqueue : s.pool.queues zid = [] := hempty.elim id (hpool.wellFormed.parked_empty zid)
  refine h.update rfl (fun z => { s.lane z with stage := none }) (fun z => ?_)
    ((h zid).rest (by rw [Lane.inFlight, hstage]; rfl) (by simp [hstage]) (by simp))
  by_cases hz : z = zid
  · subst hz
    rw [if_pos rfl]
    exact Lane.ext (by simp [lane, release, hqueue])
      (by simp [lane]) rfl rfl rfl rfl rfl rfl
  · rw [if_neg hz]
    exact lane_eq (by simp [release, hz]) (by simp [hz]) Iff.rfl rfl rfl rfl
      fun _ => ⟨rfl, rfl⟩

/-- The lanes after a requeue. -/
theorem Lanes.requeue {batch : Batch}
    {rest : List ServiceMessage}
    (hm : s.pool.Moves zid (.processing batch live (.requeueing (message :: rest)))
    (.processing batch live (.requeueing rest)) runs') (now : ℤ) :
    Lanes { s with pool := { s.pool with runs := runs' }.submit zid message now } := by
  obtain ⟨hstage, hlane⟩ := lane_moves hpool hm
  have hparked : (s.lane zid).parked = false := (h zid).not_parked hstage (by simp)
  refine h.update rfl (fun z => { s.lane z with
    queue := s.pool.queues z ++ [message]
    stage := some (.processing batch live (.requeueing rest)) }) (fun z => ?_)
    ((h zid).requeue hstage)
  have hsubmit :=
    lane_submit (s := { s with pool := { s.pool with runs := runs' } }) (hpool.moves hm)
    zid message now z
  refine hsubmit.trans ?_
  rw [hlane z]
  by_cases hz : z = zid
  · subst hz
    rw [if_pos rfl, if_pos rfl, if_pos rfl, Lane.submit, if_neg (by simp [hparked])]
    rfl
  · rw [if_neg hz, if_neg hz, if_neg hz]

/-- The lanes after a park. -/
theorem Lanes.park {batch : Batch}
    (hm : s.pool.Moves zid (.processing batch live .parking) (.processing batch live (.done false))
    runs') (hdropped : ∀ f, (s.feeders f).isAt zid .cacheDropped = false) :
    Lanes { s with pool := { s.pool with runs := runs' }.park zid } := by
  obtain ⟨hstage, hlane⟩ := lane_moves hpool hm
  refine h.update rfl (fun z => { s.lane z with
    queue := [], parked := true, stage := some (.processing batch live (.done false)) })
    (fun z => ?_) ((h zid).park hstage hdropped)
  have hstage' := congrArg Lane.stage (hlane z)
  by_cases hz : z = zid
  · subst hz
    rw [if_pos rfl] at hstage' ⊢
    exact Lane.ext (update_self ..) hstage' (by simp [lane, park])
      rfl rfl rfl rfl rfl
  · rw [if_neg hz] at hstage' ⊢
    exact Lane.ext (update_of_ne hz _ _) hstage'
      (by simp [lane, PoolState.park, hz]) rfl rfl rfl rfl rfl

/-- One event keeps every lane sound; a park must not fall between the cache drop and the unpark of
a feeder. -/
theorem Lanes.step (hfeeding : Feeding es s)
    (hs : s.Step config e s')
    (hclean : ∀ zid, e = .park zid → ∀ f, (s.feeders f).isAt zid .cacheDropped = false) :
    Lanes s' := by
  cases e with
  | commitVote row =>
    obtain ⟨poll, rfl, rfl⟩ := hs
    exact fun z => (h z).mono (subset_append_left _ _)
  | pollVotes cycle =>
    obtain ⟨hnil, poll, ⟨rows, -, -, rfl⟩, rfl⟩ := hs
    have hread : Lanes { s with votePoll :=
        { s.votePoll with watermark := cycle.next.watermark, window := some cycle.next } } := h
    exact hread.same rfl (lane_assign hnil _)
  | pollModeration | reconcile =>
    obtain ⟨hnil, rfl⟩ := hs
    exact h.same rfl (lane_assign hnil _)
  | feed f now =>
    obtain ⟨zid, message, rest, htodo, rfl⟩ := hs
    exact h.feed hpool hfeeding htodo now
  | submitRebuild zid now =>
    obtain rfl := hs
    exact h.submitRebuild hpool zid now
  | evict zid =>
    obtain rfl := hs
    refine h.update rfl (fun z => { s.lane z with conv := none }) (fun z => ?_)
      ((h zid).uncache (s.lane zid).dropped)
    by_cases hz : z = zid
    · subst hz
      rw [if_pos rfl]
      exact Lane.ext rfl rfl rfl (update_self ..) rfl rfl rfl rfl
    · rw [if_neg hz]
      exact lane_eq rfl rfl Iff.rfl (update_of_ne hz _ _) rfl rfl fun _ => ⟨rfl, rfl⟩
  | drain zid now =>
    obtain ⟨messages, pool, hs, rfl⟩ := hs
    exact h.drain hpool hs
  | engine zid e =>
    obtain ⟨batch, live, stage, after, runs', hm, hs, rfl⟩ := hs
    exact h.update rfl _ (lane_setEngine hpool hm after)
      ((h zid).engine (lane_moves hpool hm).1 hs)
  | requeue zid now =>
    obtain ⟨batch, live, message, rest, runs', hm, rfl⟩ := hs
    exact h.requeue hpool hm now
  | park zid =>
    obtain ⟨batch, live, runs', hm, rfl⟩ := hs
    exact h.park hpool hm (hclean zid rfl)
  | finish zid =>
    obtain ⟨batch, live, liveOk, runs', hm, rfl⟩ := hs
    obtain ⟨hstage, hlane⟩ := lane_moves hpool hm
    refine h.update rfl _ hlane ((h zid).rest ?_ ?_ (by simp))
    · rw [Lane.inFlight, hstage]
      rfl
    · rw [hstage]
      exact Lane.forall_processing.2 rfl
  | settle zid =>
    obtain ⟨outcome, live, pool, hs, rfl⟩ := hs
    exact h.settle hpool hs
  | release zid =>
    obtain ⟨pool, hs, rfl⟩ := hs
    exact h.release hpool hs

end

end

end Polis.Poller
