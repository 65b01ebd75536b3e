import Polis.Queue.Refinement

/-!
# Fencing

Whatever the workers and the reaper do, in any order and with any tokens, a job that runs has one
running attempt, which it names; a stale token changes nothing; a job that has ended stays as it is.

Reference: `server/postgres/migrations/000019_create_polis_queue.sql`.
-/

namespace Polis.Queue

open List Option

/-! ## The statement -/

/-- The attempt rows of a job. -/
def Database.attemptsOf (db : Database) (j : JobRow) : List AttemptRow :=
  db.attempts.rows.filter fun a => (a.env, a.jobId) = (j.env, j.jobId)

/-- What the tables say about a job. -/
structure JobConsistent (db : Database) (j : JobRow) : Prop where
  running : j.state = .running ↔ ∃ a,
    ((db.attemptsOf j).filter fun a => a.outcome = .running) = [a] ∧
      j.attemptId = some a.attemptId
  run : ∃ r, db.runs.find (j.env, j.runId) = some r ∧ r.state = j.state.runState
  count : j.attemptCount = (db.attemptsOf j).length
  budget : j.attemptCount - j.parkedAttemptCount ≤ j.maxAttempts

/-- A call keeps every job, with its epoch or a later one, and a job that has ended as it is. -/
def JobsAdvance (db db' : Database) : Prop :=
  ∀ j ∈ db.jobs.rows, ∃ j' ∈ db'.jobs.rows, j'.key = j.key ∧ j.leaseEpoch ≤ j'.leaseEpoch ∧
    (j.state.terminal → j' = j)

/-- The job that a claim took. -/
def Event.claimed (e : Event) : Option JobRow :=
  match e.call, e.answer with
  | .claim .., .ok (.reply r) => if r.outcome = .owned then r.job else none
  | _, _ => none

/-- The claims of a history take different attempts, and those of one job later and later epochs. -/
def ClaimsDistinct (es : List Event) : Prop :=
  (es.filterMap Event.claimed).Pairwise fun j j' =>
    (j.env, j.attemptId) ≠ (j'.env, j'.attemptId) ∧ (j.key = j'.key → j.leaseEpoch < j'.leaseEpoch)

/-- The job and the token that a worker's call carries. -/
def Call.worker : Call → Option (JobKey × Token)
  | .heartbeat env job token _ | .finalize env job token _ _ | .fail env job token _ _ |
    .release env job token | .park env job token _ => some ((env, job), token)
  | _ => none

/-- The token is the current one of the job, and its lease has not expired. -/
def Holds (db : Database) (k : JobKey) (token : Token) (now : Time) : Prop :=
  ∃ j, db.jobs.find k = some j ∧ pqOwns j token now = true

/-- What a call with a stale token may answer. -/
def StaleAnswer (db : Database) (call : Call) (k : JobKey) (token : Token) :
    Except DbError Answer → Prop
  | .ok (.reply r) => r.outcome = .fenced ∨ (∃ uri sha, call = .finalize k.1 k.2 token uri sha) ∧
      (r.outcome = .alreadySucceeded ∨ r.outcome = .invalidOutput) ∧
      ∃ j, db.jobs.find k = some j ∧ readsBack j (token.findAttempt db k.1) token = true
  | .error e => (∃ lease, call = .heartbeat k.1 k.2 token lease ∧ badLease lease = true) ∧
      e = .raised "invalid lease interval"
  | _ => False

/-- A worker's call changes its job only under the current token. -/
def Fenced (db : Database) (e : Event) (db' : Database) : Prop :=
  ∀ k token, e.call.worker = some (k, token) →
    (∀ k' ≠ k, db'.view k' = db.view k') ∧
      (¬ Holds db k token (e.clock.read 0) → db' = db ∧ StaleAnswer db e.call k token e.answer)

/-! ## The rows of a job -/

variable {db db' : Database} {clock : Clock} {k : JobKey} {j j' : JobRow} {token : Token}
  {reply : Reply}
variable {stages : Set Stage}
variable {e : Event}

/-- The attempts of a job have different ids. -/
theorem attemptsOf_nodup : ((db.attemptsOf j).map (·.attemptId)).Nodup := by
  refine List.Nodup.of_map (fun id => (j.env, id)) ?_
  have hkeys : ((db.attemptsOf j).map Row.key).Nodup :=
    db.attempts.keys_nodup.sublist (filter_sublist.map _)
  convert hkeys using 1
  rw [List.map_map]
  refine map_congr_left fun a ha => ?_
  have henv : (a.env, a.jobId) = (j.env, j.jobId) := by simpa using (mem_filter.1 ha).2
  have hae : a.env = j.env := congrArg Prod.fst henv
  show (j.env, a.attemptId) = (a.env, a.attemptId)
  rw [hae]

theorem Jobs.Good.consistent (hg : Jobs.Good stages db.view) (hj : j ∈ db.jobs.rows) :
    JobConsistent db j := by
  have hview : (db.view j.key).job = some j := Table.find_of_mem hj
  have hs := (hg.ok j.key).sound j hview
  have hattempts : (db.view j.key).attempts = db.attemptsOf j := rfl
  refine ⟨⟨fun hrunning => ?_, ?_⟩, ?_, hs.count, (Database.checked hview).2.1.2.2.2.2⟩
  · obtain ⟨id, hid⟩ := hs.leased.attempt_some hrunning
    obtain ⟨a, ha, rfl, -⟩ := hs.held id hid
    refine ⟨a, filter_eq_singleton attemptsOf_nodup ha fun b hb => ?_, hid⟩
    rw [decide_eq_true_eq, hs.current b hb, hid, some_inj]
  · rintro ⟨a, -, hid⟩
    by_contra hne
    rw [hs.leased.attempt_none hne] at hid
    cases hid
  · obtain ⟨r, hr, -, hstate, -⟩ := hs.run
    have hrun : (db.view j.key).run = db.runs.find (j.env, j.runId) := by
      show ((db.jobs.find j.key).bind fun j => db.runs.find (j.env, j.runId)) = _
      rw [show db.jobs.find j.key = some j from hview]
      rfl
    exact ⟨r, hrun ▸ hr, hstate⟩

theorem Step.advance (hg : Jobs.Good {.noop} db.view) (h : Step db e db') :
    JobsAdvance db db' := by
  intro j hj
  have hview : (db.view j.key).job = some j := Table.find_of_mem hj
  obtain ⟨j', hj', hf⟩ := ((h.reach hg).follows hg j.key).job j hview
  exact ⟨j', (Table.find_eq_some.1 hj').1, hf.key, hf.epoch, hf.terminal⟩

/-! ## Claims -/

/-- A claim that is in the history: the job has come no earlier since, and its attempt is there. -/
private structure Remembered (db : Database) (j : JobRow) : Prop where
  epoch : ∃ i, (db.view j.key).job = some i ∧ j.leaseEpoch ≤ i.leaseEpoch
  attempt : ∃ a ∈ (db.view j.key).attempts, some a.attemptId = j.attemptId

private theorem Remembered.advance (h : Remembered db j)
    (hg : Jobs.Good {.noop} db.view) (hs : Step db e db') : Remembered db' j := by
  have hf := (hs.reach hg).follows hg j.key
  obtain ⟨i, hi, hle⟩ := h.epoch
  obtain ⟨a, ha, hid⟩ := h.attempt
  obtain ⟨i', hi', hfi⟩ := hf.job i hi
  obtain ⟨a', ha', hfa⟩ := hf.attempts a ha
  exact ⟨⟨i', hi', hle.trans hfi.epoch⟩, a', ha', by rw [hfa.2.1, hid]⟩

/-- A claim that took a job answers with the row it wrote. -/
private theorem claimed_spec (hs : Step db e db') (hclaimed : e.claimed = some j') :
    ∃ j owner attempt lease reply, (db.view j.key).job = some j ∧
      claimJob db e.clock j owner attempt lease = .ok (reply, db') ∧
      j' = j.claimed e.clock owner attempt lease := by
  obtain ⟨clock, call, answer⟩ := e
  unfold Event.claimed at hclaimed
  split at hclaimed
  · next env priority owner attempt lease r hcall hanswer =>
    obtain rfl : call = _ := hcall
    obtain rfl : answer = _ := hanswer
    split at hclaimed
    · next howned =>
      rcases hs with ⟨a, ha, hexec⟩ | ⟨error, he, -⟩
      · cases ha
        obtain ⟨r', hr', hexec⟩ := answering_eq_ok hexec
        cases hr'
        rcases pqClaim_spec hexec with ⟨-, hnone⟩ | ⟨o, i, j, -, -, hj, -, hclaim⟩
        · rw [howned] at hnone
          cases hnone
        · obtain ⟨-, hjob, -⟩ := claimJob_effect hj hclaim
          rw [hjob] at hclaimed
          exact ⟨j, o, i, lease, r, hj, hclaim, (Option.some.inj hclaimed).symm⟩
      · cases he
    · cases hclaimed
  · cases hclaimed

/-- A new claim differs from those in the history, and joins them. -/
private theorem claimed_new (hs : Step db e db') (hclaimed : e.claimed = some j') :
    Remembered db' j' ∧ ∀ i, Remembered db i →
      (i.env, i.attemptId) ≠ (j'.env, j'.attemptId) ∧
        (i.key = j'.key → i.leaseEpoch < j'.leaseEpoch) := by
  obtain ⟨j, owner, attempt, lease, reply, hj, hclaim, rfl⟩ := claimed_spec hs hclaimed
  obtain ⟨-, -, he, -, hfresh⟩ := claimJob_effect hj hclaim
  refine ⟨⟨⟨j.claimed e.clock owner attempt lease, ?_, le_refl _⟩,
    .opened j owner attempt (e.clock.read 3), ?_, rfl⟩, fun i hi => ⟨fun heq => ?_, fun hkey => ?_⟩⟩
  · show (db'.view j.key).job = _
    rw [he.view_self]
    simp [JobView.addAttempt, JobView.setState, hj]
  · show _ ∈ (db'.view j.key).attempts
    rw [he.view_self]
    simp [JobView.addAttempt]
  · obtain ⟨a, ha, hid⟩ := hi.attempt
    obtain ⟨henv, hattempt⟩ : i.env = j.env ∧ i.attemptId = some attempt := Prod.mk.inj heq
    have hfind := Database.find_attempt ha
    rw [Option.some.inj (hid.trans hattempt), show (i.key).1 = i.env from rfl, henv, hfresh] at hfind
    cases hfind
  · obtain ⟨i', hi', hle⟩ := hi.epoch
    rw [hkey] at hi'
    obtain rfl : j = i' := Option.some.inj (hj.symm.trans hi')
    show i.leaseEpoch < j.leaseEpoch + 1
    omega

theorem claims_distinct {conversations : List ℤ} {es : List Event}
    (h : Run Step (.fresh conversations) es db) : ClaimsDistinct es := by
  have hinv : Jobs.Good {.noop} db.view ∧ ClaimsDistinct es ∧
      ∀ j ∈ es.filterMap Event.claimed, Remembered db j := by
    refine h.invariant (fun es db => Jobs.Good {.noop} db.view ∧ ClaimsDistinct es ∧
      ∀ j ∈ es.filterMap Event.claimed, Remembered db j)
      ⟨fresh_good conversations, .nil, by simp⟩ fun es db e db' _ hinv hs => ?_
    obtain ⟨hg, hdistinct, hall⟩ := hinv
    refine ⟨hg.of_reach (hs.reach hg), ?_, ?_⟩
    · rw [ClaimsDistinct, filterMap_append, pairwise_append]
      refine ⟨hdistinct, ?_, fun i hi j' hj' => ?_⟩
      · cases hc : e.claimed <;> simp [hc]
      · have hclaimed : e.claimed = some j' := by simpa using hj'
        exact (claimed_new hs hclaimed).2 i (hall i hi)
    · intro j' hj'
      rw [filterMap_append, mem_append] at hj'
      rcases hj' with hj' | hj'
      · exact (hall j' hj').advance hg hs
      · have hclaimed : e.claimed = some j' := by simpa using hj'
        exact (claimed_new hs hclaimed).1
  exact hinv.2.1

/-! ## Stale tokens -/

/-- No writes happen under a token that does not hold the job. -/
private theorem not_holds {now : Time} (h : ¬ Holds db k token now) :
    ∀ j, (db.view k).job = some j → pqOwns j token now = false := by
  intro j hj
  by_contra howns
  exact h ⟨j, hj, by simpa using howns⟩

private theorem pqHeartbeat_stale (lease : Option ℤ)
    (h : ∀ j, (db.view k).job = some j → pqOwns j token (clock.read 0) = false) :
    pqHeartbeat db clock k.1 k.2 token lease =
      if badLease lease then .error (.raised "invalid lease interval")
      else .ok (pqResult db .fenced (db.view k).job false, db) := by
  unfold pqHeartbeat
  split
  · rfl
  · cases hj : db.jobs.find k with
    | none => simp [Database.view, hj]
    | some j => simp [Database.view, hj, h j hj]

private theorem pqEndAttempt_stale {action : EndAction} {error : Option String}
    (h : ∀ j, (db.view k).job = some j → pqOwns j token (clock.read 0) = false) :
    pqEndAttempt db clock k.1 k.2 token action error =
      .ok (pqResult db .fenced (db.view k).job false, db) := by
  unfold pqEndAttempt pqLock
  cases hj : db.jobs.find k with
  | none => simp [Database.view, hj]
  | some j => simp [Database.view, hj, h j hj]

/-- The run of a job is there. -/
theorem Jobs.Good.find_run (hg : Jobs.Good stages db.view) (hj : (db.view k).job = some j) :
    ∃ r, db.runs.find (k.1, j.runId) = some r := by
  obtain ⟨r, hr, -⟩ := ((hg.ok k).sound j hj).run
  have henv : j.env = k.1 := congrArg Prod.fst (Database.key_of_view hj)
  refine ⟨r, ?_⟩
  rw [← hr, ← henv]
  show _ = (db.jobs.find k).bind fun j => db.runs.find (j.env, j.runId)
  rw [show db.jobs.find k = some j from hj]
  rfl

private theorem pqFinalize_stale (uri sha : Option String) (hg : Jobs.Good stages db.view)
    (h : ∀ j, (db.view k).job = some j → pqOwns j token (clock.read 0) = false) :
    ∃ reply, pqFinalize db clock k.1 k.2 token uri sha = .ok (reply, db) ∧
      (reply.outcome = .fenced ∨ (reply.outcome = .alreadySucceeded ∨
        reply.outcome = .invalidOutput) ∧ ∃ j, db.jobs.find k = some j ∧
          readsBack j (token.findAttempt db k.1) token = true) := by
  cases hj : db.jobs.find k with
  | none => exact ⟨pqResult db .fenced none false, by simp [pqFinalize, pqLock, hj], .inl rfl⟩
  | some j =>
    obtain ⟨r, hr⟩ := hg.find_run hj
    have hfenced := h j hj
    cases hback : readsBack j (token.findAttempt db k.1) token with
    | false => exact ⟨pqResult db .fenced (some j) false,
        by simp [pqFinalize, pqLock, hj, hr, hback, hfenced], .inl rfl⟩
    | true =>
      by_cases hout : (token.findAttempt db k.1).bind (·.outputSha256) ≠ sha ∨
          some r.expectedOutputUri ≠ uri
      · exact ⟨pqResult db .invalidOutput (some j) false,
          by simp only [pqFinalize, pqLock, hj, hr, hback, if_true, if_pos hout],
          .inr ⟨.inr rfl, j, rfl, hback⟩⟩
      · exact ⟨_, by simp only [pqFinalize, pqLock, hj, hr, hback, if_true, if_neg hout]; rfl,
          .inr ⟨.inl rfl, j, rfl, hback⟩⟩

/-- The step of a call that answers with a known result. -/
private theorem Step.of_exec {x : Except DbError (After Reply)} (hs : Step db e db')
    (hexec : e.call.exec db e.clock = answering .reply x) :
    (∃ r, e.answer = .ok (.reply r) ∧ x = .ok (r, db')) ∨
      ∃ error, e.answer = .error error ∧ x = .error error ∧ db' = db := by
  rcases hs with ⟨a, ha, h⟩ | ⟨error, he, h, rfl⟩
  · obtain ⟨r, rfl, hx⟩ := answering_eq_ok (hexec.symm.trans h)
    exact .inl ⟨r, ha, hx⟩
  · rw [hexec] at h
    cases x with
    | ok p => cases h
    | error e' =>
      cases h
      exact .inr ⟨_, he, rfl, rfl⟩

/-- Everything a worker's call writes is in the view of its job. -/
private theorem end_view {action : EndAction} {error : Option String}
    (hg : Jobs.Good {.noop} db.view) (hs : Step db e db')
    (hexec : e.call.exec db e.clock =
    answering .reply (pqEndAttempt db e.clock k.1 k.2 token action error)) :
    (∀ k' ≠ k, db'.view k' = db.view k') ∧ (¬ Holds db k token (e.clock.read 0) →
      db' = db ∧ StaleAnswer db e.call k token e.answer) := by
  refine ⟨fun k' hk' => ?_, fun hstale => ?_⟩
  · rcases hs.of_exec hexec with ⟨r, -, hx⟩ | ⟨-, -, -, rfl⟩
    · rcases pqEndAttempt_spec hx with ⟨rfl, -⟩ | ⟨j, j', hj, howns, -, -, -, h₁⟩
      · rfl
      · have he := (pqTerminateAttempt_effect hg (key_eq hj) (pqOwns_iff.1 howns).1 h₁).2
        refine he.view_of_ne ?_
        rwa [show j.key = k from Database.key_of_view hj]
    · rfl
  · rcases hs.of_exec hexec with ⟨r, hr, hx⟩ | ⟨error, -, hx, -⟩
    · rw [pqEndAttempt_stale (not_holds hstale)] at hx
      cases hx
      rw [hr]
      exact ⟨rfl, .inl rfl⟩
    · rw [pqEndAttempt_stale (not_holds hstale)] at hx
      cases hx

theorem Step.fenced (hg : Jobs.Good {.noop} db.view) (hs : Step db e db') :
    Fenced db e db' := by
  intro k token hworker
  obtain ⟨clock, call, answer⟩ := e
  cases call with
  | enqueue | claim | due | reapOne | reap | cancel => cases hworker
  | heartbeat env job token lease =>
    cases hworker
    refine ⟨fun k' hk' => ?_, fun hstale => ?_⟩
    · rcases hs.of_exec rfl with ⟨r, -, hx⟩ | ⟨-, -, -, rfl⟩
      · rcases pqHeartbeat_spec hx with ⟨rfl, -⟩ | ⟨j, -, -, -, -, -, he⟩
        · rfl
        · exact he.view_of_ne hk'
      · rfl
    · have hexec := pqHeartbeat_stale lease (not_holds hstale)
      cases hlease : badLease lease with
      | false =>
        rw [hlease, if_neg Bool.false_ne_true] at hexec
        rcases hs.of_exec rfl with ⟨r, rfl, hx⟩ | ⟨error, -, hx, -⟩
        · rw [hexec] at hx
          cases hx
          exact ⟨rfl, .inl rfl⟩
        · rw [hexec] at hx
          cases hx
      | true =>
        rw [hlease, if_pos rfl] at hexec
        rcases hs.of_exec rfl with ⟨r, -, hx⟩ | ⟨error, rfl, hx, hdb⟩
        · rw [hexec] at hx
          cases hx
        · rw [hexec] at hx
          cases hx
          exact ⟨hdb, ⟨lease, rfl, hlease⟩, rfl⟩
  | finalize env job token uri sha =>
    cases hworker
    refine ⟨fun k' hk' => ?_, fun hstale => ?_⟩
    · rcases hs.of_exec rfl with ⟨r, -, hx⟩ | ⟨-, -, -, rfl⟩
      · rcases pqFinalize_spec hx with ⟨rfl, -⟩ | ⟨j, r, hj, hr, ⟨rfl, -⟩ | ⟨howns, hcases⟩⟩
        · rfl
        · rfl
        · rcases hcases with ⟨rfl, -⟩ | ⟨-, h₁⟩
          · rfl
          · obtain ⟨hrunning, -, ⟨attempt, ha, hta⟩, -⟩ := pqOwns_iff.1 howns
            have hrid : r.runId = j.runId := congrArg Prod.snd (Table.find_eq_some.1 hr).2
            obtain ⟨db₁, moved, hpublish, -, -, -, he⟩ :=
              finishJob_effect hg (key_eq hj) hrunning (hta.trans ha.symm) hrid h₁
            obtain ⟨-, heads, rfl, -⟩ := publish_spec hpublish
            refine he.view_of_ne ?_
            rwa [show j.key = (env, job) from Database.key_of_view hj]
      · rfl
    · obtain ⟨reply, hexec, hout⟩ :=
        pqFinalize_stale uri sha hg (not_holds hstale)
      rcases hs.of_exec rfl with ⟨r, rfl, hx⟩ | ⟨error, -, hx, -⟩
      · rw [hexec] at hx
        cases hx
        exact ⟨rfl, hout.imp_right fun h => ⟨⟨uri, sha, rfl⟩, h⟩⟩
      · rw [hexec] at hx
        cases hx
  | fail | release | park =>
    cases hworker
    exact end_view hg hs rfl

/-! ## Every run -/

/-- In every database that the calls reach: the rows of each job agree, no two claims of the history
hold the same token, and whatever call comes next, a claim takes a later epoch, no epoch falls, a job
that has ended stays as it is and a stale token changes nothing. -/
theorem queue_fences {conversations : List ℤ} {es : List Event}
    (h : Run Step (.fresh conversations) es db) :
    (∀ j ∈ db.jobs.rows, JobConsistent db j) ∧ ClaimsDistinct es ∧
      ∀ e db', Step db e db' → JobsAdvance db db' ∧ Fenced db e db' ∧
        ∀ j', e.claimed = some j' → j' ∈ db'.jobs.rows ∧
          ∃ j ∈ db.jobs.rows, j.key = j'.key ∧ j.leaseEpoch < j'.leaseEpoch := by
  have hg := reachable_good h
  refine ⟨fun j hj => hg.consistent hj, claims_distinct h, fun e db' hs =>
    ⟨hs.advance hg, hs.fenced hg, fun j' hj' => ?_⟩⟩
  obtain ⟨j, owner, attempt, lease, reply, hj, hclaim, rfl⟩ := claimed_spec hs hj'
  obtain ⟨-, -, he, -, -⟩ := claimJob_effect hj hclaim
  have hnew : (db'.view j.key).job = some (j.claimed e.clock owner attempt lease) := by
    rw [he.view_self]
    simp [JobView.addAttempt, JobView.setState, hj]
  refine ⟨(Table.find_eq_some.1 hnew).1, j, (Table.find_eq_some.1 hj).1, rfl, ?_⟩
  show j.leaseEpoch < j.leaseEpoch + 1
  omega

private def firstToken : Token := ⟨some 5, some 6, some 1⟩

/-- A job is claimed at time 1 for ten seconds and reaped after that. -/
private def expiredClaim : List (Clock × Call) :=
  [(.still 0, .enqueue (sampleRequest "first" 10 20)), (.still 1, .claim "dev" 1 (some 5) (some 6) (some 10)),
    (.still (seconds 20), .reapOne "dev" 20)]

theorem queue_fences_claimed :
    let db := (history (.fresh [1]) (expiredClaim.take 2)).2
    (∀ j ∈ db.jobs.rows, JobConsistent db j) ∧ db.jobs.rows.map (·.state) = [.running] :=
  ⟨(queue_fences (history_run [1] (expiredClaim.take 2))).1, by decide +kernel⟩

/-- A heartbeat of a stale token that asks for five seconds is refused for the lease it asks for, and
not as fenced. -/
theorem short_heartbeat_not_fenced : ∃ es db e db', Run Step (.fresh [1]) es db ∧ Step db e db' ∧
    e.call.worker = some (("dev", 20), firstToken) ∧
      ¬ Holds db ("dev", 20) firstToken (e.clock.read 0) ∧
        ∀ r, e.answer = .ok (.reply r) → r.outcome ≠ .fenced ∧ r.outcome ≠ .alreadySucceeded ∧
          r.outcome ≠ .invalidOutput := by
  refine ⟨_, _, ⟨.still (seconds 21), .heartbeat "dev" 20 firstToken (some 5),
    .error (.raised "invalid lease interval")⟩, _, history_run [1] expiredClaim,
    .inr ⟨_, rfl, rfl, rfl⟩, rfl, ?_, fun r hr => nomatch hr⟩
  rintro ⟨j, hj, howns⟩
  have hstate : ∀ j ∈ (history (.fresh [1]) expiredClaim).2.jobs.rows, j.state ≠ .running := by
    decide +kernel
  exact hstate j (Table.find_eq_some.1 hj).1 (pqOwns_iff.1 howns).1

end Polis.Queue
