import Polis.Common.Run
import Polis.Queue.JobMachine

/-!
# The calls refine the state machine of jobs

Each call of 000019 leaves the tables as they are or has the effect of one step of `Jobs.Step`, one for
each job where `pq_reap` drives several. The lemmas on `claimJob`, `pqTerminateAttempt`, `finishJob`,
`reapJob`, `pqHeartbeat` and `pqCancel` hold for every stage, so that the calls of 000023 can use them.
-/

namespace Polis.Queue

open List Function Option JobRow JobView

variable {db db' : Database} {clock : Clock} {k : JobKey} {j j' : JobRow} {token : Token}
  {reply : Reply} {stages : Set Stage}
variable {r : Option Reply} {sha : Option String} {h : Option HeadRow}
variable {env : String} {job : Uuid} {views views' : JobKey → JobView} {lease : Option ℤ}
  {error : Option String} {admits : Set Stage}
variable {a : Admission}

/-! ## What the tables give -/

theorem Database.checked (hj : (db.view k).job = some j) : j.leased ∧ j.counted ∧ j.ranged :=
  Table.check_of_find (t := db.jobs) hj

theorem Database.mem_attempts {a : AttemptRow} :
    a ∈ (db.view k).attempts ↔ a ∈ db.attempts.rows ∧ (a.env, a.jobId) = k := by
  simp [Database.view]

theorem Database.find_attempt {a : AttemptRow} (ha : a ∈ (db.view k).attempts) :
    db.attempts.find (k.1, a.attemptId) = some a := by
  obtain ⟨hmem, hk⟩ := Database.mem_attempts.1 ha
  rw [← hk]
  exact Table.find_of_mem hmem

/-- An attempt is that of its job. -/
theorem Jobs.Good.attempt_job (hg : Jobs.Good stages db.view) (hj : (db.view k).job = some j) :
    ∀ id ∈ j.attemptId, ∀ a, db.attempts.find (k.1, id) = some a → a.jobId = k.2 := by
  intro id hid a ha
  obtain ⟨b, hb, hbid, -⟩ := ((hg.ok k).sound j hj).held id hid
  have hfind := Database.find_attempt hb
  rw [hbid, ha] at hfind
  obtain rfl : a = b := Option.some.inj hfind
  exact congrArg Prod.snd (Database.mem_attempts.1 hb).2

/-- The run of a job that has not ended is pending. -/
theorem Jobs.Good.run_pending (hg : Jobs.Good stages db.view) (hj : (db.view k).job = some j)
    (hterminal : j.state.terminal = false) : ∀ r ∈ (db.view k).run, r.state = .pending := by
  intro r hr
  obtain ⟨r', hr', -, hstate, -⟩ := ((hg.ok k).sound j hj).run
  obtain rfl : r' = r := Option.some.inj (hr'.symm.trans hr)
  rw [hstate]
  by_contra hne
  rw [JobState.terminal_iff.2 hne] at hterminal
  cases hterminal

theorem pqOwns_iff {now : Time} : pqOwns j token now = true ↔ j.state = .running ∧
    (∃ owner, j.ownerId = some owner ∧ token.owner = some owner) ∧
    (∃ attempt, j.attemptId = some attempt ∧ token.attempt = some attempt) ∧
    token.epoch = some j.leaseEpoch ∧ ∃ t ∈ j.lockedUntil, now < t := by
  simp only [pqOwns, Bool.and_eq_true, decide_eq_true_eq, sqlEq_iff, Option.any_eq_true,
    mem_def]
  constructor
  · rintro ⟨⟨⟨⟨hs, ho⟩, ha⟩, e, he, hep⟩, hl⟩
    exact ⟨hs, ho, ha, by rw [hep, he], hl⟩
  · rintro ⟨hs, ho, ha, he, hl⟩
    exact ⟨⟨⟨⟨hs, ho⟩, ha⟩, _, rfl, he⟩, hl⟩

/-! ## The effects of the writes -/

/-- The run of a job that keeps its run can be written after the job. -/
theorem distinct_after {g : JobView → JobView} (hd : RunsDistinct db.view)
    (hj : (db.view k).job = some j) (he : Effect db db' k g)
    (hj' : (db'.view k).job = some j') (hrun : (j'.env, j'.runId) = (j.env, j.runId)) :
    RunsDistinct db'.view := by
  rw [he.view_self] at hj'
  rw [he.view]
  refine hd.update fun i hi => ⟨j, hj, ?_⟩
  obtain rfl : j' = i := Option.some.inj (hj'.symm.trans hi)
  exact hrun.symm

theorem killRun_effect (hd : RunsDistinct db.view) (hj : (db.view k).job = some j)
    (hr : ∀ r ∈ (db.view k).run, r.state = .pending) (h : killRun db j = .ok db') :
    Effect db db' k (·.killed j.state) := by
  unfold killRun at h
  by_cases hdead : j.state = .dead
  · rw [if_pos hdead] at h
    exact (updateRun_effect RunRow.die_keeps hd hj hr h).congr (by simp [killed, hdead])
  · rw [if_neg hdead] at h
    cases h
    exact .refl (by simp [killed, hdead])

theorem claimJob_effect {owner attempt : Uuid} (hj : (db.view j.key).job = some j)
    (h : claimJob db clock j owner attempt lease = .ok (reply, db')) :
    reply.outcome = .owned ∧ reply.job = some (j.claimed clock owner attempt lease) ∧
      Effect db db' j.key (fun v =>
        (v.setState (clock.read 2) (claimed clock owner attempt lease)).addAttempt
          (.opened j owner attempt (clock.read 3))) ∧
      lease.isSome ∧ db.attempts.find (j.env, attempt) = none := by
  obtain ⟨db₁, h₁, h⟩ := bind_eq_ok.1 h
  obtain ⟨db₂, h₂, h⟩ := bind_eq_ok.1 h
  cases h
  have he₁ := updateJobState_effect (claimed_keeps clock owner attempt lease) h₁
  have he₂ := insertAttempt_effect (k := j.key) rfl h₂
  refine ⟨rfl, rfl, he₁.trans he₂, ?_, ?_⟩
  · have hj₁ : (db₁.view j.key).job = some (j.claimed clock owner attempt lease) := by
      rw [he₁.view_self]
      simp [setState, hj]
    rcases (Database.checked hj₁).1 with ⟨-, -, -, hlease⟩ | ⟨hne, -⟩
    · simpa [claimed] using hlease
    · exact absurd rfl hne
  · obtain ⟨t, ht, -⟩ := write_eq_ok.1 h₂
    obtain ⟨jobs, delphiJobs, rfl⟩ := updateJobState_tables h₁
    exact Table.insert_fresh ht

theorem pqTerminateAttempt_effect {state : JobState} {outcome : AttemptOutcome}
    {immediate : Bool} (hg : Jobs.Good stages db.view)
    (hj : (db.view j.key).job = some j) (hrunning : j.state = .running)
    (h : pqTerminateAttempt db clock j state outcome error immediate = .ok (j', db')) :
    j' = j.terminated clock state error immediate ∧ Effect db db' j.key (fun v =>
      ((v.setAttempt j.attemptId (AttemptRow.terminate outcome error (clock.read 0))).setState
        (clock.read 4) (terminated clock state error immediate)).killed state) := by
  obtain ⟨db₁, h₁, h⟩ := bind_eq_ok.1 h
  obtain ⟨db₂, h₂, h⟩ := bind_eq_ok.1 h
  obtain ⟨db₃, h₃, h⟩ := bind_eq_ok.1 h
  cases h
  have he₁ := updateAttemptOf_effect (AttemptRow.terminate_keeps (clock.read 0) outcome error)
    (hg.attempt_job hj) h₁
  have he₂ := he₁.trans
    (updateJobState_effect (terminated_keeps clock state error immediate) h₂)
  have hj₂ : (db₂.view j.key).job = some (j.terminated clock state error immediate) := by
    rw [he₂.view_self]
    simp [setState, setAttempt, hj]
  have hrun₂ : ∀ r ∈ (db₂.view j.key).run, r.state = .pending := by
    rw [he₂.view_self]
    exact hg.run_pending hj (by rw [hrunning]; rfl)
  exact ⟨rfl, he₂.trans
    (killRun_effect (distinct_after hg.distinct hj he₂ hj₂ rfl) hj₂ hrun₂ h₃)⟩

theorem reapJob_effect {now : Time} {f : JobRow → JobRow} (hf : JobRow.Keeps f)
    (hg : Jobs.Good stages db.view) (hj : (db.view j.key).job = some j)
    (hterminal : j.state.terminal = false) (h : reapJob db j now f = .ok (r, db')) :
    (∃ reply, r = some reply ∧ reply.outcome = .state (f j).state ∧ reply.job = some (f j)) ∧
      Effect db db' j.key (fun v => (v.setState now f).killed (f j).state) := by
  obtain ⟨db₁, h₁, h⟩ := bind_eq_ok.1 h
  obtain ⟨db₂, h₂, h⟩ := bind_eq_ok.1 h
  cases h
  have he₁ := updateJobState_effect hf h₁
  have hj₁ : (db₁.view j.key).job = some (f j) := by
    rw [he₁.view_self]
    simp [setState, hj]
  have hrun₁ : ∀ r ∈ (db₁.view j.key).run, r.state = .pending := by
    rw [he₁.view_self]
    exact hg.run_pending hj hterminal
  have hrun : ((f j).env, (f j).runId) = (j.env, j.runId) := Prod.ext (hf j).1 (hf j).2.2
  exact ⟨⟨_, rfl, rfl, rfl⟩, he₁.trans
    (killRun_effect (distinct_after hg.distinct hj he₁ hj₁ hrun) hj₁ hrun₁ h₂)⟩

theorem updateHead_spec {f : HeadRow → HeadRow} {kh : String × String} {x : HeadRow}
    (h : db.updateHead kh f = .ok db') (hx : db.heads.find kh = some x)
    (hf : ∀ x, (f x).env = x.env ∧ (f x).productKey = x.productKey) :
    ∃ heads, db' = { db with heads } ∧
      ∀ k, heads.find k = if k = kh then some (f x) else db.heads.find k := by
  unfold Database.updateHead at h
  rw [hx] at h
  simp only at h
  split at h
  · cases h
  · obtain ⟨heads, ht, rfl⟩ := write_eq_ok.1 h
    refine ⟨heads, rfl, fun k => ?_⟩
    rw [Table.find_update (fun y => Prod.ext (hf y).1 (hf y).2) ht, hx]
    rfl

/-- The head moves if the policy allows it, and nothing else changes. -/
theorem publish_spec {r : RunRow} {moved : Bool}
    (hpublish : publish db h r sha = .ok (moved, db')) :
    moved = h.any (pqPublishAllowed · r) ∧ ∃ heads, db' = { db with heads } ∧
      (moved = false → heads = db.heads) ∧
      ∀ x, db.heads.find (r.env, r.productKey) = some x → moved = true →
        (∀ k, heads.find k = if k = (r.env, r.productKey) then some (x.publish r sha)
          else db.heads.find k) := by
  unfold publish at hpublish
  split at hpublish
  · next hallowed =>
    obtain ⟨db₁, h₁, hpublish⟩ := bind_eq_ok.1 hpublish
    cases hpublish
    refine ⟨hallowed.symm, ?_⟩
    cases hx : db.heads.find (r.env, r.productKey) with
    | none =>
      simp only [Database.updateHead, hx] at h₁
      cases h₁
      exact ⟨db.heads, rfl, fun _ => rfl, by rintro _ ⟨⟩⟩
    | some x =>
      obtain ⟨heads, rfl, hheads⟩ := updateHead_spec h₁ hx fun _ => ⟨rfl, rfl⟩
      refine ⟨heads, rfl, by rintro ⟨⟩, fun x' hx' _ => ?_⟩
      obtain rfl : x = x' := Option.some.inj hx'
      exact hheads
  · next hallowed =>
    cases hpublish
    exact ⟨by simpa using hallowed, db.heads, rfl, fun _ => rfl, by rintro _ _ ⟨⟩⟩

/-- Everything that a finalize writes before it publishes. -/
theorem finishJob_effect {r : RunRow} {attempt : Option Uuid}
    (hg : Jobs.Good stages db.view) (hj : (db.view j.key).job = some j)
    (hrunning : j.state = .running) (hattempt : attempt = j.attemptId) (hr : r.runId = j.runId)
    (hfinish : finishJob db clock j r h attempt sha = .ok (reply, db')) :
    ∃ db₁ moved, publish db₁ h r sha = .ok (moved, db') ∧ reply.published = moved ∧
      reply.outcome = .state .succeeded ∧
      reply.job = some (j.succeeded clock j.attemptId sha) ∧ Effect db db₁ j.key (fun v =>
        ((v.setAttempt j.attemptId (AttemptRow.succeed sha (clock.read 1))).setState
          (clock.read 3) (succeeded clock j.attemptId sha)).setRun fun r =>
            { r with state := .succeeded, outputSha256 := sha }) := by
  subst hattempt
  obtain ⟨db₁, h₁, hfinish⟩ := bind_eq_ok.1 hfinish
  obtain ⟨db₂, h₂, hfinish⟩ := bind_eq_ok.1 hfinish
  obtain ⟨db₃, h₃, hfinish⟩ := bind_eq_ok.1 hfinish
  obtain ⟨⟨moved, db₄⟩, h₄, hfinish⟩ := bind_eq_ok.1 hfinish
  cases hfinish
  have he₁ := updateAttemptOf_effect (AttemptRow.succeed_keeps (clock.read 1) sha)
    (hg.attempt_job hj) h₁
  have he₂ := he₁.trans (updateJobState_effect (succeeded_keeps clock j.attemptId sha) h₂)
  have hj₂ : (db₂.view j.key).job = some (j.succeeded clock j.attemptId sha) := by
    rw [he₂.view_self]
    simp [setState, setAttempt, hj]
  have hrun₂ : ∀ r ∈ (db₂.view j.key).run, r.state = .pending := by
    rw [he₂.view_self]
    exact hg.run_pending hj (by rw [hrunning]; rfl)
  rw [hr] at h₃
  have hd := distinct_after hg.distinct hj he₂ hj₂ rfl
  have hf : RunRow.Keeps fun r => { r with state := .succeeded, outputSha256 := sha } :=
    fun _ => ⟨rfl, rfl, rfl, rfl, rfl, rfl, rfl⟩
  exact ⟨db₃, moved, h₄, rfl, rfl, rfl, he₂.trans (updateRun_effect hf hd hj₂ hrun₂ h₃)⟩

theorem pqHeartbeat_spec (h : pqHeartbeat db clock env job token lease = .ok (reply, db')) :
    db' = db ∧ reply.outcome = .fenced ∧
        (∀ j, (db.view (env, job)).job = some j → pqOwns j token (clock.read 0) = false) ∨
      ∃ j, (db.view (env, job)).job = some j ∧ pqOwns j token (clock.read 0) = true ∧
        reply.outcome = .owned ∧ reply.job = some (j.renewed clock lease) ∧ lease.isSome ∧
        Effect db db' (env, job) (·.setJob (renewed clock lease)) := by
  unfold pqHeartbeat at h
  split at h
  · cases h
  · cases hj : db.jobs.find (env, job) with
    | none =>
      simp only [hj] at h
      cases h
      refine .inl ⟨rfl, rfl, fun j hj' => ?_⟩
      rw [Database.view_job, hj] at hj'
      cases hj'
    | some j =>
      simp only [hj] at h
      cases howns : pqOwns j token (clock.read 0) with
      | false =>
        simp only [howns, Bool.not_false, if_pos] at h
        cases h
        refine .inl ⟨rfl, rfl, fun j' hj' => ?_⟩
        rw [Database.view_job, hj] at hj'
        obtain rfl : j = j' := Option.some.inj hj'
        exact howns
      | true =>
        simp only [howns, Bool.not_true, Bool.false_eq_true, if_false] at h
        obtain ⟨db₁, h₁, h⟩ := bind_eq_ok.1 h
        cases h
        have he := updateJob_effect (renewed_keeps clock lease) h₁
        refine .inr ⟨j, hj, howns, rfl, rfl, ?_, he⟩
        have hj₁ : (db'.view (env, job)).job = some (j.renewed clock lease) := by
          rw [he.view_self]
          simp [setJob, Database.view_job, hj]
        rcases (Database.checked hj₁).1 with ⟨-, -, -, hlease⟩ | ⟨hne, -⟩
        · simpa [renewed] using hlease
        · exact absurd (pqOwns_iff.1 howns).1 hne

theorem pqCancel_spec {version : Option ℤ} (hg : Jobs.Good stages db.view)
    (h : pqCancel db clock env job version = .ok (reply, db')) :
    db' = db ∧ (reply.outcome = .conflict ∨ reply.outcome = .terminal) ∨
      ∃ j, (db.view (env, job)).job = some j ∧ j.state.terminal = false ∧
        some j.mgmtVersion = version ∧ reply.outcome = .state .cancelled ∧
        reply.job = some (j.cancelled (clock.read 1)) ∧ Effect db db' (env, job) (fun v =>
          ((v.setAttempt j.attemptId (AttemptRow.cancel (clock.read 0))).setState (clock.read 2)
            (cancelled (clock.read 1))).setRun fun r => { r with state := .cancelled }) := by
  unfold pqCancel pqLock at h
  cases hj : db.jobs.find (env, job) with
  | none =>
    simp only [hj] at h
    cases h
    exact .inl ⟨rfl, .inl rfl⟩
  | some j =>
    simp only [hj] at h
    split at h
    · cases h
      exact .inl ⟨rfl, .inl rfl⟩
    next hversion =>
    split at h
    · cases h
      exact .inl ⟨rfl, .inr rfl⟩
    next hterminal =>
    obtain ⟨db₁, h₁, h⟩ := bind_eq_ok.1 h
    obtain ⟨db₂, h₂, h⟩ := bind_eq_ok.1 h
    obtain ⟨db₃, h₃, h⟩ := bind_eq_ok.1 h
    cases h
    have hj₀ : (db.view (env, job)).job = some j := hj
    have henv : j.env = env := congrArg Prod.fst (Database.key_of_view hj₀)
    have he₁ := updateAttemptOf_effect (k := (env, job)) (AttemptRow.cancel_keeps (clock.read 0))
      (hg.attempt_job hj₀) h₁
    have he₂ := he₁.trans (updateJobState_effect (cancelled_keeps (clock.read 1)) h₂)
    have hj₂ : (db₂.view (env, job)).job = some (j.cancelled (clock.read 1)) := by
      rw [he₂.view_self]
      simp [setState, setAttempt, hj₀]
    have hrun₂ : ∀ r ∈ (db₂.view (env, job)).run, r.state = .pending := by
      rw [he₂.view_self]
      exact hg.run_pending hj₀ (by simpa using hterminal)
    have hd := distinct_after hg.distinct hj₀ he₂ hj₂ rfl
    rw [← henv] at h₃
    exact .inr ⟨j, hj₀, by simpa using hterminal, by simpa using hversion, rfl, rfl,
      he₂.trans (updateRun_effect (RunRow.state_keeps .cancelled) hd hj₂ hrun₂ h₃)⟩

/-! ## The calls of 000019 -/

theorem mem_firstJob {p : JobRow → Bool} (h : firstJob db p = some j) :
    (db.view j.key).job = some j ∧ p j = true := by
  have hmem : j ∈ (db.jobs.rows.filter p).insertionSort claimOrder := mem_of_mem_head? h
  rw [mem_insertionSort] at hmem
  obtain ⟨hj, hp⟩ := mem_filter.1 hmem
  exact ⟨Table.find_of_mem hj, hp⟩

theorem pqClaim_spec {priority : ℤ} {owner attempt : Option Uuid}
    (h : pqClaim db clock env priority owner attempt lease = .ok (reply, db')) :
    db' = db ∧ reply.outcome = .none ∨
      ∃ o i j, owner = some o ∧ attempt = some i ∧ (db.view j.key).job = some j ∧
        j.Claimable env priority clock.statement ∧
        claimJob db clock j o i lease = .ok (reply, db') := by
  unfold pqClaim at h
  split at h
  · next o i =>
    split at h
    · cases h
    · split at h
      · cases h
        exact .inl ⟨rfl, rfl⟩
      · next j hj =>
        obtain ⟨hview, hclaimable⟩ := mem_firstJob hj
        exact .inr ⟨o, i, j, rfl, rfl, hview, by simpa using hclaimable, h⟩
  · cases h

theorem pqFinalize_spec {uri sha : Option String}
    (h : pqFinalize db clock env job token uri sha = .ok (reply, db')) :
    db' = db ∧ reply.outcome = .fenced ∧
        (∀ j, (db.view (env, job)).job = some j → pqOwns j token (clock.read 0) = false) ∨
      ∃ j r, (db.view (env, job)).job = some j ∧ db.runs.find (env, j.runId) = some r ∧
        (db' = db ∧ readsBack j (token.findAttempt db env) token = true ∧
            (reply.outcome = .alreadySucceeded ∨ reply.outcome = .invalidOutput) ∨
          pqOwns j token (clock.read 0) = true ∧
            (db' = db ∧ reply.outcome = .invalidOutput ∨
              sha = some r.expectedOutputSha256 ∧
                finishJob db clock j r (db.heads.find (env, r.productKey)) token.attempt sha =
                  .ok (reply, db'))) := by
  unfold pqFinalize pqLock at h
  cases hj : db.jobs.find (env, job) with
  | none =>
    simp only [hj] at h
    cases h
    refine .inl ⟨rfl, rfl, fun j hj' => ?_⟩
    rw [Database.view_job, hj] at hj'
    cases hj'
  | some j =>
    simp only [hj] at h
    cases hr : db.runs.find (env, j.runId) with
    | none =>
      simp only [hr] at h
      cases h
    | some r =>
      simp only [hr] at h
      have hview : (db.view (env, job)).job = some j := hj
      split at h
      · next hback =>
        refine .inr ⟨j, r, hview, hr, .inl ?_⟩
        split at h
        · cases h
          exact ⟨rfl, hback, .inr rfl⟩
        · cases h
          exact ⟨rfl, hback, .inl rfl⟩
      · split at h
        · next howns =>
          cases h
          refine .inl ⟨rfl, rfl, fun j' hj' => ?_⟩
          obtain rfl : j = j' := Option.some.inj (hview.symm.trans hj')
          simpa using howns
        · next howns =>
          refine .inr ⟨j, r, hview, hr, .inr ⟨by simpa using howns, ?_⟩⟩
          split at h
          · cases h
            exact .inl ⟨rfl, rfl⟩
          · next hout =>
            rw [not_or, not_not] at hout
            exact .inr ⟨hout.1, h⟩

theorem pqEndAttempt_spec {action : EndAction}
    (h : pqEndAttempt db clock env job token action error = .ok (reply, db')) :
    db' = db ∧ reply.outcome = .fenced ∧
        (∀ j, (db.view (env, job)).job = some j → pqOwns j token (clock.read 0) = false) ∨
      ∃ j j', (db.view (env, job)).job = some j ∧ pqOwns j token (clock.read 0) = true ∧
        (action ≠ .confirmExit ∧ action ≠ .unknown) ∧
        reply.outcome = .state (endState j action) ∧ reply.job = some j' ∧
        pqTerminateAttempt db (clock.later 1) j (endState j action) (endState j action).outcome
          error (action = .release) = .ok (j', db') := by
  unfold pqEndAttempt pqLock at h
  cases hj : db.jobs.find (env, job) with
  | none =>
    simp only [hj] at h
    cases h
    refine .inl ⟨rfl, rfl, fun j hj' => ?_⟩
    rw [Database.view_job, hj] at hj'
    cases hj'
  | some j =>
    simp only [hj] at h
    have hview : (db.view (env, job)).job = some j := hj
    split at h
    · next howns =>
      cases h
      refine .inl ⟨rfl, rfl, fun j' hj' => ?_⟩
      obtain rfl : j = j' := Option.some.inj (hview.symm.trans hj')
      simpa using howns
    · next howns =>
      split at h
      · cases h
      · next haction =>
        obtain ⟨⟨j', db₁⟩, h₁, h⟩ := bind_eq_ok.1 h
        cases h
        exact .inr ⟨j, j', hview, by simpa using howns, not_or.1 haction, rfl, rfl, h₁⟩

/-- A job is reaped as an expired lease, as a parked job or as a job without budget. -/
theorem pqReapOne_spec (h : pqReapOne db clock env job = .ok (r, db')) :
    db' = db ∧ r = none ∧ (∀ j, (db.view (env, job)).job = some j →
        ¬(j.state = .running ∧ j.lockedUntil.any (· ≤ clock.read 0)) ∧
        ¬(j.state = .parked ∧ j.eligibleAt ≤ clock.read 1) ∧
        ¬(j.state.waiting ∧ j.maxAttempts ≤ j.spent)) ∨
      ∃ j, (db.view (env, job)).job = some j ∧
        ((j.state = .running ∧ j.lockedUntil.any (· ≤ clock.read 0) ∧ ∃ j' reply,
            r = some reply ∧ reply.outcome = .state (j.unlessSpent .retryWait) ∧
            reply.job = some j' ∧
            pqTerminateAttempt db (clock.later 1) j (j.unlessSpent .retryWait) .expired
              (some "lease_expired") false = .ok (j', db')) ∨
          (j.state = .parked ∧ j.eligibleAt ≤ clock.read 1 ∧
            reapJob db j (clock.read 3) (woken (j.unlessSpent .queued) (clock.read 2)) =
              .ok (r, db')) ∨
          (j.state.waiting ∧ j.maxAttempts ≤ j.spent ∧
            reapJob db j (clock.read 3) (exhausted (clock.read 2)) = .ok (r, db'))) := by
  unfold pqReapOne pqLock at h
  cases hj : db.jobs.find (env, job) with
  | none =>
    simp only [hj] at h
    cases h
    refine .inl ⟨rfl, rfl, fun j hj' => ?_⟩
    rw [Database.view_job, hj] at hj'
    cases hj'
  | some j =>
    simp only [hj] at h
    have hview : (db.view (env, job)).job = some j := hj
    split at h
    · next hexpired =>
      obtain ⟨⟨j', db₁⟩, h₁, h⟩ := bind_eq_ok.1 h
      cases h
      exact .inr ⟨j, hview, .inl ⟨hexpired.1, hexpired.2, j', _, rfl, rfl, rfl, h₁⟩⟩
    · next hexpired =>
      split at h
      · next hparked => exact .inr ⟨j, hview, .inr (.inl ⟨hparked.1, hparked.2, h⟩)⟩
      · next hparked =>
        split at h
        · next hspent => exact .inr ⟨j, hview, .inr (.inr ⟨hspent.1, hspent.2, h⟩)⟩
        · next hspent =>
          cases h
          refine .inl ⟨rfl, rfl, fun j' hj' => ?_⟩
          obtain rfl : j = j' := Option.some.inj (hview.symm.trans hj')
          exact ⟨hexpired, hparked, hspent⟩

/-! ## Enqueue -/

/-- The head of a product before its first request. -/
def Admission.newHead (a : Admission) : HeadRow where
  env := a.env
  productKey := a.productKey
  zid := a.zid

/-- A new request that became a run and a job under the head `h`. -/
structure Enqueued (db db' : Database) (clock : Clock) (a : Admission) (h : HeadRow) : Prop where
  zid : a.zid ∈ db.conversations
  requests : db.requests.insert a.request = .ok db'.requests
  head : db.heads.find (a.env, a.productKey) = some h ∨
    db.heads.find (a.env, a.productKey) = none ∧ h = a.newHead
  headZid : h.zid = a.zid
  runs : db.runs.insert (a.run (h.requestedGeneration + 1) clock) = .ok db'.runs
  jobs : db.jobs.insert (a.job clock) = .ok db'.jobs
  heads : ∀ k, db'.heads.find k = if k = (a.env, a.productKey) then
    some (h.request (h.requestedGeneration + 1) a.runId) else db.heads.find k
  rest : db' = { db with
    requests := db'.requests
    heads := db'.heads
    runs := db'.runs
    jobs := db'.jobs }

theorem reserveHead_spec (h : a.reserveHead db = .ok db') :
    ∃ heads, db' = { db with heads } ∧ ∃ x, (db.heads.find (a.env, a.productKey) = some x ∨
      db.heads.find (a.env, a.productKey) = none ∧ x = a.newHead) ∧
      ∀ k, heads.find k = if k = (a.env, a.productKey) then some x else db.heads.find k := by
  unfold Admission.reserveHead at h
  split at h
  · next x hx =>
    cases h
    refine ⟨db.heads, rfl, x, .inl hx, fun k => ?_⟩
    split
    · next hk => rw [hk, hx]
    · rfl
  · next hx =>
    obtain ⟨heads, ht, rfl⟩ := write_eq_ok.1 h
    exact ⟨heads, rfl, a.newHead, .inr ⟨hx, rfl⟩, fun k => Table.find_insert ht⟩

theorem createRun_spec {x : HeadRow}
    (hx : db.heads.find (a.env, a.productKey) = some x)
    (h : a.createRun db clock x = .ok (reply, db')) :
    reply.outcome = .enqueued ∧ reply.job = some (a.job clock) ∧
      ∃ runs jobs heads, db' = { db with runs, jobs, heads } ∧
        db.runs.insert (a.run (x.requestedGeneration + 1) clock) = .ok runs ∧
        db.jobs.insert (a.job clock) = .ok jobs ∧
        ∀ k, heads.find k = if k = (a.env, a.productKey) then
          some (x.request (x.requestedGeneration + 1) a.runId) else db.heads.find k := by
  obtain ⟨db₁, h₁, h⟩ := bind_eq_ok.1 h
  obtain ⟨db₂, h₂, h⟩ := bind_eq_ok.1 h
  obtain ⟨db₃, h₃, h⟩ := bind_eq_ok.1 h
  cases h
  obtain ⟨runs, hruns, rfl⟩ := write_eq_ok.1 h₁
  obtain ⟨jobs, hjobs, rfl⟩ := write_eq_ok.1 h₂
  obtain ⟨heads, rfl, hheads⟩ := updateHead_spec h₃ hx fun _ => ⟨rfl, rfl⟩
  exact ⟨rfl, rfl, runs, jobs, heads, rfl, hruns, hjobs, hheads⟩

theorem pqEnqueue_spec (h : pqEnqueue db clock a = .ok (reply, db')) :
    (∃ q, db.requests.find a.requestPk = some q ∧ db' = db ∧ reply = a.replay db q) ∨
      reply.outcome = .enqueued ∧ reply.job = some (a.job clock) ∧
        ∃ x, Enqueued db db' clock a x := by
  unfold pqEnqueue at h
  split at h
  · cases h
  next hzid =>
  split at h
  · next q hq =>
    split at h
    · cases h
      exact .inl ⟨q, hq, rfl, rfl⟩
    · cases h
  · obtain ⟨db₁, h₁, h⟩ := bind_eq_ok.1 h
    obtain ⟨db₂, h₂, h⟩ := bind_eq_ok.1 h
    obtain ⟨requests, hrequests, rfl⟩ := write_eq_ok.1 h₁
    obtain ⟨heads₂, rfl, x, hx, hheads₂⟩ := reserveHead_spec h₂
    have hhead : heads₂.find (a.env, a.productKey) = some x := by rw [hheads₂, if_pos rfl]
    simp only [hhead] at h
    split at h
    · cases h
    next hhzid =>
    obtain ⟨hout, hjob, runs, jobs, heads, rfl, hruns, hjobs, hheads⟩ := createRun_spec hhead h
    refine .inr ⟨hout, hjob, x, by simpa using hzid, hrequests, hx, by simpa using hhzid, hruns,
      hjobs, fun k => ?_, rfl⟩
    rw [hheads]
    split
    · rfl
    · next hk => rw [hheads₂, if_neg hk]

namespace Enqueued

variable {a : Admission} {x : HeadRow} (he : Enqueued db db' clock a x)

include he

theorem run_fresh : db.runs.find (a.env, a.runId) = none := Table.insert_fresh he.runs

theorem job_fresh : (db.view (a.env, a.jobId)).job = none := Table.insert_fresh he.jobs

theorem find_run (kr : String × Uuid) : db'.runs.find kr = if kr = (a.env, a.runId) then
    some (a.run (x.requestedGeneration + 1) clock) else db.runs.find kr := Table.find_insert he.runs

theorem find_job (k : JobKey) : db'.jobs.find k = if k = (a.env, a.jobId) then
    some (a.job clock) else db.jobs.find k := Table.find_insert he.jobs

theorem requested : db'.requested = db.requested ++
    [(a.env, a.productKey, x.requestedGeneration + 1, a.runId)] := by
  simp only [Database.requested, Table.insert_rows he.runs, map_append]
  rfl

/-- No job had the new run. -/
theorem fresh_run (hg : Jobs.Good stages db.view) : ∀ k' j', (db.view k').job = some j' →
    (j'.env, j'.runId) ≠ (a.env, a.runId) := by
  intro k' j' hj' heq
  obtain ⟨r, hr, -⟩ := ((hg.ok k').sound j' hj').run
  have hrun : (db.view k').run = db.runs.find (j'.env, j'.runId) := by
    show ((db.jobs.find k').bind fun j => db.runs.find (j.env, j.runId)) = _
    rw [show db.jobs.find k' = some j' from hj']
    rfl
  rw [hrun, heq, he.run_fresh] at hr
  cases hr

theorem view (hg : Jobs.Good stages db.view) : db'.view = update db.view (a.env, a.jobId)
    { job := some (a.job clock), run := some (a.run (x.requestedGeneration + 1) clock) } := by
  have hempty := (hg.ok (a.env, a.jobId)).empty he.job_fresh
  have hattempts : db'.attempts = db.attempts := by rw [he.rest]
  have hproviders : db'.providerRequests = db.providerRequests := by rw [he.rest]
  have hdelphi : db'.delphiJobs = db.delphiJobs := by rw [he.rest]
  funext k
  by_cases hk : k = (a.env, a.jobId)
  · subst hk
    rw [update_self]
    have hrest : (db'.view (a.env, a.jobId)).attempts = [] ∧
        (db'.view (a.env, a.jobId)).requests = [] ∧
        (db'.view (a.env, a.jobId)).delphi = none := by
      have h₁ := congrArg attempts hempty
      have h₂ := congrArg JobView.requests hempty
      have h₃ := congrArg delphi hempty
      simp only [Database.view] at h₁ h₂ h₃ ⊢
      rw [hattempts, hproviders, hdelphi]
      exact ⟨h₁, h₂, h₃⟩
    have hjob : db'.jobs.find (a.env, a.jobId) = some (a.job clock) := by
      rw [he.find_job, if_pos rfl]
    have hrun : db'.runs.find (a.env, a.runId) =
        some (a.run (x.requestedGeneration + 1) clock) := by rw [he.find_run, if_pos rfl]
    obtain ⟨h₁, h₂, h₃⟩ := hrest
    simp only [Database.view] at h₁ h₂ h₃ ⊢
    rw [h₁, h₂, h₃, hjob, bind_some]
    simp only [Admission.job, hrun]
  · rw [update_of_ne hk]
    have hjob : db'.jobs.find k = db.jobs.find k := by rw [he.find_job, if_neg hk]
    have hrun : ((db.jobs.find k).bind fun j => db'.runs.find (j.env, j.runId)) =
        (db.jobs.find k).bind fun j => db.runs.find (j.env, j.runId) := by
      cases hj : db.jobs.find k with
      | none => rfl
      | some j => rw [bind_some, bind_some, he.find_run,
          if_neg (he.fresh_run hg k j hj)]
    simp only [Database.view]
    rw [hjob, hrun, hattempts, hproviders, hdelphi]

theorem admitted : (a.job clock).Admitted where
  leased := (Table.insert_check he.jobs).1
  state := rfl
  attempts := ⟨rfl, rfl⟩
  budget := (Table.insert_check he.jobs).2.1.2.2.1

theorem step (hnoop : .noop ∈ admits) (hg : Jobs.Good stages db.view) :
    Jobs.Step admits db.view db'.view := by
  rw [he.view hg]
  exact .enter he.job_fresh he.admitted hnoop rfl ⟨rfl, rfl⟩ (he.fresh_run hg) (fun h => (h rfl).elim)
    fun d h => nomatch h

end Enqueued

/-! ## The steps -/

/-- A job moved by the effect of a call. -/
theorem Effect.step {g : JobView → JobView} (he : Effect db db' k g)
    (hmove : Move (db.view k) (g (db.view k))) : Jobs.Step stages db.view db'.view := by
  rw [he.view]
  exact .move hmove

theorem claimJob_step {owner attempt : Uuid} (hj : (db.view j.key).job = some j)
    (hwaiting : j.state.waiting) (hspent : j.spent < j.maxAttempts)
    (hfree : j.stage ≠ .noop → (db.view j.key).ExitsConfirmed ∧ (db.view j.key).NoUnresolved)
    (h : claimJob db clock j owner attempt lease = .ok (reply, db')) :
    Jobs.Step stages db.view db'.view := by
  obtain ⟨-, -, he, hlease, hfresh⟩ := claimJob_effect hj h
  refine he.step (.claim hj hwaiting hspent hfree clock owner attempt hlease ?_ _ _)
  rintro a ha rfl
  have hfind := Database.find_attempt ha
  rw [show (j.key).1 = j.env from rfl, hfresh] at hfind
  cases hfind

theorem pqTerminateAttempt_step {state : JobState} {outcome : AttemptOutcome} {immediate : Bool}
    (hg : Jobs.Good stages db.view)
    (hj : (db.view j.key).job = some j) (hrunning : j.state = .running)
    (hstate : state = .retryWait ∧ j.spent < j.maxAttempts ∨ state = .parked ∨ state = .dead)
    (hexit : j.stage ≠ .noop → state = .parked ∨
    (db.view j.key).CurrentConfirmed j ∧ (db.view j.key).NoUnresolved)
    (houtcome : outcome ≠ .running)
    (h : pqTerminateAttempt db clock j state outcome error immediate = .ok (j', db')) :
    Jobs.Step admits db.view db'.view :=
  (pqTerminateAttempt_effect hg hj hrunning h).2.step
    (.terminate hj hrunning hstate hexit clock houtcome error immediate _ _)

theorem wake_step {updated now : Time} (hg : Jobs.Good stages db.view)
    (hj : (db.view j.key).job = some j) (hparked : j.state = .parked)
    (hexit : j.stage ≠ .noop → (db.view j.key).ExitsConfirmed ∧ (db.view j.key).NoUnresolved)
    (h : reapJob db j now (woken (j.unlessSpent .queued) updated) = .ok (r, db')) :
    Jobs.Step admits db.view db'.view := by
  have he := (reapJob_effect (woken_keeps updated _) hg hj (by rw [hparked]; rfl) h).2
  refine he.step (.wake hj hparked ?_ hexit updated now)
  unfold unlessSpent
  split
  · exact .inr rfl
  · next hlt => exact .inl ⟨rfl, by omega⟩

theorem finishJob_step {r : RunRow}
    {attempt : Option Uuid} (hg : Jobs.Good stages db.view) (hj : (db.view j.key).job = some j)
    (hrunning : j.state = .running) (hattempt : attempt = j.attemptId) (hr : r.runId = j.runId)
    (hexit : j.stage ≠ .noop → (db.view j.key).CurrentConfirmed j ∧ (db.view j.key).NoOpen)
    (hfinish : finishJob db clock j r h attempt sha = .ok (reply, db')) :
    Jobs.Step admits db.view db'.view := by
  obtain ⟨db₁, moved, hpublish, -, -, -, he⟩ :=
    finishJob_effect hg hj hrunning hattempt hr hfinish
  obtain ⟨-, heads, rfl, -⟩ := publish_spec hpublish
  exact he.step (.succeed hj hrunning hexit clock sha _ _ (fun _ => ⟨rfl, rfl, rfl, rfl, rfl, rfl, rfl⟩)
    fun _ => ⟨rfl, rfl⟩)

/-- What a call does to the jobs. -/
abbrev Jobs.Reach (stages : Set Stage) := Relation.ReflTransGen (Jobs.Step stages)

theorem pqHeartbeat_reach (h : pqHeartbeat db clock env job token lease = .ok (reply, db')) :
    Jobs.Reach stages db.view db'.view := by
  rcases pqHeartbeat_spec h with ⟨rfl, -⟩ | ⟨j, hj, howns, -, -, hlease, he⟩
  · exact .refl
  · exact .single (he.step (.renew hj (pqOwns_iff.1 howns).1 clock hlease))

theorem pqCancel_reach {version : Option ℤ} (hg : Jobs.Good stages db.view)
    (h : pqCancel db clock env job version = .ok (reply, db')) :
    Jobs.Reach stages db.view db'.view := by
  rcases pqCancel_spec hg h with ⟨rfl, -⟩ | ⟨j, hj, hterminal, -, -, -, he⟩
  · exact .refl
  · exact .single (he.step (.cancel hj hterminal _ _ _))

theorem pqEnqueue_reach (hnoop : .noop ∈ stages) (hg : Jobs.Good stages db.view)
    (h : pqEnqueue db clock a = .ok (reply, db')) : Jobs.Reach stages db.view db'.view := by
  rcases pqEnqueue_spec h with ⟨-, -, rfl, -⟩ | ⟨-, -, x, he⟩
  · exact .refl
  · exact .single (he.step hnoop hg)

theorem Jobs.Good.of_reach (hg : Jobs.Good stages views) (h : Jobs.Reach stages views views') :
    Jobs.Good stages views' := by
  induction h with
  | refl => exact hg
  | tail _ hstep ih => exact hstep.good ih

theorem Jobs.Reach.follows (hg : Jobs.Good stages views)
    (h : Jobs.Reach stages views views') (k : JobKey) : (views k).Follows (views' k) := by
  induction h with
  | refl => exact .refl _
  | tail h hstep ih => exact ih.trans (hstep.follows (hg.of_reach h) k)

theorem Jobs.Reach.mono {stages' : Set Stage} (hstages : stages ⊆ stages')
    (h : Jobs.Reach stages views views') :
    Jobs.Reach stages' views views' := by
  refine Relation.ReflTransGen.mono (fun v v' hstep => ?_) _ _ h
  cases hstep with
  | enter hnone hj hstage hkey hrun hfresh hdelphi hroot =>
    exact .enter hnone hj (hstages hstage) hkey hrun hfresh hdelphi hroot
  | move h => exact .move h

/-- A new job is in a stage that is admitted. -/
theorem Jobs.Reach.stage_of_fresh
    (h : Jobs.Reach stages views views') (hnone : (views k).job = none)
    (hj : (views' k).job = some j) : j.stage ∈ stages := by
  induction h generalizing j with
  | refl =>
    rw [hnone] at hj
    cases hj
  | @tail views₁ views₂ hreach hstep ih =>
    cases hstep with
    | @enter i j' r d hfree hj' hstage hkey hrun hfresh hdelphi hroot =>
      by_cases hk : k = i
      · subst hk
        rw [update_self] at hj
        obtain rfl := Option.some.inj hj
        exact hstage
      · rw [update_of_ne hk] at hj
        exact ih hj
    | @move i v' hmove =>
      by_cases hk : k = i
      · subst hk
        rw [update_self] at hj
        cases hi : (views₁ k).job with
        | none =>
          rw [hmove.job_none hi] at hj
          cases hj
        | some j₁ =>
          obtain ⟨j₂, hj₂, hf⟩ := hmove.follows.job j₁ hi
          obtain rfl := Option.some.inj (hj.symm.trans hj₂)
          rw [hf.stage]
          exact ih hi
      · rw [update_of_ne hk] at hj
        exact ih hj

theorem endState_cases (j : JobRow) (action : EndAction) :
    endState j action = .retryWait ∧ j.spent < j.maxAttempts ∨ endState j action = .parked ∨
      endState j action = .dead := by
  unfold endState
  split
  · exact .inr (.inl rfl)
  · split
    · exact .inr (.inr rfl)
    · next h => exact .inl ⟨rfl, by omega⟩

theorem unlessSpent_cases (j : JobRow) (s : JobState) :
    j.unlessSpent s = s ∧ j.spent < j.maxAttempts ∨ j.unlessSpent s = .dead := by
  unfold unlessSpent
  split
  · exact .inr rfl
  · next h => exact .inl ⟨rfl, by omega⟩

theorem key_eq (hj : (db.view (env, job)).job = some j) :
    (db.view j.key).job = some j := by
  rwa [show j.key = (env, job) from Database.key_of_view hj]

/-! ## The calls on noop jobs -/

section Noops

variable (hg : Jobs.Good {.noop} db.view)

include hg

theorem pqClaim_reach {priority : ℤ} {owner attempt : Option Uuid}
    (h : pqClaim db clock env priority owner attempt lease = .ok (reply, db')) :
    Jobs.Reach {.noop} db.view db'.view := by
  rcases pqClaim_spec h with ⟨rfl, -⟩ | ⟨o, i, j, -, -, hj, hc, h₁⟩
  · exact .refl
  · exact .single (claimJob_step hj hc.2.2.1 hc.2.2.2.2 (fun hs => absurd (hg.stages _ j hj) hs) h₁)

theorem pqFinalize_reach {uri sha : Option String}
    (h : pqFinalize db clock env job token uri sha = .ok (reply, db')) :
    Jobs.Reach {.noop} db.view db'.view := by
  rcases pqFinalize_spec h with ⟨rfl, -⟩ | ⟨j, r, hj, hr, ⟨rfl, -⟩ | ⟨howns, hcases⟩⟩
  · exact .refl
  · exact .refl
  · rcases hcases with ⟨rfl, -⟩ | ⟨-, h₁⟩
    · exact .refl
    · obtain ⟨hrunning, -, ⟨attempt, ha, hta⟩, -⟩ := pqOwns_iff.1 howns
      have hrid : r.runId = j.runId := congrArg Prod.snd (Table.find_eq_some.1 hr).2
      exact .single (finishJob_step hg (key_eq hj) hrunning (hta.trans ha.symm) hrid
        (fun hs => absurd (hg.stages _ j hj) hs) h₁)

theorem pqEndAttempt_reach {action : EndAction}
    (h : pqEndAttempt db clock env job token action error = .ok (reply, db')) :
    Jobs.Reach {.noop} db.view db'.view := by
  rcases pqEndAttempt_spec h with ⟨rfl, -⟩ | ⟨j, j', hj, howns, -, -, -, h₁⟩
  · exact .refl
  · refine .single (pqTerminateAttempt_step hg (key_eq hj) (pqOwns_iff.1 howns).1
      (endState_cases j action) (fun hs => absurd (hg.stages _ j hj) hs) ?_ h₁)
    rcases endState_cases j action with ⟨h, -⟩ | h | h <;> rw [h] <;> decide

theorem pqReapOne_reach (h : pqReapOne db clock env job = .ok (r, db')) :
    Jobs.Reach {.noop} db.view db'.view := by
  rcases pqReapOne_spec h with ⟨rfl, -⟩ | ⟨j, hj, hcases⟩
  · exact .refl
  have hkey := key_eq hj
  have hstage : ∀ {p : Prop}, j.stage ≠ .noop → p := fun hs => absurd (hg.stages _ j hj) hs
  rcases hcases with ⟨hrunning, -, j', reply, -, -, -, h₁⟩ | ⟨hparked, -, h₁⟩ | ⟨hwaiting, hspent, -⟩
  · refine .single (pqTerminateAttempt_step hg hkey hrunning ?_ hstage (by decide) h₁)
    exact (unlessSpent_cases j .retryWait).imp_right .inr
  · exact .single (wake_step hg hkey hparked hstage h₁)
  · have hbudget := ((hg.ok _).sound j hj).budget hwaiting
    omega

theorem reapEach_reach {ids : List Uuid} {replies : List Reply}
    (h : reapEach (pqReapOne · · env ·) db clock ids = .ok (replies, db')) :
    Jobs.Reach {.noop} db.view db'.view := by
  induction ids generalizing db clock replies with
  | nil =>
    cases h
    exact .refl
  | cons id ids ih =>
    obtain ⟨⟨reply, db₁⟩, h₁, h⟩ := bind_eq_ok.1 h
    obtain ⟨⟨rest, db₂⟩, h₂, h⟩ := bind_eq_ok.1 h
    cases h
    have hreach := pqReapOne_reach hg h₁
    exact hreach.trans (ih (hg.of_reach hreach) h₂)

theorem pqReap_reach {after : Option Uuid} {limit : Option ℤ} {page : ReapPage}
    (h : pqReap db clock env after limit = .ok (page, db')) :
    Jobs.Reach {.noop} db.view db'.view := by
  unfold pqReap at h
  split at h
  · cases h
  · obtain ⟨⟨replies, db₁⟩, h₁, h⟩ := bind_eq_ok.1 h
    cases h
    exact reapEach_reach hg h₁

end Noops

/-! ## Runs -/

theorem answering_eq_ok {α : Type} {f : α → Answer} {x : Except DbError (After α)}
    {answer : Answer} (h : answering f x = .ok (answer, db')) :
    ∃ a, answer = f a ∧ x = .ok (a, db') := by
  cases x with
  | error e => cases h
  | ok p =>
    cases h
    exact ⟨p.1, rfl, rfl⟩

theorem Call.exec_reach {call : Call} {answer : Answer} (hg : Jobs.Good {.noop} db.view)
    (h : call.exec db clock = .ok (answer, db')) : Jobs.Reach {.noop} db.view db'.view := by
  cases call with
  | enqueue a =>
    obtain ⟨reply, -, h⟩ := answering_eq_ok h
    exact pqEnqueue_reach rfl hg h
  | claim env priority owner attempt lease =>
    obtain ⟨reply, -, h⟩ := answering_eq_ok h
    exact pqClaim_reach hg h
  | heartbeat env job token lease =>
    obtain ⟨reply, -, h⟩ := answering_eq_ok h
    exact pqHeartbeat_reach h
  | finalize env job token uri sha =>
    obtain ⟨reply, -, h⟩ := answering_eq_ok h
    exact pqFinalize_reach hg h
  | fail | release | park =>
    obtain ⟨reply, -, h⟩ := answering_eq_ok h
    exact pqEndAttempt_reach hg h
  | due env after limit =>
    cases h
    exact .refl
  | reapOne env job =>
    obtain ⟨r, -, h⟩ := answering_eq_ok h
    exact pqReapOne_reach hg h
  | reap env after limit =>
    obtain ⟨page, -, h⟩ := answering_eq_ok h
    exact pqReap_reach hg h
  | cancel env job version =>
    obtain ⟨reply, -, h⟩ := answering_eq_ok h
    exact pqCancel_reach hg h

theorem Step.reach {e : Event} (hg : Jobs.Good {.noop} db.view) (h : Step db e db') :
    Jobs.Reach {.noop} db.view db'.view := by
  rcases h with ⟨answer, -, h⟩ | ⟨error, -, -, rfl⟩
  · exact e.call.exec_reach hg h
  · exact .refl

theorem fresh_good (conversations : List ℤ) :
    Jobs.Good stages (Database.fresh conversations).view where
  ok _ := ⟨fun _ => rfl, fun _ h => (nomatch h)⟩
  stages _ _ h := nomatch h
  distinct _ _ _ _ h := nomatch h

/-- Every database that the calls of 000019 reach is sound. -/
theorem reachable_good {conversations : List ℤ} {es : List Event}
    (h : Run Step (.fresh conversations) es db) : Jobs.Good {.noop} db.view :=
  h.keeps (fun db => Jobs.Good {.noop} db.view) (fresh_good conversations)
    fun _ _ _ hg hs => hg.of_reach (hs.reach hg)

/-- Calls taken one after the other, as the events they are and the database after them. -/
def history (db : Database) : List (Clock × Call) → List Event × Database
  | [] => ([], db)
  | (clock, call) :: calls => match call.exec db clock with
    | .ok (answer, db') =>
      (⟨clock, call, .ok answer⟩ :: (history db' calls).1, (history db' calls).2)
    | .error error => (⟨clock, call, .error error⟩ :: (history db calls).1, (history db calls).2)

theorem run_history {conversations : List ℤ} {es : List Event} (calls : List (Clock × Call))
    (h : Run Step (.fresh conversations) es db) :
    Run Step (.fresh conversations) (es ++ (history db calls).1) (history db calls).2 := by
  induction calls generalizing db es with
  | nil => simpa [history] using h
  | cons c calls ih =>
    obtain ⟨clock, call⟩ := c
    cases hexec : call.exec db clock with
    | error error =>
      have hs : Step db ⟨clock, call, .error error⟩ db := .inr ⟨error, rfl, hexec, rfl⟩
      have hrun := ih (h.snoc hs)
      rw [append_assoc, singleton_append] at hrun
      simpa only [history, hexec] using hrun
    | ok p =>
      have hs : Step db ⟨clock, call, .ok p.1⟩ p.2 := .inl ⟨p.1, rfl, hexec⟩
      have hrun := ih (h.snoc hs)
      rw [append_assoc, singleton_append] at hrun
      simpa only [history, hexec] using hrun

/-- The calls from empty tables are a run. -/
theorem history_run (conversations : List ℤ) (calls : List (Clock × Call)) :
    Run Step (.fresh conversations) (history (.fresh conversations) calls).1
      (history (.fresh conversations) calls).2 := by
  have hnil : Run Step (.fresh conversations) [] (.fresh conversations) := .nil
  simpa using run_history calls hnil

/-! ## Samples -/

/-- A clock that stands still. -/
def Clock.still (t : Time) : Clock := ⟨t, fun _ => t⟩

/-- The digest that the samples use for everything. -/
def sampleDigest : String := String.ofList (List.replicate 64 'a')

/-- A request for one product of conversation 1. -/
def sampleRequest (requestKey : String) (runId jobId : Uuid) : Admission where
  env := "dev"
  zid := 1
  productKey := "product"
  actorScope := "actor"
  requestKey := requestKey
  requestSha256 := sampleDigest
  runId := runId
  jobId := jobId
  inputUri := "file://input"
  inputSha256 := sampleDigest
  configSha256 := sampleDigest
  codeImageDigest := "image"
  priority := 1
  maxAttempts := 3

end Polis.Queue
