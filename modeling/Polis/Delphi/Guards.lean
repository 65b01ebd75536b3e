import Polis.Delphi.Refinement

/-!
# Admission, release and every call

Two calls do more than move jobs: `pd_enqueue` admits a root job under a new guard of its scope, and
`pd_release_scope` takes the guard away. `Moves` says what each call does to the jobs and the guards.
-/

namespace Polis.Delphi

open Queue List Function Option

variable {db db' : Database} {clock : Clock} {k : JobKey} {j j' : JobRow} {token : Token}
  {reply : Reply} {env : String} {job : Uuid} (hg : Jobs.Good Set.univ db.view)
variable {answer : Answer}

/-! ## Admission -/

theorem insertDelphiJob_effect {d : DelphiJobRow} (hd : (d.env, d.jobId) = k)
    (h : db.insertDelphiJob d = .ok db') : Effect db db' k fun v => { v with delphi := some d } := by
  obtain ⟨t, ht, rfl⟩ := write_eq_ok.1 h
  have hfind : ∀ id, t.find id = if id = d.jobId then some d else db.delphiJobs.find id :=
    fun id => Table.find_insert ht
  have hfresh : db.delphiJobs.find d.jobId = none := Table.insert_fresh ht
  refine ⟨?_, rfl, fun _ _ h _ => h, rfl, rfl, rfl, rfl⟩
  funext k'
  by_cases hk : k' = k
  · subst hk
    rw [update_self]
    simp [Database.view, hfind, ← hd]
  · rw [update_of_ne hk]
    have hdelphi : (t.find k'.2).filter (fun d => d.env = k'.1) =
        (db.delphiJobs.find k'.2).filter fun d => d.env = k'.1 := by
      rw [hfind]
      split
      · next hid =>
        have henv : d.env ≠ k'.1 := by
          rintro henv
          refine hk (Eq.trans ?_ hd)
          rw [henv, ← hid]
        rw [hid, hfresh]
        simp [henv]
      · rfl
    simp only [Database.view, hdelphi]

theorem withStage_keeps (stage : Stage) : JobRow.Keeps (withStage stage) :=
  fun _ => ⟨rfl, rfl, rfl⟩

theorem withContract_keeps (version : ContractVersion) : RunRow.Keeps (withContract version) :=
  fun _ => ⟨rfl, rfl, rfl, rfl, rfl, rfl, rfl⟩

variable {a : Admission} {stage : Stage} {scope : String} {inst : Installed}

/-- The view of a job when it has been admitted. -/
def Admission.entered (a : Admission) (clock : Clock) (stage : Stage) (generation : ℤ) : JobView where
  job := some (withStage stage (a.job clock))
  run := some (withContract (contractOf stage) (a.run generation clock))
  delphi := some (a.delphiJob stage)

/-- A new root job under a new guard. -/
structure Entered (db db' : Database) (clock : Clock) (a : Admission) (stage : Stage)
    (scope : String) : Prop where
  fresh : (db.view (a.env, a.jobId)).job = none
  guards : db.guards.insert (a.guard scope) = .ok db'.guards
  view : ∃ generation, db'.view =
    update db.view (a.env, a.jobId) (a.entered clock stage generation)
  step : Jobs.Step Set.univ db.view db'.view

include hg in
theorem enterRoot_spec (h : a.enterRoot db clock stage scope = .ok (reply, db')) :
    Entered db db' clock a stage scope ∧ reply.outcome = .enqueued ∧
      reply.job = some (withStage stage (a.job clock)) := by
  obtain ⟨⟨reply₀, db₁⟩, h₁, h⟩ := bind_eq_ok.1 h
  dsimp only at h
  split at h
  · cases h
  next hout =>
  obtain ⟨db₂, h₂, h⟩ := bind_eq_ok.1 h
  obtain ⟨db₃, h₃, h⟩ := bind_eq_ok.1 h
  obtain ⟨db₄, h₄, h⟩ := bind_eq_ok.1 h
  obtain ⟨db₅, h₅, h⟩ := bind_eq_ok.1 h
  obtain ⟨db₆, h₆, h⟩ := bind_eq_ok.1 h
  cases h
  rcases pqEnqueue_spec h₁ with ⟨q, -, -, rfl⟩ | ⟨-, -, x, he⟩
  · refine absurd ?_ hout
    show (if _ then Outcome.existing else Outcome.conflict) ≠ _
    split <;> simp
  have hg₁ : Jobs.Good Set.univ db₁.view := Jobs.Step.good hg (he.step (Set.mem_univ _) hg)
  have hview₁ := he.view hg
  have hj₁ : (db₁.view (a.env, a.jobId)).job = some (a.job clock) := by
    rw [hview₁, update_self]
  have hrun₁ : ∀ r ∈ (db₁.view (a.env, a.jobId)).run, r.state = .pending := by
    rw [hview₁, update_self]
    rintro r hr
    cases hr
    rfl
  have he₄ := ((updateRun_effect (withContract_keeps _) hg₁.distinct hj₁ hrun₁ h₂).trans
    (insertDelphiJob_effect rfl h₃)).trans (updateJob_effect (withStage_keeps stage) h₄)
  obtain ⟨guards, hguards, rfl⟩ := write_eq_ok.1 h₅
  obtain ⟨requests, -, rfl⟩ := write_eq_ok.1 h₆
  have hview : db₄.view = update db.view (a.env, a.jobId)
      (a.entered clock stage (x.requestedGeneration + 1)) := by
    rw [he₄.view, hview₁, update_self, update_idem]
    rfl
  refine ⟨⟨he.job_fresh, ?_, ⟨_, hview⟩, ?_⟩, rfl, ?_⟩
  · have hsame : db₄.guards = db.guards := by
      rw [he₄.guards, he.rest]
    rw [← hsame]
    exact hguards
  · show Jobs.Step Set.univ db.view db₄.view
    rw [hview]
    have hchecked : (withStage stage (a.job clock)).leased ∧ 1 ≤ a.maxAttempts := by
      have hj₄ : (db₄.view (a.env, a.jobId)).job = some (withStage stage (a.job clock)) := by
        rw [hview, update_self]
        rfl
      have hcheck := Database.checked hj₄
      exact ⟨hcheck.1, hcheck.2.1.2.2.1⟩
    exact .enter he.job_fresh ⟨hchecked.1, rfl, ⟨rfl, rfl⟩, hchecked.2⟩ (Set.mem_univ _) rfl
      ⟨rfl, rfl⟩ (he.fresh_run hg) (fun _ => ⟨_, rfl, rfl⟩) fun d hd => by
        obtain rfl := Option.some.inj hd
        rfl
  · show db₄.jobs.find (a.env, a.jobId) = _
    have hjob := congrArg JobView.job (congrFun hview (a.env, a.jobId))
    rw [update_self] at hjob
    exact hjob

/-- The answer of a scope that has a guard, which is that of its root job. -/
theorem meetGuard_spec {g : GuardRow} (h : a.meetGuard db clock stage g = .ok (reply, db')) :
    ∃ j, (db.view (a.env, g.rootJobId)).job = some j ∧ a.boundTo db stage g j = true ∧
      reply.job = some j ∧
      (g.requestSha256 ≠ a.requestSha256 ∧ reply.outcome = .conflict ∧ db' = db ∨
        g.requestSha256 = a.requestSha256 ∧ reply.outcome = .existing ∧
          ∃ requests, db' = { db with requests }) := by
  unfold Admission.meetGuard at h
  split at h
  · cases h
  · next j hj =>
    split at h
    · cases h
    next hbound =>
    have hbound : a.boundTo db stage g j = true := by simpa using hbound
    split at h
    · next hsha =>
      cases h
      exact ⟨j, hj, hbound, rfl, .inl ⟨hsha, rfl, rfl⟩⟩
    · next hsha =>
      obtain ⟨db₁, h₁, h⟩ := bind_eq_ok.1 h
      cases h
      obtain ⟨requests, -, rfl⟩ := write_eq_ok.1 h₁
      exact ⟨j, hj, hbound, rfl, .inr ⟨by simpa using hsha, rfl, requests, rfl⟩⟩

theorem replay_outcome (a : Queue.Admission) (db : Database) (q : RequestRow) :
    (a.replay db q).outcome ≠ .enqueued := by
  show (if _ then Outcome.existing else Outcome.conflict) ≠ _
  split <;> simp

include hg in
theorem enterScope_spec (h : a.enterScope inst db clock stage scope = .ok (reply, db')) :
    (∃ requests, db' = { db with requests }) ∧ reply.outcome ≠ .enqueued ∨
      db.guards.find (a.env, scope) = none ∧ Entered db db' clock a stage scope ∧
        reply.outcome = .enqueued ∧ reply.job = some (withStage stage (a.job clock)) := by
  unfold Admission.enterScope at h
  split at h
  · next g hfind =>
    obtain ⟨j, -, -, -, ⟨-, hout, rfl⟩ | ⟨-, hout, hdb⟩⟩ := meetGuard_spec h
    · exact .inl ⟨⟨_, rfl⟩, by rw [hout]; decide⟩
    · exact .inl ⟨hdb, by rw [hout]; decide⟩
  · next hnone =>
    split at h
    · cases h
      exact .inl ⟨⟨_, rfl⟩, by simp [pqResult]⟩
    · obtain ⟨he, hout, hjob⟩ := enterRoot_spec hg h
      exact .inr ⟨hnone, he, hout, hjob⟩

include hg in
/-- An admission leaves all but the request keys alone, or admits a root job to a scope that has no
guard. -/
theorem pdEnqueue_spec (h : pdEnqueue inst db clock a = .ok (reply, db')) :
    (∃ requests, db' = { db with requests }) ∧ reply.outcome ≠ .enqueued ∨ ∃ stage scope requests,
      a.stage = some stage ∧ a.scope = some scope ∧ stage ∈ inst.stages ∧
      db.guards.find (a.env, scope) = none ∧
      Entered { db with requests } db' (clock.later 1) a stage scope ∧
      reply.outcome = .enqueued ∧ reply.job = some (withStage stage (a.job (clock.later 1))) := by
  unfold pdEnqueue at h
  split at h
  · next stage scope hstage hscope =>
    split at h
    · cases h
    next hvalid =>
    have hmem : stage ∈ inst.stages := by
      simp only [Admission.valid, hstage, Bool.not_eq_true', Bool.not_eq_false, Bool.and_eq_true,
        any_some, decide_eq_true_eq] at hvalid
      exact hvalid.1.1.1.1
    split at h
    · cases h
    have hentered : ∀ requests,
        a.enterScope inst { db with requests } (clock.later 1) stage scope = .ok (reply, db') →
        (∃ requests, db' = { db with requests }) ∧ reply.outcome ≠ .enqueued ∨
          ∃ stage scope requests,
          a.stage = some stage ∧ a.scope = some scope ∧ stage ∈ inst.stages ∧
          db.guards.find (a.env, scope) = none ∧
          Entered { db with requests } db' (clock.later 1) a stage scope ∧
          reply.outcome = .enqueued ∧
            reply.job = some (withStage stage (a.job (clock.later 1))) := by
      intro requests h
      have hg' : Jobs.Good Set.univ ({ db with requests } : Database).view := hg
      rcases enterScope_spec hg' h with ⟨⟨requests', rfl⟩, hout⟩ | ⟨hnone, he, hout, hjob⟩
      · exact .inl ⟨⟨requests', rfl⟩, hout⟩
      · exact .inr ⟨stage, scope, requests, hstage, hscope, hmem, hnone, he, hout, hjob⟩
    split at h
    · exact hentered db.requests h
    · split at h
      · cases h
      · split at h
        · cases h
          exact .inl ⟨⟨_, rfl⟩, replay_outcome a.toAdmission db _⟩
        · exact hentered _ h
  · cases h

include hg in
theorem pqEnqueue_progress {a : Queue.Admission}
    (h : pqEnqueue db clock a = .ok (reply, db')) : Progress db db' := by
  rcases pqEnqueue_spec h with ⟨q, -, rfl, -⟩ | ⟨-, -, x, he⟩
  · exact .refl _
  · exact ⟨.single (he.step rfl hg), by rw [he.rest]⟩

/-! ## Releasing a scope -/

/-- The first logical job is the parent of the second. -/
def Parent (db : Database) (p c : Uuid) : Prop :=
  ∃ d ∈ db.delphiJobs.rows, d.jobId = c ∧ d.parentJobId = some p

/-- The job is the root or comes from it. -/
def InTree (db : Database) : Uuid → Uuid → Prop := Relation.ReflTransGen (Parent db)

/-- Every job of a tree has ended, and so has every process. -/
def TreeEnded (db : Database) (env : String) (root : Uuid) : Prop :=
  ∀ id, InTree db root id → (∀ d, db.delphiJobs.find id = some d → d.status.terminal) ∧
    (db.view (env, id)).ExitsConfirmed

/-- No job of a tree has an open provider request. -/
def TreeClosed (db : Database) (env : String) (root : Uuid) : Prop :=
  ∀ id, InTree db root id → (db.view (env, id)).NoOpen

theorem mem_descendants {root id : Uuid} : id ∈ descendants db root ↔ InTree db root id := by
  rw [descendants, mem_spread, InTree]
  have hedge : Edge (parentEdges db) = Parent db := by
    funext p c
    simp only [Edge, parentEdges, mem_filterMap, map_eq_some_iff, Prod.mk.injEq,
      Parent, eq_iff_iff]
    constructor
    · rintro ⟨d, hd, x, hx, rfl, rfl⟩
      exact ⟨d, hd, rfl, hx⟩
    · rintro ⟨d, hd, rfl, hp⟩
      exact ⟨d, hd, p, hp, rfl, rfl⟩
  rw [hedge]

theorem treeEnded_iff {ids : List Uuid} : treeEnded db ids = true ↔
    ∀ id ∈ ids, ∀ d, db.delphiJobs.find id = some d → d.status.terminal := by
  simp only [treeEnded, List.all_eq_true, Bool.or_eq_true, decide_eq_true_eq]
  constructor
  · intro h id hid d hd
    obtain ⟨hmem, rfl⟩ := Table.find_eq_some.1 hd
    exact (h d hmem).resolve_left (not_not.2 hid)
  · intro h d hd
    by_cases hid : d.jobId ∈ ids
    · exact .inr (h _ hid d (Table.find_of_mem hd))
    · exact .inl hid

/-- The guard of a scope goes when its tree has ended and holds no open request. -/
theorem pdReleaseScope_spec (db : Database) (env scope : String) :
    (pdReleaseScope db env scope = (false, db) ∧ ∀ g, db.guards.find (env, scope) = some g →
      ¬(TreeEnded db env g.rootJobId ∧ TreeClosed db env g.rootJobId)) ∨
    ∃ g, db.guards.find (env, scope) = some g ∧ TreeEnded db env g.rootJobId ∧
      TreeClosed db env g.rootJobId ∧
      pdReleaseScope db env scope = (true, { db with guards := db.guards.delete (env, scope) }) := by
  unfold pdReleaseScope
  cases hfind : db.guards.find (env, scope) with
  | none => exact .inl ⟨rfl, by rintro _ ⟨⟩⟩
  | some g =>
    have hall : (!treeEnded db (descendants db g.rootJobId) ||
        (descendants db g.rootJobId).any (fun id => unconfirmed db (env, id)) ||
        (descendants db g.rootJobId).any fun id =>
          hasRequest db (env, id) ProviderState.open) = false ↔
        TreeEnded db env g.rootJobId ∧ TreeClosed db env g.rootJobId := by
      simp only [Bool.or_eq_false_iff, Bool.not_eq_false', List.any_eq_false, Bool.not_eq_true,
        treeEnded_iff, mem_descendants, unconfirmed_eq_false, noOpen_iff]
      exact ⟨fun h => ⟨fun id hid => ⟨h.1.1 id hid, h.1.2 id hid⟩, h.2⟩,
        fun h => ⟨⟨fun id hid => (h.1 id hid).1, fun id hid => (h.1 id hid).2⟩, h.2⟩⟩
    dsimp only
    split
    · next hopen =>
      refine .inl ⟨rfl, fun g' hg' h => ?_⟩
      cases hg'
      rw [hall.2 h] at hopen
      cases hopen
    · next hclosed =>
      obtain ⟨hended, hclosed⟩ := hall.1 (by simpa using hclosed)
      exact .inr ⟨g, rfl, hended, hclosed, rfl⟩

/-! ## Every call -/

/-- What a call does to the jobs and the guards. -/
inductive Moves (inst : Installed) (db db' : Database) : Call → Clock → Answer → Prop
  | progress {call : Call} {clock : Clock} {answer : Answer} (h : Progress db db')
      (hold : ∀ a r, call = .enqueue a → answer = .queue (.reply r) → r.outcome ≠ .enqueued) :
      Moves inst db db' call clock answer
  | enter {a : Admission} {stage : Stage} {scope : String} {requests : Table RequestRow}
      {clock : Clock} {reply : Reply} (hstage : a.stage = some stage) (hscope : a.scope = some scope)
      (hmem : stage ∈ inst.stages) (hfree : db.guards.find (a.env, scope) = none)
      (he : Entered { db with requests } db' (clock.later 1) a stage scope)
      (hout : reply.outcome = .enqueued)
      (hjob : reply.job = some (withStage stage (a.job (clock.later 1)))) :
      Moves inst db db' (.enqueue a) clock (.queue (.reply reply))
  | release {env scope : String} {g : GuardRow} {clock : Clock}
      (hfind : db.guards.find (env, scope) = some g) (hended : TreeEnded db env g.rootJobId)
      (hclosed : TreeClosed db env g.rootJobId)
      (hdb : db' = { db with guards := db.guards.delete (env, scope) }) :
      Moves inst db db' (.releaseScope env scope) clock (.released true)

theorem replying_eq_ok {x : Except DbError (After Reply)} (h : replying x = .ok (answer, db')) :
    ∃ r, answer = .queue (.reply r) ∧ x = .ok (r, db') := by
  cases x with
  | error e => cases h
  | ok p =>
    cases h
    exact ⟨p.1, rfl, rfl⟩

theorem map_eq_ok {α β : Type} {f : α → β} {x : Except DbError (After α)} {y : β}
    (h : x.map (fun p => (f p.1, p.2)) = .ok (y, db')) : ∃ a, y = f a ∧ x = .ok (a, db') := by
  cases x with
  | error e => cases h
  | ok p =>
    cases h
    exact ⟨p.1, rfl, rfl⟩

variable {b : Builtins}

include hg in
theorem queueBody_progress {call : Queue.Call} {answer : Queue.Answer}
    (h : queueBody b db clock call = .ok (answer, db')) : Progress db db' := by
  cases call with
  | enqueue a =>
    obtain ⟨reply, -, h⟩ := answering_eq_ok h
    exact pqEnqueue_progress hg h
  | claim env priority owner attempt lease =>
    obtain ⟨reply, -, h⟩ := answering_eq_ok h
    exact pqClaim_progress h
  | heartbeat env job token lease =>
    obtain ⟨reply, -, h⟩ := answering_eq_ok h
    exact pqHeartbeat_progress h
  | finalize env job token uri sha =>
    obtain ⟨reply, -, h⟩ := answering_eq_ok h
    exact pqFinalize_progress hg h
  | fail | release | park =>
    obtain ⟨reply, -, h⟩ := answering_eq_ok h
    exact pqEndAttempt_progress hg h
  | due env after limit =>
    cases h
    exact .refl _
  | reapOne env job =>
    obtain ⟨r, -, h⟩ := answering_eq_ok h
    exact (pqReapOne_reaped hg h).progress
  | reap env after limit =>
    obtain ⟨page, -, h⟩ := answering_eq_ok h
    exact pqReap_progress hg h
  | cancel env job version =>
    obtain ⟨reply, -, h⟩ := answering_eq_ok h
    exact pqCancel_progress hg h

theorem insertLog_progress {l : LogRow} {u : Unit} (h : insertLog db l = .ok (u, db')) :
    Progress db db' := by
  unfold insertLog at h
  split at h
  · cases h
  · obtain ⟨db₁, h₁, h⟩ := bind_eq_ok.1 h
    cases h
    obtain ⟨t, -, rfl⟩ := write_eq_ok.1 h₁
    exact ⟨.refl, rfl⟩

include hg in
theorem body_moves {call : Call} (h : call.body inst b db clock = .ok (answer, db')) :
    Moves inst db db' call clock answer := by
  cases call with
  | queue call =>
    obtain ⟨r, -, h⟩ := map_eq_ok h
    exact .progress (queueBody_progress hg h) fun _ _ h => nomatch h
  | claimClass env priority owner attempt lease cls =>
    obtain ⟨r, -, h⟩ := replying_eq_ok h
    exact .progress (pqClaimClass_progress h) fun _ _ h => nomatch h
  | endAttempt | failProven | releaseProven | parkProven =>
    obtain ⟨r, -, h⟩ := replying_eq_ok h
    exact .progress (pqEndAttemptProven_proven hg h).progress fun _ _ h => nomatch h
  | reapClass env after limit cls =>
    obtain ⟨page, -, h⟩ := map_eq_ok h
    exact .progress (pqReapClass_progress hg h) fun _ _ h => nomatch h
  | enqueue a =>
    obtain ⟨r, rfl, h₁⟩ := replying_eq_ok h
    rcases pdEnqueue_spec hg h₁ with ⟨⟨requests, rfl⟩, hout⟩ | ⟨stage, scope, requests, hstage,
      hscope, hmem, hfree, he, hout, hjob⟩
    · refine .progress ⟨.refl, rfl⟩ fun _ r' _ heq => ?_
      injection heq with heq
      injection heq with heq
      rwa [← heq]
    · exact .enter hstage hscope hmem hfree he hout hjob
  | releaseScope env scope =>
    cases h
    rcases pdReleaseScope_spec db env scope with ⟨h, -⟩ | ⟨g, hfind, hended, hclosed, h⟩
    · rw [h]
      exact .progress (.refl _) fun _ _ h => nomatch h
    · rw [h]
      exact .release hfind hended hclosed rfl
  | providerIntent env job token request provider digest =>
    obtain ⟨r, -, h⟩ := map_eq_ok h
    exact .progress (pdProviderIntent_progress h) fun _ _ h => nomatch h
  | providerUpdate env job token request state batch =>
    obtain ⟨r, -, h⟩ := map_eq_ok h
    exact .progress (pdProviderUpdate_progress h) fun _ _ h => nomatch h
  | log l =>
    obtain ⟨u, -, h⟩ := map_eq_ok (f := fun _ : Unit => Answer.logged) h
    exact .progress (insertLog_progress h) fun _ _ h => nomatch h

/-- What a call does is what it does before it commits. -/
theorem exec_eq_ok {call : Call} (h : call.exec inst b db clock = .ok (answer, db')) :
    call.body inst b db clock = .ok (answer, db') ∧ bindingsHold db db' = true := by
  obtain ⟨⟨answer', db₁⟩, h₁, h⟩ := bind_eq_ok.1 h
  dsimp only at h
  split at h
  · next hbound =>
    cases h
    exact ⟨h₁, hbound⟩
  · cases h

theorem Moves.reach {call : Call} (h : Moves inst db db' call clock answer) :
    Jobs.Reach Set.univ db.view db'.view := by
  cases h with
  | progress h hold => exact h.reach.mono (Set.subset_univ _)
  | enter hstage hscope hmem hfree he hout hjob => exact .single he.step
  | release hfind hended hclosed hdb =>
    subst hdb
    exact .refl

include hg in
theorem Step.reach {e : Event} (h : Step inst b db e db') :
    Jobs.Reach Set.univ db.view db'.view := by
  rcases h with ⟨answer, -, h⟩ | ⟨error, -, -, rfl⟩
  · exact (body_moves hg (exec_eq_ok h).1).reach
  · exact .refl

/-- Every database that the calls of the foundation reach is sound. -/
theorem reachable_good {conversations : List ℤ} {es : List Event}
    (h : Run (Step inst b) (.fresh conversations) es db) : Jobs.Good Set.univ db.view :=
  h.keeps (fun db => Jobs.Good Set.univ db.view) (fresh_good conversations)
    fun _ _ _ hg hs => hg.of_reach (hs.reach hg)

/-! ## Samples -/

/-- A call as the event that it is and the database after it. -/
def Call.event (inst : Installed) (b : Builtins) (db : Database) (c : Clock × Call) : Event × Database :=
  match c.2.exec inst b db c.1 with
  | .ok (answer, db') => (⟨c.1, c.2, .ok answer⟩, db')
  | .error error => (⟨c.1, c.2, .error error⟩, db)

/-- Calls taken one after the other from empty tables. -/
def history (inst : Installed) (b : Builtins) (conversations : List ℤ) (calls : List (Clock × Call)) : List Event × Database :=
  replay (Call.event inst b) (.fresh conversations) calls

theorem Call.event_step (inst : Installed) (b : Builtins) (db : Database) (c : Clock × Call) :
    Step inst b db (Call.event inst b db c).1 (Call.event inst b db c).2 := by
  unfold Call.event
  cases hexec : c.2.exec inst b db c.1 with
  | ok p => exact .inl ⟨p.1, rfl, hexec⟩
  | error e => exact .inr ⟨e, rfl, hexec, rfl⟩

theorem Call.event_call (inst : Installed) (b : Builtins) (db : Database) (c : Clock × Call) :
    (Call.event inst b db c).1.call = c.2 := by
  unfold Call.event
  split <;> rfl

theorem history_run (inst : Installed) (b : Builtins) (conversations : List ℤ)
    (calls : List (Clock × Call)) :
    Run (Step inst b) (.fresh conversations) (history inst b conversations calls).1
      (history inst b conversations calls).2 :=
  run_replay (Call.event_step inst b) _ _

/-- The samples have no manifest to read. -/
def noBuiltins : Builtins where
  sha256Hex _ := ""
  jsonb _ := .error .invalidText
  jsonText _ := ""

/-- A full pipeline for one product of conversation 1. -/
def sampleAdmission (scope requestKey : String) (runId jobId : Uuid) : Admission where
  toAdmission := sampleRequest requestKey runId jobId
  stage := some .fullPipeline
  reportId := none
  scope := some scope
  config := some (.object [])

end Polis.Delphi
