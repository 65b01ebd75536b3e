import Polis.Delphi.Foundation
import Polis.Queue.Refinement

/-!
# The calls of the foundation refine the state machine of jobs

Each call is a sequence of steps of `Jobs.Step`, with jobs in every stage. One lemma for each call says
what it does; `Progress` is what all of them but admission and release have in common.
-/

namespace Polis.Delphi

open Queue Function Option AttemptRow

variable {db db' : Database} {clock : Clock} {k : JobKey} {j j' : JobRow} {token : Token}
  {reply : Reply} {env : String} {job : Uuid}
variable {inst : Installed} {uri sha : Option String} {priority : ℤ} {a : AttemptRow}
  {action : Arg EndAction} {batch : Option String} {after : Option Uuid} {limit : Option ℤ}
  {state : JobState}
variable {error : Option String} {eligibleAt : Option Time} {lease : Option ℤ}
  {owner attempt : Option Uuid} {answer : ProviderReply} {request : Option Uuid}
  {cls : Arg WorkerClass}

/-! ## What is open -/

theorem unconfirmed_eq_false : unconfirmed db k = false ↔ (db.view k).ExitsConfirmed := by
  simp [unconfirmed, JobView.ExitsConfirmed, isSome_iff_ne_none]

theorem hasRequest_eq_false {p : ProviderState → Bool} :
    hasRequest db k p = false ↔ ∀ r ∈ (db.view k).requests, p r.state = false := by
  simp [hasRequest]

theorem noUnresolved_iff : hasRequest db k ProviderState.unresolved = false ↔
    (db.view k).NoUnresolved := hasRequest_eq_false

theorem noOpen_iff : hasRequest db k ProviderState.open = false ↔ (db.view k).NoOpen :=
  hasRequest_eq_false

/-- The lookup of a job that is not a noop. -/
theorem filter_stage_eq_some : (pqLock db env job).filter (·.stage ≠ .noop) = some j ↔
    (db.view (env, job)).job = some j ∧ j.stage ≠ .noop := by
  rw [filter_eq_some_iff]
  simp [pqLock, Database.view_job]

theorem filter_stage_eq_none (h : (pqLock db env job).filter (·.stage ≠ .noop) = none) :
    ∀ j, (db.view (env, job)).job = some j → j.stage = .noop := by
  intro j hj
  by_contra hstage
  rw [filter_stage_eq_some.2 ⟨hj, hstage⟩] at h
  cases h

theorem attemptOf_eq_some (h : attemptOf db env job token = some a) :
    a ∈ (db.view (env, job)).attempts ∧ token.attempt = some a.attemptId := by
  obtain ⟨hfind, hjob⟩ := filter_eq_some_iff.1 h
  obtain ⟨id, hid, hfind⟩ := bind_eq_some_iff.1 hfind
  obtain ⟨hmem, hkey⟩ := Table.find_eq_some.1 hfind
  obtain ⟨rfl, rfl⟩ : a.env = env ∧ a.attemptId = id := Prod.mk.inj hkey
  refine ⟨Database.mem_attempts.2 ⟨hmem, ?_⟩, hid⟩
  rw [of_decide_eq_true hjob]

/-! ## Progress -/

/-- The jobs take steps, new ones are noops, and the guards stay. -/
structure Progress (db db' : Database) : Prop where
  reach : Jobs.Reach {.noop} db.view db'.view
  guards : db'.guards = db.guards

namespace Progress

theorem refl (db : Database) : Progress db db := ⟨.refl, rfl⟩

theorem trans {db₁ : Database} (h : Progress db db₁) (h' : Progress db₁ db') : Progress db db' :=
  ⟨h.reach.trans h'.reach, h'.guards.trans h.guards⟩

theorem of_effect {g : JobView → JobView} (he : Effect db db' k g)
    (hmove : Move (db.view k) (g (db.view k))) : Progress db db' :=
  ⟨.single (he.step hmove), he.guards⟩

theorem good (h : Progress db db') (hg : Jobs.Good Set.univ db.view) :
    Jobs.Good Set.univ db'.view := hg.of_reach (h.reach.mono (Set.subset_univ _))

end Progress

variable (hg : Jobs.Good Set.univ db.view)

/-! ## Claim -/

theorem pqClaim_spec (h : pqClaim db clock env priority owner attempt lease = .ok (reply, db')) :
    db' = db ∧ reply.outcome = .none ∨ ∃ o i j, (db.view j.key).job = some j ∧ j.stage = .noop ∧
      j.Claimable env priority clock.statement ∧
        claimJob db clock j o i lease = .ok (reply, db') := by
  unfold pqClaim at h
  split at h
  · next o i =>
    split at h
    · cases h
    · split at h
      · cases h
        exact .inl ⟨rfl, rfl⟩
      · next j hj =>
        obtain ⟨hview, hp⟩ := mem_firstJob hj
        obtain ⟨hstage, hclaimable⟩ := of_decide_eq_true hp
        exact .inr ⟨o, i, j, hview, hstage, hclaimable, h⟩
  · cases h

theorem pqClaimClass_spec
    (h : pqClaimClass inst db clock env priority owner attempt lease cls = .ok (reply, db')) :
    db' = db ∧ reply.outcome = .none ∨ ∃ o i j c, (db.view j.key).job = some j ∧
      ClassClaimable db j env priority c clock.statement ∧
        claimJob db clock j o i lease = .ok (reply, db') := by
  unfold pqClaimClass at h
  split at h
  · next o i l c =>
    split at h
    · cases h
    · split at h
      · cases h
        exact .inl ⟨rfl, rfl⟩
      · next j hj =>
        obtain ⟨hview, hp⟩ := mem_firstJob hj
        exact .inr ⟨o, i, j, c, hview, of_decide_eq_true hp, h⟩
  · cases h

/-- A claim of a job that nothing holds. -/
theorem claimJob_progress {owner attempt : Uuid}
    (hj : (db.view j.key).job = some j) (hwaiting : j.state.waiting)
    (hspent : j.spent < j.maxAttempts)
    (hfree : j.stage ≠ .noop → (db.view j.key).ExitsConfirmed ∧ (db.view j.key).NoUnresolved)
    (h : claimJob db clock j owner attempt lease = .ok (reply, db')) : Progress db db' :=
  ⟨.single (claimJob_step hj hwaiting hspent hfree h), (claimJob_effect hj h).2.2.1.guards⟩

theorem pqClaim_progress
    (h : pqClaim db clock env priority owner attempt lease = .ok (reply, db')) :
    Progress db db' := by
  rcases pqClaim_spec h with ⟨rfl, -⟩ | ⟨o, i, j, hj, hstage, hc, h₁⟩
  · exact .refl _
  · exact claimJob_progress hj hc.2.2.1 hc.2.2.2.2 (fun hs => absurd hstage hs) h₁

theorem pqClaimClass_progress
    (h : pqClaimClass inst db clock env priority owner attempt lease cls = .ok (reply, db')) :
    Progress db db' := by
  rcases pqClaimClass_spec h with ⟨rfl, -⟩ | ⟨o, i, j, c, hj, hc, h₁⟩
  · exact .refl _
  · obtain ⟨hclaim, -, -, -, hexit, hresolved⟩ := hc
    exact claimJob_progress hj hclaim.2.2.1 hclaim.2.2.2.2
      (fun _ => ⟨unconfirmed_eq_false.1 hexit, noUnresolved_iff.1 hresolved⟩) h₁

/-! ## Heartbeat and cancel -/

theorem pqHeartbeat_progress (h : pqHeartbeat db clock env job token lease = .ok (reply, db')) :
    Progress db db' := by
  rcases pqHeartbeat_spec h with ⟨rfl, -⟩ | ⟨j, hj, howns, -, -, hlease, he⟩
  · exact .refl _
  · exact .of_effect he (.renew hj (pqOwns_iff.1 howns).1 clock hlease)

include hg in
theorem pqCancel_progress {version : Option ℤ}
    (h : pqCancel db clock env job version = .ok (reply, db')) : Progress db db' := by
  rcases pqCancel_spec hg h with ⟨rfl, -⟩ | ⟨j, hj, hterminal, -, -, -, he⟩
  · exact .refl _
  · exact .of_effect he (.cancel hj hterminal _ _ _)

/-! ## Finalize -/

include hg in
/-- Everything that the finalize of a process writes. -/
theorem finishProcess_effect {attempt : Uuid} {uri sha : String}
    (hj : (db.view j.key).job = some j) (hrunning : j.state = .running)
    (hattempt : j.attemptId = some attempt)
    (h : finishProcess db clock j attempt uri sha = .ok (reply, db')) :
    reply.job = some (j.succeeded clock (some attempt) (some sha)) ∧
      ∃ f : DelphiJobRow → DelphiJobRow, DelphiJobRow.Keeps f ∧ (∀ d, (f d).status = d.status) ∧
      ∃ g : RunRow → RunRow, RunRow.Keeps g ∧
        (∀ r, (g r).state = .succeeded ∧ (g r).outputSha256 = some sha) ∧
        Effect db db' j.key fun v => (((v.setAttempt j.attemptId
          (succeed (some sha) (clock.read 1))).setState (clock.read 3)
            (JobRow.succeeded clock j.attemptId (some sha))).setRun g).setDelphi f := by
  obtain ⟨db₁, h₁, h⟩ := bind_eq_ok.1 h
  obtain ⟨db₂, h₂, h⟩ := bind_eq_ok.1 h
  obtain ⟨db₃, h₃, h⟩ := bind_eq_ok.1 h
  obtain ⟨db₄, h₄, h⟩ := bind_eq_ok.1 h
  cases h
  have he₁ := updateAttempt_effect (k := j.key) (succeed_keeps (clock.read 1) (some sha))
    (hg.attempt_job hj attempt hattempt) h₁
  have he₂ := he₁.trans
    (updateJobState_effect (JobRow.succeeded_keeps clock (some attempt) (some sha)) h₂)
  have hdigest : DelphiJobRow.Keeps fun d => { d with outputManifestDigest := some sha } :=
    fun _ => ⟨rfl, rfl, rfl, rfl, rfl, rfl⟩
  have he₃ := he₂.trans (updateDelphiJob_effect hdigest h₃)
  have hj₃ : (db₃.view j.key).job = some (j.succeeded clock (some attempt) (some sha)) := by
    rw [he₃.view_self]
    simp [JobView.setDelphi, JobView.setState, JobView.setAttempt, hj]
  have hrun₃ : ∀ r ∈ (db₃.view j.key).run, r.state = .pending := by
    rw [he₃.view_self]
    exact hg.run_pending hj (by rw [hrunning]; rfl)
  have hd := distinct_after hg.distinct hj he₃ hj₃ rfl
  have hrun : RunRow.Keeps fun r =>
      { r with
        state := .succeeded
        expectedOutputUri := uri
        expectedOutputSha256 := sha
        outputSha256 := some sha } := fun _ => ⟨rfl, rfl, rfl, rfl, rfl, rfl, rfl⟩
  refine ⟨rfl, _, hdigest, fun _ => rfl, _, hrun, fun _ => ⟨rfl, rfl⟩,
    (he₃.trans (updateRun_effect hrun hd hj₃ hrun₃ h₄)).congr ?_⟩
  rw [hattempt]
  rfl

theorem pdFinalize_spec {b : Builtins}
    (h : pdFinalize b db clock j token uri sha = .ok (reply, db')) :
    db' = db ∧ reply.outcome ≠ .state .succeeded ∨ ∃ a u s, pqOwns j token (clock.read 0) = true ∧
      attemptOf db j.env j.jobId token = some a ∧ a.processExitConfirmedAt.isSome ∧
      hasRequest db j.key ProviderState.open = false ∧
      finishProcess db clock j a.attemptId u s = .ok (reply, db') := by
  unfold pdFinalize at h
  dsimp only at h
  split at h
  · cases h
    refine .inl ⟨rfl, ?_⟩
    show (if _ then Outcome.alreadySucceeded else Outcome.invalidOutput) ≠ _
    split <;> simp
  · split at h
    · cases h
      exact .inl ⟨rfl, by simp [pqResult]⟩
    · next howns =>
      split at h
      · cases h
      · next a ha =>
        split at h
        · cases h
        · next hexit =>
          obtain ⟨accepted, haccepted, h⟩ := bind_eq_ok.1 h
          rcases accepted with _ | _
          · cases h
            exact .inl ⟨rfl, by simp [pqResult]⟩
          · rcases uri with _ | u
            · cases h
              exact .inl ⟨rfl, by simp [pqResult]⟩
            · rcases sha with _ | s
              · cases h
                exact .inl ⟨rfl, by simp [pqResult]⟩
              · dsimp only at h
                split at h
                · cases h
                · next hopen =>
                  refine .inr ⟨a, u, s, by simpa using howns, ha, ?_, by simpa using hopen, h⟩
                  simpa [isSome_iff_ne_none] using hexit

/-- The attempt of a token that owns a job is the one that the job names. -/
theorem attempt_of_owns {now : Time} (howns : pqOwns j token now = true)
    (ha : attemptOf db env job token = some a) : j.attemptId = some a.attemptId := by
  obtain ⟨-, -, ⟨id, hid, htoken⟩, -⟩ := pqOwns_iff.1 howns
  rw [hid, ← htoken, (attemptOf_eq_some ha).2]

include hg in
/-- With the exit of its attempt confirmed and no request open, a job may succeed. -/
theorem finishProcess_progress {a : AttemptRow} {u s : String} {now : Time}
    (hj : (db.view j.key).job = some j) (howns : pqOwns j token now = true)
    (ha : attemptOf db j.env j.jobId token = some a) (hexit : a.processExitConfirmedAt.isSome)
    (hopen : hasRequest db j.key ProviderState.open = false)
    (h : finishProcess db clock j a.attemptId u s = .ok (reply, db')) : Progress db db' := by
  have hrunning := (pqOwns_iff.1 howns).1
  have hid := attempt_of_owns howns ha
  obtain ⟨-, f, hf, hstatus, g, hgk, hstate, he⟩ := finishProcess_effect hg hj hrunning hid h
  refine ⟨?_, he.guards⟩
  have hcurrent : (db.view j.key).CurrentConfirmed j := by
    intro x hx hxid
    have hfind := Database.find_attempt hx
    have hmem := Database.find_attempt (attemptOf_eq_some ha).1
    have heq : x.attemptId = a.attemptId := Option.some.inj (hxid.trans hid)
    rw [heq] at hfind
    obtain rfl : x = a := Option.some.inj (hfind.symm.trans hmem)
    exact hexit
  rw [he.view]
  refine .tail (.single (.move (.succeed hj hrunning (fun _ => ⟨hcurrent, noOpen_iff.1 hopen⟩)
    clock (some s) (clock.read 1) (clock.read 3) hgk hstate))) ?_
  generalize (((db.view j.key).setAttempt j.attemptId (succeed (some s)
    (clock.read 1))).setState (clock.read 3) (JobRow.succeeded clock j.attemptId (some s))).setRun g = v
  have hmove : Jobs.Step {.noop} (update db.view j.key v)
      (update (update db.view j.key v) j.key (v.setDelphi f)) :=
    .move (by rw [update_self]; exact .digest hf hstatus)
  rwa [update_idem] at hmove

theorem pqFinalize_spec {b : Builtins}
    (h : pqFinalize b db clock env job token uri sha = .ok (reply, db')) :
    (∃ j, (db.view (env, job)).job = some j ∧ j.stage ≠ .noop ∧
      pdFinalize b db clock j token uri sha = .ok (reply, db')) ∨
    (∀ j, (db.view (env, job)).job = some j → j.stage = .noop) ∧
      Queue.pqFinalize db clock env job token uri sha = .ok (reply, db') := by
  unfold pqFinalize at h
  split at h
  · next j hj =>
    obtain ⟨hview, hstage⟩ := filter_stage_eq_some.1 hj
    exact .inl ⟨j, hview, hstage, h⟩
  · next hnone => exact .inr ⟨filter_stage_eq_none hnone, h⟩

include hg in
/-- The finalize of a noop. -/
theorem noopFinalize_progress {uri sha : Option String}
    (hnoop : ∀ j, (db.view (env, job)).job = some j → j.stage = .noop)
    (h : Queue.pqFinalize db clock env job token uri sha = .ok (reply, db')) : Progress db db' := by
  rcases Queue.pqFinalize_spec h with ⟨rfl, -⟩ | ⟨j, r, hj, hr, ⟨rfl, -⟩ | ⟨howns, hcases⟩⟩
  · exact .refl _
  · exact .refl _
  · rcases hcases with ⟨rfl, -⟩ | ⟨-, h₁⟩
    · exact .refl _
    · obtain ⟨hrunning, -, ⟨attempt, ha, hta⟩, -⟩ := pqOwns_iff.1 howns
      have hrid : r.runId = j.runId := congrArg Prod.snd (Table.find_eq_some.1 hr).2
      have hattempt := hta.trans ha.symm
      obtain ⟨db₁, moved, hpublish, -, -, -, he⟩ :=
        finishJob_effect hg (key_eq hj) hrunning hattempt hrid h₁
      obtain ⟨-, heads, rfl, -⟩ := publish_spec hpublish
      exact ⟨.single (finishJob_step hg (key_eq hj) hrunning hattempt hrid
        (fun hs => absurd (hnoop j hj) hs) h₁), he.guards⟩

include hg in
theorem pqFinalize_progress {b : Builtins}
    (h : pqFinalize b db clock env job token uri sha = .ok (reply, db')) : Progress db db' := by
  rcases pqFinalize_spec h with ⟨j, hj, hstage, h₁⟩ | ⟨hnoop, h₁⟩
  · rcases pdFinalize_spec h₁ with ⟨rfl, -⟩ | ⟨a, u, s, howns, ha, hexit, hopen, h₂⟩
    · exact .refl _
    · exact finishProcess_progress hg (key_eq hj) howns ha hexit hopen h₂
  · exact noopFinalize_progress hg hnoop h₁

/-! ## Ending an attempt -/

theorem pqEndAttempt_spec {action : EndAction}
    (h : pqEndAttempt db clock env job token action error = .ok (reply, db')) :
    (∀ j, (db.view (env, job)).job = some j → j.stage = .noop) ∧
      Queue.pqEndAttempt db clock env job token action error = .ok (reply, db') := by
  unfold pqEndAttempt at h
  split at h
  · cases h
  · next hnone => exact ⟨filter_stage_eq_none hnone, h⟩

include hg in
theorem pqEndAttempt_progress {action : EndAction}
    (h : pqEndAttempt db clock env job token action error = .ok (reply, db')) :
    Progress db db' := by
  obtain ⟨hnoop, h⟩ := pqEndAttempt_spec h
  rcases Queue.pqEndAttempt_spec h with ⟨rfl, -⟩ | ⟨j, j', hj, howns, -, -, -, h₁⟩
  · exact .refl _
  · have hrunning := (pqOwns_iff.1 howns).1
    refine ⟨.single (pqTerminateAttempt_step hg (key_eq hj) hrunning (endState_cases j action)
      (fun hs => absurd (hnoop j hj) hs) ?_ h₁),
      (pqTerminateAttempt_effect hg (key_eq hj) hrunning h₁).2.guards⟩
    rcases endState_cases j action with ⟨h, -⟩ | h | h <;> rw [h] <;> decide

theorem parkFree_effect {free : Bool} (h : parkFree db k free = .ok db') :
    Effect db db' k fun v => if free then v.setJob JobRow.unpark else v := by
  cases free with
  | false =>
    cases h
    exact .refl rfl
  | true => exact updateJob_effect (fun _ => ⟨rfl, rfl, rfl⟩) h

theorem parkUntil_effect (h : parkUntil db k eligibleAt = .ok db') :
    Effect db db' k fun v =>
      eligibleAt.elim v fun eligibleAt => v.setJob fun j => { j with eligibleAt } := by
  cases eligibleAt with
  | none =>
    cases h
    exact .refl rfl
  | some eligibleAt => exact updateJob_effect (fun _ => ⟨rfl, rfl, rfl⟩) h

theorem parkFree_progress {free : Bool} (hj : (db.view k).job = some j)
    (hparked : free = true → j.state = .parked) (h : parkFree db k free = .ok db') :
    Progress db db' := by
  cases free with
  | false =>
    cases h
    exact .refl _
  | true => exact .of_effect (parkFree_effect h) (.unpark hj (hparked rfl))

theorem parkUntil_progress (hj : (db.view k).job = some j)
    (hparked : eligibleAt.isSome → j.state = .parked) (h : parkUntil db k eligibleAt = .ok db') :
    Progress db db' := by
  cases eligibleAt with
  | none =>
    cases h
    exact .refl _
  | some t => exact .of_effect (parkUntil_effect h) (.postpone hj (hparked rfl) t)

/-- The row of a job after its attempt has ended: a park may be made free, or be given a time. -/
def endedRow (clock : Clock) (state : JobState) (error : Option String) (immediate free : Bool)
    (eligibleAt : Option Time) (j : JobRow) : JobRow :=
  let j := j.terminated clock state error immediate
  let j := if free then j.unpark else j
  eligibleAt.elim j fun eligibleAt => { j with eligibleAt }

@[simp] theorem endedRow_state {immediate free : Bool} :
    (endedRow clock state error immediate free eligibleAt j).state = state := by
  unfold endedRow
  cases free <;> cases eligibleAt <;> rfl

theorem endedRow_spent {immediate free : Bool} :
    (endedRow clock state error immediate free eligibleAt j).spent =
      j.spent - (if state = .parked then 1 else 0) + if free then 1 else 0 := by
  have hspent : ∀ j : JobRow, (eligibleAt.elim j fun eligibleAt => { j with eligibleAt }).spent =
      j.spent := by
    intro j
    cases eligibleAt <;> rfl
  rw [endedRow, hspent]
  cases free with
  | false =>
    simp only [JobRow.spent, JobRow.terminated, Bool.false_eq_true, if_false]
    omega
  | true =>
    simp only [JobRow.spent, JobRow.terminated, JobRow.unpark, if_true]
    omega

/-- What the calls that end an attempt do. -/
structure Ends (db db' : Database) (j j' : JobRow) : Prop where
  progress : Progress db db'
  job : (db'.view j.key).job = some j'
  requests : (db'.view j.key).requests = (db.view j.key).requests
  others : ∀ k ≠ j.key, db'.view k = db.view k

include hg in
theorem terminate_ends {outcome : AttemptOutcome}
    {immediate : Bool} {db₁ db₂ : Database} {j₁ : JobRow} (free : Bool) (eligibleAt : Option Time)
    (hj : (db.view j.key).job = some j) (hrunning : j.state = .running)
    (hstate : state = .retryWait ∧ j.spent < j.maxAttempts ∨ state = .parked ∨ state = .dead)
    (hexit : j.stage ≠ .noop → state = .parked ∨
    (db.view j.key).CurrentConfirmed j ∧ (db.view j.key).NoUnresolved)
    (houtcome : outcome ≠ .running) (hfree : free = true → state = .parked)
    (huntil : eligibleAt.isSome → state = .parked)
    (h₁ : pqTerminateAttempt db clock j state outcome error immediate = .ok (j₁, db₁))
    (h₂ : parkFree db₁ j.key free = .ok db₂) (h₃ : parkUntil db₂ j.key eligibleAt = .ok db') :
    Ends db db' j (endedRow clock state error immediate free eligibleAt j) := by
  obtain ⟨rfl, he₁⟩ := pqTerminateAttempt_effect hg hj hrunning h₁
  have he₂ := parkFree_effect h₂
  have he₃ := parkUntil_effect h₃
  have hj₁ : (db₁.view j.key).job = some (j.terminated clock state error immediate) := by
    rw [he₁.view_self]
    simp [JobView.setState, JobView.setAttempt, hj]
  have hj₂ : (db₂.view j.key).job = some (if free then
      (j.terminated clock state error immediate).unpark
      else j.terminated clock state error immediate) := by
    rw [he₂.view_self]
    cases free <;> simp [JobView.setJob, hj₁]
  have hp₁ : Progress db db₁ := ⟨.single (pqTerminateAttempt_step hg hj hrunning hstate hexit
    houtcome h₁), he₁.guards⟩
  have hp₂ := parkFree_progress hj₁ hfree h₂
  have hp₃ := parkUntil_progress hj₂ (fun h => by cases free <;> exact huntil h) h₃
  refine ⟨hp₁.trans (hp₂.trans hp₃), ?_, ?_, fun k hk => ?_⟩
  · rw [he₃.view_self]
    cases eligibleAt <;> simp [JobView.setJob, hj₂, endedRow]
  · rw [he₃.view_self]
    have hr₂ : (db₂.view j.key).requests = (db.view j.key).requests := by
      rw [he₂.view_self]
      have hr₁ : (db₁.view j.key).requests = (db.view j.key).requests := by
        rw [he₁.view_self]
        simp [JobView.setState, JobView.setAttempt]
      cases free <;> exact hr₁
    cases eligibleAt <;> exact hr₂
  · rw [he₃.view_of_ne hk, he₂.view_of_ne hk, he₁.view_of_ne hk]

/-- The state that a proof of exit leads to. -/
theorem provenState_cases (db : Database) (j : JobRow) (action : EndAction) :
    provenState db j action = .parked ∨ (db.view j.key).NoUnresolved ∧
      (provenState db j action = .retryWait ∧ j.spent < j.maxAttempts ∨
        provenState db j action = .dead) := by
  unfold provenState
  split
  · exact .inl rfl
  · next hresolved =>
    have hno := noUnresolved_iff.1 (by simpa using hresolved)
    rcases endState_cases j action with h | h | h
    · exact .inr ⟨hno, .inl h⟩
    · exact .inl h
    · exact .inr ⟨hno, .inr h⟩

include hg in
theorem endOwned_ends {action : EndAction}
    (hj : (db.view j.key).job = some j) (hrunning : j.state = .running)
    (hcurrent : (db.view j.key).CurrentConfirmed j)
    (h : endOwned db clock j action error eligibleAt = .ok (reply, db')) :
    ∃ j', j'.state = provenState db j action ∧ Ends db db' j j' := by
  obtain ⟨⟨j₁, db₁⟩, h₁, h⟩ := bind_eq_ok.1 h
  obtain ⟨db₂, h₂, h⟩ := bind_eq_ok.1 h
  obtain ⟨db₃, h₃, h⟩ := bind_eq_ok.1 h
  cases h
  refine ⟨_, endedRow_state, terminate_ends hg _ _ hj hrunning ?_ (fun _ => ?_) ?_ ?_ ?_
    h₁ h₂ h₃⟩
  · rcases provenState_cases db j action with h | ⟨-, h | h⟩
    · exact .inr (.inl h)
    · exact .inl h
    · exact .inr (.inr h)
  · exact (provenState_cases db j action).imp_right fun h => ⟨hcurrent, h.1⟩
  · rcases provenState_cases db j action with h | ⟨-, ⟨h, -⟩ | h⟩ <;> rw [h] <;> decide
  · intro h
    exact of_decide_eq_true (Bool.and_eq_true_iff.1 h).1
  · intro h
    split at h
    · assumption
    · cases h

/-- A proof of exit from the attempt that it is about: the exit is confirmed, and if the token still owns
the job the attempt ends. -/
theorem pqEndAttemptProven_spec {exitConfirmed : Option Bool}
    (h : pqEndAttemptProven db clock env job token action error exitConfirmed eligibleAt =
    .ok (reply, db')) :
    db' = db ∨ ∃ j a db₁ act, (db.view (env, job)).job = some j ∧ j.stage ≠ .noop ∧
      attemptOf db env job token = some a ∧ action = some act ∧ exitConfirmed = some true ∧
      db.updateAttempt (env, a.attemptId) (confirmExit (clock.read 0)) = .ok db₁ ∧
      (db' = db₁ ∧ (act = .confirmExit ∨ pqOwns j token (clock.read 1) = false) ∨
        pqOwns j token (clock.read 1) = true ∧ act ≠ .confirmExit ∧
          endOwned db₁ (clock.later 2) j act error eligibleAt = .ok (reply, db')) := by
  unfold pqEndAttemptProven pqLock at h
  cases hj : db.jobs.find (env, job) with
  | none =>
    simp only [hj] at h
    cases h
    exact .inl rfl
  | some j =>
    simp only [hj] at h
    split at h
    · cases h
      exact .inl rfl
    next hstage =>
    cases ha : attemptOf db env job token with
    | none =>
      simp only [ha] at h
      cases h
      exact .inl rfl
    | some a =>
      simp only [ha] at h
      split at h
      · cases h
        exact .inl rfl
      · split at h
        · cases h
        · cases h
        · cases h
        · cases h
        · next act _ =>
          obtain ⟨db₁, h₁, h⟩ := bind_eq_ok.1 h
          refine .inr ⟨j, a, db₁, act, hj, hstage, rfl, rfl, rfl, h₁, ?_⟩
          split at h
          · next hact =>
            cases h
            exact .inl ⟨rfl, .inl hact⟩
          · next hact =>
            split at h
            · next howns =>
              cases h
              exact .inl ⟨rfl, .inr (by simpa using howns)⟩
            · next howns => exact .inr ⟨by simpa using howns, hact, h⟩

/-- An attempt of the job is confirmed to have exited. -/
theorem confirmExit_effect {now : Time} (ha : attemptOf db env job token = some a)
    (h : db.updateAttempt (env, a.attemptId) (confirmExit now) = .ok db') :
    Effect db db' (env, job) (·.setAttempt (some a.attemptId) (confirmExit now)) := by
  have hmem := (attemptOf_eq_some ha).1
  have hkey : (a.env, a.jobId) = (env, job) := (Database.mem_attempts.1 hmem).2
  refine updateAttempt_effect (k := (env, job)) (confirmExit_keeps now) (fun x hx => ?_) h
  obtain rfl : a = x := Option.some.inj ((Database.find_attempt hmem).symm.trans hx)
  exact congrArg Prod.snd hkey

/-- Once its exit is confirmed, the attempt of the token that owns a job holds up nothing. -/
theorem currentConfirmed_after {now now' : Time}
    (howns : pqOwns j token now' = true) (ha : attemptOf db env job token = some a)
    (he : Effect db db' (env, job)
    (·.setAttempt (some a.attemptId) (confirmExit now))) :
    (db'.view (env, job)).CurrentConfirmed j := by
  intro x hx hid
  rw [he.view_self] at hx
  obtain ⟨y, -, rfl⟩ := JobView.mem_setAttempt.1 hx
  by_cases hy : some y.attemptId = some a.attemptId
  · rw [if_pos hy]
    cases hexit : y.processExitConfirmedAt <;> simp [confirmExit, hexit]
  · rw [if_neg hy, attempt_of_owns howns ha] at hid
    exact absurd hid hy

/-- What a proof of exit leads to, where it leads to anything. -/
inductive Proven (db db' : Database) (clock : Clock) (k : JobKey) (token : Token)
    (action : Arg EndAction) : Prop
  | same (h : db' = db)
  | confirmed {a : AttemptRow} {now : Time} (he : Effect db db' k
      (·.setAttempt (some a.attemptId) (confirmExit now)))
  | ended {db₁ : Database} {j j' : JobRow} {a : AttemptRow} {now : Time} {act : EndAction}
      (he : Effect db db₁ k (·.setAttempt (some a.attemptId) (confirmExit now)))
      (hj : (db.view k).job = some j) (hstage : j.stage ≠ .noop) (hact : action = some act)
      (ha : token.attempt = some a.attemptId)
      (howns : pqOwns j token (clock.read 1) = true) (hstate : j'.state = provenState db j act)
      (hends : Ends db₁ db' j j')

include hg in
theorem pqEndAttemptProven_proven {exitConfirmed : Option Bool}
    (h : pqEndAttemptProven db clock env job token action error exitConfirmed eligibleAt =
    .ok (reply, db')) : Proven db db' clock (env, job) token action := by
  rcases pqEndAttemptProven_spec h with rfl | ⟨j, a, db₁, act, hj, hstage, ha, hact, -, h₁, hcases⟩
  · exact .same rfl
  have he := confirmExit_effect ha h₁
  rcases hcases with ⟨rfl, -⟩ | ⟨howns, hne, h₂⟩
  · exact .confirmed he
  · have hj₁ : (db₁.view (env, job)).job = some j := by
      rw [he.view_self]
      exact hj
    have hkey : j.key = (env, job) := Database.key_of_view hj
    have hg₁ := (Progress.of_effect he (.confirm _ _)).good hg
    have hcurrent := currentConfirmed_after howns ha he
    rw [← hkey] at hcurrent
    obtain ⟨j', hstate, hends⟩ := endOwned_ends hg₁ (key_eq hj₁) (pqOwns_iff.1 howns).1 hcurrent h₂
    refine .ended he hj hstage hact (attemptOf_eq_some ha).2 howns ?_ hends
    rw [hstate]
    have hsame : hasRequest db₁ j.key ProviderState.unresolved =
        hasRequest db j.key ProviderState.unresolved := by
      unfold hasRequest
      rw [hkey, he.view_self]
      rfl
    unfold provenState
    rw [hsame]

theorem Proven.progress (h : Proven db db' clock k token action) :
    Progress db db' := by
  cases h with
  | same h => exact h ▸ .refl _
  | confirmed he => exact .of_effect he (.confirm _ _)
  | ended he hj hstage hact ha howns hstate hends =>
    exact (Progress.of_effect he (.confirm _ _)).trans hends.progress

/-! ## Reaping -/

/-- A process that may still be alive is parked, and what is left is what the reaper does to a noop. -/
inductive ReapedProcess (db db' : Database) (clock : Clock) (k : JobKey) : Prop
  | same (h : db' = db)
  | parked {j j' : JobRow} (hj : (db.view k).job = some j) (hstage : j.stage ≠ .noop)
      (hrunning : j.state = .running) (hspent : j'.spent = j.spent) (hstate : j'.state = .parked)
      (hends : Ends db db' j j')
  | moved {j j' : JobRow} (hj : (db.view k).job = some j)
      (hfree : j.stage ≠ .noop → (db.view k).ExitsConfirmed ∧ (db.view k).NoUnresolved)
      (hlive : j.stage ≠ .noop → ¬ (j.state = .running ∧ j.lockedUntil.any (· ≤ clock.read 0)))
      (hspent : j'.spent = j.spent)
      (hfrom : j.state = .running ∧ j.lockedUntil.any (· ≤ clock.read 1) ∧
          j'.state = j.unlessSpent .retryWait ∨
        j.state = .parked ∧ j.eligibleAt ≤ clock.read 2 ∧ j'.state = j.unlessSpent .queued)
      (hends : Ends db db' j j')

include hg in
/-- What 000019 does to a job of any stage that it may move. -/
theorem noopReapOne_moved {r : Option Reply}
    (hfree : ∀ j, (db.view (env, job)).job = some j → j.stage ≠ .noop →
      (db.view (env, job)).ExitsConfirmed ∧ (db.view (env, job)).NoUnresolved)
    (hlive : ∀ j, (db.view (env, job)).job = some j → j.stage ≠ .noop →
      ¬ (j.state = .running ∧ j.lockedUntil.any (· ≤ clock.read 0)))
    (h : Queue.pqReapOne db (clock.later 1) env job = .ok (r, db')) :
    ReapedProcess db db' clock (env, job) := by
  rcases Queue.pqReapOne_spec h with ⟨rfl, -⟩ | ⟨j, hj, hcases⟩
  · exact .same rfl
  have hkey := key_eq hj
  have hk : j.key = (env, job) := Database.key_of_view hj
  have hexit : j.stage ≠ .noop → (db.view j.key).ExitsConfirmed ∧ (db.view j.key).NoUnresolved := by
    rw [hk]
    exact hfree j hj
  rcases hcases with ⟨hrunning, hlock, j', reply, -, -, -, h₁⟩ | ⟨hparked, htime, h₁⟩ |
      ⟨hwaiting, hspent, -⟩
  · have hends := terminate_ends hg false none hkey hrunning
      ((unlessSpent_cases j .retryWait).imp_right .inr)
      (fun hs => .inr ⟨fun a ha _ => (hexit hs).1 a ha, (hexit hs).2⟩) (by decide)
      (fun h => nomatch h) (fun h => nomatch h) h₁ rfl rfl
    refine .moved hj (hfree j hj) (hlive j hj) ?_ (.inl ⟨hrunning, hlock, endedRow_state⟩) hends
    rw [endedRow_spent, if_neg]
    · simp
    · rcases unlessSpent_cases j .retryWait with ⟨h, -⟩ | h <;> rw [h] <;> decide
  · obtain ⟨-, he⟩ := reapJob_effect (JobRow.woken_keeps ((clock.later 1).read 2) _) hg hkey
      (by rw [hparked]; rfl) h₁
    have hends : Ends db db' j (j.woken (j.unlessSpent .queued) ((clock.later 1).read 2)) := by
      refine ⟨⟨.single (wake_step hg hkey hparked hexit h₁), he.guards⟩, ?_, ?_,
        fun k hne => he.view_of_ne hne⟩
      · rw [he.view_self]
        simp [JobView.setState, hkey]
      · rw [he.view_self]
        simp [JobView.setState]
    refine .moved hj (hfree j hj) (hlive j hj) ?_ (.inr ⟨hparked, htime, ?_⟩) hends
    · rfl
    · rfl
  · have hbudget := ((hg.ok _).sound j hj).budget hwaiting
    omega

include hg in
theorem pqReapOne_reaped {r : Option Reply} (h : pqReapOne db clock env job = .ok (r, db')) :
    ReapedProcess db db' clock (env, job) := by
  unfold pqReapOne at h
  split at h
  · next j hj =>
    obtain ⟨hview, hstage⟩ := filter_stage_eq_some.1 hj
    have hk : j.key = (env, job) := Database.key_of_view hview
    split at h
    · next hexpired =>
      obtain ⟨⟨j₁, db₁⟩, h₁, h⟩ := bind_eq_ok.1 h
      obtain ⟨db₂, h₂, h⟩ := bind_eq_ok.1 h
      cases h
      have hends := terminate_ends hg true none (key_eq hview) hexpired.1 (.inr (.inl rfl))
        (fun _ => .inl rfl) (by decide) (fun _ => rfl) (fun h => nomatch h) h₁ h₂ rfl
      refine .parked hview hstage hexpired.1 ?_ endedRow_state hends
      rw [endedRow_spent]
      simp
    · split at h
      · cases h
        exact .same rfl
      · next hheld =>
        rw [hk, Bool.or_eq_true, not_or, Bool.not_eq_true, Bool.not_eq_true] at hheld
        refine noopReapOne_moved hg (fun _ _ _ =>
          ⟨unconfirmed_eq_false.1 hheld.1, noUnresolved_iff.1 hheld.2⟩) (fun i hi _ => ?_) h
        obtain rfl : j = i := Option.some.inj (hview.symm.trans hi)
        assumption
  · next hnone =>
    exact noopReapOne_moved hg (fun j hj hs => absurd (filter_stage_eq_none hnone j hj) hs)
      (fun j hj hs => absurd (filter_stage_eq_none hnone j hj) hs) h

theorem ReapedProcess.progress (h : ReapedProcess db db' clock k) : Progress db db' := by
  cases h with
  | same h => exact h ▸ .refl _
  | parked _ _ _ _ _ hends | moved _ _ _ _ _ hends => exact hends.progress

include hg in
theorem reapEach_progress {ids : List Uuid} {replies : List Reply}
    (h : reapEach (pqReapOne · · env ·) db clock ids = .ok (replies, db')) :
    Progress db db' := by
  induction ids generalizing db clock replies with
  | nil =>
    cases h
    exact .refl _
  | cons id ids ih =>
    obtain ⟨⟨reply, db₁⟩, h₁, h⟩ := bind_eq_ok.1 h
    obtain ⟨⟨rest, db₂⟩, h₂, h⟩ := bind_eq_ok.1 h
    cases h
    have hp := (pqReapOne_reaped hg h₁).progress
    exact hp.trans (ih (hp.good hg) h₂)

include hg in
theorem pqReap_progress {page : ReapPage}
    (h : pqReap db clock env after limit = .ok (page, db')) : Progress db db' := by
  unfold pqReap at h
  split at h
  · cases h
  · obtain ⟨⟨replies, db₁⟩, h₁, h⟩ := bind_eq_ok.1 h
    cases h
    exact reapEach_progress hg h₁

theorem pqReapClass_spec
    {page : ClassPage} (h : pqReapClass inst db clock env after limit cls = .ok (page, db')) :
    ∃ l c replies, limit = some l ∧ cls = some c ∧
      reapEach (pqReapOne · · env ·) db clock (classDue db clock env after l c) =
        .ok (replies, db') := by
  unfold pqReapClass at h
  split at h
  · next l c =>
    split at h
    · cases h
    · obtain ⟨⟨replies, db₁⟩, h₁, h⟩ := bind_eq_ok.1 h
      cases h
      exact ⟨l, c, replies, rfl, rfl, h₁⟩
  · cases h

include hg in
theorem pqReapClass_progress
    {page : ClassPage} (h : pqReapClass inst db clock env after limit cls = .ok (page, db')) :
    Progress db db' := by
  obtain ⟨l, c, replies, -, -, h₁⟩ := pqReapClass_spec h
  exact reapEach_progress hg h₁

/-! ## Provider requests -/

/-- A call that repeats the intent of a request. -/
def Repeats (r : ProviderRow) (env : String) (job : Uuid) (token : Token) (provider : Option String)
    (digest : Option (List UInt8)) : Prop :=
  (r.env, r.jobId) = (env, job) ∧ token.attempt = some r.attemptId ∧ provider = some r.provider ∧
    digest = some r.requestDigest

/-- An intent is one of the worker that owns the job. It repeats an intent, or it is the one request of
the job that is open. -/
theorem pdProviderIntent_spec {provider : Option String} {digest : Option (List UInt8)}
    (h : pdProviderIntent db clock env job token request provider digest = .ok (answer, db')) :
    ∃ j, (db.view (env, job)).job = some j ∧ j.stage ≠ .noop ∧
      pqOwns j token (clock.read 0) = true ∧
      ((∃ r, request = some r.requestId ∧ db.providerRequests.find r.requestId = some r ∧
          Repeats r env job token provider digest ∧ answer = ⟨false, r.state, r.requestId⟩ ∧
          db' = db) ∨
        ∃ id attempt p d, request = some id ∧ token.attempt = some attempt ∧
          (db.view (env, job)).NoOpen ∧ answer = ⟨true, .intent, id⟩ ∧
          db.insertProviderRequest (intentRow env job attempt id p d) = .ok db') := by
  unfold pdProviderIntent at h
  split at h
  · cases h
  · next j hj =>
    obtain ⟨hj, hp⟩ := filter_eq_some_iff.1 hj
    obtain ⟨hstage, howns⟩ := of_decide_eq_true hp
    refine ⟨j, hj, hstage, howns, ?_⟩
    split at h
    · next r hr =>
      obtain ⟨id, rfl, hfind⟩ := bind_eq_some_iff.1 hr
      obtain rfl : r.requestId = id := (Table.find_eq_some.1 hfind).2
      split at h
      · next hsame =>
        cases h
        obtain ⟨henv, hjob, hattempt, hprovider, hdigest⟩ := hsame
        exact .inl ⟨r, rfl, hfind, ⟨by rw [henv, hjob], some_sqlEq.1 hattempt,
          some_sqlEq.1 hprovider, some_sqlEq.1 hdigest⟩, rfl, rfl⟩
      · cases h
    · split at h
      · cases h
      · next hopen =>
        split at h
        · next id attempt provider digest hattempt _ =>
          obtain ⟨db₁, h₁, h⟩ := bind_eq_ok.1 h
          cases h
          exact .inr ⟨id, attempt, provider, digest, rfl, hattempt,
            noOpen_iff.1 (by simpa using hopen), rfl, h₁⟩
        · cases h

theorem intentRow_effect {attempt id : Uuid} {p : String} {d : List UInt8}
    (h : db.insertProviderRequest (intentRow env job attempt id p d) = .ok db') :
    Effect db db' (env, job) (·.addRequest (intentRow env job attempt id p d)) :=
  insertProviderRequest_effect rfl h

theorem pdProviderIntent_progress {provider : Option String} {digest : Option (List UInt8)}
    (h : pdProviderIntent db clock env job token request provider digest = .ok (answer, db')) :
    Progress db db' := by
  obtain ⟨j, hj, -, howns, ⟨-, -, -, -, -, rfl⟩ | ⟨id, attempt, p, d, -, -, hopen, -, h₁⟩⟩ :=
    pdProviderIntent_spec h
  · exact .refl _
  · exact .of_effect (intentRow_effect h₁) (.intent hj (pqOwns_iff.1 howns).1 _ hopen)

theorem recordState_keeps (state : ProviderState) (batch : Option String) :
    ProviderRow.Keeps (recordState state batch) := fun _ => ⟨rfl, rfl, rfl, rfl⟩

/-- A request that has ended stays as it is, and one that is known to the provider stays known. -/
theorem mayBecome_cases {s s' : ProviderState} (h : mayBecome s s' = true) :
    (s.open = false → s' = s) ∧ (s.unresolved = false → s'.unresolved = false) := by
  cases s <;> cases s' <;> simp_all [mayBecome, ProviderState.open, ProviderState.unresolved]

/-- An update of a request is one of the worker that owns the job, or the late acknowledgement of the
worker that submitted it. -/
theorem pdProviderUpdate_spec {state : Option StateText}
    (h : pdProviderUpdate db clock env job token request state batch = .ok (answer, db')) :
    ∃ r s, request = some r.requestId ∧ db.providerRequests.find r.requestId = some r ∧
      (r.env, r.jobId) = (env, job) ∧ state = some (.known s) ∧ mayBecome r.state s = true ∧
      (r.providerBatchId.isSome → r.providerBatchId = batch) ∧
      ((∃ j, (db.view (env, job)).job = some j ∧ pqOwns j token (clock.read 0) = true) ∨
        mayAcknowledge (db.attempts.find (env, r.attemptId)) token state = true) ∧
      db.updateProviderRequest r.requestId (recordState s batch) = .ok db' := by
  unfold pdProviderUpdate at h
  split at h
  · cases h
  · next r hr =>
    obtain ⟨hfind, hkey⟩ := filter_eq_some_iff.1 hr
    obtain ⟨id, rfl, hfind⟩ := bind_eq_some_iff.1 hfind
    obtain rfl : r.requestId = id := (Table.find_eq_some.1 hfind).2
    have hkey : (r.env, r.jobId) = (env, job) := by
      obtain ⟨h₁, h₂⟩ := of_decide_eq_true hkey
      rw [h₁, h₂]
    dsimp only at h
    split at h
    · cases h
    next hfence =>
    split at h
    · cases h
    next hbatch =>
    split at h
    · next s =>
      split at h
      · cases h
      next hmay =>
      obtain ⟨db₁, h₁, h⟩ := bind_eq_ok.1 h
      cases h
      refine ⟨r, s, rfl, hfind, hkey, rfl, by simpa using hmay, by simpa using hbatch, ?_, h₁⟩
      rw [Bool.and_eq_true, not_and_or, Bool.not_eq_true, Bool.not_eq_true, Bool.not_eq_false',
        Bool.not_eq_false'] at hfence
      refine hfence.imp_left fun howned => ?_
      obtain ⟨j, hj, howns⟩ := (any_eq_true _ _).1 howned
      exact ⟨j, hj, howns⟩
    · cases h

theorem recordState_effect {r : ProviderRow} {s : ProviderState}
    (hfind : db.providerRequests.find r.requestId = some r) (hkey : (r.env, r.jobId) = k)
    (h : db.updateProviderRequest r.requestId (recordState s batch) = .ok db') :
    Effect db db' k (·.setRequest r.requestId (recordState s batch)) := by
  refine updateProviderRequest_effect (recordState_keeps s batch) (fun x hx => ?_) h
  obtain rfl : r = x := Option.some.inj (hfind.symm.trans hx)
  exact hkey

/-- A late acknowledgement leaves a request open. -/
theorem mayAcknowledge_state {a : Option AttemptRow} {s : ProviderState}
    (h : mayAcknowledge a token (some (.known s)) = true) :
    s = .submissionUnknown ∨ s = .submitted := by
  have hstate := (Bool.and_eq_true_iff.1 h).2
  simpa using hstate

/-- A request of a job is the row that its id finds. -/
theorem find_request {r : ProviderRow} (hr : r ∈ (db.view k).requests) :
    db.providerRequests.find r.requestId = some r :=
  Table.find_of_mem (List.mem_of_mem_filter hr)

theorem pdProviderUpdate_progress {state : Option StateText}
    (h : pdProviderUpdate db clock env job token request state batch = .ok (answer, db')) :
    Progress db db' := by
  obtain ⟨r, s, -, hfind, hkey, rfl, hmay, -, howned, h₁⟩ := pdProviderUpdate_spec h
  have hrow : ∀ x ∈ (db.view (env, job)).requests, x.requestId = r.requestId → x = r := by
    intro x hx hid
    have hx' := find_request hx
    rw [hid, hfind] at hx'
    exact (Option.some.inj hx').symm
  refine .of_effect (recordState_effect hfind hkey h₁) (.record _ (recordState_keeps s batch)
    (fun x hx hid hopen => ?_) (fun x hx hid hopen hclosed => ?_) fun x hx hid hresolved => ?_)
  · obtain rfl := hrow x hx hid
    exact (mayBecome_cases hmay).1 hopen
  · rcases howned with ⟨j, hj, howns⟩ | hlate
    · exact ⟨j, hj, (pqOwns_iff.1 howns).1⟩
    · have hclosed : s.open = false := hclosed
      rcases mayAcknowledge_state hlate with rfl | rfl <;> cases hclosed
  · obtain rfl := hrow x hx hid
    exact (mayBecome_cases hmay).2 hresolved

end Polis.Delphi
